import Rue.Lib.Memory

/-! The allocator: power-of-two classes cut from arenas, with free lists threaded
through the freed blocks, and mappings of their own for large requests. Builds
with debug assertions put a header in front of every block. -/

namespace Rue.Runtime.Allocator
open Rue.Lib.Memory

abbrev pageSize : Nat := 4096
abbrev arenaSize : Nat := 64 * 1024
abbrev maxSmallSize : Nat := 16 * 1024
abbrev minClassSize : Nat := 8
abbrev minClassShift : Nat := 3
abbrev classCount : Nat := 12
abbrev arenaHeaderSize : Nat := 24
abbrev allocationHeaderSize : Nat := 48
abbrev usizeMax : Nat := 2 ^ 64 - 1
abbrev debugHeaderMagic : Nat := 0x5255_4541_4c4c_4f43
abbrev directKind : Nat := usizeMax

section Arithmetic

def checkedAdd (a b : Nat) : Option Nat := if a + b ≤ usizeMax then some (a + b) else none

def checkedNextMultipleOf (value step : Nat) : Option Nat :=
  if value % step = 0 then some value else checkedAdd value (step - value % step)

def isPowerOfTwo (value : Nat) : Bool := (List.range 64).any fun shift => value = 2 ^ shift

def checkedNextPowerOfTwo (value : Nat) : Option Nat :=
  ((List.range 64).find? fun shift => value ≤ 2 ^ shift).map (2 ^ ·)

def trailingZeros (value : Nat) : Nat := ((List.range 64).find? value.testBit).getD 64

def checkedAlignUp (value align : Nat) : Option Nat :=
  (checkedAdd value (align - 1)).map fun added => added &&& (usizeMax - (align - 1))

end Arithmetic

structure SmallClass where
  index : Nat
  blockSize : Nat
  blockAlign : Nat
  deriving DecidableEq, Repr

inductive AllocationKind where
  | small (smallClass : SmallClass)
  | direct (mappingSize : Nat)
  deriving DecidableEq, Repr

def classify (size align : Nat) : Option AllocationKind :=
  if size = 0 ∨ align = 0 ∨ !isPowerOfTwo align ∨ align > pageSize ∨ size > usizeMax then none
  else
    let direct := (checkedNextMultipleOf size pageSize).map .direct
    if size ≤ maxSmallSize then
      match checkedNextPowerOfTwo (max (max size align) minClassSize) with
      | none => none
      | some blockSize =>
        if blockSize ≤ maxSmallSize then
          some (.small ⟨trailingZeros blockSize - minClassShift, blockSize, min blockSize pageSize⟩)
        else direct
    else direct

/-- What the allocator asks of the page mapper, with the answers, and the blocks
it cuts from arenas. -/
inductive Event where
  | permission (granted : Bool)
  | mapping (size pointer : Nat)
  | unmapping (pointer size : Nat)
  | carving (pointer index : Nat)
  deriving DecidableEq, Repr

/-- Answers to what is asked, after everything that happened, the latest first. -/
structure PageMapper where
  allocationPermitted : List Event → Bool
  map : List Event → Nat → Nat

structure Heap where
  memory : Bytes
  currentArena : Nat
  freeLists : Nat → Nat
  events : List Event

namespace Heap

def new (memory : Bytes) : Heap := ⟨memory, 0, fun _ => 0, []⟩

def log (heap : Heap) (event : Event) : Heap := { heap with events := event :: heap.events }

def read (heap : Heap) (address : Nat) : Nat := load heap.memory address 8

def write (heap : Heap) (address value : Nat) : Heap := { heap with memory := store heap.memory address value 8 }

end Heap

structure AllocationHeader where
  magic : Nat
  size : Nat
  align : Nat
  rawPointer : Nat
  mappingSize : Nat
  kind : Nat
  deriving DecidableEq, Repr

def writeAllocationHeader (heap : Heap) (pointer : Nat) (header : AllocationHeader) : Heap :=
  let base := pointer - allocationHeaderSize
  (((((heap.write base header.magic).write (base + 8) header.size).write (base + 16) header.align).write
    (base + 24) header.rawPointer).write (base + 32) header.mappingSize).write (base + 40) header.kind

def readAllocationHeader (heap : Heap) (pointer : Nat) : AllocationHeader :=
  let base := pointer - allocationHeaderSize
  ⟨heap.read base, heap.read (base + 8), heap.read (base + 16), heap.read (base + 24), heap.read (base + 32), heap.read (base + 40)⟩

/-- No result is a failed assertion. -/
def validateAllocationHeader (heap : Heap) (pointer size align : Nat) : Option AllocationHeader :=
  let record := readAllocationHeader heap pointer
  if record.magic = debugHeaderMagic ∧ record.size = size ∧ record.align = align then some record else none

def updateAllocationSize (heap : Heap) (pointer size : Nat) : Heap := heap.write (pointer - allocationHeaderSize + 8) size

def allocationKindKey : AllocationKind → Nat
  | .small smallClass => smallClass.index
  | .direct _ => directKind

section Small
variable (debug : Bool) (mapper : PageMapper)

/-- Room for the header of a debug build. -/
def reserveHeader (offset : Nat) : Option Nat := if debug then checkedAdd offset allocationHeaderSize else some offset

/-- Bump one block from the arena, if it has room. -/
def allocateFromArena (heap : Heap) (arena : Nat) (smallClass : SmallClass) (size align : Nat) : Option (Nat × Heap) := do
  let offset := heap.read (arena + 16)
  let start ← reserveHeader debug offset
  let pointerOffset ← checkedAlignUp start smallClass.blockAlign
  let newOffset ← checkedAdd pointerOffset smallClass.blockSize
  if newOffset > heap.read (arena + 8) then none
  else
    let heap := heap.write (arena + 16) newOffset
    let pointer := arena + pointerOffset
    let heap := heap.log (.carving pointer smallClass.index)
    some (pointer,
      if debug then writeAllocationHeader heap pointer ⟨debugHeaderMagic, size, align, 0, 0, smallClass.index⟩ else heap)

/-- Bump from the current arena, or from a new one in front of it. No result is
a loop that has not ended yet. -/
def allocateFromArenas (smallClass : SmallClass) (size align : Nat) : (fuel : Nat) → Heap → Option (Nat × Heap)
  | 0, _ => none
  | fuel + 1, heap =>
    match if heap.currentArena ≠ 0 then allocateFromArena debug heap heap.currentArena smallClass size align else none with
    | some done => some done
    | none =>
      let mapping := mapper.map heap.events arenaSize
      let heap := heap.log (.mapping arenaSize mapping)
      if mapping = 0 then some (0, heap)
      else
        let heap := ((heap.write mapping heap.currentArena).write (mapping + 8) arenaSize).write (mapping + 16) arenaHeaderSize
        allocateFromArenas smallClass size align fuel { heap with currentArena := mapping }

/-- Two rounds are enough for a class to fit. -/
def allocateSmall (smallClass : SmallClass) (size align : Nat) (heap : Heap) : Option (Nat × Heap) :=
  if smallClass.index < classCount then
    let free := heap.freeLists smallClass.index
    if free ≠ 0 then
      let heap := { heap with freeLists := Function.update heap.freeLists smallClass.index (heap.read free) }
      some (free,
        if debug then writeAllocationHeader heap free ⟨debugHeaderMagic, size, align, 0, 0, smallClass.index⟩ else heap)
    else allocateFromArenas debug mapper smallClass size align 2 heap
  else none

def releaseSmall (heap : Heap) (pointer index : Nat) : Option Heap :=
  if index < classCount then
    let heap := heap.write pointer (heap.freeLists index)
    some { heap with freeLists := Function.update heap.freeLists index pointer }
  else none

/-- The offset of a large block in its mapping, and the size of the mapping. -/
def directLayout (mappingSize align : Nat) : Option (Nat × Nat) :=
  if debug then do
    let payloadOffset ← checkedAlignUp allocationHeaderSize align
    let physicalSize ← checkedAdd mappingSize payloadOffset
    let physicalSize ← checkedNextMultipleOf physicalSize pageSize
    some (payloadOffset, physicalSize)
  else some (0, mappingSize)

end Small

section Interface
variable (debug : Bool) (mapper : PageMapper)

/-- A null pointer is a refusal. No result, here and below, is a panic. -/
def allocate (size align : Nat) (heap : Heap) : Option (Nat × Heap) :=
  let granted := mapper.allocationPermitted heap.events
  let heap := heap.log (.permission granted)
  if !granted then some (0, heap)
  else
    match classify size align with
    | none => some (0, heap)
    | some (.small smallClass) => allocateSmall debug mapper smallClass size align heap
    | some (.direct mappingSize) =>
      match directLayout debug mappingSize align with
      | none => some (0, heap)
      | some (payloadOffset, physicalSize) =>
        let rawPointer := mapper.map heap.events physicalSize
        let heap := heap.log (.mapping physicalSize rawPointer)
        if rawPointer = 0 then some (0, heap)
        else
          let pointer := rawPointer + payloadOffset
          some (pointer,
            if debug then
              writeAllocationHeader heap pointer ⟨debugHeaderMagic, size, align, rawPointer, physicalSize, directKind⟩
            else heap)

def deallocate (pointer size align : Nat) (heap : Heap) : Option Heap :=
  if pointer = 0 then some heap
  else if debug then do
    let record ← validateAllocationHeader heap pointer size align
    if record.kind = directKind then some (heap.log (.unmapping record.rawPointer record.mappingSize))
    else releaseSmall heap pointer record.kind
  else
    match classify size align with
    | none => some heap
    | some (.small smallClass) => releaseSmall heap pointer smallClass.index
    | some (.direct mappingSize) => some (heap.log (.unmapping pointer mappingSize))

/-- Debug builds check the header of what is passed in. -/
def checkedRecord (heap : Heap) (pointer size align : Nat) : Option (Option AllocationHeader) :=
  if debug then (validateAllocationHeader heap pointer size align).map some else some none

/-- Whether the block stands for the new size where it is. -/
def resizeInPlace (pointer oldSize newSize align : Nat) (heap : Heap) : Option (Bool × Heap) :=
  if pointer = 0 then some (false, heap)
  else do
    let record ← checkedRecord debug heap pointer oldSize align
    if newSize = 0 then some (false, heap)
    else
      match classify oldSize align, classify newSize align with
      | some oldKind, some newKind =>
        if record.any fun record => record.kind ≠ allocationKindKey oldKind then none
        else if oldKind = newKind then some (true, if debug then updateAllocationSize heap pointer newSize else heap)
        else some (false, heap)
      | _, _ => some (false, heap)

def reallocate (pointer oldSize newSize align : Nat) (heap : Heap) : Option (Nat × Heap) :=
  if pointer = 0 then allocate debug mapper newSize align heap
  else do
    let record ← checkedRecord debug heap pointer oldSize align
    if newSize = 0 then (deallocate debug pointer oldSize align heap).map (0, ·)
    else
      match classify oldSize align, classify newSize align with
      | some oldKind, some newKind =>
        if record.any fun record => record.kind ≠ allocationKindKey oldKind then none
        else if oldKind = newKind then some (pointer, if debug then updateAllocationSize heap pointer newSize else heap)
        else
          let (replacement, heap) ← allocate debug mapper newSize align heap
          if replacement = 0 then some (0, heap)
          else
            let heap := { heap with memory := copy heap.memory pointer replacement (min oldSize newSize) }
            (deallocate debug pointer oldSize align heap).map (replacement, ·)
      | _, _ => some (0, heap)

end Interface

end Rue.Runtime.Allocator
