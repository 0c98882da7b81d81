import Rue.Linking.Object

/-! The link proper: which definition of a name wins, where each section lands,
the addresses of the symbols, and the target address of every relocation. -/

namespace Rue.Linking

inductive LinkError where
  | undefinedSymbol (name : Name)
  | duplicateSymbol (name : Name)
  | unsupportedRelocation
  | relocationPatchOutOfBounds
  | relocationOffsetOverflow
  | symbolOutsideSection (name : Name)
  | symbolAddressOverflow (name : Name)
  | invalidSectionIndex (name : Name)
  | invalidSymbolIndex (index : Nat)
  deriving DecidableEq

inductive SectionKind where
  | text
  | rodata
  | data
  | bss
  | other
  deriving DecidableEq

def classifySection (name : Name) : SectionKind :=
  let startsWith (start : Name) : Bool := start.isPrefixOf name
  if startsWith ['.', 't', 'e', 'x', 't'] || name == ['_', '_', 'T', 'E', 'X', 'T', ',', '_', '_', 't', 'e', 'x', 't']
      || startsWith ['_', '_', 't', 'e', 'x', 't'] then .text
  else if startsWith ['.', 'r', 'o', 'd', 'a', 't', 'a']
      || name == ['_', '_', 'D', 'A', 'T', 'A', ',', '_', '_', 'c', 'o', 'n', 's', 't']
      || name == ['_', '_', 'T', 'E', 'X', 'T', ',', '_', '_', 'c', 'o', 'n', 's', 't']
      || name == ['_', '_', 'T', 'E', 'X', 'T', ',', '_', '_', 'c', 's', 't', 'r', 'i', 'n', 'g']
      || name == ['_', '_', 'T', 'E', 'X', 'T', ',', '_', '_', 'r', 'o', 'd', 'a', 't', 'a']
      || startsWith ['_', '_', 'D', 'A', 'T', 'A', '_', 'C', 'O', 'N', 'S', 'T', ',']
      || startsWith ['_', '_', 'T', 'E', 'X', 'T', ',', '_', '_', 'l', 'i', 't', 'e', 'r', 'a', 'l']
      || startsWith ['_', '_', 'l', 'i', 't', 'e', 'r', 'a', 'l']
      || startsWith ['_', '_', 'c', 'o', 'n', 's', 't']
      || startsWith ['.', 'c', 's', 't', 'r', 'i', 'n', 'g'] then .rodata
  else if startsWith ['.', 'd', 'a', 't', 'a'] || name == ['_', '_', 'D', 'A', 'T', 'A', ',', '_', '_', 'd', 'a', 't', 'a']
      || startsWith ['_', '_', 'd', 'a', 't', 'a'] then .data
  else if startsWith ['.', 'b', 's', 's'] || name == ['_', '_', 'D', 'A', 'T', 'A', ',', '_', '_', 'b', 's', 's']
      || startsWith ['_', '_', 'b', 's', 's']
      || name == ['_', '_', 'D', 'A', 'T', 'A', ',', '_', '_', 'c', 'o', 'm', 'm', 'o', 'n']
      || startsWith ['_', '_', 'c', 'o', 'm', 'm', 'o', 'n'] then .bss
  else .other

inductive RodataHome where
  | ownSegment
  | text
  deriving DecidableEq

structure LayoutPolicy where
  rodataHome : RodataHome
  textMinAlign : Nat
  rodataMinAlign : Nat

inductive Target where
  | x86_64Linux
  | aarch64Linux
  | aarch64Macos
  deriving DecidableEq

def LayoutPolicy.forTarget : Target → LayoutPolicy
  | .x86_64Linux => { rodataHome := .ownSegment, textMinAlign := 1, rodataMinAlign := 8 }
  | .aarch64Linux => { rodataHome := .ownSegment, textMinAlign := 4, rodataMinAlign := 8 }
  | .aarch64Macos => { rodataHome := .text, textMinAlign := 4, rodataMinAlign := 8 }

/-- `(value + align - 1) & !(align - 1)` on 64-bit words. -/
def alignUp (value align : Nat) : Nat := (value + align - 1) &&& (2 ^ 64 - 1 - (align - 1))

inductive PatchHome where
  | text
  | rodata
  | data
  deriving DecidableEq

structure PendingRelocation where
  offset : Nat
  symbolIndex : Nat
  objIdx : Nat
  relType : RelocationType
  addend : Int
  home : PatchHome
  reference : Reference

structure SectionBases where
  text : Nat
  rodata : Nat
  data : Nat
  bss : Nat

def SectionBases.of (bases : SectionBases) : SectionKind → Option Nat
  | .text => some bases.text
  | .rodata => some bases.rodata
  | .data => some bases.data
  | .bss => some bases.bss
  | .other => none

def relocationPatchSize : RelocationType → Except LinkError Nat
  | .abs64 | .aarch64Abs64 => .ok 8
  | .unknown _ => .error .unsupportedRelocation
  | _ => .ok 4

def checkedAdd (first second : Nat) (overflow : LinkError) : Except LinkError Nat :=
  if first + second < 2 ^ 64 then .ok (first + second) else .error overflow

def checkedPatchRange (patchOffset patchSize sectionSize : Nat) : Except LinkError Unit := do
  let patchEnd ← checkedAdd patchOffset patchSize .relocationPatchOutOfBounds
  if sectionSize < patchEnd then .error .relocationPatchOutOfBounds else .ok ()

def checkedSymbolAddress (base sectionOffset : Nat) (symbol : Symbol) : Except LinkError Nat := do
  let sectionAddress ← checkedAdd base sectionOffset (.symbolAddressOverflow symbol.name)
  checkedAdd sectionAddress symbol.value (.symbolAddressOverflow symbol.name)

def validateDefinedSymbol (obj : LinkObject) (symbol : Symbol) : Except LinkError Unit :=
  match symbol.sectionIndex with
  | none => .ok ()
  | some sectionIndex =>
    match obj.sections[sectionIndex]? with
    | none => .error (.invalidSectionIndex symbol.name)
    | some owner =>
      if 2 ^ 64 ≤ symbol.value + symbol.size then .error (.symbolOutsideSection symbol.name)
      else if owner.size < symbol.value ∨ owner.size < symbol.value + symbol.size then
        .error (.symbolOutsideSection symbol.name)
      else .ok ()

def providesDefinition (symbol : Symbol) : Bool :=
  symbol.isDefinition && (symbol.binding = .globalBinding || symbol.binding = .weakBinding) && symbol.name ≠ []

/-- The winning definition of each name, and the objects admitted so far. -/
structure Linker where
  globalSymbols : Name → Option (Nat × Symbol)
  objects : List LinkObject

namespace Linker

def new : Linker := { globalSymbols := fun _ => none, objects := [] }

def insertGlobal (table : Name → Option (Nat × Symbol)) (entry : Nat × Symbol) : Name → Option (Nat × Symbol) :=
  fun name => if name = entry.2.name then some entry else table name

/-- What one more definition does to the table of winners. -/
def addSymbol (objIndex : Nat) (table : Name → Option (Nat × Symbol)) (symbol : Symbol) :
    Except LinkError (Name → Option (Nat × Symbol)) :=
  if !providesDefinition symbol then .ok table
  else
    match table symbol.name with
    | none => .ok (insertGlobal table (objIndex, symbol))
    | some (existingObj, existing) =>
      if existing.common.isSome || symbol.common.isSome then
        match existing.common, symbol.common with
        | some existingAlign, some align =>
          let merged := { existing with
            size := max existing.size symbol.size, common := some (max existingAlign align) }
          .ok (fun name => if name = symbol.name then some (existingObj, merged) else table name)
        | some _, none => .ok (insertGlobal table (objIndex, symbol))
        | none, _ => .ok table
      else if existing.binding ≠ .weakBinding ∧ symbol.binding ≠ .weakBinding then
        .error (.duplicateSymbol symbol.name)
      else if existing.binding = .weakBinding ∧ symbol.binding = .globalBinding then
        .ok (insertGlobal table (objIndex, symbol))
      else .ok table

def addLinkObject (linker : Linker) (obj : LinkObject) : Except LinkError Linker := do
  let _ ← obj.symbols.mapM (validateDefinedSymbol obj)
  let globalSymbols ← obj.symbols.foldlM (addSymbol linker.objects.length) linker.globalSymbols
  .ok { globalSymbols, objects := linker.objects ++ [obj] }

def addObjects (linker : Linker) (objects : List LinkObject) : Except LinkError Linker :=
  objects.foldlM addLinkObject linker

end Linker

/-- The merged image: region lengths, where the sections and the surviving
tentative definitions landed, and the relocations still to apply. -/
structure MergedImage where
  textLen : Nat
  rodataLen : Nat
  dataLen : Nat
  bssSize : Nat
  sectionOffsets : Nat → Nat → Option Nat
  commonOffsets : List (Name × Nat)
  pending : List PendingRelocation

namespace MergedImage

def empty : MergedImage where
  textLen := 0
  rodataLen := 0
  dataLen := 0
  bssSize := 0
  sectionOffsets := fun _ _ => none
  commonOffsets := []
  pending := []

def placeAt (image : MergedImage) (objIdx secIdx offset : Nat) : MergedImage :=
  { image with
    sectionOffsets := fun obj owner =>
      if obj = objIdx ∧ owner = secIdx then some offset else image.sectionOffsets obj owner }

end MergedImage

/-- One relocation of a placed section, unless it is not applied. -/
def collectRelocation (obj : LinkObject) (owner : LinkSection) (mergedOffset objIdx : Nat) (home : PatchHome)
    (relocation : Relocation) : Except LinkError (Option PendingRelocation) :=
  match obj.symbols[relocation.symbolIndex]? with
  | none => .error (.invalidSymbolIndex relocation.symbolIndex)
  | some symbol =>
    if symbol.name = [] ∧ !symbol.absolute then .ok none
    else
      let targetSection := symbol.sectionIndex.bind fun secIdx => obj.sections[secIdx]?
      match targetSection.filter fun target => classifySection target.name = .other with
      | some unplaced => if unplaced.alloc then .error .unsupportedRelocation else .ok none
      | none => do
        let patchSize ← relocationPatchSize relocation.relType
        checkedPatchRange relocation.offset patchSize owner.contentLen
        let offset ← checkedAdd mergedOffset relocation.offset .relocationOffsetOverflow
        .ok (some {
          offset
          symbolIndex := relocation.symbolIndex
          objIdx
          relType := relocation.relType
          addend := relocation.addend
          home
          reference := relocation.reference })

def collectSectionRelocations (obj : LinkObject) (owner : LinkSection) (mergedOffset objIdx : Nat)
    (home : PatchHome) (pending : List PendingRelocation) : Except LinkError (List PendingRelocation) := do
  let collected ← owner.relocations.mapM (collectRelocation obj owner mergedOffset objIdx home)
  .ok (pending ++ collected.filterMap id)

namespace MergedImage

def mergeText (policy : LayoutPolicy) (objIdx : Nat) (obj : LinkObject) (image : MergedImage)
    (section' : LinkSection × Nat) : Except LinkError MergedImage := do
  let (owner, secIdx) := section'
  if classifySection owner.name ≠ .text ∨ owner.contentLen = 0 then .ok image
  else
    let offset := max image.textLen (alignUp image.textLen (max owner.align policy.textMinAlign))
    let pending ← collectSectionRelocations obj owner offset objIdx .text image.pending
    .ok { image.placeAt objIdx secIdx offset with textLen := offset + owner.contentLen, pending }

def mergeRodata (policy : LayoutPolicy) (objIdx : Nat) (obj : LinkObject) (image : MergedImage)
    (section' : LinkSection × Nat) : Except LinkError MergedImage := do
  let (owner, secIdx) := section'
  if classifySection owner.name ≠ .rodata then .ok image
  else
    let align := max owner.align policy.rodataMinAlign
    match policy.rodataHome with
    | .text =>
      let offset := max image.textLen (alignUp image.textLen align)
      let pending ← collectSectionRelocations obj owner offset objIdx .text image.pending
      .ok { image.placeAt objIdx secIdx offset with textLen := offset + owner.contentLen, pending }
    | .ownSegment =>
      let offset := max image.rodataLen (alignUp image.rodataLen align)
      let pending ← collectSectionRelocations obj owner offset objIdx .rodata image.pending
      .ok { image.placeAt objIdx secIdx offset with rodataLen := offset + owner.contentLen, pending }

def mergeData (objIdx : Nat) (obj : LinkObject) (image : MergedImage) (section' : LinkSection × Nat) :
    Except LinkError MergedImage := do
  let (owner, secIdx) := section'
  if classifySection owner.name ≠ .data ∨ owner.contentLen = 0 then .ok image
  else
    let offset := max image.dataLen (alignUp image.dataLen (max owner.align 1))
    let pending ← collectSectionRelocations obj owner offset objIdx .data image.pending
    .ok { image.placeAt objIdx secIdx offset with dataLen := offset + owner.contentLen, pending }

/-- Zero-initialized data occupies memory, but no bytes of the file. -/
def mergeBss (objIdx : Nat) (image : MergedImage) (section' : LinkSection × Nat) : MergedImage :=
  let (owner, secIdx) := section'
  if classifySection owner.name ≠ .bss then image
  else
    let offset := alignUp image.bssSize (max owner.align 1)
    { image.placeAt objIdx secIdx offset with bssSize := offset + owner.size }

/-- Reserve storage for a tentative definition that won its name. -/
def mergeCommon (linker : Linker) (objIdx : Nat) (image : MergedImage) (symbol : Symbol) : MergedImage :=
  if symbol.common.isNone then image
  else
    match linker.globalSymbols symbol.name with
    | none => image
    | some (winnerObj, winner) =>
      match winner.common with
      | none => image
      | some align =>
        if winnerObj ≠ objIdx ∨ symbol.name ∈ image.commonOffsets.map Prod.fst then image
        else
          let offset := alignUp image.bssSize (max align 1)
          { image with
            commonOffsets := image.commonOffsets ++ [(symbol.name, offset)]
            bssSize := offset + winner.size }

end MergedImage

namespace Linker

def mergeSections (linker : Linker) (policy : LayoutPolicy) : Except LinkError MergedImage := do
  let objects := linker.objects.zipIdx
  let image ← objects.foldlM (fun image (obj, objIdx) =>
    obj.sections.zipIdx.foldlM (MergedImage.mergeText policy objIdx obj) image) MergedImage.empty
  let image ← objects.foldlM (fun image (obj, objIdx) =>
    obj.sections.zipIdx.foldlM (MergedImage.mergeRodata policy objIdx obj) image) image
  let image ← objects.foldlM (fun image (obj, objIdx) =>
    obj.sections.zipIdx.foldlM (MergedImage.mergeData objIdx obj) image) image
  let image := objects.foldl (fun image (obj, objIdx) =>
    obj.sections.zipIdx.foldl (MergedImage.mergeBss objIdx) image) image
  .ok (objects.foldl (fun image (obj, objIdx) => obj.symbols.foldl (MergedImage.mergeCommon linker objIdx) image) image)

end Linker

structure SymbolAddresses where
  globals : Name → Option Nat
  locals : Nat → Name → Option Nat

namespace SymbolAddresses

def resolve (addresses : SymbolAddresses) (objIdx : Nat) (name : Name) : SymbolBinding → Option Nat
  | .localBinding => addresses.locals objIdx name
  | .globalBinding | .weakBinding => addresses.globals name

def insertGlobal (addresses : SymbolAddresses) (name : Name) (address : Nat) : SymbolAddresses :=
  { addresses with globals := fun other => if other = name then some address else addresses.globals other }

def insertLocal (addresses : SymbolAddresses) (objIdx : Nat) (name : Name) (address : Nat) : SymbolAddresses :=
  { addresses with
    locals := fun obj other => if obj = objIdx ∧ other = name then some address else addresses.locals obj other }

end SymbolAddresses

/-- The address a symbol of an object is placed at, if it is. -/
def placedAddress (image : MergedImage) (bases : SectionBases) (objIdx : Nat) (obj : LinkObject)
    (symbol : Symbol) : Except LinkError (Option Nat) :=
  if symbol.absolute then .ok (some symbol.value)
  else
    match symbol.sectionIndex with
    | none => .ok none
    | some secIdx =>
      match obj.sections[secIdx]?, image.sectionOffsets objIdx secIdx with
      | some owner, some sectionOffset =>
        match bases.of (classifySection owner.name) with
        | none => .ok none
        | some base => (checkedSymbolAddress base sectionOffset symbol).map some
      | _, _ => .ok none

namespace Linker

def addCommonAddress (bases : SectionBases) (addresses : SymbolAddresses) (entry : Name × Nat) :
    Except LinkError SymbolAddresses := do
  let address ← checkedAdd bases.bss entry.2 (.undefinedSymbol entry.1)
  .ok (addresses.insertGlobal entry.1 address)

def addSymbolAddress (linker : Linker) (image : MergedImage) (bases : SectionBases) (objIdx : Nat)
    (obj : LinkObject) (addresses : SymbolAddresses) (symbol : Symbol) : Except LinkError SymbolAddresses :=
  if symbol.name = [] then .ok addresses
  else do
    match ← placedAddress image bases objIdx obj symbol with
    | none => .ok addresses
    | some address =>
      match symbol.binding with
      | .localBinding => .ok (addresses.insertLocal objIdx symbol.name address)
      | .globalBinding | .weakBinding =>
        let winner := (linker.globalSymbols symbol.name).map Prod.fst
        if winner = none ∨ winner = some objIdx then .ok (addresses.insertGlobal symbol.name address)
        else .ok addresses

/-- A section's own name, where no symbol of its object has it. -/
def addSectionAddress (image : MergedImage) (bases : SectionBases) (objIdx : Nat) (addresses : SymbolAddresses)
    (section' : LinkSection × Nat) : SymbolAddresses :=
  let (owner, secIdx) := section'
  match image.sectionOffsets objIdx secIdx, bases.of (classifySection owner.name) with
  | some offset, some base =>
    if (addresses.locals objIdx owner.name).isSome then addresses
    else addresses.insertLocal objIdx owner.name (base + offset)
  | _, _ => addresses

def resolveSymbolAddresses (linker : Linker) (image : MergedImage) (bases : SectionBases) :
    Except LinkError SymbolAddresses := do
  let objects := linker.objects.zipIdx
  let addresses := { globals := fun _ => none, locals := fun _ _ => none : SymbolAddresses }
  let addresses ← image.commonOffsets.foldlM (addCommonAddress bases) addresses
  let addresses ← objects.foldlM (fun addresses (obj, objIdx) =>
    obj.symbols.foldlM (linker.addSymbolAddress image bases objIdx obj) addresses) addresses
  .ok (objects.foldl (fun addresses (obj, objIdx) =>
    obj.sections.zipIdx.foldl (addSectionAddress image bases objIdx) addresses) addresses)

/-- The target address of one relocation; `none` cannot happen, as the symbol
index of a queued relocation has been checked. -/
def targetAddress (linker : Linker) (image : MergedImage) (bases : SectionBases) (addresses : SymbolAddresses)
    (pending : PendingRelocation) : Except LinkError Nat :=
  match linker.objects[pending.objIdx]? with
  | none => .error (.invalidSymbolIndex pending.symbolIndex)
  | some obj =>
    match obj.symbols[pending.symbolIndex]? with
    | none => .error (.invalidSymbolIndex pending.symbolIndex)
    | some symbol =>
      if symbol.absolute ∧ (symbol.binding = .localBinding ∨ symbol.name = []) then .ok symbol.value
      else
        match addresses.resolve pending.objIdx symbol.name symbol.binding with
        | some address => .ok address
        | none =>
          match symbol.sectionIndex with
          | some secIdx =>
            match obj.sections[secIdx]? with
            | none => .error (.invalidSectionIndex symbol.name)
            | some owner =>
              match image.sectionOffsets pending.objIdx secIdx, bases.of (classifySection owner.name) with
              | some offset, some base => .ok (base + offset)
              | _, _ => .error (.undefinedSymbol symbol.name)
          | none => if symbol.binding = .weakBinding then .ok 0 else .error (.undefinedSymbol symbol.name)

/-- Every queued relocation with the target address it is patched with. -/
def resolvePendingRelocations (linker : Linker) (image : MergedImage) (bases : SectionBases)
    (addresses : SymbolAddresses) : Except LinkError (List (PendingRelocation × Nat)) :=
  image.pending.mapM fun pending => do
    let target ← linker.targetAddress image bases addresses pending
    .ok (pending, target)

/-- A link of some inputs, with the bases the output format gives the regions. -/
def link (inputs : List LinkObject) (policy : LayoutPolicy) (bases : MergedImage → SectionBases) :
    Except LinkError (Linker × MergedImage × List (PendingRelocation × Nat)) := do
  let linker ← Linker.new.addObjects inputs
  let image ← linker.mergeSections policy
  let addresses ← linker.resolveSymbolAddresses image (bases image)
  let patched ← linker.resolvePendingRelocations image (bases image) addresses
  .ok (linker, image, patched)

end Linker

end Rue.Linking
