import Mathlib.Data.List.Sort
import Mathlib.Logic.Function.Basic
import Rue.Codegen.LiveRange

/-! Linear-scan register allocation: one pass over the intervals in start order
that expires, picks, evicts and spills, run once as a baseline and once more to
reuse the callee-saved registers the baseline already pays for. -/

namespace Rue.Codegen

def u32Max : Nat := 2 ^ 32 - 1
def u64Max : Nat := 2 ^ 64 - 1
def i32Max : Nat := 2 ^ 31 - 1
def i32Min : Int := -2 ^ 31

structure CostModel where
  baseSpillCost : Nat
  loopDepthMultiplier : Nat
  useLoopAwareSpilling : Bool
  deriving DecidableEq, Repr

namespace CostModel

def default : CostModel := ⟨1, 10, true⟩

def spillCost (model : CostModel) (loopDepth : Nat) : Nat :=
  if !model.useLoopAwareSpilling then model.baseSpillCost
  else min (model.baseSpillCost * min (model.loopDepthMultiplier ^ loopDepth) u32Max) u32Max

def spillPriority (model : CostModel) (loopDepth remainingRangeLength : Nat) : Nat :=
  if !model.useLoopAwareSpilling then u64Max - remainingRangeLength
  else
    let cost := model.spillCost loopDepth
    let length := max remainingRangeLength 1
    min (cost * 1000) u64Max - min length 999

end CostModel

inductive RematerializeOp where
  | const32 (value : Int)
  | const64 (value : Int)
  | stringPtr (id : Nat)
  | stringLen (id : Nat)
  | stringCap (id : Nat)
  deriving DecidableEq, Repr

structure VRegInfo where
  remat : Option RematerializeOp
  deriving DecidableEq, Repr

inductive Allocation (Reg : Type) where
  | register (reg : Reg)
  | spill (offset : Int)
  | rematerialize (op : RematerializeOp)
  deriving DecidableEq, Repr

def slotBytes : Nat := 8

/-- Each slot records the end of the last range placed in it. -/
structure SpillSlotAllocator where
  slots : List (Option Nat)
  minSlotEnd : Option Nat
  baseSlots : Nat
  deriving DecidableEq, Repr

namespace SpillSlotAllocator

def new (existingLocals : Nat) : SpillSlotAllocator := ⟨[], none, existingLocals⟩

/-- Offsets a signed 32-bit displacement cannot hold saturate; the driver's
frame budget rejects an allocation that has one. -/
def offsetForSlot (baseSlots slotIndex : Nat) : Int :=
  let oneBasedSlot := min (min (baseSlots + slotIndex) u64Max + 1) u64Max
  let bytes := min (oneBasedSlot * slotBytes) u64Max
  if bytes ≤ i32Max then -(bytes : Int) else i32Min

/-- The first slot whose occupant ended strictly before `start`. -/
def reusable (slots : SpillSlotAllocator) (start : Nat) : Option Nat :=
  if slots.minSlotEnd.any (· < start) then slots.slots.findIdx? (fun occupied => occupied.any (· < start))
  else none

def allocate (slots : SpillSlotAllocator) (start stop : Nat) : SpillSlotAllocator × Int :=
  match slots.reusable start with
  | some index =>
    let occupied := slots.slots.set index (some stop)
    ({ slots with slots := occupied, minSlotEnd := (occupied.filterMap id).min? },
      offsetForSlot slots.baseSlots index)
  | none =>
    ({ slots with
        slots := slots.slots ++ [some stop]
        minSlotEnd := some (match slots.minSlotEnd with | some least => min least stop | none => stop) },
      offsetForSlot slots.baseSlots slots.slots.length)

def numSlots (slots : SpillSlotAllocator) : Nat := slots.slots.length

end SpillSlotAllocator

/-- An interval that occupies a register until its range ends. -/
structure ActiveInterval (Reg : Type) where
  vreg : VReg
  reg : Reg
  «end» : Nat
  deriving DecidableEq, Repr

section Scan
variable {Reg : Type} [DecidableEq Reg]

/-- A sunk compact register, else a caller-saved register nothing in the range
destroys, else a callee-saved register. -/
def pickFreeRegister (save : SaveClasses Reg) (clobbers : ClobberIndex Reg)
    (active : List (ActiveInterval Reg)) (sunk : List Reg) (range : LiveRange)
    (offDivergingPaths : Bool) : Option Reg :=
  let isUsed := fun candidate => active.any fun held => held.reg = candidate
  (save.compactCalleeSaved.find? fun reg => sunk.contains reg && !isUsed reg).or
    ((save.callerSaved.find? fun reg =>
        !isUsed reg && !clobbers.isClobberedDuring reg range offDivergingPaths).or
      (save.calleeSaved.find? fun reg => !isUsed reg))

def registerSurvivesRange (save : SaveClasses Reg) (clobbers : ClobberIndex Reg) (reg : Reg)
    (range : LiveRange) (offDivergingPaths : Bool) : Bool :=
  save.isCalleeSaved reg || !clobbers.isClobberedDuring reg range offDivergingPaths

structure ScanInputs (Reg : Type) where
  vregsByStart : List (VReg × LiveRange)
  clobbers : ClobberIndex Reg
  divergence : DivergenceIndex

/-- The registers that have a live range, in index order. -/
def liveVregs (vregCount : Nat) (liveness : LivenessInfo Reg) : List (VReg × LiveRange) :=
  (List.range vregCount).filterMap fun vreg => (liveness.range vreg).map fun range => (vreg, range)

/-- The key the scan sorts intervals by; the sort is stable. -/
abbrev StartsNoLater (first second : VReg × LiveRange) : Prop := first.2.start ≤ second.2.start

def ScanInputs.new (vregCount : Nat) (liveness : LivenessInfo Reg) (file : RegisterFile Reg) :
    ScanInputs Reg :=
  { vregsByStart := (liveVregs vregCount liveness).insertionSort StartsNoLater
    clobbers := .build liveness file.callerSavedFlattened
    divergence := .build liveness }

/-- Everything one pass reads and does not change. -/
structure ScanContext (Reg : Type) where
  liveness : LivenessInfo Reg
  file : RegisterFile Reg
  costModel : CostModel
  loopInfo : LoopInfo
  vregInfo : IndexMap VRegInfo
  inputs : ScanInputs Reg
  sunk : List Reg

structure ScanState (Reg : Type) where
  allocation : IndexMap (Option (Allocation Reg))
  spillAllocator : SpillSlotAllocator
  usedCalleeSaved : List Reg
  active : RegClass → List (ActiveInterval Reg)
  spills : List VReg

/-- The cheapest register holder found so far, or the arriving interval. -/
structure EvictionChoice where
  index : Option Nat
  priority : Nat
  isRemat : Bool
  deriving DecidableEq, Repr

namespace ScanContext

variable (ctx : ScanContext Reg)

def canRemat (vreg : VReg) : Option RematerializeOp :=
  ctx.vregInfo[vreg]?.bind VRegInfo.remat

def save (vreg : VReg) : SaveClasses Reg := ctx.file.classes (ctx.liveness.classOf vreg)

def offDivergingPaths (vreg : VReg) : Bool := !ctx.liveness.hasDivergingUse vreg

def confinedToDivergence (range : LiveRange) : Bool := ctx.inputs.divergence.rangeDiverges range

/-- Rematerializable registers have the lowest priority and go first. -/
def evictionPriority (vreg : VReg) (start stop : Nat) : Nat :=
  if (ctx.canRemat vreg).isSome then 0
  else ctx.costModel.spillPriority (ctx.loopInfo.maxDepthInRange start stop) (stop - start)

def survives (vreg : VReg) (range : LiveRange) (reg : Reg) : Bool :=
  registerSurvivesRange (ctx.save vreg) ctx.inputs.clobbers reg range (ctx.offDivergingPaths vreg)

def considerEviction (vreg : VReg) (range : LiveRange) (choice : EvictionChoice)
    (entry : ActiveInterval Reg × Nat) : EvictionChoice :=
  let (held, index) := entry
  if !ctx.survives vreg range held.reg then choice
  else
    let activeIsRemat := (ctx.canRemat held.vreg).isSome
    let activePriority := ctx.evictionPriority held.vreg range.start held.end
    let shouldReplace :=
      if activeIsRemat && !choice.isRemat then true
      else if !activeIsRemat && choice.isRemat then false
      else activePriority < choice.priority
    if shouldReplace then ⟨some index, activePriority, activeIsRemat⟩ else choice

/-- The index of the holder to evict, or none to evict the arriving interval. -/
def bestEviction (vreg : VReg) (range : LiveRange) (active : List (ActiveInterval Reg)) : Option Nat :=
  (active.zipIdx.foldl (ctx.considerEviction vreg range)
    ⟨none, ctx.evictionPriority vreg range.start range.end, (ctx.canRemat vreg).isSome⟩).index

/-- The chosen index with its holder. The index always names one. -/
def victim (vreg : VReg) (range : LiveRange) (active : List (ActiveInterval Reg)) :
    Option (Nat × ActiveInterval Reg) :=
  (ctx.bestEviction vreg range active).bind fun index => active[index]?.map fun held => (index, held)

end ScanContext

namespace ScanState

def init (vregCount existingLocals : Nat) : ScanState Reg :=
  { allocation := List.replicate vregCount none
    spillAllocator := .new existingLocals
    usedCalleeSaved := []
    active := fun _ => []
    spills := [] }

/-- Drop the intervals of the class that ended before `start`. -/
def expire (state : ScanState Reg) (kind : RegClass) (start : Nat) : ScanState Reg :=
  { state with
    active := Function.update state.active kind ((state.active kind).filter fun held => start ≤ held.end) }

/-- Give the register to the interval. -/
def occupy (state : ScanState Reg) (kind : RegClass) (vreg : VReg) (reg : Reg) (range : LiveRange) :
    ScanState Reg :=
  { state with
    allocation := state.allocation.set vreg (some (.register reg))
    active := Function.update state.active kind (state.active kind ++ [⟨vreg, reg, range.end⟩]) }

/-- Oblige the prologue to save the register. -/
def saveRegister (state : ScanState Reg) (reg : Reg) : ScanState Reg :=
  if state.usedCalleeSaved.contains reg then state
  else { state with usedCalleeSaved := state.usedCalleeSaved ++ [reg] }

/-- Recompute the register at its uses, or give it a stack slot. -/
def evict (ctx : ScanContext Reg) (state : ScanState Reg) (vreg : VReg) (start stop : Nat) :
    ScanState Reg :=
  match ctx.canRemat vreg with
  | some op => { state with allocation := state.allocation.set vreg (some (.rematerialize op)) }
  | none =>
    let (spillAllocator, offset) := state.spillAllocator.allocate start stop
    { state with
      spillAllocator
      allocation := state.allocation.set vreg (some (.spill offset))
      spills := state.spills ++ [vreg] }

/-- Take the register away from its holder. -/
def release (state : ScanState Reg) (kind : RegClass) (index : Nat) : ScanState Reg :=
  { state with active := Function.update state.active kind ((state.active kind).eraseIdx index) }

end ScanState

open ScanState in
/-- One iteration of the scan: expire, then pick, evict or spill. Only a free
pick records a callee-saved register in the save set. -/
def scanInterval (ctx : ScanContext Reg) (state : ScanState Reg) (interval : VReg × LiveRange) :
    ScanState Reg :=
  let (vreg, range) := interval
  let kind := ctx.liveness.classOf vreg
  let save := ctx.save vreg
  let state := state.expire kind range.start
  match pickFreeRegister save ctx.inputs.clobbers (state.active kind) ctx.sunk range
      (ctx.offDivergingPaths vreg) with
  | some reg =>
    let state := state.occupy kind vreg reg range
    if save.isCalleeSaved reg && !ctx.confinedToDivergence range then state.saveRegister reg else state
  | none =>
    match ctx.victim vreg range (state.active kind) with
    | some (index, held) =>
      -- The source unwraps the holder's range, which a holder always has.
      let start := ((ctx.liveness.range held.vreg).map LiveRange.start).getD 0
      ((evict ctx (state.release kind index) held.vreg start held.end).occupy kind vreg held.reg range)
    | none => evict ctx state vreg range.start range.end

structure RegAllocDebugInfo (Reg : Type) where
  liveRanges : List (VReg × Nat × Nat)
  interference : List (VReg × VReg)
  allocations : List (VReg × Allocation Reg)
  spills : List VReg
  calleeSavedUsed : List Reg

structure ScanResult (Reg : Type) where
  allocation : IndexMap (Option (Allocation Reg))
  numSpills : Nat
  usedCalleeSaved : List Reg
  debugInfo : RegAllocDebugInfo Reg

/-- The pairs of overlapping intervals, each pair once. -/
def interferenceEdges : List (VReg × LiveRange) → List (VReg × VReg)
  | [] => []
  | (vreg, range) :: rest =>
    (rest.filter fun other => range.overlaps other.2).map (fun other => (vreg, other.1)) ++
      interferenceEdges rest

def collectDebugInfo (vregCount : Nat) (ctx : ScanContext Reg) (state : ScanState Reg) :
    RegAllocDebugInfo Reg :=
  { liveRanges := (liveVregs vregCount ctx.liveness).map fun entry => (entry.1, entry.2.start, entry.2.end)
    interference := interferenceEdges ctx.inputs.vregsByStart
    allocations := state.allocation.zipIdx.filterMap fun entry => entry.1.map fun found => (entry.2, found)
    spills := state.spills
    calleeSavedUsed := state.usedCalleeSaved }

def scanIntervalsWithRemat (vregCount existingLocals : Nat) (collectDebug : Bool)
    (ctx : ScanContext Reg) : ScanResult Reg :=
  let state := ctx.inputs.vregsByStart.foldl (scanInterval ctx) (.init vregCount existingLocals)
  { allocation := state.allocation
    numSpills := state.spillAllocator.numSlots
    usedCalleeSaved := state.usedCalleeSaved
    debugInfo :=
      if collectDebug then collectDebugInfo vregCount ctx state else ⟨[], [], [], state.spills, []⟩ }

def registersHeld (allocation : IndexMap (Option (Allocation Reg))) : Nat :=
  allocation.countP fun | some (.register _) => true | _ => false

def acceptReusePass (baseline reuse : ScanResult Reg) : Bool :=
  reuse.usedCalleeSaved.all (fun reg => baseline.usedCalleeSaved.contains reg) &&
    registersHeld baseline.allocation ≤ registersHeld reuse.allocation &&
    reuse.numSpills ≤ baseline.numSpills

def reusePassCouldDiffer (file : RegisterFile Reg) (baselineSaved : List Reg) : Bool :=
  RegClass.all.any fun kind =>
    !(file.classes kind).callerSaved.isEmpty &&
      (file.classes kind).compactCalleeSaved.any fun reg => baselineSaved.contains reg

/-- The production entry point: a baseline pass, and a reuse pass that is taken
only when it costs nothing. -/
def linearScanImplWithRemat (vregCount : Nat) (liveness : LivenessInfo Reg) (file : RegisterFile Reg)
    (existingLocals : Nat) (collectDebug : Bool) (costModel : CostModel) (loopInfo : LoopInfo)
    (vregInfo : IndexMap VRegInfo) : ScanResult Reg :=
  let ctx : ScanContext Reg :=
    { liveness, file, costModel, loopInfo, vregInfo
      inputs := .new vregCount liveness file
      sunk := [] }
  let baseline := scanIntervalsWithRemat vregCount existingLocals collectDebug ctx
  if !reusePassCouldDiffer file baseline.usedCalleeSaved then baseline
  else
    let reuse := scanIntervalsWithRemat vregCount existingLocals collectDebug
      { ctx with sunk := baseline.usedCalleeSaved }
    if acceptReusePass baseline reuse then reuse else baseline

end Scan

def maxFunctionFrameBytes : Nat := i32Max / 16 * 16
def maxFunctionFrameSlots : Nat := maxFunctionFrameBytes / slotBytes

def checkedFunctionFrameSlots (current additional : Nat) : Option Nat :=
  if current + additional ≤ maxFunctionFrameSlots then some (current + additional) else none

theorem checkedFunctionFrameSlots_isSome {current additional : Nat} :
    (checkedFunctionFrameSlots current additional).isSome = true ↔
      current + additional ≤ maxFunctionFrameSlots := by
  unfold checkedFunctionFrameSlots
  split <;> simp_all

end Rue.Codegen

/-! Loop depths of the instructions: every back edge is an interval of a
difference array, whose sums are the depths. An index outside the array gives no
result. -/

namespace Rue.Codegen

/-- `deltas[index] += amount`. -/
def addDelta (deltas : List Int) (index : Nat) (amount : Int) : Option (List Int) := do
  let delta ← deltas[index]?
  return deltas.set index (delta + amount)

def markEdge (source : Nat) (deltas : List Int) (target : Nat) : Option (List Int) :=
  if target ≤ source then do
    let opened ← addDelta deltas target 1
    addDelta opened (source + 1) (-1)
  else some deltas

/-- Accumulates the deltas, clipping each sum to a `u32` on the way out. -/
def accumulate (enclosing : Int) : List Int → List Nat
  | [] => []
  | delta :: rest =>
    let sum := enclosing + delta
    (if 0 ≤ sum ∧ sum ≤ u32Max then sum.toNat else u32Max) :: accumulate sum rest

/-- `successors` holds the successor indices of each instruction. -/
def computeLoopInfo (numInsts : Nat) (successors : List (List Nat)) : Option LoopInfo :=
  if numInsts = 0 then some (LoopInfo.noLoops 0)
  else do
    let deltas ← successors.zipIdx.foldlM
      (fun deltas (succs, source) => succs.foldlM (markEdge source) deltas) (List.replicate (numInsts + 1) 0)
    return LoopInfo.fromDepths (accumulate 0 (deltas.take numInsts))

end Rue.Codegen
