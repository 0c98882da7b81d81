import Rue.Codegen.Mir
import Mathlib.Data.Nat.Log

/-! Live ranges, the liveness facts a function hands to allocation, and the
loop-depth index over its instructions. -/

namespace Rue.Codegen

/-- The inclusive span of instruction indices in which a register is needed. -/
@[ext] structure LiveRange where
  start : Nat
  «end» : Nat
  ordered : start ≤ «end»
  deriving DecidableEq, Repr

namespace LiveRange

/-- Two ranges overlap if they share at least one instruction index. -/
def overlaps (range other : LiveRange) : Bool :=
  range.start ≤ other.end && other.start ≤ range.end

def Covers (range : LiveRange) (index : Nat) : Prop := range.start ≤ index ∧ index ≤ range.end

def point (index : Nat) : LiveRange := ⟨index, index, Nat.le_refl index⟩

def extend (range : LiveRange) (index : Nat) : LiveRange :=
  { start := if index < range.start then index else range.start
    «end» := if range.end < index then index else range.end
    ordered := by have := range.ordered; split <;> split <;> omega }

/-- The hull of both ranges, which is what a merged register must survive. -/
def hull (range other : LiveRange) : LiveRange :=
  ⟨min range.start other.start, max range.end other.end, by have := range.ordered; omega⟩

theorem overlaps_iff {range other : LiveRange} :
    range.overlaps other = true ↔ range.start ≤ other.end ∧ other.start ≤ range.end := by
  simp [overlaps]

theorem overlaps_comm (range other : LiveRange) : range.overlaps other = other.overlaps range := by
  simp only [overlaps, Bool.and_comm]

theorem Covers.hull_left {range : LiveRange} {index : Nat} (other : LiveRange) (covered : range.Covers index) :
    (range.hull other).Covers index := by
  simp only [Covers, hull] at *
  omega

theorem Covers.hull_right {range : LiveRange} {index : Nat} (other : LiveRange) (covered : range.Covers index) :
    (other.hull range).Covers index := by
  simp only [Covers, hull] at *
  omega

end LiveRange

/-- Everything allocation reads about a function. Tables are dense; a missing
entry gets the conservative answer of the accessor that reads it. -/
structure LivenessInfo (Reg : Type) where
  ranges : IndexMap (Option LiveRange)
  clobbersAt : List (List Reg)
  nonReturningAt : List Bool
  divergingAt : List Bool
  divergingUses : List Bool
  vregClasses : List RegClass

namespace LivenessInfo

variable {Reg : Type}

def classOf (liveness : LivenessInfo Reg) (vreg : VReg) : RegClass :=
  liveness.vregClasses[vreg]?.getD .gp

def instructionCount (liveness : LivenessInfo Reg) : Nat := liveness.clobbersAt.length

def range (liveness : LivenessInfo Reg) (vreg : VReg) : Option LiveRange :=
  liveness.ranges[vreg]?.join

def clobbers (liveness : LivenessInfo Reg) (index : Nat) : List Reg :=
  liveness.clobbersAt[index]?.getD []

def isNonReturning (liveness : LivenessInfo Reg) (index : Nat) : Bool :=
  liveness.nonReturningAt[index]?.getD false

def divergesAt (liveness : LivenessInfo Reg) (index : Nat) : Bool :=
  liveness.divergingAt[index]?.getD false

def hasDivergingUse (liveness : LivenessInfo Reg) (vreg : VReg) : Bool :=
  liveness.divergingUses[vreg]?.getD true

end LivenessInfo

/-- Loop depths with a sparse table over the runs of equal depth. -/
structure LoopInfo where
  depths : List Nat
  maxDepth : Nat
  runStarts : List Nat
  runMax : List (List Nat)
  deriving DecidableEq, Repr

namespace LoopInfo

def noLoops (instructionCount : Nat) : LoopInfo :=
  ⟨List.replicate instructionCount 0, 0, [], []⟩

/-- The first index and the depth of each maximal run of equal depth, for the
depths from `index` on, where `previous` is the depth before it. -/
def runs (previous : Option Nat) (index : Nat) : List Nat → List (Nat × Nat)
  | [] => []
  | depth :: depths =>
    if previous = some depth then runs (some depth) (index + 1) depths
    else (index, depth) :: runs (some depth) (index + 1) depths

/-- Level `level` of the sparse table, from the level below it. -/
def nextLevel (runCount level : Nat) (previous : List Nat) : List Nat :=
  let span := 2 ^ level
  let half := span / 2
  (List.range (runCount + 1 - span)).map fun index =>
    max (previous[index]?.getD 0) (previous[index + half]?.getD 0)

/-- The levels above `previous`, which is level `level - 1`. -/
def levelsAbove (runCount : Nat) : (count level : Nat) → (previous : List Nat) → List (List Nat)
  | 0, _, _ => []
  | count + 1, level, previous =>
    let current := nextLevel runCount level previous
    current :: levelsAbove runCount count (level + 1) current

def fromDepths (depths : List Nat) : LoopInfo :=
  let maxDepth := depths.max?.getD 0
  if maxDepth = 0 then ⟨depths, maxDepth, [], []⟩
  else
    let found := runs none 0 depths
    let runDepths := found.map Prod.snd
    -- A nonempty run list has `log2 + 1` levels, the bits of its length.
    ⟨depths, maxDepth, found.map Prod.fst,
      runDepths :: levelsAbove found.length (Nat.log2 found.length) 1 runDepths⟩

def depth (info : LoopInfo) (index : Nat) : Nat := info.depths[index]?.getD 0

/-- The run that contains `index`. The starts ascend, so the partition point is
the length of the prefix of starts at or below it. -/
def runOf (info : LoopInfo) (index : Nat) : Nat :=
  (info.runStarts.takeWhile (· ≤ index)).length - 1

def maxDepthInRange (info : LoopInfo) (start stop : Nat) : Nat :=
  if info.maxDepth = 0 then 0
  else if start > stop ∨ start ≥ info.depths.length then 0
  else
    let stop := min stop (info.depths.length - 1)
    let first := info.runOf start
    let last := info.runOf stop
    let level := Nat.log2 (last - first + 1)
    let window := 2 ^ level
    let table := info.runMax[level]?.getD []
    max (table[first]?.getD 0) (table[last + 1 - window]?.getD 0)

end LoopInfo

end Rue.Codegen

/-! Constant-time questions about a live range: whether anything in it destroys
a register, and whether control can only leave it by aborting. Both are answered
by prefix counts, which agree at two ends exactly when nothing between counts. -/

namespace Rue.Codegen

/-- Entry `i` is `running` plus the number of set flags before `i`. -/
def countsFrom (running : Nat) : List Bool → List Nat
  | [] => [running]
  | event :: events => running :: countsFrom (if event then running + 1 else running) events

def prefixCounts (events : List Bool) : List Nat := countsFrom 0 events

/-- Whether a table of prefix counts sees an event in a range. Endpoints past
the last instruction are clamped to it. -/
def countsEvent (counts : List Nat) (range : LiveRange) : Bool :=
  let last := counts.length - 1
  let start := min range.start last
  let stop := min (range.end + 1) last
  decide (counts[start]?.getD 0 < counts[stop]?.getD 0)

structure TrackedClobbers (Reg : Type) where
  reg : Reg
  all : List Nat
  returningOnly : List Nat

structure ClobberIndex (Reg : Type) where
  tracked : List (TrackedClobbers Reg)

namespace ClobberIndex

variable {Reg : Type} [DecidableEq Reg]

/-- The instruction clobbers the register and control continues past it. -/
def counted (liveness : LivenessInfo Reg) (reg : Reg) (index : Nat) : Bool :=
  !liveness.isNonReturning index && (liveness.clobbers index).contains reg

def hasDivergingClobber (liveness : LivenessInfo Reg) : Bool :=
  (List.range liveness.instructionCount).any fun index =>
    liveness.divergesAt index && !liveness.isNonReturning index && !(liveness.clobbers index).isEmpty

def build (liveness : LivenessInfo Reg) (tracked : List Reg) : ClobberIndex Reg :=
  let indices := List.range liveness.instructionCount
  ⟨tracked.map fun reg =>
    { reg
      all := prefixCounts (indices.map (counted liveness reg))
      returningOnly :=
        if hasDivergingClobber liveness then
          prefixCounts (indices.map fun index => counted liveness reg index && !liveness.divergesAt index)
        else [] }⟩

/-- A register the index was not built for may always be destroyed. -/
def isClobberedDuring (index : ClobberIndex Reg) (reg : Reg) (range : LiveRange)
    (ignoreDiverging : Bool) : Bool :=
  match index.tracked.find? (fun entry => entry.reg = reg) with
  | none => true
  | some entry =>
    countsEvent (if ignoreDiverging && !entry.returningOnly.isEmpty then entry.returningOnly else entry.all) range

end ClobberIndex

/-- Empty when no instruction diverges, which answers every query `false`. -/
structure DivergenceIndex where
  returningBefore : List Nat

namespace DivergenceIndex

variable {Reg : Type}

def build (liveness : LivenessInfo Reg) : DivergenceIndex :=
  if liveness.divergingAt.any id then
    ⟨prefixCounts ((List.range liveness.instructionCount).map fun index => !liveness.divergesAt index)⟩
  else ⟨[]⟩

/-- Whether every instruction of the range diverges. -/
def rangeDiverges (index : DivergenceIndex) (range : LiveRange) : Bool :=
  if index.returningBefore.isEmpty then false
  else
    let last := index.returningBefore.length - 1
    let start := min range.start last
    let stop := min (range.end + 1) last
    decide (index.returningBefore[stop]?.getD 0 = index.returningBefore[start]?.getD 0)

end DivergenceIndex

end Rue.Codegen
