import Rue.Proofs.SolveRun
import Mathlib.Order.Bounds.Basic

/-! Live ranges are the hulls of per-instruction liveness. The points a range is
built from are points where the register is needed, and every needed point lies
between two of them. -/

namespace Rue.Proofs.LiveRanges
open Rue.Codegen Liveness Rue.Lib Blocks BlockSolve SolveRun

/-- The range from the least to the greatest of the points, if there are any. -/
def IsHull (points : Set Nat) : Option LiveRange → Prop
  | none => points = ∅
  | some range => IsLeast points range.start ∧ IsGreatest points range.end

theorem IsHull.covers {points : Set Nat} {range : LiveRange} (hull : IsHull points (some range)) {index : Nat}
    (member : index ∈ points) : range.Covers index :=
  ⟨hull.1.2 member, hull.2.2 member⟩

/-- Points that bracket all the others span the same range. -/
theorem IsHull.of_bracket {inner outer : Set Nat} {range : Option LiveRange} (hull : IsHull inner range)
    (subset : inner ⊆ outer)
    (bracket : ∀ index ∈ outer, ∃ low ∈ inner, ∃ high ∈ inner, low ≤ index ∧ index ≤ high) : IsHull outer range := by
  cases range with
  | none =>
    refine Set.eq_empty_of_forall_notMem fun index member => ?_
    obtain ⟨low, lowMember, _⟩ := bracket index member
    exact Set.eq_empty_iff_forall_notMem.mp hull low lowMember
  | some range =>
    refine ⟨⟨subset hull.1.1, ?_⟩, ⟨subset hull.2.1, ?_⟩⟩
    · intro index member
      obtain ⟨low, lowMember, _, _, below, _⟩ := bracket index member
      exact Nat.le_trans (hull.1.2 lowMember) below
    · intro index member
      obtain ⟨_, _, high, highMember, _, above⟩ := bracket index member
      exact Nat.le_trans above (hull.2.2 highMember)

/-- The points filed for one register. -/
def pointsOf (points : List (VReg × Nat)) (vreg : VReg) : Set Nat := fun index => (vreg, index) ∈ points

@[simp] theorem mem_pointsOf {points : List (VReg × Nat)} {vreg index : Nat} :
    index ∈ pointsOf points vreg ↔ (vreg, index) ∈ points := Iff.rfl

theorem IsHull.point {known : Set Nat} (hull : IsHull known none) (index : Nat) :
    IsHull (insert index known) (some (.point index)) := by
  obtain rfl : known = ∅ := hull
  rw [insert_empty_eq]
  exact ⟨isLeast_singleton, isGreatest_singleton⟩

theorem IsHull.extend {known : Set Nat} {range : LiveRange} (hull : IsHull known (some range)) (index : Nat) :
    IsHull (insert index known) (some (range.extend index)) := by
  have least : (range.extend index).start = min index range.start := by
    simp only [LiveRange.extend]
    split <;> omega
  have greatest : (range.extend index).end = max index range.end := by
    simp only [LiveRange.extend]
    split <;> omega
  dsimp only [IsHull]
  rw [least, greatest]
  exact ⟨hull.1.insert index, hull.2.insert index⟩

@[simp] theorem length_extend (ranges : Ranges) (point : VReg × Nat) :
    (Liveness.extend ranges point).length = ranges.length := by
  unfold Liveness.extend
  dsimp only
  split <;> simp

@[simp] theorem length_foldl_extend (points : List (VReg × Nat)) (ranges : Ranges) :
    (points.foldl Liveness.extend ranges).length = ranges.length := by
  induction points generalizing ranges with
  | nil => rfl
  | cons point points ih => rw [List.foldl_cons, ih, length_extend]

/-- One more point grows its own register's range only. -/
theorem extend_spec {vreg : VReg} (point : VReg × Nat) {ranges : Ranges} (inside : vreg < ranges.length)
    {known : Set Nat} (hull : IsHull known ranges[vreg]?.join) :
    IsHull (known ∪ pointsOf [point] vreg) (Liveness.extend ranges point)[vreg]?.join := by
  obtain ⟨named, index⟩ := point
  by_cases same : vreg = named
  · subst same
    have grown : known ∪ pointsOf [(vreg, index)] vreg = insert index known := by
      ext other
      simp [or_comm]
    rw [grown]
    cases found : ranges[vreg]?.join with
    | none =>
      rw [found] at hull
      simpa [Liveness.extend, found, List.getElem?_set_self inside] using hull.point index
    | some range =>
      rw [found] at hull
      simpa [Liveness.extend, found, List.getElem?_set_self inside] using hull.extend index
  · have same' : known ∪ pointsOf [(named, index)] vreg = known := by
      ext other
      simp [same]
    have kept : (Liveness.extend ranges (named, index))[vreg]? = ranges[vreg]? := by
      simp only [Liveness.extend]
      split <;> exact List.getElem?_set_ne (Ne.symm same)
    rwa [same', kept]

/-- Extending by a list of points adds exactly the register's own. -/
theorem foldl_extend_spec {vreg : VReg} (points : List (VReg × Nat)) (ranges : Ranges) (inside : vreg < ranges.length)
    (known : Set Nat) (hull : IsHull known ranges[vreg]?.join) :
    IsHull (known ∪ pointsOf points vreg) (points.foldl Liveness.extend ranges)[vreg]?.join := by
  induction points generalizing ranges known with
  | nil =>
    have none' : known ∪ pointsOf [] vreg = known := by
      ext other
      simp
    rwa [none']
  | cons point points ih =>
    have rest := ih _ (by rwa [length_extend]) _ (extend_spec point inside hull)
    have grown : known ∪ pointsOf (point :: points) vreg = known ∪ pointsOf [point] vreg ∪ pointsOf points vreg := by
      ext other
      simp [or_assoc]
    rwa [grown]

section Points
variable {numInsts vregCount : Nat} {successors : Successors} {instUses instDefs : VRegTable}

/-- Where a register is defined or used. -/
def mentions (numInsts : Nat) (instUses instDefs : VRegTable) (vreg : VReg) : Set Nat :=
  fun index => index < numInsts ∧ (vreg ∈ vregs instDefs index ∨ vreg ∈ vregs instUses index)

/-- Where a register is defined, used or live. -/
def needed (numInsts : Nat) (successors : Successors) (instUses instDefs : VRegTable) (vreg : VReg) : Set Nat :=
  fun index => index < numInsts ∧ (vreg ∈ vregs instDefs index ∨ vreg ∈ vregs instUses index ∨
    (flowGraph successors instUses instDefs).LiveIn index vreg)

/-- Where the boundaries of a block name a register. -/
def boundary (numInsts : Nat) (successors : Successors) (instUses instDefs : VRegTable) (vreg : VReg) (block : Nat) :
    Set Nat :=
  let (start, stop) := (partitionBlocks numInsts successors).span block
  {index | index = start ∧ (flowGraph successors instUses instDefs).LiveIn start vreg ∨
    index = stop ∧ (flowGraph successors instUses instDefs).LiveOut stop vreg}

theorem buildLiveRanges_acyclic (successors : Successors) {vreg : VReg} (inside : vreg < vregCount) :
    IsHull (mentions numInsts instUses instDefs vreg)
      (buildLiveRanges numInsts vregCount instUses instDefs successors none)[vreg]?.join := by
  have filed := foldl_extend_spec ((List.range numInsts).flatMap (instPoints instUses instDefs))
    (List.replicate vregCount none) (by simpa using inside) ∅ (by simp [IsHull, inside])
  have points : ∅ ∪ pointsOf ((List.range numInsts).flatMap (instPoints instUses instDefs)) vreg =
      mentions numInsts instUses instDefs vreg := by
    ext index
    simp only [Set.empty_union, mem_pointsOf, List.mem_flatMap, List.mem_range, instPoints, List.mem_map,
      Prod.mk.injEq, List.mem_append]
    constructor
    · rintro ⟨_, indexInside, _, named, rfl, rfl⟩
      exact ⟨indexInside, named⟩
    · rintro ⟨indexInside, named⟩
      exact ⟨index, indexInside, vreg, named, rfl, rfl⟩
  rwa [points] at filed

variable (wellFormed : WellFormed numInsts vregCount successors instUses)
include wellFormed

theorem mem_blockOut_iff {block first past : Nat} {vreg : VReg}
    (span : (partitionBlocks numInsts successors).span block = (first, past - 1))
    (leads : ∀ next ∈ succs successors (past - 1), isLeader numInsts successors next = true) :
    vreg ∈ blockOut successors (partitionBlocks numInsts successors)
        (solutionOf (solveBlockLiveness successors instUses instDefs (partitionBlocks numInsts successors) vregCount)) block ↔
      (flowGraph successors instUses instDefs).LiveOut (past - 1) vreg := by
  have solved : ∀ next ∈ succs successors (past - 1),
      (vreg ∈ solveBlockLiveness successors instUses instDefs (partitionBlocks numInsts successors) vregCount
        ((partitionBlocks numInsts successors).of next) ↔ (flowGraph successors instUses instDefs).LiveIn next vreg) := by
    intro next edge
    have inside := wellFormed.targets _ _ edge
    obtain ⟨start, stop, spans⟩ := exists_spans successors inside
    rw [mem_solveBlockLiveness wellFormed instDefs (of_lt successors inside), spans.span, spans.first_eq (leads next edge)]
  constructor
  · rintro ⟨next, edge, live⟩
    rw [span] at edge
    exact ⟨next, edge, (solved next edge).mp live⟩
  · rintro ⟨next, edge, live⟩
    exact ⟨next, by rw [span]; exact edge, (solved next edge).mpr live⟩

/-- One block's boundaries extend the ranges by that block's boundary points. -/
theorem extendBoundaries_spec {vreg : VReg} {block : Nat} (inside : block < (partitionBlocks numInsts successors).len)
    {state : Ranges × WorkingLiveSet} (named : vreg < state.1.length) {known : Set Nat}
    (hull : IsHull known state.1[vreg]?.join) :
    let cyclic : BlockLiveness := ⟨partitionBlocks numInsts successors,
      solveBlockLiveness successors instUses instDefs (partitionBlocks numInsts successors) vregCount⟩
    (extendBoundaries successors cyclic state block).1.length = state.1.length ∧
      IsHull (known ∪ boundary numInsts successors instUses instDefs vreg block)
        (extendBoundaries successors cyclic state block).1[vreg]?.join := by
  intro cyclic
  obtain ⟨inst, instInside, rfl⟩ := exists_of inside
  obtain ⟨first, past, spans⟩ := exists_spans successors instInside
  have liveIn := mem_solveBlockLiveness wellFormed instDefs inside vreg
  rw [spans.span] at liveIn
  have liveOut := (collectBlockLiveOut_spec successors cyclic.blocks ((partitionBlocks numInsts successors).of inst)
    cyclic.liveIn state.2).2 vreg
  rw [mem_blockOut_iff wellFormed spans.span fun next edge => spans.exit_leads edge (wellFormed.targets _ _ edge)] at liveOut
  simp only [extendBoundaries, cyclic, spans.span]
  refine ⟨length_foldl_extend _ _, ?_⟩
  convert foldl_extend_spec _ _ named _ hull using 2
  ext index
  simp only [boundary, spans.span, Set.mem_ofPred_eq, mem_pointsOf, List.mem_append, List.mem_map, Prod.mk.injEq]
  refine or_congr ⟨?_, ?_⟩ ⟨?_, ?_⟩
  · rintro ⟨rfl, live⟩
    exact ⟨vreg, liveIn.mpr live, rfl, rfl⟩
  · rintro ⟨_, live, rfl, rfl⟩
    exact ⟨rfl, liveIn.mp live⟩
  · rintro ⟨rfl, live⟩
    exact ⟨vreg, liveOut.mpr live, rfl, rfl⟩
  · rintro ⟨_, live, rfl, rfl⟩
    exact ⟨rfl, liveOut.mp live⟩

theorem foldl_extendBoundaries_spec (instDefs : VRegTable) {vreg : VReg} (blocks : List Nat)
    (inside : ∀ block ∈ blocks, block < (partitionBlocks numInsts successors).len)
    (state : Ranges × WorkingLiveSet) (named : vreg < state.1.length) {known : Set Nat}
    (hull : IsHull known state.1[vreg]?.join) :
    let cyclic : BlockLiveness := ⟨partitionBlocks numInsts successors,
      solveBlockLiveness successors instUses instDefs (partitionBlocks numInsts successors) vregCount⟩
    IsHull (known ∪ {index | ∃ block ∈ blocks, index ∈ boundary numInsts successors instUses instDefs vreg block})
      (blocks.foldl (extendBoundaries successors cyclic) state).1[vreg]?.join := by
  intro cyclic
  induction blocks generalizing state known with
  | nil => simpa using hull
  | cons block blocks ih =>
    obtain ⟨length, step⟩ := extendBoundaries_spec wellFormed (inside block List.mem_cons_self) named hull
    have rest := ih (fun other member => inside other (List.mem_cons_of_mem _ member)) _ (by rwa [length]) step
    rw [List.foldl_cons]
    convert rest using 1
    ext index
    simp [or_assoc]

/-- Inside a block, liveness persists downward to a mention or the block's start. -/
theorem live_low {vreg first past : Nat} (count : Nat) (spans : Spans numInsts successors first first past)
    (small : first + count < past) (live : (flowGraph successors instUses instDefs).LiveIn (first + count) vreg) :
    ∃ low ≤ first + count, low ∈ mentions numInsts instUses instDefs vreg ∨
      low = first ∧ (flowGraph successors instUses instDefs).LiveIn first vreg := by
  have := spans.past_le
  induction count with
  | zero => exact ⟨first, Nat.le_refl _, Or.inr ⟨rfl, live⟩⟩
  | succ count ih =>
    by_cases mentioned : vreg ∈ vregs instDefs (first + count) ∨ vreg ∈ vregs instUses (first + count)
    · exact ⟨first + count, by omega, Or.inl ⟨by omega, mentioned⟩⟩
    · have edge : first + count + 1 ∈ succs successors (first + count) := by
        rw [spans.falls wellFormed.sized (by omega) (by omega)]
        exact List.mem_singleton_self _
      obtain ⟨low, below, found⟩ := ih (by omega) (.through (fun defined => mentioned (Or.inl defined)) edge live)
      exact ⟨low, by omega, found⟩

/-- Inside a block, liveness persists upward to a mention or the block's end. -/
theorem live_high {vreg first past position : Nat} (rest : Nat) (spans : Spans numInsts successors first first past)
    (above : first ≤ position) (left : position + rest + 1 = past)
    (live : (flowGraph successors instUses instDefs).LiveIn position vreg) :
    ∃ high ≥ position, high ∈ mentions numInsts instUses instDefs vreg ∨
      high = past - 1 ∧ (flowGraph successors instUses instDefs).LiveOut (past - 1) vreg := by
  have := spans.past_le
  induction rest generalizing position with
  | zero =>
    obtain rfl : position = past - 1 := by omega
    rcases FlowGraph.liveIn_iff.mp live with used | ⟨_, leaving⟩
    · exact ⟨past - 1, Nat.le_refl _, Or.inl ⟨by omega, Or.inr used⟩⟩
    · exact ⟨past - 1, Nat.le_refl _, Or.inr ⟨rfl, leaving⟩⟩
  | succ rest ih =>
    rcases FlowGraph.liveIn_iff.mp live with used | ⟨_, next, edge, later⟩
    · exact ⟨position, Nat.le_refl _, Or.inl ⟨by omega, Or.inr used⟩⟩
    · have edge : next ∈ succs successors position := edge
      rw [spans.falls wellFormed.sized above (by omega), List.mem_singleton] at edge
      subst edge
      obtain ⟨high, beyond, found⟩ := ih (by omega) (by omega) later
      exact ⟨high, by omega, found⟩

/-- The cyclic construction. Every needed point lies between two contributed ones. -/
theorem buildLiveRanges_cyclic {vreg : VReg} (named : vreg < vregCount) :
    IsHull (needed numInsts successors instUses instDefs vreg)
      (buildLiveRanges numInsts vregCount instUses instDefs successors
        (some ⟨partitionBlocks numInsts successors,
          solveBlockLiveness successors instUses instDefs (partitionBlocks numInsts successors) vregCount⟩))[vreg]?.join := by
  have built := foldl_extendBoundaries_spec wellFormed instDefs
    (List.range (partitionBlocks numInsts successors).len) (fun block => List.mem_range.mp)
    (buildLiveRanges numInsts vregCount instUses instDefs successors none, .new)
    (by simpa [buildLiveRanges] using named)
    (buildLiveRanges_acyclic successors named)
  refine built.of_bracket ?_ ?_
  · rintro index (⟨inside, defined | used⟩ | ⟨block, member, atBoundary⟩)
    · exact ⟨inside, Or.inl defined⟩
    · exact ⟨inside, Or.inr (Or.inl used)⟩
    · obtain ⟨inst, instInside, rfl⟩ := exists_of (List.mem_range.mp member)
      obtain ⟨first, past, spans⟩ := exists_spans successors instInside
      have := spans.first_le
      have := spans.lt_past
      have := spans.past_le
      simp only [boundary, spans.span] at atBoundary
      rcases atBoundary with ⟨rfl, live⟩ | ⟨rfl, leaving⟩
      · exact ⟨by omega, Or.inr (Or.inr live)⟩
      · refine ⟨by omega, ?_⟩
        by_cases defined : vreg ∈ vregs instDefs (past - 1)
        · exact Or.inl defined
        · exact Or.inr (Or.inr (FlowGraph.liveIn_iff.mpr (Or.inr ⟨defined, leaving⟩)))
  · rintro index ⟨inside, mentioned⟩
    rw [← or_assoc] at mentioned
    rcases mentioned with mentioned | live
    · exact ⟨index, Or.inl ⟨inside, mentioned⟩, index, Or.inl ⟨inside, mentioned⟩, Nat.le_refl _, Nat.le_refl _⟩
    · obtain ⟨first, past, spans⟩ := exists_spans successors inside
      have block := List.mem_range.mpr (of_lt successors inside)
      have bounded := spans.first_le
      have := spans.lt_past
      obtain ⟨low, below, lowFound⟩ := live_low wellFormed (index - first) spans.atFirst (by omega)
        (by rwa [Nat.add_sub_cancel' bounded])
      obtain ⟨high, above, highFound⟩ := live_high wellFormed (past - 1 - index) spans.atFirst bounded
        (by omega) live
      refine ⟨low, ?_, high, ?_, by omega, above⟩
      · refine lowFound.imp id fun start => ⟨_, block, ?_⟩
        simp only [boundary, spans.span]
        exact Or.inl start
      · refine highFound.imp id fun stop => ⟨_, block, ?_⟩
        simp only [boundary, spans.span]
        exact Or.inr stop

/-- Without back edges, and with no register live into a root, mentions bracket
every needed point: liveness runs forward to a use and back to a definition. -/
theorem buildLiveRanges_loopFree {vreg : VReg} (named : vreg < vregCount)
    (forward : ∀ source, ∀ target ∈ succs successors source, source < target)
    (rooted : ∀ root < numInsts, (∀ source, root ∉ succs successors source) →
      ¬ (flowGraph successors instUses instDefs).LiveIn root vreg) :
    IsHull (needed numInsts successors instUses instDefs vreg)
      (buildLiveRanges numInsts vregCount instUses instDefs successors none)[vreg]?.join := by
  have high : ∀ {index vreg}, (flowGraph successors instUses instDefs).LiveIn index vreg → index < numInsts →
      ∃ high ∈ mentions numInsts instUses instDefs vreg, index ≤ high := by
    intro index vreg live
    induction live with
    | use read => exact fun inside => ⟨_, ⟨inside, Or.inr read⟩, Nat.le_refl _⟩
    | through _ edge _ ih =>
      intro _
      obtain ⟨high, member, above⟩ := ih (wellFormed.targets _ _ edge)
      exact ⟨high, member, Nat.le_trans (Nat.le_of_lt (forward _ _ edge)) above⟩
  have low : ∀ index < numInsts, (flowGraph successors instUses instDefs).LiveIn index vreg →
      ∃ low ∈ mentions numInsts instUses instDefs vreg, low ≤ index := by
    intro index
    induction index using Nat.strong_induction_on with
    | _ index ih =>
      intro inside live
      by_cases root : ∀ source, index ∉ succs successors source
      · exact absurd live (rooted index inside root)
      · obtain ⟨source, edge⟩ := not_forall_not.mp root
        have before := forward source index edge
        by_cases defined : vreg ∈ vregs instDefs source
        · exact ⟨source, ⟨by omega, Or.inl defined⟩, Nat.le_of_lt before⟩
        · obtain ⟨low, member, below⟩ := ih source before (by omega) (.through defined edge live)
          exact ⟨low, member, by omega⟩
  refine (buildLiveRanges_acyclic successors named).of_bracket ?_ ?_
  · exact fun index ⟨inside, mentioned⟩ => ⟨inside, or_assoc.mp (Or.inl mentioned)⟩
  · rintro index ⟨inside, mentioned⟩
    rw [← or_assoc] at mentioned
    rcases mentioned with mentioned | live
    · exact ⟨index, ⟨inside, mentioned⟩, index, ⟨inside, mentioned⟩, Nat.le_refl _, Nat.le_refl _⟩
    · obtain ⟨lowest, lowMember, below⟩ := low index inside live
      obtain ⟨highest, highMember, above⟩ := high live inside
      exact ⟨lowest, lowMember, highest, highMember, below, above⟩

end Points

section Programs
variable {Reg : Type} (program : Program Reg)

def graph : FlowGraph VReg := flowGraph program.successors program.instUses program.instDefs

/-- The reference: where a register is defined, used, or live by per-instruction dataflow. -/
def reference (vreg : VReg) : Set Nat :=
  needed program.numInsts program.successors program.instUses program.instDefs vreg

/-- No path from an instruction that nothing leads to reads a register before
writing it. -/
def RootsClear : Prop :=
  ∀ root < program.numInsts, (∀ source, root ∉ succs program.successors source) → ∀ vreg, ¬ (graph program).LiveIn root vreg

private theorem table_entry {α β : Type} (items : List α) (field : α → List β) {index : Nat} {value : β}
    (member : value ∈ (items.map field)[index]?.getD []) : ∃ item ∈ items, value ∈ field item := by
  rw [List.getElem?_map] at member
  cases found : items[index]? with
  | none => simp [found] at member
  | some item =>
    rw [found] at member
    exact ⟨item, List.mem_of_getElem? found, member⟩

theorem wellFormed : WellFormed program.numInsts program.vregCount program.successors program.instUses := by
  refine ⟨by simp [Program.successors, Program.numInsts], ?_, ?_⟩
  · intro source target edge
    obtain ⟨inst, listed, named⟩ := table_entry program.insts InstFacts.successors edge
    exact program.targets_lt inst listed target named
  · intro index vreg member
    obtain ⟨inst, listed, named⟩ := table_entry program.insts InstFacts.uses member
    exact program.vregs_lt inst listed vreg (Or.inl named)

variable {program}

theorem reference_lt {vreg index : Nat} (member : index ∈ reference program vreg) : vreg < program.vregCount := by
  obtain ⟨_, defined | used | live⟩ := member
  · obtain ⟨inst, listed, named⟩ := table_entry program.insts InstFacts.defs defined
    exact program.vregs_lt inst listed vreg (Or.inr named)
  · exact (wellFormed program).uses _ _ used
  · exact (wellFormed program).liveIn_lt live

theorem forward_of_hasBackEdge {successors : Successors} (loopFree : hasBackEdge successors = false) {source target : Nat}
    (edge : target ∈ succs successors source) : source < target := by
  have inside := mem_succs_lt edge
  simp only [hasBackEdge, List.any_eq_false] at loopFree
  have row := loopFree (succs successors source, source)
    (by rw [List.mem_zipIdx_iff_getElem?, succs, List.getElem?_eq_getElem inside, Option.getD_some])
  simp only [List.any_eq_true, decide_eq_true_eq, not_exists, not_and, Nat.not_le] at row
  exact row target edge

theorem length_liveRanges : program.liveRanges.length = program.vregCount := by
  have acyclic : ∀ successors, (buildLiveRanges program.numInsts program.vregCount program.instUses program.instDefs
      successors none).length = program.vregCount := by
    simp [buildLiveRanges]
  have cyclic : ∀ (blockLiveness : BlockLiveness) (blocks : List Nat) (state : Ranges × WorkingLiveSet),
      (blocks.foldl (extendBoundaries program.successors blockLiveness) state).1.length = state.1.length := by
    intro blockLiveness blocks
    induction blocks with
    | nil => exact fun state => rfl
    | cons block blocks ih =>
      intro state
      rw [List.foldl_cons, ih]
      exact length_foldl_extend _ _
  simp only [Program.liveRanges, buildLiveRanges]
  cases program.blockLiveness with
  | none => exact acyclic program.successors
  | some blockLiveness => exact (cyclic _ _ _).trans (acyclic program.successors)

/-- The analysis computes the reference range of every register, with or without
back edges. Only the loop-free pass, which never solves the dataflow, needs
every root to be clear. -/
theorem liveRanges_eq_reference (program : Program Reg)
    (rooted : hasBackEdge program.successors = false → RootsClear program) (vreg : VReg) :
    IsHull (reference program vreg) program.liveRanges[vreg]?.join := by
  by_cases named : vreg < program.vregCount
  · simp only [Program.liveRanges, Program.blockLiveness]
    cases backEdge : hasBackEdge program.successors with
    | true => exact buildLiveRanges_cyclic (wellFormed program) named
    | false =>
      exact buildLiveRanges_loopFree (wellFormed program) named (fun _ _ => forward_of_hasBackEdge backEdge)
        fun root inside unreached => rooted backEdge root inside unreached vreg
  · rw [List.getElem?_eq_none (by rw [length_liveRanges]; exact Nat.le_of_not_lt named)]
    exact Set.eq_empty_of_forall_notMem fun index member => named (reference_lt member)

/-- Define a register, then read it twice. -/
def straightLine : Program Nat :=
  { insts := [⟨[1], [], [0], [], false⟩, ⟨[2], [0], [], [], false⟩, ⟨[], [0], [], [], false⟩]
    vregCount := 1
    vregClasses := []
    targets_lt := by decide
    vregs_lt := by simp }

theorem straightLine_eq_reference : IsHull (reference straightLine 0) (some ⟨0, 2, by decide⟩) := by
  refine liveRanges_eq_reference straightLine (fun _ root inside unreached vreg live => ?_) 0
  match root, inside with
  | 0, _ =>
    rcases FlowGraph.liveIn_iff.mp live with used | ⟨kept, next, edge, later⟩
    · exact List.not_mem_nil used
    · obtain rfl : next = 1 := List.mem_singleton.mp edge
      rcases FlowGraph.liveIn_iff.mp later with used | ⟨_, next, edge, last⟩
      · exact kept used
      · obtain rfl : next = 2 := List.mem_singleton.mp edge
        rcases FlowGraph.liveIn_iff.mp last with used | ⟨_, next, edge, _⟩
        · exact kept used
        · exact List.not_mem_nil edge
  | 1, _ => exact unreached 0 (by decide)
  | 2, _ => exact unreached 1 (by decide)

/-- An instruction that never continues, and unreachable code that reads a
register nothing writes. -/
def unreachableUse : Program Nat :=
  { insts := [⟨[], [], [], [], false⟩, ⟨[2], [], [], [], false⟩, ⟨[], [0], [], [], false⟩]
    vregCount := 1
    vregClasses := []
    targets_lt := by decide
    vregs_lt := by simp }

/-- A clear entry is not enough. The unreachable path makes the register live
before its only mention. -/
theorem unreachableUse_shortens : hasBackEdge unreachableUse.successors = false ∧
    (∀ vreg, ¬ (graph unreachableUse).LiveIn 0 vreg) ∧
    ¬ IsHull (reference unreachableUse 0) unreachableUse.liveRanges[0]?.join := by
  refine ⟨by decide, fun vreg live => ?_, fun hull => ?_⟩
  · rcases FlowGraph.liveIn_iff.mp live with used | ⟨_, next, edge, _⟩
    · exact List.not_mem_nil used
    · exact List.not_mem_nil edge
  · have built : unreachableUse.liveRanges[0]?.join = some ⟨2, 2, by decide⟩ := by decide
    rw [built] at hull
    have early : 1 ∈ reference unreachableUse 0 :=
      ⟨by decide, Or.inr (Or.inr (.through List.not_mem_nil List.mem_cons_self (.use List.mem_cons_self)))⟩
    have := (hull.covers early).1
    contradiction

end Programs

end Rue.Proofs.LiveRanges
