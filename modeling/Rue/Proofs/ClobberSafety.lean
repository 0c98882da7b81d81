import Rue.Proofs.LiveRanges
import Rue.Proofs.Coalescing
import Rue.Proofs.Divergence
import Rue.Proofs.Allocation

/-! No register is destroyed under a live value. A path from a definition to a
use stays inside the live range; inside it the clobber index is exact up to
clobbers that abort, and a path that enters a diverging region reads the value
in one. -/

namespace Rue.Proofs.ClobberSafety
open Rue.Codegen Liveness Rue.Lib Blocks BlockSolve SolveRun LiveRanges LinearScanSafety Allocation SaveSet

theorem countsFrom_getElem? (running : Nat) (events : List Bool) {index : Nat} (inside : index ≤ events.length) :
    (countsFrom running events)[index]? = some (running + (events.take index).countP id) := by
  induction events generalizing running index with
  | nil =>
    obtain rfl : index = 0 := by simpa using inside
    rfl
  | cons event events ih =>
    cases index with
    | zero => rfl
    | succ index =>
      rw [countsFrom, List.getElem?_cons_succ, ih _ (by simpa using inside)]
      cases event <;> simp
      omega

@[simp] theorem length_countsFrom (running : Nat) (events : List Bool) :
    (countsFrom running events).length = events.length + 1 := by
  induction events generalizing running with
  | nil => rfl
  | cons event events ih => simp [countsFrom, ih]

/-- Equal counts at both ends leave no event between them. -/
theorem no_event_of_countsEvent {events : List Bool} {range : LiveRange}
    (quiet : countsEvent (prefixCounts events) range = false) {index : Nat} (covered : range.Covers index) :
    events[index]?.getD false = false := by
  by_contra loud
  have event : events[index]? = some true := by
    cases found : events[index]? with
    | none => simp [found] at loud
    | some event => simpa [found] using loud
  have inside := (List.getElem?_eq_some_iff.mp event).1
  obtain ⟨above, below⟩ := covered
  simp only [countsEvent, prefixCounts, length_countsFrom, Nat.add_sub_cancel] at quiet
  rw [Nat.min_eq_left (show range.start ≤ events.length by omega), countsFrom_getElem? 0 events (by omega),
    countsFrom_getElem? 0 events (Nat.min_le_right _ _)] at quiet
  simp only [Nat.zero_add, Option.getD_some, decide_eq_false_iff_not, Nat.not_lt] at quiet
  have before : (events.take range.start).countP id ≤ (events.take index).countP id :=
    (List.take_sublist_take_left above).countP_le
  have after : (events.take (index + 1)).countP id ≤ (events.take (min (range.end + 1) events.length)).countP id :=
    (List.take_sublist_take_left (by omega)).countP_le
  have step : (events.take (index + 1)).countP id = (events.take index).countP id + 1 := by
    rw [List.take_add_one, event, List.countP_append]
    rfl
  omega

variable {Reg : Type} [DecidableEq Reg]

/-- A tracked register that is not clobbered in a range is destroyed there by no
instruction that returns, except a diverging one when those are ignored. -/
theorem not_counted_of_survives {liveness : LivenessInfo Reg} {tracked : List Reg} {reg : Reg} (known : reg ∈ tracked)
    {range : LiveRange} {ignoreDiverging : Bool}
    (quiet : (ClobberIndex.build liveness tracked).isClobberedDuring reg range ignoreDiverging = false)
    {index : Nat} (inside : index < liveness.instructionCount) (covered : range.Covers index)
    (relaxed : liveness.divergesAt index = true → ignoreDiverging = false) :
    ClobberIndex.counted liveness reg index = false := by
  have indexed : ∀ flag : Nat → Bool, ((List.range liveness.instructionCount).map flag)[index]?.getD false = flag index := by
    intro flag
    rw [List.getElem?_map, List.getElem?_range inside]
    rfl
  obtain ⟨entry, found⟩ : ∃ entry, tracked.find? (fun entry => decide (entry = reg)) = some entry := by
    rw [← Option.isSome_iff_exists, List.find?_isSome]
    exact ⟨reg, known, decide_eq_true rfl⟩
  obtain rfl : entry = reg := by simpa using List.find?_some found
  have nonempty : ∀ events, (prefixCounts events).isEmpty = false := by
    intro events
    cases events <;> rfl
  have asked : countsEvent (if ignoreDiverging && ClobberIndex.hasDivergingClobber liveness then
      prefixCounts ((List.range liveness.instructionCount).map fun index =>
        ClobberIndex.counted liveness entry index && !liveness.divergesAt index)
      else prefixCounts ((List.range liveness.instructionCount).map (ClobberIndex.counted liveness entry))) range = false := by
    simp only [ClobberIndex.isClobberedDuring, ClobberIndex.build, List.find?_map, Function.comp_def, found,
      Option.map_some] at quiet
    rw [← quiet]
    cases ignoreDiverging <;> cases ClobberIndex.hasDivergingClobber liveness <;> simp [nonempty]
  split at asked
  next relaxing =>
    rw [Bool.and_eq_true] at relaxing
    have clear := no_event_of_countsEvent asked covered
    rw [indexed] at clear
    cases diverges : liveness.divergesAt index with
    | true =>
      rw [relaxed diverges] at relaxing
      exact absurd relaxing.1 Bool.false_ne_true
    | false => simpa [diverges] using clear
  next =>
    have clear := no_event_of_countsEvent asked covered
    rwa [indexed] at clear

/-- Control runs from a definition of the register through `path` to a use,
writing the register nowhere between. Every instruction on the way returns. -/
structure Reaches (program : Program Reg) (vreg : VReg) (start : Nat) (path : List Nat) (stop : Nat) : Prop where
  defined : vreg ∈ vregs program.instDefs start
  used : vreg ∈ vregs program.instUses stop
  edges : List.IsChain (fun first second => second ∈ succs program.successors first) (start :: path ++ [stop])
  kept : ∀ index ∈ path, vreg ∉ vregs program.instDefs index
  continues : ∀ index ∈ path, program.analyze.isNonReturning index = false

variable {program : Program Reg} {vreg start stop : Nat} {path : List Nat}

omit [DecidableEq Reg] in
theorem vregs_lt_length {table : VRegTable} {index : Nat} {vreg : VReg} (member : vreg ∈ vregs table index) :
    index < table.length := by
  by_contra outside
  rw [vregs, List.getElem?_eq_none (Nat.le_of_not_lt outside)] at member
  cases member

omit [DecidableEq Reg] in
/-- The points a range is the hull of include both ends of the path. Around a
loop they include the whole path; without one, indices only grow along it. -/
theorem Reaches.hull (reaches : Reaches program vreg start path stop) :
    ∃ points, IsHull points program.liveRanges[vreg]?.join ∧ start ∈ points ∧ stop ∈ points ∧
      ∀ index ∈ path, index ∈ points ∨ start < index ∧ index < stop := by
  have startInside := vregs_lt_length reaches.defined
  have stopInside := vregs_lt_length reaches.used
  simp only [Program.instDefs, Program.instUses, List.length_map] at startInside stopInside
  cases backEdge : hasBackEdge program.successors with
  | true =>
    refine ⟨reference program vreg, liveRanges_eq_reference program (fun loopFree => ?_) vreg,
      ⟨startInside, Or.inl reaches.defined⟩, ⟨stopInside, Or.inr (Or.inl reaches.used)⟩, ?_⟩
    · rw [backEdge] at loopFree
      cases loopFree
    · intro index member
      cases path with
      | nil => cases member
      | cons node path =>
        have edges := reaches.edges
        simp only [List.cons_append, List.isChain_cons_cons] at edges
        have live : (graph program).LiveIn index vreg :=
          FlowGraph.liveIn_of_path edges.2 reaches.kept reaches.used index member
        have inside : index < program.numInsts := by
          rcases FlowGraph.liveIn_iff.mp live with used | ⟨_, _, edge, _⟩
          · simpa [Program.instUses, Program.numInsts] using vregs_lt_length used
          · simpa [Program.successors, Program.numInsts] using mem_succs_lt edge
        exact Or.inl ⟨inside, Or.inr (Or.inr live)⟩
  | false =>
    have named : vreg < program.vregCount :=
      reference_lt (⟨startInside, Or.inl reaches.defined⟩ : start ∈ reference program vreg)
    have built : program.liveRanges = buildLiveRanges program.numInsts program.vregCount program.instUses
        program.instDefs program.successors none := by
      simp only [Program.liveRanges, Program.blockLiveness, backEdge, Bool.false_eq_true, if_false]
    refine ⟨mentions program.numInsts program.instUses program.instDefs vreg, ?_,
      ⟨startInside, Or.inl reaches.defined⟩, ⟨stopInside, Or.inr reaches.used⟩, ?_⟩
    · rw [built]
      exact buildLiveRanges_acyclic program.successors named
    · intro index member
      have ascending : (start :: path ++ [stop]).Pairwise (· < ·) :=
        List.isChain_iff_pairwise.mp (reaches.edges.imp fun _ _ edge => forward_of_hasBackEdge backEdge edge)
      rw [List.cons_append, List.pairwise_cons, List.pairwise_append] at ascending
      exact Or.inr ⟨ascending.1 index (List.mem_append_left _ member),
        ascending.2.2.2 index member stop (List.mem_singleton_self _)⟩

omit [DecidableEq Reg] in
/-- The register has a live range, and the path stays inside it. -/
theorem Reaches.covered (reaches : Reaches program vreg start path stop) :
    ∃ range, program.liveRanges[vreg]?.join = some range ∧ ∀ index ∈ path, range.Covers index := by
  obtain ⟨points, hull, startMember, stopMember, between⟩ := reaches.hull
  cases ranged : program.liveRanges[vreg]?.join with
  | none =>
    rw [ranged] at hull
    exact absurd startMember (Set.eq_empty_iff_forall_notMem.mp hull start)
  | some range =>
    rw [ranged] at hull
    refine ⟨range, rfl, fun index member => ?_⟩
    rcases between index member with found | ⟨above, below⟩
    · exact hull.covers found
    · have := (hull.covers startMember).1
      have := (hull.covers stopMember).2
      exact ⟨by omega, by omega⟩

omit [DecidableEq Reg] in
theorem analyze_eq (occupied : program.numInsts ≠ 0) :
    program.analyze.divergingAt = computeDivergence program.successors (program.insts.map InstFacts.nonReturning) ∧
      program.analyze.divergingUses = collectDivergingUses program.vregCount program.instUses program.analyze.divergingAt ∧
      program.analyze.ranges = program.liveRanges ∧
      program.analyze.clobbersAt = program.insts.map InstFacts.clobbers ∧
      program.analyze.nonReturningAt = program.insts.map InstFacts.nonReturning := by
  simp only [Program.analyze, occupied, if_false, and_self]

/-- Reading a register at a diverging instruction flags it. -/
theorem hasDivergingUse_of_use {vregCount : Nat} {instUses : VRegTable} {diverging : List Bool} {index vreg : Nat}
    (diverges : diverging[index]?.getD false = true) (used : vreg ∈ vregs instUses index) :
    (collectDivergingUses vregCount instUses diverging)[vreg]?.getD true = true := by
  have keeps : ∀ (uses : List VReg) (table : List Bool), table[vreg]?.getD true = true ∨ vreg ∈ uses →
      (uses.foldl (fun table vreg => table.set vreg true) table)[vreg]?.getD true = true := by
    intro uses
    induction uses with
    | nil => exact fun table either => either.elim id fun member => absurd member List.not_mem_nil
    | cons other uses ih =>
      intro table either
      refine ih _ ?_
      by_cases same : other = vreg
      · subst same
        refine Or.inl ?_
        rw [List.getElem?_set]
        by_cases inside : other < table.length <;> simp [inside]
      · rw [List.getElem?_set_ne same]
        exact either.imp id fun member => (List.mem_cons.mp member).resolve_left (Ne.symm same)
  suffices run : ∀ (indices : List Nat) (table : List Bool), table[vreg]?.getD true = true ∨ index ∈ indices →
      (indices.foldl (fun table index => if diverging[index]?.getD false then
        (vregs instUses index).foldl (fun table vreg => table.set vreg true) table else table) table)[vreg]?.getD true = true from
    run _ _ (Or.inr (List.mem_range.mpr (vregs_lt_length used)))
  intro indices
  induction indices with
  | nil => exact fun table either => either.elim id fun member => absurd member List.not_mem_nil
  | cons other indices ih =>
    intro table either
    refine ih _ ?_
    dsimp only
    by_cases same : index = other
    · subst same
      rw [if_pos diverges]
      exact Or.inl (keeps _ _ (Or.inr used))
    · refine either.imp (fun flagged => ?_) fun member => (List.mem_cons.mp member).resolve_left same
      split
      · exact keeps _ _ (Or.inl flagged)
      · exact flagged

omit [DecidableEq Reg] in
/-- A path that passes a diverging instruction ends in one. -/
theorem Reaches.diverges (reaches : Reaches program vreg start path stop) {index : Nat} (member : index ∈ path)
    (diverges : program.analyze.divergesAt index = true) : program.analyze.divergesAt stop = true := by
  have stopInside := vregs_lt_length reaches.used
  simp only [Program.instUses, List.length_map] at stopInside
  have occupied : program.numInsts ≠ 0 := by
    simp only [Program.numInsts]
    omega
  obtain ⟨marks, _, _, _, nonReturning⟩ := analyze_eq occupied
  have step : ∀ {first second}, second ∈ succs program.successors first → program.analyze.isNonReturning first = false →
      program.analyze.divergesAt first = true → program.analyze.divergesAt second = true := by
    intro first second edge returns marked
    simp only [LivenessInfo.divergesAt, LivenessInfo.isNonReturning, marks, nonReturning] at marked returns ⊢
    have wellFormed := wellFormed program
    refine (Divergence.computeDivergence_closed (by rw [wellFormed.sized]; exact wellFormed.targets)
      (by rw [wellFormed.sized]; simp [Program.numInsts]) marked).elim (fun aborts => ?_) fun all => all second edge
    rw [returns] at aborts
    cases aborts
  have walk : ∀ (after : List Nat) (index : Nat),
      List.IsChain (fun first second => second ∈ succs program.successors first) (index :: (after ++ [stop])) →
      (∀ inner ∈ index :: after, program.analyze.isNonReturning inner = false) →
      program.analyze.divergesAt index = true → program.analyze.divergesAt stop = true := by
    intro after
    induction after with
    | nil =>
      intro index edges returns marked
      exact step (List.isChain_cons_cons.mp edges).1 (returns index List.mem_cons_self) marked
    | cons next after ih =>
      intro index edges returns marked
      obtain ⟨edge, edges⟩ := List.isChain_cons_cons.mp edges
      exact ih next edges (fun inner found => returns inner (List.mem_cons_of_mem _ found))
        (step edge (returns index List.mem_cons_self) marked)
  obtain ⟨before, after, split⟩ := List.append_of_mem member
  refine walk after index (reaches.edges.suffix ⟨start :: before, by simp [split]⟩) ?_ diverges
  intro inner found
  refine reaches.continues inner ?_
  rw [split]
  exact List.mem_append_right _ found

/-- Only a register with a live range is given a home. -/
theorem home_ranged {ctx : ScanContext Reg} {vregCount existingLocals : Nat} {rest : List (VReg × LiveRange)}
    {state : ScanState Reg} (kept : Invariant ctx vregCount existingLocals rest state) (agenda : Agenda ctx vregCount rest)
    (ranged : ∀ vreg reg, state.assigned vreg = some (.register reg) → (ctx.liveness.range vreg).isSome = true) :
    ∀ vreg reg, (rest.foldl (scanInterval ctx) state).assigned vreg = some (.register reg) →
      (ctx.liveness.range vreg).isSome = true := by
  induction rest generalizing state with
  | nil => exact ranged
  | cons interval rest ih =>
    refine ih (scanInterval_preserves kept agenda) agenda.tail fun vreg reg assigned => ?_
    by_cases same : vreg = interval.1
    · rw [same, (agenda.ranged interval List.mem_cons_self).1, Option.isSome_some]
    · rcases decisions_cases kept agenda with
        ⟨_, _, _, update, _⟩ | ⟨_, held, _, _, _, _, elsewhere, update, _⟩ | ⟨_, _, _, _, update, _⟩
      · rw [update, Function.update_of_ne same] at assigned
        exact ranged vreg reg assigned
      · rw [update, Function.update_of_ne same] at assigned
        by_cases evicted : vreg = held.vreg
        · rw [evicted, Function.update_self, Option.some.injEq] at assigned
          exact absurd assigned (elsewhere reg)
        · rw [Function.update_of_ne evicted] at assigned
          exact ranged vreg reg assigned
      · rw [update, Function.update_of_ne same] at assigned
        exact ranged vreg reg assigned

/-- Whatever was coalesced, no instruction on a path from a definition to a use
destroys the caller-saved register the value is kept in. -/
theorem allocation_clobber_safe (program : Program Reg) (candidates : List CoalesceCandidate) (file : RegisterFile Reg)
    (existingLocals : Nat) (collectDebug : Bool) (costModel : CostModel) (loopInfo : LoopInfo)
    (vregInfo : IndexMap VRegInfo) (vreg : VReg) (reg : Reg) (start stop : Nat) (path : List Nat) :
    let coalesced := coalesce candidates program.analyze
    let home := coalesced.1.representative vreg
    let result := linearScanImplWithRemat program.vregCount coalesced.2 file existingLocals collectDebug costModel
      loopInfo vregInfo
    result.assigned home = some (.register reg) → reg ∉ (file.classes (coalesced.2.classOf home)).calleeSaved →
      Reaches program vreg start path stop → ∀ index ∈ path, reg ∉ program.analyze.clobbers index := by
  intro coalesced home result assigned callerSaved reaches index member
  let ctx := returnedPass program.vregCount coalesced.2 file existingLocals collectDebug costModel loopInfo vregInfo
  obtain ⟨sameLiveness, sameFile, sameInputs⟩ : ctx.liveness = coalesced.2 ∧ ctx.file = file ∧
      ctx.inputs = .new program.vregCount coalesced.2 file := returnedPass_inputs ..
  have inputs : ctx.inputs = .new program.vregCount ctx.liveness ctx.file := by rw [sameInputs, sameLiveness, sameFile]
  have kept := finalState_invariant program.vregCount existingLocals ctx inputs
  have same : result = scanIntervalsWithRemat program.vregCount existingLocals collectDebug ctx := result_is_pass ..
  have assigned : (finalState program.vregCount existingLocals ctx).assigned home = some (.register reg) := by
    rw [← assigned, same]
    rfl
  -- The home has a range that covers the path, and inherits the register's diverging uses.
  have ranged := home_ranged (initial_invariant program.vregCount existingLocals ctx inputs)
    (agenda program.vregCount ctx inputs) (fun vreg reg held => by rw [init_assigned] at held; cases held) home reg assigned
  obtain ⟨range, ranged⟩ := Option.isSome_iff_exists.mp ranged
  have coalescing := Coalescing.coalesce_kept candidates program.analyze
  have answers := coalescing.answers vreg
  obtain ⟨original, spanned, onPath⟩ := reaches.covered
  have stopInside := vregs_lt_length reaches.used
  simp only [Program.instUses, List.length_map] at stopInside
  have occupied : program.numInsts ≠ 0 := by
    simp only [Program.numInsts]
    omega
  obtain ⟨_, uses, ranges, clobbers, _⟩ := analyze_eq occupied
  have spanned : program.analyze.range vreg = some original := by
    rw [LivenessInfo.range, ranges]
    exact spanned
  rw [sameLiveness] at ranged
  have covered := answers.covers original range spanned ranged index (onPath index member)
  -- The register survives the home's range.
  obtain ⟨regs, survives⟩ := kept.homes home reg range assigned (by rw [sameLiveness]; exact ranged)
  simp only [ScanContext.survives, ScanContext.save, ScanContext.offDivergingPaths, sameLiveness, sameFile, sameInputs,
    ScanInputs.new, registerSurvivesRange, Bool.or_eq_true, SaveClasses.isCalleeSaved_iff, Bool.not_eq_true'] at regs survives
  have quiet := survives.resolve_left callerSaved
  have known := RegisterFile.mem_callerSavedFlattened ((List.mem_append.mp regs).resolve_right callerSaved)
  have sameClobbers : ∀ index, coalesced.2.clobbers index = program.analyze.clobbers index := by
    intro index
    exact congrArg (fun table => table[index]?.getD []) coalescing.clobbersAt
  have relaxed : coalesced.2.divergesAt index = true → (!coalesced.2.hasDivergingUse home) = false := by
    intro diverges
    have marked : program.analyze.divergesAt index = true := by
      rw [← diverges]
      exact (congrArg (fun table => table[index]?.getD false) coalescing.divergingAt).symm
    have flagged : program.analyze.hasDivergingUse vreg = true := by
      rw [LivenessInfo.hasDivergingUse, uses]
      exact hasDivergingUse_of_use (reaches.diverges member marked) reaches.used
    rw [Bool.not_eq_false']
    exact answers.diverging range ranged flagged
  by_cases inside : index < coalesced.2.instructionCount
  · have clear := not_counted_of_survives known quiet inside covered relaxed
    have returns : coalesced.2.isNonReturning index = false := by
      rw [← reaches.continues index member]
      exact congrArg (fun table => table[index]?.getD false) coalescing.nonReturningAt
    simpa [ClobberIndex.counted, returns, sameClobbers] using clear
  · have outside : coalesced.2.clobbers index = [] := by
      rw [LivenessInfo.clobbers, List.getElem?_eq_none (Nat.le_of_not_lt inside), Option.getD_none]
    rw [← sameClobbers, outside]
    exact List.not_mem_nil

/-- A value defined before a call that destroys register 0, and used after it. -/
def acrossCall : Program Nat :=
  { insts := [⟨[1], [], [0], [], false⟩, ⟨[2], [], [], [0], false⟩, ⟨[], [0], [], [], false⟩]
    vregCount := 1
    vregClasses := [.gp]
    targets_lt := by decide
    vregs_lt := by simp }

theorem acrossCall_reaches : Reaches acrossCall 0 0 [1] 2 :=
  ⟨by decide, by decide, by decide, by decide, by decide⟩

/-- With two caller-saved registers the value avoids the destroyed one. -/
theorem acrossCall_safe : ∀ index ∈ [1], 1 ∉ acrossCall.analyze.clobbers index :=
  allocation_clobber_safe acrossCall [] (.gpOnly ⟨[0, 1], [], [], by simp⟩) 0 false .default (.noLoops 3) [] 0 1 0 2 [1]
    (by decide) (by decide) acrossCall_reaches

/-- A callee-saved register is never asked, even where an instruction lists it
as destroyed. -/
theorem listed_calleeSaved_destroyed :
    (∀ vreg, ¬ (graph acrossCall).LiveIn 0 vreg) ∧
    (linearScanImplWithRemat 1 (coalesce [] acrossCall.analyze).2 (.gpOnly (.calleeSavedOnly [0])) 0 false .default
      (.noLoops 3) []).assigned ((coalesce [] acrossCall.analyze).1.representative 0) = some (.register 0) ∧
    Reaches acrossCall 0 0 [1] 2 ∧ 0 ∈ acrossCall.analyze.clobbers 1 ∧ acrossCall.analyze.isNonReturning 1 = false := by
  refine ⟨fun vreg live => ?_, by decide, acrossCall_reaches, by decide, by decide⟩
  rcases FlowGraph.liveIn_iff.mp live with used | ⟨kept, next, edge, later⟩
  · exact List.not_mem_nil used
  · obtain rfl : next = 1 := List.mem_singleton.mp edge
    rcases FlowGraph.liveIn_iff.mp later with used | ⟨_, next, edge, last⟩
    · exact List.not_mem_nil used
    · obtain rfl : next = 2 := List.mem_singleton.mp edge
      rcases FlowGraph.liveIn_iff.mp last with used | ⟨_, next, edge, _⟩
      · exact kept used
      · exact List.not_mem_nil edge

end Rue.Proofs.ClobberSafety
