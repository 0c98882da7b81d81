import Rue.Codegen.Coalesce
import Mathlib.Data.List.Induction

/-! Coalescing loses no fact. A representative that still has a range covers
every register merged into it, and is read on a diverging path if one of them is. -/

namespace Rue.Proofs.Coalescing
open Rue.Codegen

variable {Reg : Type}

/-- The representative answers for the register as the original liveness has it. -/
structure AnswersFor (original liveness : LivenessInfo Reg) (vreg representative : VReg) : Prop where
  covers : ∀ before after, original.range vreg = some before → liveness.range representative = some after →
    ∀ index, before.Covers index → after.Covers index
  diverging : ∀ after, liveness.range representative = some after → original.hasDivergingUse vreg = true →
    liveness.hasDivergingUse representative = true

structure Kept (original : LivenessInfo Reg) (state : CoalesceState Reg) : Prop where
  clobbersAt : state.liveness.clobbersAt = original.clobbersAt
  nonReturningAt : state.liveness.nonReturningAt = original.nonReturningAt
  divergingAt : state.liveness.divergingAt = original.divergingAt
  size : state.result.coalesceMap.length = state.liveness.ranges.length
  merged : ∀ vreg range, state.liveness.range vreg = some range → state.result.coalesceMap[vreg]?.join = none
  answers : ∀ vreg, AnswersFor original state.liveness vreg (state.result.representative vreg)

theorem init_kept (liveness : LivenessInfo Reg) : Kept liveness (CoalesceState.init liveness) := by
  have unmerged : ∀ vreg : VReg, (CoalesceState.init liveness).result.coalesceMap[vreg]?.join = none := by
    intro vreg
    simp only [CoalesceState.init, CoalesceResult.withVregCount, List.getElem?_replicate]
    split <;> rfl
  refine ⟨rfl, rfl, rfl, by simp [CoalesceState.init, CoalesceResult.withVregCount], fun vreg _ _ => unmerged vreg, ?_⟩
  intro vreg
  rw [CoalesceResult.representative, unmerged, Option.getD_none]
  refine ⟨?_, fun _ _ flagged => flagged⟩
  intro before after first second index covered
  obtain rfl : before = after := Option.some.inj (first.symm.trans second)
  exact covered

@[simp] theorem markEliminated_coalesceMap (result : CoalesceResult) (instIdx : Nat) :
    (result.markEliminated instIdx).coalesceMap = result.coalesceMap := by
  unfold CoalesceResult.markEliminated
  dsimp only
  split <;> rfl

theorem Kept.congr {original : LivenessInfo Reg} {first second : CoalesceState Reg} (kept : Kept original first)
    (liveness : second.liveness = first.liveness) (map : second.result.coalesceMap = first.result.coalesceMap) :
    Kept original second := by
  have representative : second.result.representative = first.result.representative := by
    funext vreg
    simp only [CoalesceResult.representative, map]
  refine ⟨?_, ?_, ?_, ?_, ?_, ?_⟩ <;> simp only [liveness, map, representative]
  · exact kept.clobbersAt
  · exact kept.nonReturningAt
  · exact kept.divergingAt
  · exact kept.size
  · exact kept.merged
  · exact kept.answers

section Merge
variable (liveness : LivenessInfo Reg) {absorbed representative : VReg}

theorem mergeInto_range (different : absorbed ≠ representative) {absorbedRange representativeRange : LiveRange}
    (absorbedRanged : liveness.range absorbed = some absorbedRange)
    (representativeRanged : liveness.range representative = some representativeRange) (vreg : VReg) :
    (liveness.mergeInto absorbed representative).range vreg =
      if vreg = absorbed then none
      else if vreg = representative then some (absorbedRange.hull representativeRange)
      else liveness.range vreg := by
  have inside : ∀ {vreg range}, liveness.range vreg = some range → vreg < liveness.ranges.length := by
    intro vreg range found
    by_contra outside
    rw [LivenessInfo.range, List.getElem?_eq_none (Nat.le_of_not_lt outside)] at found
    cases found
  have := inside absorbedRanged
  have := inside representativeRanged
  simp only [LivenessInfo.mergeInto, LivenessInfo.range] at absorbedRanged representativeRanged ⊢
  simp only [absorbedRanged, representativeRanged, LivenessInfo.mergedRange]
  by_cases gone : vreg = absorbed
  · subst gone
    rw [if_pos rfl, List.getElem?_set_self (by simpa using inside absorbedRanged)]
    rfl
  · rw [if_neg gone, List.getElem?_set_ne (Ne.symm gone)]
    by_cases grown : vreg = representative
    · subst grown
      rw [if_pos rfl, List.getElem?_set_self (by simpa using inside representativeRanged)]
      rfl
    · rw [if_neg grown, List.getElem?_set_ne (Ne.symm grown)]

/-- Flags only grow, and the representative gets the absorbed register's. -/
theorem mergeInto_hasDivergingUse (absorbed representative vreg : VReg) :
    (liveness.mergeInto absorbed representative).hasDivergingUse vreg =
      (liveness.hasDivergingUse vreg || vreg = representative && liveness.hasDivergingUse absorbed) := by
  simp only [LivenessInfo.mergeInto, LivenessInfo.hasDivergingUse]
  by_cases flagged : liveness.divergingUses[absorbed]?.getD true = true
  · simp only [flagged, ite_true, Bool.and_true]
    by_cases same : vreg = representative
    · subst same
      rw [List.getElem?_set]
      by_cases inside : vreg < liveness.divergingUses.length
      · simp [inside]
      · simp [inside]
    · rw [List.getElem?_set_ne (Ne.symm same)]
      simp [same]
  · simp [flagged]

end Merge

theorem Kept.merge {original : LivenessInfo Reg} {state : CoalesceState Reg} (kept : Kept original state)
    (instIdx : Nat) {dst src : VReg} (different : dst ≠ src) {dstRange srcRange : LiveRange}
    (dstRanged : state.liveness.range dst = some dstRange) (srcRanged : state.liveness.range src = some srcRange) :
    Kept original (state.merge instIdx dst src) := by
  have ranges := mergeInto_range state.liveness different dstRanged srcRanged
  have flags := mergeInto_hasDivergingUse state.liveness dst src
  have dstInside : dst < state.result.coalesceMap.length := by
    rw [kept.size]
    by_contra outside
    rw [LivenessInfo.range, List.getElem?_eq_none (Nat.le_of_not_lt outside)] at dstRanged
    cases dstRanged
  have map : (state.merge instIdx dst src).result.coalesceMap = state.result.coalesceMap.set dst (some src) := by
    simp [CoalesceState.merge]
  have root : ∀ {vreg range}, state.liveness.range vreg = some range → state.result.representative vreg = vreg := by
    intro vreg range ranged
    rw [CoalesceResult.representative, kept.merged vreg range ranged, Option.getD_none]
  have representative : ∀ vreg, (state.merge instIdx dst src).result.representative vreg =
      if vreg = dst then src else state.result.representative vreg := by
    intro vreg
    rw [CoalesceResult.representative, map]
    by_cases same : vreg = dst
    · subst same
      rw [if_pos rfl, List.getElem?_set_self dstInside]
      rfl
    · rw [if_neg same, List.getElem?_set_ne (Ne.symm same)]
      rfl
  refine ⟨kept.clobbersAt, kept.nonReturningAt, kept.divergingAt, ?_, ?_, ?_⟩
  · rw [map]
    simpa [CoalesceState.merge, LivenessInfo.mergeInto] using kept.size
  · intro vreg range ranged
    have found := (ranges vreg).symm.trans ranged
    rw [map]
    by_cases gone : vreg = dst
    · rw [if_pos gone] at found
      cases found
    · rw [List.getElem?_set_ne (Ne.symm gone)]
      by_cases grown : vreg = src
      · exact grown ▸ kept.merged src srcRange srcRanged
      · rw [if_neg gone, if_neg grown] at found
        exact kept.merged vreg range found
  · intro vreg
    rw [representative]
    by_cases moved : vreg = dst
    · subst moved
      have own := kept.answers vreg
      rw [root dstRanged] at own
      rw [if_pos rfl]
      refine ⟨?_, ?_⟩
      · intro before after originally ranged index covered
        have found := (ranges src).symm.trans ranged
        rw [if_neg (Ne.symm different), if_pos rfl, Option.some.injEq] at found
        exact found ▸ (own.covers before dstRange originally dstRanged index covered).hull_left srcRange
      · intro after _ flagged
        exact (flags src).trans (by simp [own.diverging dstRange dstRanged flagged])
    · rw [if_neg moved]
      have own := kept.answers vreg
      refine ⟨?_, ?_⟩
      · intro before after originally ranged index covered
        have found := (ranges (state.result.representative vreg)).symm.trans ranged
        by_cases gone : state.result.representative vreg = dst
        · rw [if_pos gone] at found
          cases found
        · rw [if_neg gone] at found
          by_cases grown : state.result.representative vreg = src
          · rw [if_pos grown, Option.some.injEq] at found
            exact found ▸ (own.covers before srcRange originally (grown ▸ srcRanged) index covered).hull_right dstRange
          · rw [if_neg grown] at found
            exact own.covers before after originally found index covered
      · intro after ranged flagged
        have found := (ranges (state.result.representative vreg)).symm.trans ranged
        have held : ∃ range, state.liveness.range (state.result.representative vreg) = some range := by
          by_cases gone : state.result.representative vreg = dst
          · rw [if_pos gone] at found
            cases found
          · by_cases grown : state.result.representative vreg = src
            · exact ⟨srcRange, grown ▸ srcRanged⟩
            · rw [if_neg gone, if_neg grown] at found
              exact ⟨after, found⟩
        obtain ⟨range, heldRange⟩ := held
        exact (flags _).trans (by simp [own.diverging range heldRange flagged])

theorem Kept.process {original : LivenessInfo Reg} {state : CoalesceState Reg} (kept : Kept original state)
    (candidate : CoalesceCandidate) : Kept original (state.process candidate) := by
  unfold CoalesceState.process
  dsimp only
  split
  · exact kept.congr rfl (by simp)
  next different =>
    split
    · exact kept.congr rfl rfl
    · split
      next dstRange srcRange dstRanged srcRanged =>
        split
        · refine Kept.merge ?_ _ different dstRanged srcRanged
          exact kept.congr rfl rfl
        · exact kept.congr rfl rfl
      next => exact kept.congr rfl rfl

/-- After any list of candidates, every representative answers for the
registers merged into it. -/
theorem coalesce_kept (candidates : List CoalesceCandidate) (liveness : LivenessInfo Reg) :
    Kept liveness (candidates.foldl CoalesceState.process (CoalesceState.init liveness)) := by
  suffices run : ∀ state, Kept liveness state → Kept liveness (candidates.foldl CoalesceState.process state) from
    run _ (init_kept liveness)
  induction candidates with
  | nil => exact fun state kept => kept
  | cons candidate candidates ih => exact fun state kept => ih _ (kept.process candidate)

end Rue.Proofs.Coalescing

/-! Moves taken in ascending order leave a flat map. What absorbs a register starts
at or before the move, so no later move can merge it away in turn. -/

namespace Rue.Proofs.Coalescing
open Rue.Codegen

variable {Reg : Type}

/-- Two registers that a move may give one register: of one class, and live together
at most at the move. -/
structure CanShare (liveness : LivenessInfo Reg) (movePoint : Nat) (dst src : VReg) : Prop where
  sameClass : liveness.classOf dst = liveness.classOf src
  meets : ∃ dstRange srcRange, liveness.range dst = some dstRange ∧ liveness.range src = some srcRange ∧
    srcRange.end ≤ movePoint ∧ movePoint ≤ dstRange.start ∧
    ∀ index, dstRange.Covers index → srcRange.Covers index → index = movePoint

/-- The state between two candidates: parents and representatives are one map, no
representative is merged away, and each has absorbed its registers before the limit. -/
structure Flat (limit : Nat) (state : CoalesceState Reg) : Prop where
  parent : state.parent = state.result.coalesceMap
  root : ∀ vreg next : VReg, state.result.coalesceMap[vreg]?.join = some next → state.result.coalesceMap[next]?.join = none
  started : ∀ vreg next : VReg, state.result.coalesceMap[vreg]?.join = some next →
    ∃ range, state.liveness.range next = some range ∧ range.start < limit

inductive Processed (state : CoalesceState Reg) (candidate : CoalesceCandidate) : CoalesceState Reg → Prop where
  | joined (same : state.result.representative candidate.dst = state.result.representative candidate.src) :
    Processed state candidate { state with result := state.result.markEliminated candidate.instIdx }
  | refused : Processed state candidate state
  | merged (different : state.result.representative candidate.dst ≠ state.result.representative candidate.src)
      (share : CanShare state.liveness candidate.instIdx (state.result.representative candidate.dst)
        (state.result.representative candidate.src)) :
    Processed state candidate
      (state.merge candidate.instIdx (state.result.representative candidate.dst) (state.result.representative candidate.src))

namespace Flat

variable {limit : Nat} {state : CoalesceState Reg}

theorem representative_root (flat : Flat limit state) (vreg : VReg) :
    state.result.coalesceMap[state.result.representative vreg]?.join = none := by
  rw [CoalesceResult.representative]
  cases own : state.result.coalesceMap[vreg]?.join with
  | none => exact own
  | some next => exact flat.root vreg next own

theorem idempotent (flat : Flat limit state) (vreg : VReg) :
    state.result.representative (state.result.representative vreg) = state.result.representative vreg := by
  conv_lhs => rw [CoalesceResult.representative, flat.representative_root vreg]
  rfl

/-- Every chain of parents is one link long, and compressing it changes nothing. -/
theorem find_eq (flat : Flat limit state) (vreg : VReg) :
    CoalesceState.find (state.parent.length + 1) state.parent vreg = (state.result.representative vreg, state.parent) := by
  rw [CoalesceState.find, CoalesceResult.representative, ← flat.parent]
  cases own : state.parent[vreg]?.join with
  | none => rfl
  | some next =>
    have held := Option.join_eq_some_iff.mp own
    obtain ⟨inside, slot⟩ := List.getElem?_eq_some_iff.mp held
    have above : state.parent[next]?.join = none := by
      rw [flat.parent] at own ⊢
      exact flat.root vreg next own
    have enough : state.parent.length = state.parent.length - 1 + 1 := by omega
    have stop : CoalesceState.find state.parent.length state.parent next = (next, state.parent) := by
      rw [enough, CoalesceState.find, above]
    have same := List.set_getElem_self inside
    rw [slot] at same
    simp only [stop, same, Option.getD_some]

theorem process (flat : Flat limit state) (candidate : CoalesceCandidate) :
    Processed state candidate (state.process candidate) := by
  rw [CoalesceState.process]
  simp only [flat.find_eq]
  split
  next same => exact .joined same
  next different =>
    split
    next => exact .refused
    next sameClass =>
      split
      next dstRange srcRange dstRanged srcRanged =>
        split
        next can =>
          simp only [CoalesceState.canCoalesce, Bool.and_eq_true, decide_eq_true_eq] at can
          refine .merged different ⟨not_not.mp sameClass, dstRange, srcRange, dstRanged, srcRanged, can.1, can.2, ?_⟩
          intro index dstCovers srcCovers
          simp only [LiveRange.Covers] at dstCovers srcCovers
          omega
        next => exact .refused
      next => exact .refused

end Flat

section

variable {original : LivenessInfo Reg} {limit : Nat} {state : CoalesceState Reg} {candidate : CoalesceCandidate} {dst src : VReg}

/-- What is merged away at a move no earlier than the limit has absorbed nothing. -/
theorem not_absorbed (flat : Flat limit state) {movePoint : Nat} (later : limit ≤ movePoint)
    (share : CanShare state.liveness movePoint dst src) (vreg : VReg) : state.result.coalesceMap[vreg]?.join ≠ some dst := by
  intro own
  obtain ⟨range, ranged, early⟩ := flat.started vreg dst own
  obtain ⟨dstRange, _, dstRanged, _, _, starts, _⟩ := share.meets
  rw [ranged] at dstRanged
  cases dstRanged
  omega

theorem merge_map (kept : Kept original state) (instIdx : Nat) (share : CanShare state.liveness instIdx dst src) (vreg : VReg) :
    (state.merge instIdx dst src).result.coalesceMap[vreg]?.join =
      if vreg = dst then some src else state.result.coalesceMap[vreg]?.join := by
  obtain ⟨dstRange, _, dstRanged, _⟩ := share.meets
  have inside : dst < state.result.coalesceMap.length := by
    rw [kept.size]
    by_contra outside
    rw [LivenessInfo.range, List.getElem?_eq_none (Nat.le_of_not_lt outside)] at dstRanged
    cases dstRanged
  simp only [CoalesceState.merge, markEliminated_coalesceMap]
  split
  next same =>
    subst same
    rw [List.getElem?_set_self inside]
    rfl
  next other => rw [List.getElem?_set_ne (Ne.symm other)]

/-- Merging sends the whole class of the one register to the other. -/
theorem merge_representative (flat : Flat limit state) (kept : Kept original state) {instIdx : Nat} (later : limit ≤ instIdx)
    (share : CanShare state.liveness instIdx dst src) (vreg : VReg) :
    (state.merge instIdx dst src).result.representative vreg =
      if state.result.representative vreg = dst then src else state.result.representative vreg := by
  rw [CoalesceResult.representative, merge_map kept instIdx share]
  by_cases moved : vreg = dst
  · obtain ⟨dstRange, _, dstRanged, _⟩ := share.meets
    have root : state.result.representative vreg = dst := by
      rw [CoalesceResult.representative, moved, kept.merged dst dstRange dstRanged]
      rfl
    rw [if_pos moved, if_pos root]
    rfl
  · have apart : state.result.representative vreg ≠ dst := by
      rw [CoalesceResult.representative]
      cases own : state.result.coalesceMap[vreg]?.join with
      | none => exact moved
      | some next =>
        rintro rfl
        exact not_absorbed flat later share vreg own
    rw [if_neg moved, if_neg apart]
    rfl

theorem Flat.merge (flat : Flat limit state) (kept : Kept original state) {instIdx : Nat} (later : limit ≤ instIdx)
    (different : dst ≠ src) (share : CanShare state.liveness instIdx dst src) :
    Flat (instIdx + 1) (state.merge instIdx dst src) := by
  have map := merge_map kept instIdx share
  obtain ⟨dstRange, srcRange, dstRanged, srcRanged, ends, _, _⟩ := share.meets
  have ranges := mergeInto_range state.liveness different dstRanged srcRanged
  have srcStarts : (dstRange.hull srcRange).start < instIdx + 1 := by
    have := srcRange.ordered
    simp only [LiveRange.hull]
    omega
  have target : ∀ vreg next : VReg, (state.merge instIdx dst src).result.coalesceMap[vreg]?.join = some next →
      next = src ∨ next ≠ dst ∧ state.result.coalesceMap[vreg]?.join = some next := by
    intro vreg next own
    rw [map] at own
    split at own
    next => exact .inl (Option.some_inj.mp own).symm
    next =>
      refine .inr ⟨?_, own⟩
      rintro rfl
      exact not_absorbed flat later share vreg own
  refine ⟨?_, ?_, ?_⟩
  · simp only [CoalesceState.merge, markEliminated_coalesceMap, flat.parent]
  · intro vreg next own
    rw [map]
    rcases target vreg next own with rfl | ⟨apart, old⟩
    · rw [if_neg (Ne.symm different)]
      exact kept.merged next srcRange srcRanged
    · rw [if_neg apart]
      exact flat.root vreg next old
  · intro vreg next own
    show ∃ range, (state.liveness.mergeInto dst src).range next = some range ∧ range.start < instIdx + 1
    rw [ranges]
    rcases target vreg next own with rfl | ⟨apart, old⟩
    · rw [if_neg (Ne.symm different), if_pos rfl]
      exact ⟨_, rfl, srcStarts⟩
    · rw [if_neg apart]
      split
      next => exact ⟨_, rfl, srcStarts⟩
      next =>
        obtain ⟨range, ranged, early⟩ := flat.started vreg next old
        exact ⟨range, ranged, by omega⟩

theorem Flat.step (flat : Flat limit state) (kept : Kept original state) (later : limit ≤ candidate.instIdx) :
    Flat (candidate.instIdx + 1) (state.process candidate) := by
  have raised : Flat (candidate.instIdx + 1) state := by
    refine ⟨flat.parent, flat.root, ?_⟩
    intro vreg next own
    obtain ⟨range, ranged, early⟩ := flat.started vreg next own
    exact ⟨range, ranged, by omega⟩
  have outcome := flat.process candidate
  generalize state.process candidate = after at outcome ⊢
  cases outcome with
  | joined =>
    refine ⟨?_, ?_, ?_⟩ <;> simp only [markEliminated_coalesceMap]
    · exact raised.parent
    · exact raised.root
    · exact raised.started
  | refused => exact raised
  | merged different share => exact flat.merge kept later different share

end

theorem isEliminated_markEliminated (result : CoalesceResult) (instIdx other : Nat) :
    (result.markEliminated instIdx).isEliminated other = (other = instIdx || result.isEliminated other) := by
  simp only [CoalesceResult.markEliminated, CoalesceResult.isEliminated]
  -- Growing the table adds moves that are not eliminated.
  have grown : ∀ count : Nat, (result.eliminatedMoves ++ List.replicate count false)[other]?.getD false =
      result.eliminatedMoves[other]?.getD false := by
    intro count
    rw [List.getElem?_append]
    split
    next => rfl
    next outside =>
      rw [List.getElem?_eq_none (Nat.le_of_not_lt outside), List.getElem?_replicate]
      split <;> rfl
  split
  next known =>
    rw [grown]
    by_cases here : other = instIdx
    · subst here
      rw [grown] at known
      simp [known]
    · simp [here]
  next =>
    by_cases here : other = instIdx
    · subst here
      rw [List.getElem?_set_self (by simp; omega)]
      simp
    · rw [List.getElem?_set_ne (Ne.symm here), grown]
      simp [here]

theorem markEliminated_representative (result : CoalesceResult) (instIdx : Nat) (vreg : VReg) :
    (result.markEliminated instIdx).representative vreg = result.representative vreg := by
  simp only [CoalesceResult.representative, markEliminated_coalesceMap]

/-- The state after some of the candidates. -/
def run (liveness : LivenessInfo Reg) (candidates : List CoalesceCandidate) : CoalesceState Reg :=
  candidates.foldl CoalesceState.process (CoalesceState.init liveness)

/-- The candidate that put two registers together, and what it found. -/
def JoinedBy (liveness : LivenessInfo Reg) (candidates : List CoalesceCandidate) (first second : VReg) : Prop :=
  ∃ before candidate after, candidates = before ++ candidate :: after ∧
    let state := run liveness before
    let dst := state.result.representative candidate.dst
    let src := state.result.representative candidate.src
    (state.result.representative first = dst ∧ state.result.representative second = src ∨
      state.result.representative first = src ∧ state.result.representative second = dst) ∧
    CanShare state.liveness candidate.instIdx dst src

structure Joined (liveness : LivenessInfo Reg) (candidates : List CoalesceCandidate) (state : CoalesceState Reg) : Prop where
  eliminated : ∀ instIdx, state.result.isEliminated instIdx → ∃ candidate ∈ candidates, candidate.instIdx = instIdx ∧
    state.result.representative candidate.dst = state.result.representative candidate.src
  together : ∀ first second, first ≠ second → state.result.representative first = state.result.representative second →
    JoinedBy liveness candidates first second
  ranged : ∀ vreg range, liveness.range vreg = some range → ∃ merged, state.liveness.range (state.result.representative vreg) = some merged
  flagged : ∀ vreg, liveness.hasDivergingUse vreg = true → state.liveness.hasDivergingUse (state.result.representative vreg) = true

theorem JoinedBy.snoc {liveness : LivenessInfo Reg} {candidates : List CoalesceCandidate} {first second : VReg}
    (joined : JoinedBy liveness candidates first second) (candidate : CoalesceCandidate) :
    JoinedBy liveness (candidates ++ [candidate]) first second := by
  obtain ⟨before, joiner, after, rfl, rest⟩ := joined
  exact ⟨before, joiner, after ++ [candidate], by simp, rest⟩

theorem Joined.step {liveness : LivenessInfo Reg} {candidates : List CoalesceCandidate} {limit : Nat} {candidate : CoalesceCandidate}
    (flat : Flat limit (run liveness candidates)) (later : limit ≤ candidate.instIdx)
    (joined : Joined liveness candidates (run liveness candidates)) :
    Joined liveness (candidates ++ [candidate]) (run liveness (candidates ++ [candidate])) := by
  have kept := coalesce_kept candidates liveness
  have next : run liveness (candidates ++ [candidate]) = (run liveness candidates).process candidate := by
    rw [run, List.foldl_append]
    rfl
  have outcome := flat.process candidate
  change Kept liveness (run liveness candidates) at kept
  have onward : ∀ {state : CoalesceState Reg}, (∀ instIdx, state.result.isEliminated instIdx → instIdx ≠ candidate.instIdx →
      (run liveness candidates).result.isEliminated instIdx) →
      (∀ first second, (run liveness candidates).result.representative first = (run liveness candidates).result.representative second →
        state.result.representative first = state.result.representative second) →
      (state.result.isEliminated candidate.instIdx → (run liveness candidates).result.isEliminated candidate.instIdx ∨
        state.result.representative candidate.dst = state.result.representative candidate.src) →
      ∀ instIdx, state.result.isEliminated instIdx → ∃ other ∈ candidates ++ [candidate], other.instIdx = instIdx ∧
        state.result.representative other.dst = state.result.representative other.src := by
    intro state old coarser new instIdx eliminated
    have earlier : (run liveness candidates).result.isEliminated instIdx → ∃ other ∈ candidates ++ [candidate],
        other.instIdx = instIdx ∧ state.result.representative other.dst = state.result.representative other.src := by
      intro before
      obtain ⟨other, member, index, both⟩ := joined.eliminated instIdx before
      exact ⟨other, List.mem_append_left _ member, index, coarser _ _ both⟩
    by_cases here : instIdx = candidate.instIdx
    · subst here
      rcases new eliminated with before | both
      · exact earlier before
      · exact ⟨candidate, by simp, rfl, both⟩
    · exact earlier (old instIdx eliminated here)
  rw [next]
  generalize (run liveness candidates).process candidate = after at outcome
  cases outcome with
  | joined same =>
    refine ⟨onward ?_ ?_ ?_, ?_, ?_, ?_⟩
    · intro instIdx eliminated other
      simpa [isEliminated_markEliminated, other] using eliminated
    · intro first second both
      simpa only [markEliminated_representative] using both
    · intro _
      right
      simpa only [markEliminated_representative] using same
    · intro first second different both
      simp only [markEliminated_representative] at both
      exact (joined.together first second different both).snoc candidate
    · intro vreg range ranged
      simpa only [markEliminated_representative] using joined.ranged vreg range ranged
    · intro vreg flagged
      simpa only [markEliminated_representative] using joined.flagged vreg flagged
  | refused =>
    refine ⟨onward (fun _ eliminated _ => eliminated) (fun _ _ both => both) .inl, ?_, joined.ranged, joined.flagged⟩
    intro first second different both
    exact (joined.together first second different both).snoc candidate
  | merged different share =>
    have representative := merge_representative flat kept later share
    obtain ⟨dstRange, srcRange, dstRanged, srcRanged, _⟩ := share.meets
    have ranges := mergeInto_range (run liveness candidates).liveness different dstRanged srcRanged
    refine ⟨onward ?_ ?_ ?_, ?_, ?_, ?_⟩
    · intro instIdx eliminated other
      simpa [CoalesceState.merge, isEliminated_markEliminated, other] using! eliminated
    · intro first second both
      rw [representative, representative, both]
    · intro _
      right
      rw [representative, representative, if_pos rfl, if_neg (Ne.symm different)]
    · intro first second apart both
      by_cases before : (run liveness candidates).result.representative first = (run liveness candidates).result.representative second
      · exact (joined.together first second apart before).snoc candidate
      · refine ⟨candidates, candidate, [], rfl, ?_, share⟩
        rw [representative, representative] at both
        split at both
        next here =>
          split at both
          next there => exact absurd (here.trans there.symm) before
          next => exact .inl ⟨here, both.symm⟩
        next =>
          split at both
          next there => exact .inr ⟨both, there⟩
          next => exact absurd both before
    · intro vreg range ranged
      obtain ⟨merged, held⟩ := joined.ranged vreg range ranged
      rw [representative]
      show ∃ merged, ((run liveness candidates).liveness.mergeInto _ _).range _ = some merged
      rw [ranges]
      split
      next => exact ⟨_, by rw [if_neg (Ne.symm different), if_pos rfl]⟩
      next =>
        split
        next => exact ⟨_, rfl⟩
        next => exact ⟨merged, held⟩
    · intro vreg flagged
      have before := joined.flagged vreg flagged
      rw [representative]
      refine (mergeInto_hasDivergingUse (run liveness candidates).liveness _ _ _).trans ?_
      split
      next here =>
        rw [here] at before
        simp [before]
      next => simp [before]

theorem run_joined (candidates : List CoalesceCandidate) (liveness : LivenessInfo Reg)
    (ascending : candidates.Pairwise fun earlier later => earlier.instIdx < later.instIdx) :
    Joined liveness candidates (run liveness candidates) ∧
      ∃ limit, Flat limit (run liveness candidates) ∧ (∀ candidate ∈ candidates, candidate.instIdx < limit) ∧
        ∀ bound, (∀ candidate ∈ candidates, candidate.instIdx < bound) → limit ≤ bound := by
  induction candidates using List.reverseRecOn with
  | nil =>
    have empty : ∀ vreg : VReg, (CoalesceState.init liveness).result.coalesceMap[vreg]?.join = none := by
      intro vreg
      simp only [CoalesceState.init, CoalesceResult.withVregCount, List.getElem?_replicate]
      split <;> rfl
    have own : ∀ vreg, (CoalesceState.init liveness).result.representative vreg = vreg := by
      intro vreg
      rw [CoalesceResult.representative, empty]
      rfl
    refine ⟨⟨nofun, ?_, ?_, ?_⟩, 0, ⟨rfl, ?_, ?_⟩, nofun, fun bound _ => Nat.zero_le bound⟩
    · intro first second different both
      refine absurd ?_ different
      rw [← own first, ← own second]
      exact both
    · intro vreg range ranged
      rw [run, List.foldl_nil, own]
      exact ⟨range, ranged⟩
    · intro vreg flagged
      rw [run, List.foldl_nil, own]
      exact flagged
    · intro vreg next found
      exact empty next
    · intro vreg next found
      rw [run, List.foldl_nil, empty] at found
      cases found
  | append_singleton candidates candidate ih =>
    obtain ⟨earlier, _, before⟩ := List.pairwise_append.mp ascending
    obtain ⟨joined, limit, flat, _, least⟩ := ih earlier
    have later : limit ≤ candidate.instIdx :=
      least _ fun other member => before other member candidate (List.mem_singleton_self _)
    refine ⟨joined.step flat later, candidate.instIdx + 1, ?_, ?_, ?_⟩
    · rw [run, List.foldl_append]
      exact flat.step (coalesce_kept candidates liveness) later
    · intro other member
      rcases List.mem_append.mp member with old | new
      · exact Nat.lt_succ_of_lt (before other old candidate (List.mem_singleton_self _))
      · rw [List.mem_singleton.mp new]
        exact Nat.lt_succ_self _
    · intro bound above
      exact above candidate (by simp)

/-- After any moves in ascending order the map is flat, the moves it removes join two
registers of one class, classes grow only by ranges that can share a register, and what
a class stands for covers and is read wherever one of its registers was. -/
theorem coalesce_classes (candidates : List CoalesceCandidate) (liveness : LivenessInfo Reg)
    (ascending : candidates.Pairwise fun earlier later => earlier.instIdx < later.instIdx) :
    let result := (coalesce candidates liveness).1
    let after := (coalesce candidates liveness).2
    (∀ vreg, result.representative (result.representative vreg) = result.representative vreg) ∧
    (∀ vreg next : VReg, result.coalesceMap[vreg]?.join = some next → result.coalesceMap[next]?.join = none) ∧
    (∀ candidate ∈ candidates, result.isEliminated candidate.instIdx →
      result.representative candidate.dst = result.representative candidate.src) ∧
    (∀ first second, first ≠ second → result.representative first = result.representative second →
      JoinedBy liveness candidates first second) ∧
    (∀ vreg range, liveness.range vreg = some range → ∃ merged, after.range (result.representative vreg) = some merged ∧
      ∀ index, range.Covers index → merged.Covers index) ∧
    ∀ vreg, liveness.hasDivergingUse vreg = true → after.hasDivergingUse (result.representative vreg) = true := by
  obtain ⟨joined, limit, flat, _⟩ := run_joined candidates liveness ascending
  refine ⟨flat.idempotent, flat.root, ?_, joined.together, ?_, joined.flagged⟩
  · intro candidate member eliminated
    obtain ⟨other, member', index, both⟩ := joined.eliminated candidate.instIdx eliminated
    have same : other = candidate := by
      by_contra different
      rcases List.mem_iff_getElem.mp member with ⟨i, inside, rfl⟩
      rcases List.mem_iff_getElem.mp member' with ⟨j, inside', rfl⟩
      rcases Nat.lt_trichotomy i j with before | rfl | after
      · exact absurd index (Nat.ne_of_gt (List.pairwise_iff_getElem.mp ascending i j inside inside' before))
      · exact different rfl
      · exact absurd index (Nat.ne_of_lt (List.pairwise_iff_getElem.mp ascending j i inside' inside after))
    rw [same] at both
    exact both
  · intro vreg range ranged
    obtain ⟨merged, held⟩ := joined.ranged vreg range ranged
    exact ⟨merged, held, ((coalesce_kept candidates liveness).answers vreg).covers range merged ranged held⟩

/-- A value moved on twice, each time at the end of its source. -/
def chain : LivenessInfo Nat where
  ranges := [some ⟨0, 1, by decide⟩, some ⟨1, 2, by decide⟩, some ⟨2, 3, by decide⟩]
  clobbersAt := [[], [], [], []]
  nonReturningAt := []
  divergingAt := []
  divergingUses := [false, false, true]
  vregClasses := [.gp, .gp, .gp]

theorem chain_coalesced : (coalesce [⟨1, 1, 0⟩, ⟨2, 2, 1⟩] chain).1.representative 2 = 0 ∧
    (coalesce [⟨1, 1, 0⟩, ⟨2, 2, 1⟩] chain).2.hasDivergingUse ((coalesce [⟨1, 1, 0⟩, ⟨2, 2, 1⟩] chain).1.representative 2) = true := by
  obtain ⟨_, _, _, _, _, flagged⟩ := coalesce_classes [⟨1, 1, 0⟩, ⟨2, 2, 1⟩] chain (by decide)
  exact ⟨by decide, flagged 2 (by decide)⟩

end Rue.Proofs.Coalescing
