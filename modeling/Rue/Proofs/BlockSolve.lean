import Rue.Codegen.Liveness
import Mathlib.Data.Nat.Find
import Rue.Lib.Dataflow
import Mathlib.Algebra.BigOperators.Group.Finset.Basic
import Mathlib.Algebra.Order.BigOperators.Group.Finset

/-! The block partition: every instruction lies in one block, control only
enters a block at its start, and inside a block it only falls through. -/

namespace Rue.Proofs.Blocks
open Rue.Codegen Liveness

/-- The number of flagged indices below an index. -/
private def rank (flag : Nat → Bool) (index : Nat) : Nat := (List.range index).countP flag

private theorem rank_succ (flag : Nat → Bool) (index : Nat) :
    rank flag (index + 1) = rank flag index + if flag index then 1 else 0 := by
  simp [rank, List.range_succ, List.countP_append, List.countP_singleton]

private theorem rank_eq_of_clear {flag : Nat → Bool} (first : Nat) {last : Nat} (ordered : first ≤ last)
    (clear : ∀ index, first ≤ index → index < last → flag index = false) : rank flag last = rank flag first := by
  induction last with
  | zero =>
    obtain rfl : first = 0 := by omega
    rfl
  | succ last ih =>
    by_cases same : first = last + 1
    · rw [same]
    · rw [rank_succ, clear last (by omega) (Nat.lt_succ_self _), ih (by omega)]
      · rfl
      · exact fun index above below => clear index above (by omega)

/-- A flagged index stands at its rank among the flagged indices, and the end
sentinel stands after all of them. -/
private theorem filter_rank (flag : Nat → Bool) (count index : Nat) (inside : index ≤ count)
    (flagged : index < count → flag index = true) :
    ((List.range count).filter flag ++ [count])[rank flag index]? = some index := by
  induction count with
  | zero =>
    obtain rfl : index = 0 := by omega
    rfl
  | succ count ih =>
    have length : ((List.range (count + 1)).filter flag).length = rank flag (count + 1) := by
      rw [rank, List.countP_eq_length_filter]
    by_cases last : index = count + 1
    · subst last
      rw [← length, List.getElem?_concat_length]
    · have shorter : rank flag index < ((List.range (count + 1)).filter flag).length := by
        have step := rank_succ flag index
        rw [flagged (by omega), if_pos rfl] at step
        have mono : rank flag (index + 1) ≤ rank flag (count + 1) :=
          List.Sublist.countP_le (List.range_sublist.mpr (by omega))
        omega
      rw [List.getElem?_append_left shorter, List.range_succ, List.filter_append]
      by_cases newest : index = count
      · subst newest
        have own : ((List.range index).filter flag).length = rank flag index := by
          rw [rank, List.countP_eq_length_filter]
        rw [List.filter_singleton, flagged (by omega), cond_true, ← own, List.getElem?_concat_length]
      · have found := ih (by omega) (fun _ => flagged (by omega))
        have bound : rank flag index < ((List.range count).filter flag).length := by
          have step := rank_succ flag index
          rw [flagged (by omega), if_pos rfl] at step
          have mono : rank flag (index + 1) ≤ rank flag count :=
            List.Sublist.countP_le (List.range_sublist.mpr (by omega))
          rw [← List.countP_eq_length_filter]
          exact Nat.lt_of_lt_of_le (by omega) mono
        rw [List.getElem?_append_left bound] at found ⊢
        exact found

variable {numInsts : Nat} {successors : Successors}

theorem isLeader_zero : isLeader numInsts successors 0 = true := by simp [isLeader]

private theorem mem_zipIdx {source : Nat} (inside : source < successors.length) :
    (succs successors source, source) ∈ successors.zipIdx := by
  rw [List.mem_zipIdx_iff_getElem?, succs, List.getElem?_eq_getElem inside, Option.getD_some]

theorem mem_succs_lt {source target : Nat} (edge : target ∈ succs successors source) : source < successors.length := by
  by_contra outside
  rw [succs, List.getElem?_eq_none (by omega)] at edge
  cases edge

theorem isLeader_of_target {source target : Nat} (edge : target ∈ succs successors source)
    (branch : target ≠ source + 1) : isLeader numInsts successors target = true := by
  simp only [isLeader, Bool.or_eq_true, List.any_eq_true]
  refine Or.inr ⟨_, mem_zipIdx (mem_succs_lt edge), Or.inr ⟨target, edge, ?_⟩⟩
  simp [branch]

/-- The instruction before one that is no leader only falls through. -/
theorem succs_of_not_leader {source : Nat} (next : source + 1 < numInsts) (inside : source < successors.length)
    (inner : isLeader numInsts successors (source + 1) = false) : succs successors source = [source + 1] := by
  simp only [isLeader, Bool.or_eq_false_iff, List.any_eq_false] at inner
  by_contra other
  exact inner.2 _ (mem_zipIdx inside) (by simp [next, other])

/-- An instruction's block, as an interval of instructions. -/
structure Spans (numInsts : Nat) (successors : Successors) (inst first past : Nat) : Prop where
  first_le : first ≤ inst
  lt_past : inst < past
  past_le : past ≤ numInsts
  leads : isLeader numInsts successors first = true
  inner : ∀ index, first < index → index < past → isLeader numInsts successors index = false
  next : past < numInsts → isLeader numInsts successors past = true
  span : (partitionBlocks numInsts successors).span ((partitionBlocks numInsts successors).of inst) = (first, past - 1)
  shared : ∀ index, first ≤ index → index < past →
    (partitionBlocks numInsts successors).of index = (partitionBlocks numInsts successors).of inst

private theorem of_eq {index : Nat} (inside : index < numInsts) :
    (partitionBlocks numInsts successors).of index = rank (isLeader numInsts successors) (index + 1) - 1 := by
  simp [partitionBlocks, BlockPartition.of, rank, inside]

theorem exists_spans (successors : Successors) {inst : Nat} (inside : inst < numInsts) : ∃ first past, Spans numInsts successors inst first past := by
  let leader := isLeader numInsts successors
  -- The block starts at the last leader at or before the instruction and ends before the next one.
  let first := Nat.findGreatest (fun index => leader index = true) inst
  have leads : leader first = true := Nat.findGreatest_spec (P := fun index => leader index = true) (Nat.zero_le inst) isLeader_zero
  have first_le : first ≤ inst := Nat.findGreatest_le inst
  have bounded : ∃ index, inst < index ∧ (index = numInsts ∨ leader index = true) := ⟨numInsts, inside, Or.inl rfl⟩
  let past := Nat.find bounded
  obtain ⟨lt_past, ends⟩ : inst < past ∧ (past = numInsts ∨ leader past = true) := Nat.find_spec bounded
  have past_le : past ≤ numInsts := Nat.find_min' bounded ⟨inside, Or.inl rfl⟩
  have inner : ∀ index, first < index → index < past → leader index = false := by
    intro index above below
    by_cases early : index ≤ inst
    · exact Bool.eq_false_iff.mpr (Nat.findGreatest_is_greatest (P := fun index => leader index = true) above early)
    · have missed := Nat.find_min bounded below
      simp only [not_and, not_or] at missed
      exact Bool.eq_false_iff.mpr (missed (by omega)).2
  have ranks : ∀ index, first ≤ index → index < past → rank leader (index + 1) = rank leader first + 1 := by
    intro index above below
    rw [rank_eq_of_clear (first + 1) (by omega) (fun other low high => inner other (by omega) (by omega)),
      rank_succ, leads]
    rfl
  have shared : ∀ index, first ≤ index → index < past →
      (partitionBlocks numInsts successors).of index = rank leader first := by
    intro index above below
    rw [of_eq (by omega), ranks index above below, Nat.add_sub_cancel]
  have pastRank : rank leader past = rank leader first + 1 := by
    have := ranks (past - 1) (by omega) (by omega)
    rwa [Nat.sub_add_cancel (by omega)] at this
  refine ⟨first, past, first_le, lt_past, past_le, leads, inner, fun before => ends.resolve_left (by omega), ?_, ?_⟩
  · rw [shared inst first_le lt_past]
    have starts := filter_rank leader numInsts first (by omega) (fun _ => leads)
    have stops := filter_rank leader numInsts past past_le
      (fun before => ends.resolve_left (by omega))
    rw [pastRank] at stops
    simp only [BlockPartition.span, partitionBlocks]
    simp only [leader] at starts stops
    rw [starts, stops]
    rfl
  · intro index above below
    rw [shared index above below, shared inst first_le lt_past]

theorem of_lt (successors : Successors) {inst : Nat} (inside : inst < numInsts) :
    (partitionBlocks numInsts successors).of inst < (partitionBlocks numInsts successors).len := by
  have total : (partitionBlocks numInsts successors).len = rank (isLeader numInsts successors) numInsts := by
    simp [BlockPartition.len, partitionBlocks, rank, List.countP_eq_length_filter]
  have positive : 0 < rank (isLeader numInsts successors) (inst + 1) :=
    List.countP_pos_iff.mpr ⟨0, by simp, isLeader_zero⟩
  have mono : rank (isLeader numInsts successors) (inst + 1) ≤ rank (isLeader numInsts successors) numInsts :=
    List.Sublist.countP_le (List.range_sublist.mpr (by omega))
  rw [of_eq inside, total]
  omega

theorem exists_of {block : Nat} (inside : block < (partitionBlocks numInsts successors).len) :
    ∃ inst < numInsts, (partitionBlocks numInsts successors).of inst = block := by
  have bound : block < ((List.range numInsts).filter (isLeader numInsts successors)).length := by
    simpa [BlockPartition.len, partitionBlocks] using inside
  let inst := ((List.range numInsts).filter (isLeader numInsts successors))[block]
  have member : inst ∈ (List.range numInsts).filter (isLeader numInsts successors) := List.getElem_mem bound
  rw [List.mem_filter, List.mem_range] at member
  refine ⟨inst, member.1, ?_⟩
  have placed := filter_rank (isLeader numInsts successors) numInsts inst
    (Nat.le_of_lt member.1) (fun _ => member.2)
  have rankBound : rank (isLeader numInsts successors) inst <
      ((List.range numInsts).filter (isLeader numInsts successors)).length := by
    have step := rank_succ (isLeader numInsts successors) inst
    rw [member.2, if_pos rfl] at step
    have mono : rank (isLeader numInsts successors) (inst + 1) ≤ rank (isLeader numInsts successors) numInsts :=
      List.Sublist.countP_le (List.range_sublist.mpr (by omega))
    rw [← List.countP_eq_length_filter]
    exact Nat.lt_of_lt_of_le (by omega) mono
  rw [List.getElem?_append_left rankBound, List.getElem?_eq_getElem rankBound, Option.some.injEq] at placed
  have distinct : ((List.range numInsts).filter (isLeader numInsts successors)).Nodup := List.nodup_range.filter _
  have same : rank (isLeader numInsts successors) inst = block := (distinct.getElem_inj_iff).mp placed
  rw [of_eq member.1, rank_succ, member.2, if_pos rfl, Nat.add_sub_cancel, same]

section Spans
variable {inst first past : Nat}

/-- Every successor of a block's last instruction starts a block. -/
theorem Spans.exit_leads (spans : Spans numInsts successors inst first past) {target : Nat}
    (edge : target ∈ succs successors (past - 1)) (inside : target < numInsts) :
    isLeader numInsts successors target = true := by
  have := spans.lt_past
  by_cases falls : target = past
  · subst falls
    exact spans.next inside
  · exact isLeader_of_target edge (by omega)

theorem Spans.falls (spans : Spans numInsts successors inst first past) (sized : successors.length = numInsts)
    {index : Nat} (above : first ≤ index) (below : index + 1 < past) : succs successors index = [index + 1] := by
  have := spans.past_le
  exact succs_of_not_leader (by omega) (by omega) (spans.inner (index + 1) (by omega) below)

/-- A block that is entered at a leader is entered at its start. -/
theorem Spans.first_eq (spans : Spans numInsts successors inst first past)
    (leads : isLeader numInsts successors inst = true) : first = inst := by
  by_contra different
  have inner := spans.inner inst (by have := spans.first_le; omega) spans.lt_past
  rw [leads] at inner
  cases inner

/-- The whole block as seen from its first instruction. -/
theorem Spans.atFirst (spans : Spans numInsts successors inst first past) : Spans numInsts successors first first past := by
  have := spans.first_le
  have := spans.lt_past
  have same := spans.shared first (Nat.le_refl _) (by omega)
  exact ⟨Nat.le_refl _, by omega, spans.past_le, spans.leads, spans.inner, spans.next, by rw [same]; exact spans.span,
    fun index above below => by rw [same]; exact spans.shared index above below⟩

end Spans

end Rue.Proofs.Blocks

/-! The sparse set under a liveness solve is a set. A member's position always
points back at it, and a stale position never does, so clearing and reuse do not
change what the set contains. -/

namespace Rue.Proofs.WorkingLiveSet
open Rue.Codegen Liveness WorkingLiveSet

/-- Every member's position points back at it. -/
def Valid (live : WorkingLiveSet) : Prop :=
  ∀ (position : Nat) vreg, live.members[position]? = some vreg → live.positions vreg = position

variable {live : WorkingLiveSet}

theorem valid_clear : Valid live.clear := fun position vreg found => by simp [clear] at found

@[simp] theorem mem_clear {vreg : VReg} : vreg ∈ live.clear.members ↔ False := by simp [clear]

theorem Valid.contains_iff (valid : Valid live) {vreg : VReg} : live.contains vreg = true ↔ vreg ∈ live.members := by
  simp only [contains, decide_eq_true_eq]
  constructor
  · exact List.mem_of_getElem?
  · intro member
    obtain ⟨position, found⟩ := List.mem_iff_getElem?.mp member
    rw [valid position vreg found, found]

theorem Valid.nodup (valid : Valid live) : live.members.Nodup := by
  rw [List.nodup_iff_getElem?_ne_getElem?]
  intro first second ordered inside same
  have found := List.getElem?_eq_getElem inside
  have := valid second _ found
  have := valid first _ (same.trans found)
  omega

theorem Valid.insert (valid : Valid live) (vreg : VReg) : Valid (live.insert vreg) := by
  unfold WorkingLiveSet.insert
  split
  · exact valid
  next absent =>
    rw [valid.contains_iff] at absent
    intro position other found
    dsimp only at found ⊢
    by_cases old : position < live.members.length
    · rw [List.getElem?_append_left old] at found
      have different : other ≠ vreg := fun same => absent (same ▸ List.mem_of_getElem? found)
      rw [Function.update_of_ne different]
      exact valid position other found
    · rw [List.getElem?_append_right (by omega), List.getElem?_singleton] at found
      split at found
      · cases found
        rw [Function.update_self]
        omega
      · cases found

theorem Valid.mem_insert (valid : Valid live) {vreg other : VReg} :
    other ∈ (live.insert vreg).members ↔ other = vreg ∨ other ∈ live.members := by
  unfold WorkingLiveSet.insert
  split
  next present =>
    have member := valid.contains_iff.mp present
    exact ⟨Or.inr, fun either => either.elim (fun same => same ▸ member) id⟩
  next => simp [or_comm]

/-- The members left by a removal: the last one moves into the hole. -/
private theorem getElem?_hole {members : List VReg} {hole position : Nat} (last : VReg)
    (inside : hole < members.length) :
    ((members.set hole last).dropLast)[position]? =
      if position + 1 < members.length then (if position = hole then some last else members[position]?) else none := by
  rw [List.getElem?_dropLast, List.length_set]
  by_cases kept : position + 1 < members.length
  · rw [if_pos (by omega), if_pos kept]
    by_cases same : position = hole
    · subst same
      rw [if_pos rfl, List.getElem?_set_self inside]
    · rw [if_neg same, List.getElem?_set_ne (Ne.symm same)]
  · rw [if_neg (by omega), if_neg kept]

theorem Valid.remove_spec (valid : Valid live) (vreg : VReg) :
    Valid (live.remove vreg) ∧
      ∀ other, other ∈ (live.remove vreg).members ↔ other ≠ vreg ∧ other ∈ live.members := by
  by_cases present : live.contains vreg = true
  · have found : live.members[live.positions vreg]? = some vreg := by simpa [contains] using present
    obtain ⟨inside, _⟩ := List.getElem?_eq_some_iff.mp found
    obtain ⟨last, isLast⟩ : ∃ last, live.members.getLast? = some last := by
      cases seen : live.members.getLast? with
      | some last => exact ⟨last, rfl⟩
      | none => simp [List.getLast?_eq_none_iff.mp seen] at inside
    have lastAt : live.members[live.members.length - 1]? = some last := by
      rw [← isLast, List.getLast?_eq_getElem?]
    have lastPosition := valid _ _ lastAt
    have hole : ∀ position, ((live.members.set (live.positions vreg) last).dropLast)[position]? =
        if position + 1 < live.members.length then
          (if position = live.positions vreg then some last else live.members[position]?) else none :=
      fun position => getElem?_hole last inside
    have members : (live.remove vreg).members = (live.members.set (live.positions vreg) last).dropLast := by
      simp only [WorkingLiveSet.remove, present, ite_true, isLast, Option.getD_some]
      split <;> rfl
    have positions : ∀ other, other ∈ (live.remove vreg).members → (live.remove vreg).positions other =
        if other = last ∧ live.positions vreg + 1 < live.members.length then live.positions vreg
        else live.positions other := by
      intro other _
      simp only [WorkingLiveSet.remove, present, ite_true, isLast, Option.getD_some, hole]
      by_cases kept : live.positions vreg + 1 < live.members.length
      · simp only [kept, ite_true, and_true]
        exact Function.update_apply ..
      · simp only [kept, ite_false, and_false]
    constructor
    · intro position other stored
      rw [positions other (List.mem_of_getElem? stored)]
      rw [members, hole] at stored
      split at stored
      next kept =>
        split at stored
        next same =>
          cases stored
          rw [if_pos ⟨rfl, by omega⟩, same]
        next different =>
          have old := valid position other stored
          rw [if_neg, old]
          rintro ⟨rfl, _⟩
          omega
      next => cases stored
    · intro other
      rw [members]
      constructor
      · intro member
        obtain ⟨position, stored⟩ := List.mem_iff_getElem?.mp member
        rw [hole] at stored
        split at stored
        next kept =>
          split at stored
          next same =>
            cases stored
            refine ⟨?_, List.mem_of_getElem? lastAt⟩
            rintro rfl
            omega
          next different =>
            refine ⟨?_, List.mem_of_getElem? stored⟩
            rintro rfl
            exact different (valid position _ stored).symm
        next => cases stored
      · rintro ⟨different, member⟩
        obtain ⟨position, stored⟩ := List.mem_iff_getElem?.mp member
        have shorter := (List.getElem?_eq_some_iff.mp stored).1
        have moved := valid position other stored
        by_cases isLastPosition : position + 1 = live.members.length
        · have same : other = last := by
            rw [show position = live.members.length - 1 by omega, lastAt, Option.some.injEq] at stored
            exact stored.symm
          have elsewhere : live.positions vreg ≠ position := by
            intro collide
            rw [collide, stored, Option.some.injEq] at found
            exact different found
          refine List.mem_iff_getElem?.mpr ⟨live.positions vreg, ?_⟩
          rw [hole, if_pos (by omega), if_pos rfl, same]
        · refine List.mem_iff_getElem?.mpr ⟨position, ?_⟩
          rw [hole, if_pos (by omega), if_neg ?_, stored]
          intro collide
          rw [← collide, stored, Option.some.injEq] at found
          exact different found
  · have unchanged : live.remove vreg = live := by simp [WorkingLiveSet.remove, present]
    rw [unchanged]
    refine ⟨valid, fun other => ⟨fun member => ⟨?_, member⟩, And.right⟩⟩
    rintro rfl
    exact present (valid.contains_iff.mpr member)

theorem Valid.foldl_insert (valid : Valid live) (vregs : List VReg) :
    Valid (vregs.foldl WorkingLiveSet.insert live) ∧
      ∀ other, other ∈ (vregs.foldl WorkingLiveSet.insert live).members ↔ other ∈ vregs ∨ other ∈ live.members := by
  induction vregs generalizing live with
  | nil => exact ⟨valid, fun other => by simp⟩
  | cons vreg vregs ih =>
    obtain ⟨valid', members⟩ := ih (valid.insert vreg)
    refine ⟨valid', fun other => ?_⟩
    rw [List.foldl_cons, members, valid.mem_insert, List.mem_cons]
    exact ⟨fun either => by tauto, fun either => by tauto⟩

theorem Valid.foldl_remove (valid : Valid live) (vregs : List VReg) :
    Valid (vregs.foldl WorkingLiveSet.remove live) ∧
      ∀ other, other ∈ (vregs.foldl WorkingLiveSet.remove live).members ↔ other ∉ vregs ∧ other ∈ live.members := by
  induction vregs generalizing live with
  | nil => exact ⟨valid, fun other => by simp⟩
  | cons vreg vregs ih =>
    obtain ⟨valid', members⟩ := ih (valid.remove_spec vreg).1
    refine ⟨valid', fun other => ?_⟩
    rw [List.foldl_cons, members, (valid.remove_spec vreg).2, List.mem_cons]
    tauto

/-- `holds` compares sets, because neither side repeats a member. -/
theorem Valid.holds_iff (valid : Valid live) {solved : LiveSet} (distinct : solved.Nodup) :
    live.holds solved = true ↔ ∀ vreg, vreg ∈ solved ↔ vreg ∈ live.members := by
  simp only [holds, Bool.and_eq_true, decide_eq_true_eq, List.all_eq_true, valid.contains_iff]
  constructor
  · rintro ⟨sameLength, subset⟩ vreg
    have perm := (List.subperm_of_subset distinct subset).perm_of_length_le (by omega)
    exact perm.mem_iff
  · intro same
    have perm := (List.perm_ext_iff_of_nodup distinct valid.nodup).mpr same
    exact ⟨perm.length_eq, fun vreg => (same vreg).mp⟩

theorem mem_publish {vreg : VReg} : vreg ∈ live.publish ↔ vreg ∈ live.members := by
  simp [publish]

theorem Valid.publish_nodup (valid : Valid live) : live.publish.Nodup :=
  (List.perm_insertionSort _ _).nodup_iff.mpr valid.nodup

end Rue.Proofs.WorkingLiveSet

/-! The worklist over blocks solves per-instruction liveness. Sweeping a block
backward composes the instruction equations, so a fixed point over blocks
unfolds to one over instructions, and the worklist stays below the least one. -/

namespace Rue.Proofs.BlockSolve
open Rue.Codegen Liveness Rue.Lib Blocks WorkingLiveSet

/-- The flow graph an analysis runs over. -/
def flowGraph (successors : Successors) (instUses instDefs : VRegTable) : FlowGraph VReg :=
  { succ := succs successors
    uses := fun index vreg => vreg ∈ vregs instUses index
    defs := fun index vreg => vreg ∈ vregs instDefs index }

/-- The registers live `count` instructions before `past`, when `out` is live
there and control only falls through. -/
def sweep (graph : FlowGraph VReg) (out : Set VReg) (past : Nat) : Nat → Set VReg
  | 0 => out
  | count + 1 => fun vreg =>
    graph.uses (past - (count + 1)) vreg ∨ ¬ graph.defs (past - (count + 1)) vreg ∧ vreg ∈ sweep graph out past count

theorem sweep_mono {graph : FlowGraph VReg} {first second : Set VReg} (subset : first ⊆ second) (past count : Nat) :
    sweep graph first past count ⊆ sweep graph second past count := by
  induction count with
  | zero => exact subset
  | succ count ih => exact fun vreg live => live.imp id fun kept => ⟨kept.1, ih kept.2⟩

section Transfer
variable (successors : Successors) (instUses instDefs : VRegTable) (blocks : BlockPartition)

/-- The registers live out of a block, given those live into every block. -/
def blockOut (solution : Nat → Set VReg) (block : Nat) : Set VReg :=
  fun vreg => ∃ next ∈ succs successors (blocks.span block).2, vreg ∈ solution (blocks.of next)

/-- The registers live into a block, given those live into every block. -/
def blockTransfer (block : Nat) (solution : Nat → Set VReg) : Set VReg :=
  let (start, stop) := blocks.span block
  sweep (flowGraph successors instUses instDefs) (blockOut successors blocks solution block) (stop + 1) (stop + 1 - start)

/-- The sets a table of solved lists stands for. -/
def solutionOf (liveIn : Nat → LiveSet) : Nat → Set VReg := fun block => fun vreg => vreg ∈ liveIn block

theorem collectBlockLiveOut_spec (block : Nat) (liveIn : Nat → LiveSet) (out : WorkingLiveSet) :
    Valid (collectBlockLiveOut successors blocks block liveIn out) ∧
      ∀ vreg, vreg ∈ (collectBlockLiveOut successors blocks block liveIn out).members ↔
        vreg ∈ blockOut successors blocks (solutionOf liveIn) block := by
  have union : ∀ (targets : List Nat) (live : WorkingLiveSet), Valid live →
      Valid (targets.foldl (fun out target => out.unionFrom (liveIn (blocks.of target))) live) ∧
      ∀ vreg, vreg ∈ (targets.foldl (fun out target => out.unionFrom (liveIn (blocks.of target))) live).members ↔
        (∃ target ∈ targets, vreg ∈ liveIn (blocks.of target)) ∨ vreg ∈ live.members := by
    intro targets
    induction targets with
    | nil => exact fun live valid => ⟨valid, fun vreg => by simp⟩
    | cons target targets ih =>
      intro live valid
      obtain ⟨grown, members⟩ := valid.foldl_insert (liveIn (blocks.of target))
      obtain ⟨valid', members'⟩ := ih _ grown
      refine ⟨valid', fun vreg => (members' vreg).trans ?_⟩
      simp only [members, List.mem_cons, exists_eq_or_imp]
      rw [or_left_comm, or_assoc]
  obtain ⟨valid, members⟩ := union (succs successors (blocks.span block).2) out.clear valid_clear
  refine ⟨valid, fun vreg => (members vreg).trans ?_⟩
  simp only [mem_clear, or_false]
  rfl

theorem transferInst_spec {scratch : WorkingLiveSet} (valid : Valid scratch) (index : Nat) :
    Valid (transferInst instUses instDefs scratch index) ∧
      ∀ vreg, vreg ∈ (transferInst instUses instDefs scratch index).members ↔
        vreg ∈ vregs instUses index ∨ vreg ∉ vregs instDefs index ∧ vreg ∈ scratch.members := by
  obtain ⟨removed, kept⟩ := valid.foldl_remove (vregs instDefs index)
  obtain ⟨inserted, members⟩ := removed.foldl_insert (vregs instUses index)
  exact ⟨inserted, fun vreg => (members vreg).trans (or_congr Iff.rfl (kept vreg))⟩

private theorem sweep_spec {scratch : WorkingLiveSet} (valid : Valid scratch) {out : Set VReg}
    (same : ∀ vreg, vreg ∈ scratch.members ↔ vreg ∈ out) (past count : Nat) :
    let swept := ((List.range count).map fun offset => past - 1 - offset).foldl (transferInst instUses instDefs) scratch
    Valid swept ∧ ∀ vreg, vreg ∈ swept.members ↔ vreg ∈ sweep (flowGraph successors instUses instDefs) out past count := by
  induction count with
  | zero => exact ⟨valid, same⟩
  | succ count ih =>
    simp only [List.range_succ, List.map_append, List.map_singleton, List.foldl_append, List.foldl_cons, List.foldl_nil]
    obtain ⟨swept, members⟩ := transferInst_spec instUses instDefs ih.1 (past - 1 - count)
    refine ⟨swept, fun vreg => (members vreg).trans ?_⟩
    rw [ih.2 vreg, show past - 1 - count = past - (count + 1) by omega]
    rfl

/-- The concrete block transfer computes the abstract one. -/
theorem transferBlock_spec (block : Nat) (liveIn : Nat → LiveSet) (scratch : WorkingLiveSet) :
    Valid (transferBlock successors instUses instDefs blocks block liveIn scratch) ∧
      ∀ vreg, vreg ∈ (transferBlock successors instUses instDefs blocks block liveIn scratch).members ↔
        vreg ∈ blockTransfer successors instUses instDefs blocks block (solutionOf liveIn) := by
  obtain ⟨valid, members⟩ := collectBlockLiveOut_spec successors blocks block liveIn scratch
  have swept := sweep_spec successors instUses instDefs valid members ((blocks.span block).2 + 1)
    ((blocks.span block).2 + 1 - (blocks.span block).1)
  have order : (List.range' (blocks.span block).1 ((blocks.span block).2 + 1 - (blocks.span block).1)).reverse =
      (List.range ((blocks.span block).2 + 1 - (blocks.span block).1)).map
        fun offset => (blocks.span block).2 + 1 - 1 - offset := by
    rw [List.reverse_range']
    refine List.map_congr_left fun offset inside => ?_
    rw [List.mem_range] at inside
    omega
  simp only [Liveness.transferBlock, order]
  exact swept

theorem blockTransfer_mono {first second : Nat → Set VReg} (block : Nat)
    (subset : ∀ next ∈ succs successors (blocks.span block).2, first (blocks.of next) ⊆ second (blocks.of next)) :
    blockTransfer successors instUses instDefs blocks block first ⊆
      blockTransfer successors instUses instDefs blocks block second :=
  sweep_mono (by
    rintro vreg ⟨next, edge, live⟩
    exact ⟨next, edge, subset next edge live⟩) _ _

end Transfer

section Instructions
variable {numInsts : Nat} {successors : Successors} {instUses instDefs : VRegTable}

/-- The registers live into a block's first instruction. -/
def blockLive (numInsts : Nat) (graph : FlowGraph VReg) (successors : Successors) (block : Nat) : Set VReg :=
  graph.LiveIn ((partitionBlocks numInsts successors).span block).1

theorem sweep_sound {graph : FlowGraph VReg} {out : Set VReg} {past count : Nat} (shorter : count ≤ past)
    (exits : ∀ vreg ∈ out, graph.LiveOut (past - 1) vreg)
    (falls : ∀ index, past - count ≤ index → index + 1 < past → index + 1 ∈ graph.succ index)
    {vreg : VReg} (live : vreg ∈ sweep graph out past count) :
    (count = 0 ∧ vreg ∈ out) ∨ graph.LiveIn (past - count) vreg := by
  induction count with
  | zero => exact Or.inl ⟨rfl, live⟩
  | succ count ih =>
    refine Or.inr ?_
    rcases live with read | ⟨kept, live⟩
    · exact .use read
    · rcases ih (by omega) (fun index above below => falls index (by omega) below) live with ⟨rfl, leaving⟩ | later
      · obtain ⟨next, edge, later⟩ := exits vreg leaving
        exact .through kept edge later
      · by_cases empty : count = 0
        · subst empty
          obtain ⟨next, edge, later⟩ := exits vreg live
          exact .through kept edge later
        · have edge := falls (past - (count + 1)) (Nat.le_refl _) (by omega)
          rw [show past - (count + 1) + 1 = past - count by omega] at edge
          exact .through kept edge later

variable (instUses instDefs) (sized : successors.length = numInsts)
  (targets : ∀ source, ∀ target ∈ succs successors source, target < numInsts)
include sized targets

/-- Liveness into blocks is closed under the block transfer. -/
theorem blockTransfer_sound {block : Nat} (inside : block < (partitionBlocks numInsts successors).len) :
    blockTransfer successors instUses instDefs (partitionBlocks numInsts successors) block
        (blockLive numInsts (flowGraph successors instUses instDefs) successors) ⊆
      blockLive numInsts (flowGraph successors instUses instDefs) successors block := by
  obtain ⟨inst, instInside, rfl⟩ := exists_of inside
  obtain ⟨first, past, spans⟩ := exists_spans successors instInside
  have := spans.first_le
  have := spans.lt_past
  intro vreg live
  simp only [blockTransfer, blockLive, spans.span, show past - 1 + 1 = past by omega] at live ⊢
  have exits : ∀ vreg ∈ blockOut successors (partitionBlocks numInsts successors)
      (blockLive numInsts (flowGraph successors instUses instDefs) successors)
      ((partitionBlocks numInsts successors).of inst),
      (flowGraph successors instUses instDefs).LiveOut (past - 1) vreg := by
    rintro vreg ⟨next, edge, live⟩
    simp only [spans.span] at edge
    have nextInside := targets _ _ edge
    obtain ⟨start, stop, nextSpans⟩ := exists_spans successors nextInside
    obtain rfl := nextSpans.first_eq (spans.exit_leads edge nextInside)
    refine ⟨_, edge, ?_⟩
    have located : (flowGraph successors instUses instDefs).LiveIn
      ((partitionBlocks numInsts successors).span ((partitionBlocks numInsts successors).of start)).1 vreg := live
    rwa [nextSpans.span] at located
  have swept := sweep_sound (by omega) exits
    (fun index above below => by
      change index + 1 ∈ succs successors index
      rw [spans.falls sized (by omega) below]
      exact List.mem_singleton_self _) live
  rcases swept with ⟨empty, _⟩ | found
  · omega
  · rwa [show past - (past - first) = first by omega] at found

/-- A fixed point over blocks that stays below liveness is liveness. -/
theorem solution_eq {solution : Nat → Set VReg}
    (fixed : ∀ block < (partitionBlocks numInsts successors).len,
      blockTransfer successors instUses instDefs (partitionBlocks numInsts successors) block solution = solution block)
    (below : ∀ block < (partitionBlocks numInsts successors).len,
      solution block ⊆ blockLive numInsts (flowGraph successors instUses instDefs) successors block)
    {block : Nat} (inside : block < (partitionBlocks numInsts successors).len) :
    solution block = blockLive numInsts (flowGraph successors instUses instDefs) successors block := by
  let graph := flowGraph successors instUses instDefs
  let blocks := partitionBlocks numInsts successors
  -- Unfold the block solution to every instruction of the block.
  let live : Nat → VReg → Prop := fun index vreg => index < numInsts → ∀ first past,
    Spans numInsts successors index first past →
      vreg ∈ sweep graph (blockOut successors blocks solution (blocks.of index)) past (past - index)
  have closed : ∀ index vreg, graph.Transfer live index vreg → live index vreg := by
    intro index vreg transfers indexInside first past spans
    have := spans.first_le
    have := spans.lt_past
    obtain ⟨count, counted⟩ : ∃ count, past - index = count + 1 := ⟨past - index - 1, by omega⟩
    have position : past - (count + 1) = index := by omega
    rw [counted]
    simp only [sweep, position]
    rcases transfers with read | ⟨kept, next, edge, later⟩
    · exact Or.inl read
    · have edge : next ∈ succs successors index := edge
      have nextInside : next < numInsts := targets index next edge
      refine Or.inr ⟨kept, ?_⟩
      by_cases last : index + 1 = past
      · obtain rfl : count = 0 := by omega
        refine ⟨next, by simpa only [blocks, spans.span, ← last, Nat.add_sub_cancel] using edge, ?_⟩
        obtain ⟨start, stop, nextSpans⟩ := exists_spans successors nextInside
        have leads := spans.exit_leads (by rwa [← last, Nat.add_sub_cancel] : next ∈ succs successors (past - 1)) nextInside
        obtain rfl := nextSpans.first_eq leads
        have whole := later nextInside _ _ nextSpans
        have nextLt := nextSpans.lt_past
        rw [← fixed _ (of_lt successors nextInside)]
        simp only [blockTransfer, nextSpans.span, show stop - 1 + 1 = stop by omega]
        exact whole
      · have falls := spans.falls sized spans.first_le (by omega)
        rw [falls, List.mem_singleton] at edge
        subst edge
        have nextSpans : Spans numInsts successors (index + 1) first past :=
          ⟨by omega, by omega, spans.past_le, spans.leads, spans.inner, spans.next,
            by rw [spans.shared (index + 1) (by omega) (by omega)]; exact spans.span,
            fun other above below => by
              rw [spans.shared (index + 1) (by omega) (by omega)]; exact spans.shared other above below⟩
        have rest := later nextInside first past nextSpans
        simp only [blocks] at rest
        rw [spans.shared (index + 1) (by omega) (by omega), show past - (index + 1) = count by omega] at rest
        exact rest
  refine Set.Subset.antisymm (below block inside) ?_
  obtain ⟨inst, instInside, rfl⟩ := exists_of inside
  obtain ⟨first, past, spans⟩ := exists_spans successors instInside
  have := spans.first_le
  have := spans.lt_past
  have := spans.past_le
  intro vreg alive
  simp only [blockLive, spans.span] at alive
  have firstSpans : Spans numInsts successors first first past :=
    ⟨Nat.le_refl _, by omega, spans.past_le, spans.leads, spans.inner, spans.next,
      by rw [spans.shared first (Nat.le_refl _) (by omega)]; exact spans.span,
      fun other above below => by
        rw [spans.shared first (Nat.le_refl _) (by omega)]; exact spans.shared other above below⟩
  have found := FlowGraph.liveIn_least closed alive (by omega) first past firstSpans
  rw [← fixed _ (of_lt successors instInside)]
  simp only [blocks] at found
  rw [spans.shared first (Nat.le_refl _) (by omega)] at found
  simp only [blockTransfer, spans.span, show past - 1 + 1 = past by omega]
  exact found

end Instructions

end Rue.Proofs.BlockSolve
