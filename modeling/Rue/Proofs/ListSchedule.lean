import Mathlib
import Rue.Proofs.DepGraph

/-! List scheduling orders a block by its graph. A node is ready once every edge
into it has been retired, and edges that run forward let every node get ready,
so the order is complete whatever the priorities are. -/

namespace Rue.Proofs.ListSchedule
open Rue.Codegen Schedule Rue.Lib.Reorder DepGraph

private theorem setPriority_lists {count : Nat} {nodes : List SchedNode} {edges : List (Nat × Nat)}
    (lists : Lists count nodes edges) (index : Nat) (priority : SchedNode → Nat) :
    Lists count (nodes.modify index fun node => { node with priority := priority node }) edges := by
  refine ⟨by simpa using lists.length, lists.forward, ?_, ?_⟩
  · intro target node found
    rw [List.getElem?_modify, Option.map_eq_map, Option.map_eq_some_iff] at found
    obtain ⟨old, oldFound, rfl⟩ := found
    rw [← lists.deps target old oldFound]
    split <;> rfl
  · intro source node found
    rw [List.getElem?_modify, Option.map_eq_map, Option.map_eq_some_iff] at found
    obtain ⟨old, oldFound, rfl⟩ := found
    rw [← lists.users source old oldFound]
    split <;> rfl

theorem calculatePriorities_lists {count : Nat} {nodes : List SchedNode} {edges : List (Nat × Nat)}
    (lists : Lists count nodes edges) : Lists count (calculatePriorities nodes) edges := by
  unfold calculatePriorities
  generalize (List.range nodes.length).reverse = indices
  induction indices generalizing nodes with
  | nil => exact lists
  | cons index indices ih => exact ih (setPriority_lists lists index _)

theorem popReady_spec {ready rest : List ReadyInst} {best : ReadyInst} (popped : popReady ready = some (best, rest)) :
    ready.Perm (best :: rest) := by
  cases ready with
  | nil => cases popped
  | cons first ready =>
    simp only [popReady, Option.some.injEq, Prod.mk.injEq] at popped
    obtain ⟨rfl, rfl⟩ := popped
    refine List.perm_cons_erase ?_
    have chosen : ∀ (entries : List ReadyInst) (start : ReadyInst),
        entries.foldl (fun best entry => if entry.outranks best then entry else best) start ∈ start :: entries := by
      intro entries
      induction entries with
      | nil => exact fun start => List.mem_cons_self
      | cons entry entries ih =>
        intro start
        rw [List.foldl_cons]
        split
        · exact List.mem_cons_of_mem _ (ih entry)
        · rcases List.mem_cons.mp (ih start) with same | later
          · rw [same]
            exact List.mem_cons_self
          · exact List.mem_cons_of_mem _ (List.mem_cons_of_mem _ later)
    exact chosen ready first

theorem popReady_none {ready : List ReadyInst} (popped : popReady ready = none) : ready = [] := by
  cases ready with
  | nil => rfl
  | cons first ready => cases popped

/-- The edges into a node whose source is not done. -/
def pending (edges : List (Nat × Nat)) (done : List Nat) (user : Nat) : Nat :=
  edges.countP fun edge => edge.2 = user ∧ edge.1 ∉ done

/-- What holds while the edges out of one node are retired; `filed` are the
targets of those retired so far. -/
structure Kept (count : Nat) (edges : List (Nat × Nat)) (done filed : List Nat) (state : ScheduleScratch) : Prop where
  size : state.remainingDeps.length = count
  counted : ∀ user < count, state.remainingDeps[user]?.getD 0 + filed.count user = pending edges done user
  ready : ∀ user, user ∈ state.ready.map ReadyInst.idx ↔
    user < count ∧ state.remainingDeps[user]?.getD 0 = 0 ∧ user ∉ state.scheduled
  unique : (state.ready.map ReadyInst.idx).Nodup
  distinct : state.scheduled.Nodup
  inside : ∀ user ∈ state.scheduled, user < count ∧ state.remainingDeps[user]?.getD 0 = 0
  ordered : ∀ edge ∈ edges, edge.2 ∈ state.scheduled → Precedes state.scheduled edge.1 edge.2

variable {count : Nat} {nodes : List SchedNode} {edges : List (Nat × Nat)}

theorem pending_pop {done : List Nat} {current : Nat} (fresh : current ∉ done) (user : Nat) :
    pending edges done user = pending edges (done ++ [current]) user +
      ((edges.filter fun edge => edge.1 = current).map Prod.snd).count user := by
  simp only [pending, List.count, List.countP_map, List.countP_filter]
  induction edges with
  | nil => rfl
  | cons edge edges ih =>
    simp only [List.countP_cons, ih]
    by_cases leads : edge.2 = user
    · by_cases leaves : edge.1 = current
      · simp [leads, leaves, fresh]
        omega
      · simp [leads, leaves]
        omega
    · simp [leads]

theorem Kept.completeEdge {done filed rest : List Nat} {current user : Nat} {state : ScheduleScratch}
    (kept : Kept count edges done filed state) (lists : Lists count nodes edges) (fresh : current ∉ done)
    (split : (edges.filter fun edge => edge.1 = current).map Prod.snd = filed ++ user :: rest) :
    Kept count edges done (filed ++ [user]) (state.completeEdge nodes user) ∧
      (state.completeEdge nodes user).scheduled = state.scheduled := by
  have listed : user ∈ (edges.filter fun edge => edge.1 = current).map Prod.snd := by rw [split]; simp
  obtain ⟨edge, member, rfl⟩ := List.mem_map.mp listed
  have inside := (lists.forward edge (List.mem_filter.mp member).1).2
  have counted := kept.counted edge.2 inside
  have leaves : pending edges done edge.2 = pending edges (done ++ [current]) edge.2 +
      ((edges.filter fun edge => edge.1 = current).map Prod.snd).count edge.2 := pending_pop fresh edge.2
  rw [split, List.count_append, List.count_cons_self] at leaves
  -- The edge at hand is still counted, so the counter does not underflow.
  have positive : 0 < state.remainingDeps[edge.2]?.getD 0 := by omega
  have unscheduled : edge.2 ∉ state.scheduled := fun done => by
    have := (kept.inside edge.2 done).2
    omega
  have lookup : ∀ user, (state.remainingDeps.modify edge.2 (· - 1))[user]?.getD 0 =
      if edge.2 = user then state.remainingDeps[user]?.getD 0 - 1 else state.remainingDeps[user]?.getD 0 := by
    intro user
    rw [List.getElem?_modify, Option.map_eq_map]
    cases state.remainingDeps[user]? <;> split <;> rfl
  have counted' : ∀ user < count, (state.remainingDeps.modify edge.2 (· - 1))[user]?.getD 0 +
      (filed ++ [edge.2]).count user = pending edges done user := by
    intro user small
    have old := kept.counted user small
    rw [lookup, List.count_append, List.count_singleton]
    by_cases same : edge.2 = user
    · subst same
      simp only [ite_true, BEq.rfl]
      omega
    · simp only [same, if_false, beq_iff_eq, Nat.add_zero]
      exact old
  have inside' : ∀ user ∈ state.scheduled, user < count ∧ (state.remainingDeps.modify edge.2 (· - 1))[user]?.getD 0 = 0 := by
    intro user done
    obtain ⟨small, zero⟩ := kept.inside user done
    refine ⟨small, ?_⟩
    rw [lookup]
    split <;> omega
  unfold ScheduleScratch.completeEdge
  dsimp only
  split
  next last =>
    have zero := lookup edge.2
    rw [last, Option.getD_some, if_pos rfl] at zero
    refine ⟨⟨by simpa using kept.size, counted', ?_, ?_, kept.distinct, inside', kept.ordered⟩, rfl⟩
    · intro user
      rw [List.map_append, List.mem_append, kept.ready, lookup]
      by_cases same : edge.2 = user
      · subst same
        simp [inside, unscheduled, ← zero]
      · simp [same, Ne.symm same]
    · rw [List.map_append, List.nodup_append]
      refine ⟨kept.unique, by simp, ?_⟩
      intro first found second single same
      have small := ((kept.ready first).mp found).2.1
      obtain rfl : second = edge.2 := by simpa using single
      rw [same] at small
      omega
  next more =>
    have nonzero : (state.remainingDeps.modify edge.2 (· - 1))[edge.2]?.getD 0 ≠ 0 := by
      intro zero
      have present : edge.2 < (state.remainingDeps.modify edge.2 (· - 1)).length := by
        have := kept.size
        simpa [this] using inside
      rw [List.getElem?_eq_getElem present] at zero more
      exact more (congrArg some zero)
    refine ⟨⟨by simpa using kept.size, counted', ?_, kept.unique, kept.distinct, inside', kept.ordered⟩, rfl⟩
    intro user
    rw [kept.ready]
    by_cases same : edge.2 = user
    · subst same
      simp only [nonzero, false_and, and_false, iff_false, not_and, not_not]
      intro _ zero
      omega
    · rw [lookup, if_neg same]

/-- Retiring every edge out of a popped node completes it. -/
theorem Kept.pop {state : ScheduleScratch} {best : ReadyInst} {ready : List ReadyInst}
    (kept : Kept count edges state.scheduled [] state) (lists : Lists count nodes edges)
    (popped : popReady state.ready = some (best, ready)) :
    let next := ((nodes[best.idx]?.map SchedNode.users).getD []).foldl (ScheduleScratch.completeEdge nodes)
      { state with ready, scheduled := state.scheduled ++ [best.idx] }
    Kept count edges next.scheduled [] next ∧ next.scheduled = state.scheduled ++ [best.idx] := by
  have perm := (popReady_spec popped).map ReadyInst.idx
  obtain ⟨small, zero, fresh⟩ := (kept.ready best.idx).mp (perm.mem_iff.mpr List.mem_cons_self)
  have unique := perm.nodup_iff.mp kept.unique
  rw [List.map_cons, List.nodup_cons] at unique
  have start : Kept count edges state.scheduled [] { state with ready, scheduled := state.scheduled ++ [best.idx] } := by
    refine ⟨kept.size, kept.counted, ?_, unique.2, ?_, ?_, ?_⟩
    · intro user
      have old := kept.ready user
      rw [perm.mem_iff, List.map_cons, List.mem_cons] at old
      simp only [List.mem_append, List.mem_singleton, not_or, ← and_assoc] at old ⊢
      rw [← old]
      constructor
      · intro member
        exact ⟨Or.inr member, fun same => unique.1 (same ▸ member)⟩
      · rintro ⟨same | member, different⟩
        · exact absurd same different
        · exact member
    · exact List.nodup_append.mpr ⟨kept.distinct, by simp, fun first member second single same =>
        fresh (List.mem_singleton.mp single ▸ same ▸ member)⟩
    · intro user done
      rcases List.mem_append.mp done with earlier | single
      · exact kept.inside user earlier
      · rw [List.mem_singleton.mp single]
        exact ⟨small, zero⟩
    · intro edge member done
      rcases List.mem_append.mp done with earlier | single
      · exact (kept.ordered edge member earlier).weaken (List.sublist_append_left _ _)
      · have none' := kept.counted best.idx small
        rw [zero, List.count_nil] at none'
        have source := List.countP_eq_zero.mp none'.symm edge member
        simp only [decide_eq_true_eq, not_and, not_not] at source
        exact Precedes.append (source (List.mem_singleton.mp single)) single
  have fold : ∀ rest filed (middle : ScheduleScratch), (edges.filter fun edge => edge.1 = best.idx).map Prod.snd = filed ++ rest →
      Kept count edges state.scheduled filed middle →
      Kept count edges state.scheduled ((edges.filter fun edge => edge.1 = best.idx).map Prod.snd)
        (rest.foldl (ScheduleScratch.completeEdge nodes) middle) ∧
      (rest.foldl (ScheduleScratch.completeEdge nodes) middle).scheduled = middle.scheduled := by
    intro rest
    induction rest with
    | nil =>
      intro filed middle whole keeps
      rw [List.append_nil] at whole
      exact ⟨whole ▸ keeps, rfl⟩
    | cons user rest ih =>
      intro filed middle whole keeps
      obtain ⟨keeps', same⟩ := keeps.completeEdge lists fresh whole
      obtain ⟨final, sameFinal⟩ := ih (filed ++ [user]) _ (by simp [whole]) keeps'
      exact ⟨final, sameFinal.trans same⟩
  have users : (nodes[best.idx]?.map SchedNode.users).getD [] = (edges.filter fun edge => edge.1 = best.idx).map Prod.snd := by
    have present : best.idx < nodes.length := lists.length ▸ small
    rw [List.getElem?_eq_getElem present]
    exact lists.users best.idx _ (List.getElem?_eq_getElem present)
  obtain ⟨final, same⟩ := fold _ [] _ rfl start
  intro next
  simp only [next, users]
  refine ⟨?_, same⟩
  refine ⟨final.size, ?_, final.ready, final.unique, final.distinct, final.inside, final.ordered⟩
  intro user inside
  have counted := final.counted user inside
  rw [pending_pop fresh] at counted
  rw [same, List.count_nil]
  dsimp only
  omega

/-- A run either empties the heap or pops as often as it has fuel. -/
theorem run_spec (lists : Lists count nodes edges) (fuel : Nat) {state : ScheduleScratch}
    (kept : Kept count edges state.scheduled [] state) :
    let final := ScheduleScratch.run nodes fuel state
    Kept count edges final.scheduled [] final ∧
      (final.ready = [] ∨ final.scheduled.length = state.scheduled.length + fuel) := by
  induction fuel generalizing state with
  | zero => exact ⟨kept, Or.inr rfl⟩
  | succ fuel ih =>
    unfold ScheduleScratch.run
    split
    next popped => exact ⟨kept, Or.inl (popReady_none popped)⟩
    next best ready popped =>
      obtain ⟨kept', grown⟩ := kept.pop lists popped
      obtain ⟨final, done⟩ := ih kept'
      refine ⟨final, done.imp id fun length => ?_⟩
      rw [length, grown, List.length_append, List.length_singleton]
      omega

/-- When nothing is ready, everything is scheduled: the least node that were not
would have every edge into it retired. -/
theorem Kept.complete {state : ScheduleScratch} (kept : Kept count edges state.scheduled [] state)
    (lists : Lists count nodes edges) (idle : state.ready = []) : ∀ user < count, user ∈ state.scheduled := by
  intro user
  induction user using Nat.strongRecOn with
  | ind user ih =>
    intro inside
    by_contra missing
    have none' : pending edges state.scheduled user = 0 := by
      refine List.countP_eq_zero.mpr fun edge member => ?_
      simp only [decide_eq_true_eq, not_and, not_not]
      rintro rfl
      exact ih edge.1 (lists.forward edge member).1 (by have := lists.forward edge member; omega)
    have counted := kept.counted user inside
    have waiting := (kept.ready user).mpr ⟨inside, by omega, missing⟩
    rw [idle] at waiting
    exact absurd waiting List.not_mem_nil

/-- The order is a permutation of the block in which every edge runs forward. -/
theorem scheduleBlockReusing_spec (lists : Lists count nodes edges) (scratch : ScheduleScratch) :
    (scheduleBlockReusing nodes scratch).scheduled.Perm (List.range count) ∧
      ∀ edge ∈ edges, Precedes (scheduleBlockReusing nodes scratch).scheduled edge.1 edge.2 := by
  have remaining : ∀ user < count, (nodes.map fun node => node.deps.length)[user]? = some (pending edges [] user) := by
    intro user inside
    have present : user < nodes.length := lists.length ▸ inside
    rw [List.getElem?_map, List.getElem?_eq_getElem present, Option.map_some,
      lists.deps user _ (List.getElem?_eq_getElem present), List.length_map, ← List.countP_eq_length_filter]
    simp [pending]
  let ready := nodes.zipIdx.filterMap fun entry =>
    if (nodes.map fun node => node.deps.length)[entry.2]? = some 0 then some (ReadyInst.mk entry.1.priority entry.2) else none
  let initial : ScheduleScratch := ⟨[], nodes.map fun node => node.deps.length, ready⟩
  have start : Kept count edges initial.scheduled [] initial := by
    refine ⟨by simpa [initial] using lists.length, ?_, ?_, ?_, List.nodup_nil, by simp [initial], by simp [initial]⟩
    · intro user inside
      simp [initial, remaining user inside]
    · intro user
      simp only [initial, ready, List.mem_map, List.mem_filterMap, List.not_mem_nil, not_false_eq_true, and_true]
      constructor
      · rintro ⟨entry, ⟨⟨node, index⟩, listed, chosen⟩, rfl⟩
        split at chosen
        next zero =>
          cases chosen
          have present := (List.getElem?_eq_some_iff.mp zero).1
          rw [List.length_map, lists.length] at present
          exact ⟨present, by rw [zero, Option.getD_some]⟩
        next => cases chosen
      · rintro ⟨inside, zero⟩
        have present : user < nodes.length := lists.length ▸ inside
        refine ⟨⟨nodes[user].priority, user⟩, ⟨(nodes[user], user), ?_, ?_⟩, rfl⟩
        · exact List.mem_zipIdx_iff_getElem?.mpr (List.getElem?_eq_getElem present)
        · rw [remaining user inside, Option.getD_some] at zero
          simp only [remaining user inside, zero, if_true]
    · have indices : (nodes.zipIdx.map Prod.snd).Nodup := by
        rw [List.zipIdx_map_snd]
        exact List.nodup_range'
      simp only [initial, ready, List.Nodup, List.pairwise_map, List.pairwise_filterMap] at indices ⊢
      refine indices.imp ?_
      rintro ⟨first, firstIndex⟩ ⟨second, secondIndex⟩ different entry chosen other otherChosen
      split at chosen <;> split at otherChosen <;> cases chosen <;> cases otherChosen
      exact different
  have whole : (scheduleBlockReusing nodes scratch).scheduled = (ScheduleScratch.run nodes nodes.length initial).scheduled := by
    unfold scheduleBlockReusing
    split
    next empty =>
      obtain rfl := List.isEmpty_iff.mp empty
      rfl
    next => rfl
  obtain ⟨final, finished⟩ := run_spec lists nodes.length start
  rw [whole]
  have subset : (ScheduleScratch.run nodes nodes.length initial).scheduled ⊆ List.range count :=
    fun user done => List.mem_range.mpr (final.inside user done).1
  have everything : (ScheduleScratch.run nodes nodes.length initial).scheduled.Perm (List.range count) := by
    rcases finished with idle | length
    · refine (List.perm_ext_iff_of_nodup final.distinct List.nodup_range).mpr fun user => ⟨fun done => subset done, ?_⟩
      exact fun member => final.complete lists idle user (List.mem_range.mp member)
    · refine (List.subperm_of_subset final.distinct subset).perm_of_length_le ?_
      rw [length, List.length_range, lists.length]
      exact Nat.le_add_left _ _
  refine ⟨everything, fun edge member => final.ordered edge member ?_⟩
  exact everything.mem_iff.mpr (List.mem_range.mpr (lists.forward edge member).2)

end Rue.Proofs.ListSchedule
