import Rue.Proofs.BlockSolve

/-! Runs of the block worklist. A visit either leaves its block alone or grows
it and requeues the blocks that read it, so the fuel outlasts the queue and the
last state is solved. -/

namespace Rue.Proofs.SolveRun
open Rue.Codegen Liveness Rue.Lib Csr Blocks BlockSolve WorkingLiveSet

section Predecessors
variable (successors : List (List Nat))

theorem mem_row {edges : List (Nat × Nat)} {key value : Nat} : value ∈ row edges key ↔ (key, value) ∈ edges := by
  simp [row]

theorem mem_incomingEdges {edges : List (List Nat × Nat)} {target source : Nat} :
    (target, source) ∈ incomingEdges edges ↔ ∃ targets, (targets, source) ∈ edges ∧ target ∈ targets := by
  simp only [incomingEdges, List.mem_flatMap, List.mem_map, Prod.mk.injEq, Prod.exists]
  constructor
  · rintro ⟨targets, other, listed, _, named, rfl, rfl⟩
    exact ⟨targets, listed, named⟩
  · rintro ⟨targets, listed, named⟩
    exact ⟨targets, source, listed, target, named, rfl, rfl⟩

theorem incomingEdges_reverse : (incomingEdges successors.zipIdx.reverse).Perm (incomingEdges successors.zipIdx) :=
  (List.reverse_perm _).flatMap_right _

theorem length_incomingEdges (edges : List (List Nat × Nat)) :
    (incomingEdges edges).length = (edges.map Prod.fst).flatten.length := by
  induction edges with
  | nil => rfl
  | cons edge edges ih =>
    simp only [incomingEdges, List.flatMap_cons, List.length_append, List.length_map, List.map_cons,
      List.flatten_cons] at ih ⊢
    rw [ih]

private theorem fill_untouched {edges : List (Nat × Nat)} {keys : Nat} (inside : ∀ edge ∈ edges, edge.1 < keys)
    (cursors values : Table) : (fill edges cursors values).1 keys = cursors keys := by
  induction edges generalizing cursors values with
  | nil => rfl
  | cons edge edges ih =>
    have first := inside edge List.mem_cons_self
    have rest := ih (fun other member => inside other (List.mem_cons_of_mem _ member))
      (Function.update cursors edge.1 (cursors edge.1 + 1)) (Function.update values (cursors edge.1) edge.2)
    rw [Function.update_of_ne (by omega)] at rest
    exact rest

/-- Moving every entry of a run one place up, from the top. -/
private theorem shift_up (count : Nat) (offsets : Table) (index : Nat) :
    ((List.range' 1 count).reverse.foldl
      (fun offsets index => Function.update offsets index (offsets (index - 1))) offsets) index =
      if 1 ≤ index ∧ index ≤ count then offsets (index - 1) else offsets index := by
  induction count generalizing offsets with
  | zero =>
    rw [if_neg (by omega)]
    rfl
  | succ count ih =>
    rw [List.range'_concat, List.reverse_append, List.reverse_singleton, List.singleton_append, List.foldl_cons, ih]
    rw [Nat.one_mul, show 1 + count - 1 = count by omega]
    by_cases last : index = 1 + count
    · subst last
      rw [if_neg (by omega), Function.update_self, if_pos (by omega)]
      congr 1
      omega
    · by_cases low : 1 ≤ index ∧ index ≤ count
      · rw [if_pos low, Function.update_of_ne (by omega), if_pos (by omega)]
      · rw [if_neg low, Function.update_of_ne last, if_neg (by omega)]

/-- A block's row lists the sources of the edges into it. -/
theorem predecessorRow (inside : ∀ targets ∈ successors, ∀ target ∈ targets, target < successors.length)
    (block : Nat) (named : block < successors.length) :
    slice (buildPredecessorCsr successors).2 ((buildPredecessorCsr successors).1 block)
      ((buildPredecessorCsr successors).1 (block + 1)) = row (incomingEdges successors.zipIdx.reverse) block := by
  let edges := incomingEdges successors.zipIdx.reverse
  have perm := incomingEdges_reverse successors
  have edgesInside : ∀ edge ∈ edges, edge.1 < successors.length := by
    rintro ⟨target, source⟩ member
    obtain ⟨targets, listed, target_mem⟩ := mem_incomingEdges.mp (perm.mem_iff.mp member)
    exact inside targets (List.fst_mem_of_mem_zipIdx listed) target target_mem
  have sums : ∀ key ≤ successors.length,
      prefixSums successors.length (counts (incomingEdges successors.zipIdx)) key = bound edges key := by
    intro key small
    rw [prefixSums_counts _ _ key small]
    exact (perm.countP_eq _).symm
  have offsets : ∀ key ≤ successors.length, (buildPredecessorCsr successors).1 key = bound edges key := by
    intro key small
    simp only [buildPredecessorCsr]
    by_cases zero : key = 0
    · subst zero
      rw [Function.update_self]
      simp [bound]
    · rw [Function.update_of_ne zero, shift_up]
      by_cases last : key = successors.length
      · rw [if_neg (by omega), last, fill_untouched edgesInside]
        exact sums _ (Nat.le_refl _)
      · rw [if_pos (by omega)]
        have filled := (fill_rows edgesInside [] edges rfl
          (prefixSums successors.length (counts (incomingEdges successors.zipIdx))) (fun _ => 0)
          (fun key small => by rw [sums key (Nat.le_of_lt small)]; simp [row]) (by simp [row])).1 (key - 1) (by omega)
        rwa [Nat.sub_add_cancel (by omega)] at filled
  rw [offsets block (Nat.le_of_lt named), offsets (block + 1) named]
  exact slice_fill edgesInside _ _ (fun key small => sums key (Nat.le_of_lt small)) named

end Predecessors

theorem enqueue_spec (state : SolveState) (marked : ∀ block, state.queued block = true → block ∈ state.queue)
    (block : Nat) :
    (state.enqueue block).liveIn = state.liveIn ∧ (state.enqueue block).scratch = state.scratch ∧
      (∀ other, (state.enqueue block).queued other = true → other ∈ (state.enqueue block).queue) ∧
      block ∈ (state.enqueue block).queue ∧
      ∃ added, (state.enqueue block).queue = state.queue ++ added ∧ added.length ≤ 1 ∧ added ⊆ [block] := by
  unfold SolveState.enqueue
  split
  next present => exact ⟨rfl, rfl, marked, marked block present, [], by simp⟩
  next =>
    refine ⟨rfl, rfl, ?_, by simp, [block], rfl, by simp, List.Subset.refl _⟩
    intro other queued
    by_cases same : other = block
    · simp [same]
    · dsimp only at queued
      rw [Function.update_of_ne same] at queued
      exact List.mem_append_left _ (marked other queued)

/-- Requeueing a list of blocks leaves every one of them queued. -/
theorem foldl_enqueue_spec (state : SolveState) (marked : ∀ block, state.queued block = true → block ∈ state.queue)
    (targets : List Nat) :
    (targets.foldl .enqueue state).liveIn = state.liveIn ∧ (targets.foldl .enqueue state).scratch = state.scratch ∧
      (∀ other, (targets.foldl .enqueue state).queued other = true → other ∈ (targets.foldl .enqueue state).queue) ∧
      (∀ target ∈ targets, target ∈ (targets.foldl .enqueue state).queue) ∧
      ∃ added, (targets.foldl .enqueue state).queue = state.queue ++ added ∧ added.length ≤ targets.length ∧
        added ⊆ targets := by
  induction targets generalizing state with
  | nil => exact ⟨rfl, rfl, marked, by simp, [], by simp⟩
  | cons target targets ih =>
    obtain ⟨liveIn, scratch, marked', present, added, queue, short, subset⟩ := enqueue_spec state marked target
    obtain ⟨liveIn', scratch', marked'', present', added', queue', short', subset'⟩ := ih _ marked'
    refine ⟨liveIn'.trans liveIn, scratch'.trans scratch, marked'', ?_, added ++ added', ?_, ?_, ?_⟩
    · intro other member
      rcases List.mem_cons.mp member with rfl | later
      · rw [List.foldl_cons, queue']
        exact List.mem_append_left _ present
      · exact present' other later
    · rw [List.foldl_cons, queue', queue, List.append_assoc]
    · simp only [List.length_append, List.length_cons]
      omega
    · intro other member
      rcases List.mem_append.mp member with early | late
      · exact List.mem_cons.mpr (Or.inl (List.mem_singleton.mp (subset early)))
      · exact List.mem_cons_of_mem _ (subset' late)

section Run
variable {numInsts vregCount : Nat} {successors : Successors} {instUses instDefs : VRegTable}

/-- The tables an adapter hands over: one entry for each instruction, and every
target and register in range. -/
structure WellFormed (numInsts vregCount : Nat) (successors : Successors) (instUses : VRegTable) : Prop where
  sized : successors.length = numInsts
  targets : ∀ source, ∀ target ∈ succs successors source, target < numInsts
  uses : ∀ index, ∀ vreg ∈ vregs instUses index, vreg < vregCount

structure Kept (vregCount : Nat) (successors : Successors) (instUses instDefs : VRegTable) (numInsts : Nat)
    (state : SolveState) : Prop where
  rising : Worklist.Rising (blockTransfer successors instUses instDefs (partitionBlocks numInsts successors))
    (partitionBlocks numInsts successors).len
    (blockLive numInsts (flowGraph successors instUses instDefs) successors) (solutionOf state.liveIn) state.queue
  distinct : ∀ block, (state.liveIn block).Nodup
  marked : ∀ block, state.queued block = true → block ∈ state.queue
  inside : ∀ block ∈ state.queue, block < (partitionBlocks numInsts successors).len

/-- How many registers the sets can still gain. -/
def room (vregCount count : Nat) (liveIn : Nat → LiveSet) : Nat :=
  ∑ block ∈ Finset.range count, (vregCount - (liveIn block).length)

theorem WellFormed.liveIn_lt (wellFormed : WellFormed numInsts vregCount successors instUses) {index : Nat} {vreg : VReg} (live : (flowGraph successors instUses instDefs).LiveIn index vreg) :
    vreg < vregCount := by
  induction live with
  | use read => exact wellFormed.uses _ _ read
  | through _ _ _ ih => exact ih

theorem length_blockSuccessors :
    (blockSuccessors successors (partitionBlocks numInsts successors)).length = (partitionBlocks numInsts successors).len := by
  simp [blockSuccessors]

theorem mem_rows {block source : Nat} :
    source ∈ row (incomingEdges (blockSuccessors successors (partitionBlocks numInsts successors)).zipIdx.reverse) block ↔
      source < (partitionBlocks numInsts successors).len ∧
      ∃ next ∈ succs successors ((partitionBlocks numInsts successors).span source).2,
        (partitionBlocks numInsts successors).of next = block := by
  rw [mem_row, (incomingEdges_reverse _).mem_iff, mem_incomingEdges]
  simp only [List.mem_zipIdx_iff_getElem?, blockSuccessors, List.getElem?_map]
  constructor
  · rintro ⟨targets, found, named⟩
    obtain ⟨source', ranged, rfl⟩ := Option.map_eq_some_iff.mp found
    obtain ⟨sourceInside, same⟩ := List.getElem?_eq_some_iff.mp ranged
    rw [List.getElem_range] at same
    subst same
    exact ⟨by simpa using sourceInside, List.mem_map.mp named⟩
  · rintro ⟨sourceInside, next, edge, same⟩
    exact ⟨_, by rw [List.getElem?_range sourceInside, Option.map_some], List.mem_map.mpr ⟨next, edge, same⟩⟩

theorem length_row_le (numInsts : Nat) (successors : Successors) (block : Nat) :
    (row (incomingEdges (blockSuccessors successors (partitionBlocks numInsts successors)).zipIdx.reverse) block).length ≤
      (blockSuccessors successors (partitionBlocks numInsts successors)).flatten.length := by
  rw [length_row]
  refine Nat.le_trans List.countP_le_length ?_
  rw [(incomingEdges_reverse _).length_eq, length_incomingEdges, List.zipIdx_map_fst]

/-- Two nonrepeating lists, the first inside the second, have the same members
once the first is as long. -/
private theorem length_lt_of_grown {old new : List VReg} (distinct : old.Nodup) (subset : old ⊆ new)
    (differ : ¬ ∀ vreg, vreg ∈ old ↔ vreg ∈ new) : old.length < new.length := by
  by_contra short
  have perm := (List.subperm_of_subset distinct subset).perm_of_length_le (by omega)
  exact differ fun vreg => perm.mem_iff

private theorem length_le_of_lt {live : LiveSet} (distinct : live.Nodup) (small : ∀ vreg ∈ live, vreg < vregCount) :
    live.length ≤ vregCount := by
  have subset : live ⊆ List.range vregCount := fun vreg member => List.mem_range.mpr (small vreg member)
  have := (List.subperm_of_subset distinct subset).length_le
  rwa [List.length_range] at this

/-- Growing one block's set within bounds uses up room. -/
private theorem room_update (count : Nat) {block : Nat} {liveIn : Nat → LiveSet} {grown : LiveSet} (inside : block < count)
    (longer : (liveIn block).length < grown.length) (small : grown.length ≤ vregCount) :
    room vregCount count (Function.update liveIn block grown) < room vregCount count liveIn := by
  refine Finset.sum_lt_sum ?_ ⟨block, Finset.mem_range.mpr inside, ?_⟩
  · intro other _
    by_cases same : other = block
    · subst same
      rw [Function.update_self]
      omega
    · rw [Function.update_of_ne same]
  · rw [Function.update_self]
    omega

section Visit
variable (wellFormed : WellFormed numInsts vregCount successors instUses)
include wellFormed

/-- One visit keeps the invariant and uses up part of what bounds the run. -/
theorem visit_spec {state : SolveState} {block : Nat} {queue : List Nat} (popped : state.queue = block :: queue)
    (kept : Kept vregCount successors instUses instDefs numInsts state) :
    let blocks := partitionBlocks numInsts successors
    let rows := row (incomingEdges (blockSuccessors successors blocks).zipIdx.reverse)
    let edges := (blockSuccessors successors blocks).flatten.length
    let visited := SolveState.visit successors instUses instDefs blocks rows { state with queue } block
    Kept vregCount successors instUses instDefs numInsts visited ∧
      room vregCount blocks.len visited.liveIn * (edges + 1) + visited.queue.length <
        room vregCount blocks.len state.liveIn * (edges + 1) + state.queue.length := by
  intro blocks rows edges visited
  have named : block < blocks.len := kept.inside block (by simp [popped])
  have rising := kept.rising
  rw [popped] at rising
  obtain ⟨valid, members⟩ := transferBlock_spec successors instUses instDefs blocks block state.liveIn state.scratch
  let scratch := transferBlock successors instUses instDefs blocks block state.liveIn state.scratch
  have unmarked : ∀ other, Function.update state.queued block false other = true → other ∈ queue := by
    intro other queued
    by_cases same : other = block
    · subst same
      rw [Function.update_self] at queued
      cases queued
    · rw [Function.update_of_ne same] at queued
      have found := kept.marked other queued
      rw [popped] at found
      exact (List.mem_cons.mp found).resolve_left same
  by_cases settled : scratch.holds (state.liveIn block) = true
  · have same : blockTransfer successors instUses instDefs blocks block (solutionOf state.liveIn) =
        solutionOf state.liveIn block :=
      Set.ext fun vreg => (members vreg).symm.trans ((valid.holds_iff (kept.distinct block)).mp settled vreg).symm
    have visitedEq : visited = { state with scratch, queue, queued := Function.update state.queued block false } := by
      simp only [visited, SolveState.visit]
      exact if_pos settled
    rw [visitedEq]
    refine ⟨⟨rising.skip same, kept.distinct, unmarked, ?_⟩, ?_⟩
    · exact fun other member => kept.inside other (by rw [popped]; exact List.mem_cons_of_mem _ member)
    · rw [popped]
      exact Nat.add_lt_add_left (Nat.lt_succ_self _) _
  · let grown : SolveState :=
      { liveIn := Function.update state.liveIn block scratch.publish, scratch, queue
        queued := Function.update state.queued block false }
    have visitedEq : visited = (rows block).foldl .enqueue grown := by
      simp only [visited, SolveState.visit]
      exact if_neg settled
    obtain ⟨liveIn, _, marked, requeued, added, queued, short, subset⟩ := foldl_enqueue_spec grown unmarked (rows block)
    have publishes : solutionOf grown.liveIn = Function.update (solutionOf state.liveIn) block
        (blockTransfer successors instUses instDefs blocks block (solutionOf state.liveIn)) := by
      funext other
      by_cases same : other = block
      · subst same
        rw [Function.update_self]
        refine Set.ext fun vreg => Iff.trans ?_ (members vreg)
        change vreg ∈ Function.update state.liveIn other scratch.publish other ↔ _
        rw [Function.update_self, mem_publish]
      · rw [Function.update_of_ne same]
        refine Set.ext fun vreg => ?_
        change vreg ∈ Function.update state.liveIn block scratch.publish other ↔ _
        rw [Function.update_of_ne same]
        rfl
    have monotone : ∀ (other : Nat) (first second : Nat → Set VReg), (∀ node < blocks.len, first node ⊆ second node) →
        blockTransfer successors instUses instDefs blocks other first ⊆
          blockTransfer successors instUses instDefs blocks other second := by
      intro other first second subset
      exact blockTransfer_mono successors instUses instDefs blocks other
        fun next edge => subset _ (of_lt successors (wellFormed.targets _ _ edge))
    have sound := blockTransfer_sound instUses instDefs wellFormed.sized wellFormed.targets named
    rw [visitedEq]
    refine ⟨⟨?_, ?_, marked, ?_⟩, ?_⟩
    · rw [liveIn, publishes]
      refine rising.update monotone sound ?_ ?_
      · intro other member
        rw [queued]
        exact List.mem_append_left _ member
      · intro other otherNamed
        by_cases reads : other ∈ rows block
        · exact Or.inl (requeued other reads)
        · refine Or.inr ?_
          have unaffected : ∀ next ∈ succs successors (blocks.span other).2, blocks.of next ≠ block :=
            fun next edge same => reads (mem_rows.mpr ⟨otherNamed, next, edge, same⟩)
          refine Set.Subset.antisymm ?_ ?_ <;>
          · refine blockTransfer_mono successors instUses instDefs blocks other fun next edge => ?_
            rw [Function.update_of_ne (unaffected next edge)]
    · intro other
      rw [liveIn]
      change (Function.update state.liveIn block scratch.publish other).Nodup
      by_cases same : other = block
      · subst same
        rw [Function.update_self]
        exact valid.publish_nodup
      · rw [Function.update_of_ne same]
        exact kept.distinct other
    · intro other member
      rw [queued] at member
      rcases List.mem_append.mp member with old | new
      · exact kept.inside other (by rw [popped]; exact List.mem_cons_of_mem _ old)
      · exact (mem_rows.mp (subset new)).1
    · have small : ∀ vreg ∈ scratch.publish, vreg < vregCount := by
        intro vreg member
        exact wellFormed.liveIn_lt (sound (monotone block _ _ rising.below ((members vreg).mp (mem_publish.mp member))))
      have longer : (state.liveIn block).length < scratch.publish.length := by
        refine length_lt_of_grown (kept.distinct block) ?_ ?_
        · intro vreg member
          exact mem_publish.mpr ((members vreg).mpr (rising.rising block named member))
        · intro same
          exact settled ((valid.holds_iff (kept.distinct block)).mpr fun vreg => (same vreg).trans mem_publish)
      have used := room_update blocks.len named longer (length_le_of_lt valid.publish_nodup small)
      have shortRow := length_row_le numInsts successors block
      rw [liveIn, queued, popped]
      have scaled := Nat.mul_le_mul_right (edges + 1) (Nat.succ_le_of_lt used)
      rw [Nat.succ_mul] at scaled
      simp only [grown, List.length_append, List.length_cons]
      change (rows block).length ≤ edges at shortRow
      omega

/-- With fuel for its remaining visits, a run empties the queue. -/
theorem run_spec {rows : Nat → List Nat} {fuel : Nat} {state : SolveState}
    (table : ∀ block < (partitionBlocks numInsts successors).len, rows block =
      row (incomingEdges (blockSuccessors successors (partitionBlocks numInsts successors)).zipIdx.reverse) block)
    (kept : Kept vregCount successors instUses instDefs numInsts state)
    (enough : room vregCount (partitionBlocks numInsts successors).len state.liveIn *
      ((blockSuccessors successors (partitionBlocks numInsts successors)).flatten.length + 1) + state.queue.length ≤ fuel) :
    let final := SolveState.run successors instUses instDefs (partitionBlocks numInsts successors) rows fuel state
    Kept vregCount successors instUses instDefs numInsts final ∧ final.queue = [] := by
  induction fuel generalizing state with
  | zero =>
    have empty : state.queue.length = 0 := by omega
    exact ⟨kept, List.eq_nil_of_length_eq_zero empty⟩
  | succ fuel ih =>
    cases popped : state.queue with
    | nil =>
      simp only [SolveState.run, popped]
      exact ⟨kept, trivial⟩
    | cons block queue =>
      obtain ⟨kept', used⟩ := visit_spec wellFormed popped kept
      have sameRow := table block (kept.inside block (by simp [popped]))
      simp only [SolveState.visit, ← sameRow] at kept' used
      simp only [SolveState.run, popped, SolveState.visit]
      exact ih kept' (by omega)

/-- The worklist computes the registers live into each block. -/
theorem mem_solveBlockLiveness (instDefs : VRegTable) {block : Nat} (inside : block < (partitionBlocks numInsts successors).len) (vreg : VReg) :
    vreg ∈ solveBlockLiveness successors instUses instDefs (partitionBlocks numInsts successors) vregCount block ↔
      (flowGraph successors instUses instDefs).LiveIn ((partitionBlocks numInsts successors).span block).1 vreg := by
  let blocks := partitionBlocks numInsts successors
  have targets : ∀ targets ∈ blockSuccessors successors blocks, ∀ target ∈ targets,
      target < (blockSuccessors successors blocks).length := by
    intro targets listed target member
    obtain ⟨source, _, rfl⟩ := List.mem_map.mp listed
    obtain ⟨next, edge, rfl⟩ := List.mem_map.mp member
    rw [length_blockSuccessors]
    exact of_lt successors (wellFormed.targets _ _ edge)
  have start : Kept vregCount successors instUses instDefs numInsts (initialSolveState blocks) := by
    refine ⟨⟨?_, ?_, ?_⟩, ?_, ?_, ?_⟩
    · exact fun node _ vreg member => absurd member List.not_mem_nil
    · exact fun node _ vreg member => absurd member List.not_mem_nil
    · exact fun node named => Or.inl (List.mem_reverse.mpr (List.mem_range.mpr named))
    · exact fun block => List.nodup_nil
    · exact fun block queued => List.mem_reverse.mpr (List.mem_range.mpr (of_decide_eq_true queued))
    · exact fun block member => List.mem_range.mp (List.mem_reverse.mp member)
  have enough : room vregCount blocks.len (initialSolveState blocks).liveIn *
      ((blockSuccessors successors blocks).flatten.length + 1) + (initialSolveState blocks).queue.length ≤
      solveFuel successors blocks vregCount := by
    simp [room, initialSolveState, solveFuel]
  obtain ⟨kept, done⟩ := run_spec wellFormed
    (fun block named => predecessorRow (blockSuccessors successors blocks) targets block
      (by rw [length_blockSuccessors]; exact named)) start enough
  have rising := kept.rising
  rw [done] at rising
  have solved := solution_eq instUses instDefs wellFormed.sized wellFormed.targets
    (fun block named => rising.solved named) rising.below inside
  exact Set.ext_iff.mp solved vreg

end Visit

end Run

end Rue.Proofs.SolveRun
