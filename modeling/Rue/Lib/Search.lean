import Mathlib.Algebra.Order.Ring.Int
import Mathlib.Algebra.BigOperators.Group.Finset.Basic
import Mathlib.Algebra.Order.BigOperators.Group.Finset
import Mathlib.Logic.Function.Iterate
import Rue.Lib.Paths

/-! Worklist searches of a finite graph. Both disciplines, marking a node when it
is pushed and marking it when it is popped, end with the nodes reached. -/

namespace Rue.Lib

namespace Search

variable (succ : Nat → List Nat)

/-- Marks a successor and pushes it, unless it is marked. -/
def push (state : List Nat × List Nat) (target : Nat) : List Nat × List Nat :=
  if target ∈ state.1 then state else (target :: state.1, target :: state.2)

def pushStep : List Nat × List Nat → List Nat × List Nat
  | (seen, []) => (seen, [])
  | (seen, node :: worklist) => (succ node).foldl push (seen, worklist)

/-- Marks a node when it is taken off the worklist. -/
def popStep : List Nat × List Nat → List Nat × List Nat
  | (seen, []) => (seen, [])
  | (seen, node :: worklist) =>
    if node ∈ seen then (seen, worklist) else (node :: seen, (succ node).reverse ++ worklist)

def markOnPush (nodes entry : Nat) : List Nat := ((pushStep succ)^[nodes] ([entry], [entry])).1

/-- Marks from several roots, each marked when it is pushed. -/
def markFrom (nodes : Nat) (roots : List Nat) : List Nat := ((pushStep succ)^[nodes] (roots.foldl push ([], []))).1

/-- Every edge is pushed at most once. -/
def markOnPop (nodes entry : Nat) : List Nat :=
  ((popStep succ)^[1 + ∑ node ∈ Finset.range nodes, (succ node).length] ([], [entry])).1

end Search

open Search

variable {succ : Nat → List Nat} {nodes entry : Nat}

/-- Marked nodes, and the ones among them still to be expanded. -/
structure PushInv (succ : Nat → List Nat) (inside : Nat → Prop) (roots : List Nat) (pops : Nat)
    (state : List Nat × List Nat) : Prop where
  started : ∀ root ∈ roots, root ∈ state.1
  distinct : state.1.Nodup
  inside : ∀ node ∈ state.1, inside node
  pending : ∀ node ∈ state.2, node ∈ state.1
  closed : ∀ node ∈ state.1, node ∈ state.2 ∨ ∀ target ∈ succ node, target ∈ state.1
  reached : ∀ node ∈ state.1, ∃ root ∈ roots, Reachable (fun source target => target ∈ succ source) root node
  count : state.2 = [] ∨ state.1.length = state.2.length + pops

theorem length_le_of_inside {seen : List Nat} (distinct : seen.Nodup) (inside : ∀ node ∈ seen, node < nodes) :
    seen.length ≤ nodes := by
  rw [← List.toFinset_card_of_nodup distinct, ← Finset.card_range nodes]
  apply Finset.card_le_card
  intro node member
  exact Finset.mem_range.mpr (inside node (List.mem_toFinset.mp member))

/-- Pushing a list of targets marks them all and pushes the new ones. -/
theorem foldl_push (targets worklist : List Nat) {seen : List Nat} (distinct : seen.Nodup) :
    ∃ new, targets.foldl push (seen, worklist) = (new ++ seen, new ++ worklist) ∧
      (∀ target ∈ targets, target ∈ new ++ seen) ∧ (∀ target ∈ new, target ∈ targets) ∧ (new ++ seen).Nodup := by
  induction targets generalizing worklist seen with
  | nil => exact ⟨[], rfl, by simp, by simp, distinct⟩
  | cons target rest ih =>
    simp only [List.foldl_cons, push]
    split
    next known =>
      obtain ⟨new, same, marked, only, nodup⟩ := ih worklist distinct
      refine ⟨new, same, ?_, fun other member => List.mem_cons_of_mem _ (only other member), nodup⟩
      intro other member
      rcases List.mem_cons.mp member with rfl | member
      · exact List.mem_append_right _ known
      · exact marked other member
    next unknown =>
      obtain ⟨new, same, marked, only, nodup⟩ := ih (target :: worklist) (List.nodup_cons.mpr ⟨unknown, distinct⟩)
      refine ⟨new ++ [target], by simpa using same, ?_, ?_, by simpa using nodup⟩
      · intro other member
        rcases List.mem_cons.mp member with rfl | member
        · simp
        · simpa using marked other member
      · intro other member
        rcases List.mem_append.mp member with old | last
        · exact List.mem_cons_of_mem _ (only other old)
        · simp [List.mem_singleton.mp last]

variable {inside : Nat → Prop} {roots : List Nat}

theorem PushInv.step (targets : ∀ node, inside node → ∀ target ∈ succ node, inside target) {pops : Nat}
    {state : List Nat × List Nat} (kept : PushInv succ inside roots pops state) :
    PushInv succ inside roots (pops + 1) (pushStep succ state) := by
  obtain ⟨seen, worklist⟩ := state
  cases worklist with
  | nil => exact ⟨kept.started, kept.distinct, kept.inside, kept.pending, kept.closed, kept.reached, Or.inl rfl⟩
  | cons node worklist =>
    have known := kept.pending node (by simp)
    obtain ⟨new, same, marked, only, nodup⟩ := foldl_push (succ node) worklist kept.distinct
    simp only [pushStep, same]
    refine ⟨fun root member => List.mem_append_right _ (kept.started root member), nodup, ?_, ?_, ?_, ?_, ?_⟩
    · intro other member
      rcases List.mem_append.mp member with fresh | old
      · exact targets node (kept.inside node known) other (only other fresh)
      · exact kept.inside other old
    · intro other member
      rcases List.mem_append.mp member with fresh | old
      · exact List.mem_append_left _ fresh
      · exact List.mem_append_right _ (kept.pending other (List.mem_cons_of_mem _ old))
    · intro other member
      rcases List.mem_append.mp member with fresh | old
      · exact Or.inl (List.mem_append_left _ fresh)
      · rcases kept.closed other old with waiting | closed
        · rcases List.mem_cons.mp waiting with rfl | waiting
          · exact Or.inr marked
          · exact Or.inl (List.mem_append_right _ waiting)
        · exact Or.inr fun target edge => List.mem_append_right _ (closed target edge)
    · intro other member
      rcases List.mem_append.mp member with fresh | old
      · obtain ⟨root, start, reached⟩ := kept.reached node known
        exact ⟨root, start, reached.step (only other fresh)⟩
      · exact kept.reached other old
    · right
      have count := kept.count.resolve_left (by simp)
      simp only [List.length_append, List.length_cons] at count ⊢
      omega

theorem PushInv.iterate (targets : ∀ node, inside node → ∀ target ∈ succ node, inside target)
    (start : ∀ root ∈ roots, inside root) (pops : Nat) :
    PushInv succ inside roots pops ((pushStep succ)^[pops] (roots.foldl push ([], []))) := by
  induction pops with
  | zero =>
    obtain ⟨new, same, marked, only, nodup⟩ := foldl_push roots [] List.nodup_nil
    simp only [List.append_nil] at same marked nodup
    rw [Function.iterate_zero, id_eq, same]
    refine ⟨marked, nodup, fun node member => start node (only node member), fun _ member => member,
      fun _ member => Or.inl member, ?_, Or.inr rfl⟩
    exact fun node member => ⟨node, only node member, Reachable.start⟩
  | succ pops ih =>
    rw [Function.iterate_succ_apply']
    exact ih.step targets

/-- The nodes marked are those reached from the roots. -/
theorem mem_markFrom (inside : Nat → Prop) (targets : ∀ node, inside node → ∀ target ∈ succ node, inside target)
    (start : ∀ root ∈ roots, inside root) (bound : ∀ node, inside node → node < nodes) {node : Nat} :
    node ∈ markFrom succ nodes roots ↔
      ∃ root ∈ roots, Reachable (fun source target => target ∈ succ source) root node := by
  have kept := PushInv.iterate targets start nodes
  have done : ((pushStep succ)^[nodes] (roots.foldl push ([], []))).2 = [] := by
    rcases kept.count with done | count
    · exact done
    · have few := length_le_of_inside kept.distinct fun node member => bound node (kept.inside node member)
      exact List.length_eq_zero_iff.mp (by omega)
  constructor
  · exact kept.reached node
  · rintro ⟨root, started, before, path⟩
    refine path.invariant (kept.started root started) ?_
    intro source target member edge
    exact (kept.closed source member).resolve_left (by simp [done]) target edge

theorem mem_markOnPush (targets : ∀ node < nodes, ∀ target ∈ succ node, target < nodes) (inside : entry < nodes)
    {node : Nat} : node ∈ markOnPush succ nodes entry ↔
      Reachable (fun source target => target ∈ succ source) entry node := by
  have same : markOnPush succ nodes entry = markFrom succ nodes [entry] := by
    simp [markOnPush, markFrom, push]
  rw [same, mem_markFrom (· < nodes) targets (by simpa using inside) fun _ bound => bound]
  simp

/-- The edges of the nodes not marked yet. -/
def unmarkedEdges (succ : Nat → List Nat) (nodes : Nat) (seen : List Nat) : Nat :=
  ∑ node ∈ (Finset.range nodes).filter (· ∉ seen), (succ node).length

structure PopInv (succ : Nat → List Nat) (nodes entry : Nat) (state : List Nat × List Nat) : Prop where
  started : entry ∈ state.1 ∨ entry ∈ state.2
  inside : ∀ node, node ∈ state.1 ∨ node ∈ state.2 → node < nodes
  closed : ∀ node ∈ state.1, ∀ target ∈ succ node, target ∈ state.1 ∨ target ∈ state.2
  reached : ∀ node, node ∈ state.1 ∨ node ∈ state.2 → Reachable (fun source target => target ∈ succ source) entry node

theorem unmarkedEdges_cons {seen : List Nat} {node : Nat} (inside : node < nodes) (unknown : node ∉ seen) :
    unmarkedEdges succ nodes (node :: seen) + (succ node).length = unmarkedEdges succ nodes seen := by
  have split : (Finset.range nodes).filter (· ∉ seen) =
      insert node ((Finset.range nodes).filter (· ∉ node :: seen)) := by
    ext other
    simp only [Finset.mem_filter, Finset.mem_range, Finset.mem_insert, List.mem_cons, not_or]
    by_cases same : other = node
    · simp [same, inside, unknown]
    · simp [same]
  rw [unmarkedEdges, unmarkedEdges, split, Finset.sum_insert (by simp)]
  omega

theorem PopInv.step (targets : ∀ node < nodes, ∀ target ∈ succ node, target < nodes) {state : List Nat × List Nat}
    (kept : PopInv succ nodes entry state) : PopInv succ nodes entry (popStep succ state) ∧
      ((popStep succ state).2 = [] ∨
        (popStep succ state).2.length + unmarkedEdges succ nodes (popStep succ state).1 + 1 =
          state.2.length + unmarkedEdges succ nodes state.1) := by
  obtain ⟨seen, worklist⟩ := state
  cases worklist with
  | nil => exact ⟨kept, Or.inl rfl⟩
  | cons node worklist =>
    simp only [popStep]
    split
    next known =>
      refine ⟨⟨?_, ?_, ?_, ?_⟩, Or.inr (by simp only [List.length_cons]; omega)⟩
      · rcases kept.started with marked | waiting
        · exact Or.inl marked
        · rcases List.mem_cons.mp waiting with rfl | waiting
          · exact Or.inl known
          · exact Or.inr waiting
      · exact fun other member => kept.inside other (member.imp id (List.mem_cons_of_mem _))
      · intro source member target edge
        rcases kept.closed source member target edge with marked | waiting
        · exact Or.inl marked
        · rcases List.mem_cons.mp waiting with rfl | waiting
          · exact Or.inl known
          · exact Or.inr waiting
      · exact fun other member => kept.reached other (member.imp id (List.mem_cons_of_mem _))
    next unknown =>
      have inside := kept.inside node (Or.inr (by simp))
      have here := kept.reached node (Or.inr (by simp))
      refine ⟨⟨?_, ?_, ?_, ?_⟩, ?_⟩
      · rcases kept.started with marked | waiting
        · exact Or.inl (List.mem_cons_of_mem _ marked)
        · rcases List.mem_cons.mp waiting with rfl | waiting
          · exact Or.inl (by simp)
          · exact Or.inr (List.mem_append_right _ waiting)
      · rintro other (marked | waiting)
        · rcases List.mem_cons.mp marked with rfl | marked
          · exact inside
          · exact kept.inside other (Or.inl marked)
        · rcases List.mem_append.mp waiting with target | waiting
          · exact targets node inside other (List.mem_reverse.mp target)
          · exact kept.inside other (Or.inr (List.mem_cons_of_mem _ waiting))
      · intro source member target edge
        rcases List.mem_cons.mp member with rfl | member
        · exact Or.inr (List.mem_append_left _ (List.mem_reverse.mpr edge))
        · rcases kept.closed source member target edge with marked | waiting
          · exact Or.inl (List.mem_cons_of_mem _ marked)
          · rcases List.mem_cons.mp waiting with rfl | waiting
            · exact Or.inl (by simp)
            · exact Or.inr (List.mem_append_right _ waiting)
      · rintro other (marked | waiting)
        · rcases List.mem_cons.mp marked with rfl | marked
          · exact here
          · exact kept.reached other (Or.inl marked)
        · rcases List.mem_append.mp waiting with target | waiting
          · exact here.step (List.mem_reverse.mp target)
          · exact kept.reached other (Or.inr (List.mem_cons_of_mem _ waiting))
      · have fewer : unmarkedEdges succ nodes (node :: seen) + _ = _ := unmarkedEdges_cons inside unknown
        right
        simp only [List.length_append, List.length_reverse, List.length_cons]
        omega

theorem PopInv.iterate (targets : ∀ node < nodes, ∀ target ∈ succ node, target < nodes) (inside : entry < nodes)
    (pops : Nat) : PopInv succ nodes entry ((popStep succ)^[pops] ([], [entry])) ∧
      (((popStep succ)^[pops] ([], [entry])).2 = [] ∨
        ((popStep succ)^[pops] ([], [entry])).2.length +
          unmarkedEdges succ nodes ((popStep succ)^[pops] ([], [entry])).1 + pops =
            1 + unmarkedEdges succ nodes []) := by
  induction pops with
  | zero =>
    refine ⟨⟨by simp, ?_, by simp, ?_⟩, Or.inr (by simp)⟩
    · simpa using inside
    · simpa using Reachable.start
  | succ pops ih =>
    obtain ⟨kept, left⟩ := ih
    rw [Function.iterate_succ_apply']
    obtain ⟨after, fewer⟩ := kept.step targets
    refine ⟨after, ?_⟩
    rcases fewer with done | fewer
    · exact Or.inl done
    · rcases left with done | left
      · left
        generalize (popStep succ)^[pops] ([], [entry]) = state at done ⊢
        obtain ⟨seen, worklist⟩ := state
        cases done
        rfl
      · right
        omega

theorem mem_markOnPop (targets : ∀ node < nodes, ∀ target ∈ succ node, target < nodes) (inside : entry < nodes)
    {node : Nat} : node ∈ markOnPop succ nodes entry ↔
      Reachable (fun source target => target ∈ succ source) entry node := by
  obtain ⟨kept, left⟩ := PopInv.iterate targets inside (1 + ∑ node ∈ Finset.range nodes, (succ node).length)
  have all : unmarkedEdges succ nodes [] = ∑ node ∈ Finset.range nodes, (succ node).length := by
    simp [unmarkedEdges]
  have done : ((popStep succ)^[1 + ∑ node ∈ Finset.range nodes, (succ node).length] ([], [entry])).2 = [] := by
    rcases left with done | left
    · exact done
    · exact List.length_eq_zero_iff.mp (by omega)
  constructor
  · exact fun member => kept.reached node (Or.inl member)
  · rintro ⟨before, path⟩
    refine path.invariant (kept.started.resolve_right (by simp [done])) ?_
    intro source target member edge
    exact (kept.closed source member target edge).resolve_right (by simp [done])

end Rue.Lib
