import Mathlib.Data.List.Chain
import Mathlib.Data.Set.Lattice

/-! Backward liveness over an arbitrary flow graph, as the least solution of its
per-node equations, and worklist solving of equations in general. -/

namespace Rue.Lib

universe u

/-- Nodes with their successors and the values they read and write. -/
structure FlowGraph (V : Type u) where
  succ : Nat → List Nat
  uses : Nat → V → Prop
  defs : Nat → V → Prop

namespace FlowGraph

variable {V : Type u} (graph : FlowGraph V)

/-- A value is live into a node if some path reads it before writing it. -/
inductive LiveIn : Nat → V → Prop where
  | use {node value} (read : graph.uses node value) : LiveIn node value
  | through {node next value} (kept : ¬ graph.defs node value) (edge : next ∈ graph.succ node)
      (later : LiveIn next value) : LiveIn node value

def LiveOut (node : Nat) (value : V) : Prop := ∃ next ∈ graph.succ node, graph.LiveIn next value

/-- The right-hand side of the liveness equations at one node. -/
def Transfer (live : Nat → V → Prop) (node : Nat) (value : V) : Prop :=
  graph.uses node value ∨ ¬ graph.defs node value ∧ ∃ next ∈ graph.succ node, live next value

variable {graph}

theorem liveIn_iff {node : Nat} {value : V} :
    graph.LiveIn node value ↔ graph.Transfer graph.LiveIn node value := by
  constructor
  · intro live
    cases live with
    | use read => exact Or.inl read
    | through kept edge later => exact Or.inr ⟨kept, _, edge, later⟩
  · rintro (read | ⟨kept, next, edge, later⟩)
    · exact .use read
    · exact .through kept edge later

/-- Liveness is contained in whatever is closed under its equations. -/
theorem liveIn_least {live : Nat → V → Prop}
    (closed : ∀ node value, graph.Transfer live node value → live node value) {node : Nat} {value : V}
    (alive : graph.LiveIn node value) : live node value := by
  induction alive with
  | use read => exact closed _ _ (Or.inl read)
  | through kept edge _ ih => exact closed _ _ (Or.inr ⟨kept, _, edge, ih⟩)

/-- A value read at the end of a path that does not write it is live all along
the path. -/
theorem liveIn_of_path {path : List Nat} {node last : Nat} {value : V}
    (edges : List.IsChain (fun first second => second ∈ graph.succ first) (node :: path ++ [last]))
    (kept : ∀ inner ∈ node :: path, ¬ graph.defs inner value) (read : graph.uses last value) :
    ∀ inner ∈ node :: path, graph.LiveIn inner value := by
  induction path generalizing node with
  | nil =>
    intro inner member
    rw [List.mem_singleton] at member
    subst member
    exact .through (kept _ (by simp)) (by simpa using edges) (.use read)
  | cons next path ih =>
    simp only [List.cons_append, List.isChain_cons_cons] at edges
    have later := ih edges.2 fun inner member => kept inner (List.mem_cons_of_mem _ member)
    intro inner member
    rcases List.mem_cons.mp member with rfl | member
    · exact .through (kept _ List.mem_cons_self) edges.1 (later next List.mem_cons_self)
    · exact later inner member

end FlowGraph

/-! Worklists. A solution rises from below; whatever a change may affect is put
back on the list, so nothing off the list is unstable. -/

namespace Worklist

variable {V : Type u} (transfer : Nat → (Nat → Set V) → Set V) (nodes : Nat)

/-- What holds between two visits of a worklist solve. -/
structure Rising (goal : Nat → Set V) (solution : Nat → Set V) (queue : List Nat) : Prop where
  below : ∀ node < nodes, solution node ⊆ goal node
  rising : ∀ node < nodes, solution node ⊆ transfer node solution
  stable : ∀ node < nodes, node ∈ queue ∨ transfer node solution = solution node

variable {transfer nodes} {goal solution : Nat → Set V} {queue : List Nat}

/-- With nothing left to visit, the solution is a fixed point. -/
theorem Rising.solved (kept : Rising transfer nodes goal solution []) {node : Nat} (inside : node < nodes) :
    transfer node solution = solution node :=
  (kept.stable node inside).resolve_left (by simp)

/-- A visit that finds its node stable only removes it from the list. -/
theorem Rising.skip {node : Nat} (kept : Rising transfer nodes goal solution (node :: queue))
    (same : transfer node solution = solution node) : Rising transfer nodes goal solution queue := by
  refine ⟨kept.below, kept.rising, ?_⟩
  intro other inside
  rcases kept.stable other inside with member | stable
  · rcases List.mem_cons.mp member with rfl | later
    · exact Or.inr same
    · exact Or.inl later
  · exact Or.inr stable

/-- A visit that updates its node must requeue whatever the node affects. -/
theorem Rising.update {node : Nat} {after : List Nat}
    (kept : Rising transfer nodes goal solution (node :: queue))
    (monotone : ∀ (other : Nat) (first second : Nat → Set V), (∀ node < nodes, first node ⊆ second node) →
      transfer other first ⊆ transfer other second)
    (sound : transfer node goal ⊆ goal node)
    (grown : ∀ other ∈ queue, other ∈ after)
    (requeued : ∀ other < nodes, other ∈ after ∨
      transfer other (Function.update solution node (transfer node solution)) = transfer other solution) :
    Rising transfer nodes goal (Function.update solution node (transfer node solution)) after := by
  have rises : ∀ other < nodes, solution other ⊆ Function.update solution node (transfer node solution) other := by
    intro other inside
    by_cases same : other = node
    · subst same
      rw [Function.update_self]
      exact kept.rising other inside
    · rw [Function.update_of_ne same]
  refine ⟨?_, ?_, ?_⟩
  · intro other inside
    by_cases same : other = node
    · subst same
      rw [Function.update_self]
      exact (monotone other solution goal kept.below).trans sound
    · rw [Function.update_of_ne same]
      exact kept.below other inside
  · intro other inside
    by_cases same : other = node
    · subst same
      rw [Function.update_self]
      exact monotone other _ _ rises
    · rw [Function.update_of_ne same]
      exact (kept.rising other inside).trans (monotone other _ _ rises)
  · intro other inside
    by_cases same : other = node
    · subst same
      rcases requeued other inside with member | unaffected
      · exact Or.inl member
      · exact Or.inr (by rw [unaffected, Function.update_self])
    · rcases requeued other inside with member | unaffected
      · exact Or.inl member
      · rw [Function.update_of_ne same, unaffected]
        refine (kept.stable other inside).imp (fun member => ?_) id
        exact grown other ((List.mem_cons.mp member).resolve_left same)

end Worklist

end Rue.Lib
