import Mathlib.Logic.Relation
import Mathlib.Logic.Function.Basic
import Rue.Lib.Paths

/-! Trees kept as a parent for each node that has one, along a numbering that rises
towards the root. What the ancestors are, and what a new parent does to them. -/

namespace Rue.Lib

/-- Reached by taking parents, in any number of steps. -/
def Anc (parent : Nat → Option Nat) : Nat → Nat → Prop := Relation.ReflTransGen fun child up => parent child = some up

/-- Distinct numbers for the nodes that the entry reaches, so that every one but the
entry has an edge into it from a node with a higher number. -/
structure Numbered (edge : Nat → Nat → Prop) (entry : Nat) (num : Nat → Nat) : Prop where
  distinct : ∀ x y, Reachable edge entry x → Reachable edge entry y → num x = num y → x = y
  highest : ∀ x, Reachable edge entry x → num x ≤ num entry
  forward : ∀ x, Reachable edge entry x → x ≠ entry → ∃ q, Reachable edge entry q ∧ edge q x ∧ num x < num q

/-- The entry is its own parent; the parent of every other node is in the tree, with a
higher number. -/
structure Tree (edge : Nat → Nat → Prop) (entry : Nat) (num : Nat → Nat) (parent : Nat → Option Nat) : Prop where
  root : parent entry = some entry
  reached : ∀ x, (parent x).isSome → Reachable edge entry x
  climbs : ∀ x y, parent x = some y → x ≠ entry → (parent y).isSome ∧ num x < num y

namespace Anc

variable {parent : Nat → Option Nat} {x y z : Nat}

theorem refl (parent : Nat → Option Nat) (x : Nat) : Anc parent x x := Relation.ReflTransGen.refl

theorem up (own : parent x = some y) (rest : Anc parent y z) : Anc parent x z := Relation.ReflTransGen.head own rest

theorem trans (low : Anc parent x y) (high : Anc parent y z) : Anc parent x z := Relation.ReflTransGen.trans low high

/-- An ancestor is the node itself or an ancestor of its parent. -/
theorem cases (above : Anc parent x z) : x = z ∨ ∃ y, parent x = some y ∧ Anc parent y z := Relation.ReflTransGen.cases_head above

theorem strict (above : Anc parent x z) (different : x ≠ z) (own : parent x = some y) : Anc parent y z := by
  obtain ⟨other, found, rest⟩ := above.cases.resolve_left different
  rw [own] at found
  cases found
  exact rest

theorem total (first : Anc parent x y) (second : Anc parent x z) : Anc parent y z ∨ Anc parent z y := by
  apply Relation.ReflTransGen.total_of_right_unique ?_ first second
  intro child one other here there
  exact Option.some_inj.mp (here.symm.trans there)

end Anc

namespace Tree

variable {edge : Nat → Nat → Prop} {entry : Nat} {num : Nat → Nat} {parent : Nat → Option Nat} {x y z : Nat}

theorem rises (tree : Tree edge entry num parent) (above : Anc parent x y) (inTree : (parent x).isSome) :
    (parent y).isSome ∧ num x ≤ num y := by
  induction above with
  | refl => exact ⟨inTree, Nat.le_refl _⟩
  | @tail middle last _ own ih =>
    by_cases here : middle = entry
    · rw [here, tree.root] at own
      cases own
      rwa [here] at ih
    · obtain ⟨placed, more⟩ := tree.climbs middle last own here
      exact ⟨placed, Nat.le_of_lt (Nat.lt_of_le_of_lt ih.2 more)⟩

theorem above_root (tree : Tree edge entry num parent) (above : Anc parent entry x) : x = entry := by
  induction above with
  | refl => rfl
  | tail _ own ih =>
    rw [ih, tree.root] at own
    exact (Option.some_inj.mp own).symm

variable (numbered : Numbered edge entry num) (tree : Tree edge entry num parent)

include numbered tree

theorem eq_of_num (above : Anc parent x y) (inTree : (parent x).isSome) (same : num x = num y) : x = y :=
  numbered.distinct x y (tree.reached x inTree) (tree.reached y (tree.rises above inTree).1) same

/-- Of two ancestors the one with the higher number is above the other. -/
theorem line (first : Anc parent x y) (second : Anc parent x z) (inTree : (parent x).isSome) (order : num y ≤ num z) :
    Anc parent y z := by
  rcases first.total second with up | down
  · exact up
  · have placed := (tree.rises second inTree).1
    have below := (tree.rises down placed).2
    rw [tree.eq_of_num numbered down placed (Nat.le_antisymm below order)]
    exact .refl parent y

theorem below_root (inTree : (parent x).isSome) : Anc parent x entry := by
  induction gap : num entry - num x using Nat.strongRecOn generalizing x with
  | ind bound ih =>
    by_cases here : x = entry
    · rw [here]
      exact .refl parent entry
    · obtain ⟨y, own⟩ := Option.isSome_iff_exists.mp inTree
      obtain ⟨placed, more⟩ := tree.climbs x y own here
      have least := numbered.highest y (tree.reached y placed)
      exact .up own (ih (num entry - num y) (by omega) placed rfl)

end Tree

section

variable {edge : Nat → Nat → Prop} {entry : Nat} {num : Nat → Nat} {parent : Nat → Option Nat} {u w x y : Nat}

/-- Nodes that are not under the node keep their ancestors. -/
theorem anc_update_of_not (parent : Nat → Option Nat) (w : Nat) (apart : ¬Anc parent x u) :
    Anc (Function.update parent u (some w)) x y ↔ Anc parent x y := by
  have step : ∀ node, ¬Anc parent node u → Function.update parent u (some w) node = parent node := by
    intro node off
    apply Function.update_of_ne
    rintro rfl
    exact off (.refl parent _)
  constructor
  · intro above
    induction above using Relation.ReflTransGen.head_induction_on with
    | refl => exact .refl parent y
    | @head node other own _ ih =>
      rw [step node apart] at own
      exact .up own (ih fun down => apart (.up own down))
  · intro above
    induction above using Relation.ReflTransGen.head_induction_on with
    | refl => exact .refl _ y
    | @head node other own _ ih =>
      exact .up ((step node apart).trans own) (ih fun down => apart (.up own down))

theorem anc_update_to (above : Anc parent x u) : Anc (Function.update parent u (some w)) x u := by
  induction above using Relation.ReflTransGen.head_induction_on with
  | refl => exact .refl _ u
  | @head node other own _ ih =>
    by_cases here : node = u
    · rw [here]
      exact .refl _ u
    · exact .up ((Function.update_of_ne here _ _).trans own) ih

/-- Nodes under the node keep their ancestors up to it and get those of the new parent. -/
theorem anc_update_of_anc (tree : Tree edge entry num parent) (inside : u ≠ entry)
    (higher : num u < num w) (placed : (parent w).isSome) (inTree : (parent x).isSome ∨ x = u) (under : Anc parent x u) :
    Anc (Function.update parent u (some w)) x y ↔ Anc parent x y ∧ num y ≤ num u ∨ Anc parent w y := by
  have apart : ¬Anc parent w u := by
    intro down
    have := (tree.rises down placed).2
    omega
  have next : ∀ {node other}, parent node = some other → node ≠ u → Anc parent node u → (parent other).isSome ∨ other = u := by
    intro node other own here under
    rcases (under.strict here own).cases with same | ⟨after, own', _⟩
    · exact .inr same
    · exact .inl (Option.isSome_iff_exists.mpr ⟨after, own'⟩)
  have low : ∀ {node}, (parent node).isSome ∨ node = u → Anc parent node u → num node ≤ num u := by
    rintro node (inTree | rfl) under
    · exact (tree.rises under inTree).2
    · exact Nat.le_refl _
  constructor
  · intro above
    induction above using Relation.ReflTransGen.head_induction_on with
    | refl => exact .inl ⟨.refl parent y, low inTree under⟩
    | @head node other own rest ih =>
      by_cases here : node = u
      · rw [here, Function.update_self] at own
        cases own
        exact .inr ((anc_update_of_not parent w apart).mp rest)
      · rw [Function.update_of_ne here] at own
        exact (ih (next own here under) (under.strict here own)).imp_left fun old => ⟨.up own old.1, old.2⟩
  · rintro (⟨old, below⟩ | new)
    · induction old using Relation.ReflTransGen.head_induction_on with
      | refl => exact .refl _ y
      | @head node other own rest ih =>
        by_cases here : node = u
        · -- A node above the one that gets the parent has a higher number.
          subst here
          obtain ⟨placed', more⟩ := tree.climbs node other own inside
          have := (tree.rises rest placed').2
          omega
        · refine .up ((Function.update_of_ne here _ _).trans own) ?_
          exact ih (next own here under) (under.strict here own)
    · exact (anc_update_to under).trans (.up (Function.update_self ..) ((anc_update_of_not parent w apart).mpr new))

end

end Rue.Lib
