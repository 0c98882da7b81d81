import Mathlib.Algebra.BigOperators.Group.Finset.Basic
import Mathlib.Algebra.Order.BigOperators.Group.Finset
import Rue.Lib.Ancestors
import Rue.Lib.Loops

/-! Dominators by sweeps: each node in turn, from the highest number down, gets the
lowest common ancestor of its predecessors in the tree. Parents only rise, and a
sweep that changes none leaves the dominator tree. -/

namespace Rue.Lib

section

variable (edge : Nat → Nat → Prop) (entry : Nat) (num : Nat → Nat)

/-- The lowest of the ancestors that the predecessors in the tree have in common. -/
structure Meets (parent : Nat → Option Nat) (node meet : Nat) : Prop where
  common : ∀ p, edge p node → (parent p).isSome → Anc parent p meet
  lowest : ∀ a, (∀ p, edge p node → (parent p).isSome → Anc parent p a) → Anc parent meet a

/-- A tree in the middle of a sweep that has done the nodes numbered from `k` on. The
last two fields look at a predecessor with a higher number: once a node is done, its
parent stays above that predecessor; until then the two have the same ancestors where
the rest of the sweep can change them. -/
structure Sweep (k : Nat) (parent : Nat → Option Nat) : Prop extends Tree edge entry num parent where
  placed : ∀ x, Reachable edge entry x → k ≤ num x → (parent x).isSome
  upward : ∀ x y, (parent x).isSome → Reachable edge entry y → num x < num y → (parent y).isSome
  spanned : ∀ x y, parent x = some y → x ≠ entry → ∃ done, Path edge y done x ∧ ∀ z ∈ done, num z ≤ num y
  dominators : ∀ x d, (parent x).isSome → Dominates edge entry d x → Anc parent x d
  bounded : ∀ x y a, parent x = some y → x ≠ entry → (∀ p, edge p x → (parent p).isSome → Anc parent p a) → num y ≤ num a
  intact : ∀ x y q, parent x = some y → x ≠ entry → edge q x → Reachable edge entry q → num x < num q → k ≤ num x →
    Anc parent q y
  stale : ∀ x y q, parent x = some y → x ≠ entry → edge q x → Reachable edge entry q → num x < num q → num x < k →
    (∀ a, Anc parent q a → num y ≤ num a → Anc parent y a) ∧ ∀ a, Anc parent y a → num a < k → Anc parent q a

end

namespace Sweep

variable {edge : Nat → Nat → Prop} {entry : Nat} {num : Nat → Nat} {parent : Nat → Option Nat} {k u w x y z : Nat}

/-- Before the first sweep only the entry is in the tree. -/
theorem start (numbered : Numbered edge entry num) :
    Sweep edge entry num (num entry) (Function.update (fun _ => none) entry (some entry)) := by
  have only : ∀ x, (Function.update (fun _ => none) entry (some entry) x).isSome → x = entry := by
    intro x inTree
    by_contra other
    rw [Function.update_of_ne other] at inTree
    cases inTree
  have none' : ∀ x y, Function.update (fun _ => none) entry (some entry) x = some y → ¬x ≠ entry := by
    intro x y own other
    exact other (only x (by rw [own]; rfl))
  refine ⟨⟨Function.update_self .., ?_, ?_⟩, ?_, ?_, ?_, ?_, ?_, ?_, ?_⟩
  · intro x inTree
    rw [only x inTree]
    exact .start
  · intro x y own other
    exact absurd other (none' x y own)
  · intro x reached high
    rw [numbered.distinct x entry reached .start (Nat.le_antisymm (numbered.highest x reached) high), Function.update_self]
    rfl
  · intro x y inTree reached more
    rw [only x inTree] at more
    exact absurd (numbered.highest y reached) (Nat.not_le_of_lt more)
  · intro x y own other
    exact absurd other (none' x y own)
  · intro x d inTree dominates
    have here := only x inTree
    subst here
    rcases dominates [] .start with passed | rfl
    · cases passed
    · exact .refl _ _
  · intro x y a own other
    exact absurd other (none' x y own)
  · intro x y q own other
    exact absurd other (none' x y own)
  · intro x y q own other
    exact absurd other (none' x y own)

theorem again (numbered : Numbered edge entry num) (sweep : Sweep edge entry num 0 parent) (k : Nat) :
    Sweep edge entry num k parent where
  toTree := sweep.toTree
  placed := fun x reached _ => sweep.placed x reached (Nat.zero_le _)
  upward := sweep.upward
  spanned := sweep.spanned
  dominators := sweep.dominators
  bounded := sweep.bounded
  intact := fun x y q own other taken reached more _ => sweep.intact x y q own other taken reached more (Nat.zero_le _)
  stale := by
    intro x y q own other taken reached more _
    have above := sweep.intact x y q own other taken reached more (Nat.zero_le _)
    refine ⟨?_, fun a high _ => above.trans high⟩
    intro a high order
    exact sweep.line numbered above high (sweep.placed q reached (Nat.zero_le _)) order

/-- From an ancestor there is a path down through no higher numbers. -/
theorem descends (sweep : Sweep edge entry num k parent) (above : Anc parent x y) :
    ∃ done, Path edge y done x ∧ ∀ z ∈ done, num z ≤ num y := by
  induction above with
  | refl => exact ⟨[], .start, nofun⟩
  | @tail middle last above own ih =>
    by_cases here : middle = entry
    · rw [here, sweep.root] at own
      cases own
      rwa [here] at ih
    · obtain ⟨done, path, low⟩ := ih
      obtain ⟨first, down, low'⟩ := sweep.spanned middle last own here
      obtain ⟨_, more⟩ := sweep.climbs middle last own here
      refine ⟨first ++ done, down.append path, ?_⟩
      intro z member
      rcases List.mem_append.mp member with early | late
      · exact low' z early
      · exact Nat.le_of_lt (Nat.lt_of_le_of_lt (low z late) more)

/-- What gives a node its parent, whatever the one it had. -/
structure Visit (edge : Nat → Nat → Prop) (entry : Nat) (num : Nat → Nat) (parent : Nat → Option Nat) (u w : Nat) : Prop where
  sweep : Sweep edge entry num (num u + 1) parent
  reached : Reachable edge entry u
  inside : u ≠ entry
  meets : Meets edge parent u w

namespace Visit

variable (numbered : Numbered edge entry num) (visit : Visit edge entry num parent u w)

include numbered visit

/-- The predecessor of the forward edge is in the tree already, under the new parent. -/
theorem forward : ∃ q, Reachable edge entry q ∧ edge q u ∧ num u < num q ∧ (parent q).isSome ∧ Anc parent q w := by
  obtain ⟨q, reached, taken, more⟩ := numbered.forward u visit.reached visit.inside
  have inTree := visit.sweep.placed q reached more
  exact ⟨q, reached, taken, more, inTree, visit.meets.common q taken inTree⟩

theorem higher : (parent w).isSome ∧ num u < num w := by
  obtain ⟨q, _, _, more, inTree, above⟩ := visit.forward numbered
  obtain ⟨placed, low⟩ := visit.sweep.rises above inTree
  exact ⟨placed, Nat.lt_of_lt_of_le more low⟩

/-- The new parent is the old one or an ancestor of it. -/
theorem raises (own : parent u = some y) : Anc parent y w := by
  obtain ⟨q, reached, taken, more, inTree, above⟩ := visit.forward numbered
  apply (visit.sweep.stale u y q own visit.inside taken reached more (Nat.lt_succ_self _)).1 w above
  exact visit.sweep.bounded u y w own visit.inside visit.meets.common

theorem shrinks (inTree : (parent x).isSome) (above : Anc (Function.update parent u (some w)) x y) : Anc parent x y := by
  by_cases under : Anc parent x u
  · obtain ⟨placed, more⟩ := visit.higher numbered
    rcases (anc_update_of_anc visit.sweep.toTree visit.inside more placed (.inl inTree) under).mp above with ⟨old, _⟩ | new
    · exact old
    · obtain ⟨z, own⟩ := Option.isSome_iff_exists.mp (visit.sweep.rises under inTree).1
      exact (under.trans (.up own (visit.raises numbered own))).trans new
  · exact (anc_update_of_not parent w under).mp above

omit numbered in
theorem keeps (inTree : (parent x).isSome) (more : num u < num x) :
    Anc (Function.update parent u (some w)) x y ↔ Anc parent x y := by
  apply anc_update_of_not
  intro under
  have := (visit.sweep.rises under inTree).2
  omega

theorem tree : Tree edge entry num (Function.update parent u (some w)) := by
  obtain ⟨placed, more⟩ := visit.higher numbered
  have grows : ∀ x, (parent x).isSome → (Function.update parent u (some w) x).isSome := by
    intro x inTree
    by_cases here : x = u
    · rw [here, Function.update_self]
      rfl
    · rwa [Function.update_of_ne here]
  refine ⟨?_, ?_, ?_⟩
  · rw [Function.update_of_ne (Ne.symm visit.inside), visit.sweep.root]
  · intro x inTree
    by_cases here : x = u
    · rw [here]
      exact visit.reached
    · rw [Function.update_of_ne here] at inTree
      exact visit.sweep.reached x inTree
  · intro x y own other
    by_cases here : x = u
    · rw [here, Function.update_self] at own
      cases own
      rw [here]
      exact ⟨grows w placed, more⟩
    · rw [Function.update_of_ne here] at own
      obtain ⟨inTree, order⟩ := visit.sweep.climbs x y own other
      exact ⟨grows y inTree, order⟩

/-- A dominator above the node stays above what is under it: a way to the node around
the dominator would go on, through lower numbers, to what is under it. -/
theorem dominators (x d : Nat) (inTree : (Function.update parent u (some w) x).isSome) (dominates : Dominates edge entry d x) :
    Anc (Function.update parent u (some w)) x d := by
  obtain ⟨placed, more⟩ := visit.higher numbered
  have own : ∀ d, Dominates edge entry d u → d ≠ u → Anc parent w d := by
    intro d dominates different
    apply visit.meets.lowest
    intro p taken inTree
    exact visit.sweep.dominators p d inTree (dominates.pred different taken)
  by_cases here : x = u
  · subst here
    by_cases same : d = x
    · rw [same]
      exact .refl _ x
    · refine .up (Function.update_self ..) ?_
      exact (visit.keeps placed more).mpr (own d dominates same)
  · rw [Function.update_of_ne here] at inTree
    have old := visit.sweep.dominators x d inTree dominates
    by_cases under : Anc parent x u
    · apply (anc_update_of_anc visit.sweep.toTree visit.inside more placed (.inl inTree) under).mpr
      rcases Nat.lt_or_ge (num u) (num d) with above | low
      · refine .inr (own d ?_ (by rintro rfl; exact absurd above (Nat.lt_irrefl _)))
        intro done path
        obtain ⟨rest, onward, bound⟩ := visit.sweep.descends under
        rcases dominates _ (path.append onward) with passed | final
        · rcases List.mem_append.mp passed with early | late
          · exact .inl early
          · exact absurd (bound d late) (Nat.not_le_of_lt above)
        · rw [final] at above
          exact absurd (visit.sweep.rises under inTree).2 (Nat.not_le_of_lt above)
      · exact .inl ⟨old, low⟩
    · exact (anc_update_of_not parent w under).mpr old

theorem bounded (x y a : Nat) (own : Function.update parent u (some w) x = some y) (other : x ≠ entry)
    (common : ∀ p, edge p x → (Function.update parent u (some w) p).isSome → Anc (Function.update parent u (some w)) p a) :
    num y ≤ num a := by
  obtain ⟨placed, _⟩ := visit.higher numbered
  have common' : ∀ p, edge p x → (parent p).isSome → Anc parent p a := by
    intro p taken inTree
    apply visit.shrinks numbered inTree
    apply common p taken
    by_cases here : p = u
    · rw [here, Function.update_self]
      rfl
    · rwa [Function.update_of_ne here]
  by_cases here : x = u
  · subst here
    rw [Function.update_self] at own
    cases own
    exact (visit.sweep.rises (visit.meets.lowest a common') placed).2
  · rw [Function.update_of_ne here] at own
    exact visit.sweep.bounded x y a own other common'

theorem intact (x y q : Nat) (own : Function.update parent u (some w) x = some y) (other : x ≠ entry) (taken : edge q x)
    (reached : Reachable edge entry q) (more : num x < num q) (done : num u ≤ num x) :
    Anc (Function.update parent u (some w)) q y := by
  have inTree := visit.sweep.placed q reached (Nat.lt_of_le_of_lt done more)
  rw [visit.keeps inTree (Nat.lt_of_le_of_lt done more)]
  by_cases here : x = u
  · subst here
    rw [Function.update_self] at own
    cases own
    exact visit.meets.common q taken inTree
  · rw [Function.update_of_ne here] at own
    apply visit.sweep.intact x y q own other taken reached more
    apply Nat.lt_of_le_of_ne done
    intro same
    have reached' := visit.sweep.reached x (by rw [own]; rfl)
    exact here (numbered.distinct x u reached' visit.reached same.symm)

theorem stale (x y q : Nat) (own : Function.update parent u (some w) x = some y) (other : x ≠ entry) (taken : edge q x)
    (reached : Reachable edge entry q) (more : num x < num q) (waiting : num x < num u) :
    (∀ a, Anc (Function.update parent u (some w)) q a → num y ≤ num a → Anc (Function.update parent u (some w)) y a) ∧
      ∀ a, Anc (Function.update parent u (some w)) y a → num a < num u → Anc (Function.update parent u (some w)) q a := by
  have here : x ≠ u := by
    rintro rfl
    exact absurd waiting (Nat.lt_irrefl _)
  rw [Function.update_of_ne here] at own
  obtain ⟨placed, higher⟩ := visit.higher numbered
  obtain ⟨inTree, _⟩ := visit.sweep.climbs x y own other
  have inTree' := visit.sweep.upward x q (by rw [own]; rfl) reached more
  obtain ⟨early, late⟩ := visit.sweep.stale x y q own other taken reached more (Nat.lt_succ_of_lt waiting)
  have under : ∀ {node}, (parent node).isSome → Anc parent node u → ∀ a,
      Anc (Function.update parent u (some w)) node a ↔ Anc parent node a ∧ num a ≤ num u ∨ Anc parent w a :=
    fun known below a => anc_update_of_anc visit.sweep.toTree visit.inside higher placed (.inl known) below
  constructor
  · intro a above order
    have old := early a (visit.shrinks numbered inTree' above) order
    by_cases below : Anc parent y u
    · rw [under inTree' (late u below (Nat.lt_succ_self _))] at above
      rw [under inTree below]
      exact above.imp_left fun both => ⟨old, both.2⟩
    · exact (anc_update_of_not parent w below).mpr old
  · intro a above low
    have old := late a (visit.shrinks numbered inTree above) (Nat.lt_succ_of_lt low)
    by_cases below : Anc parent q u
    · rw [under inTree' below]
      exact .inl ⟨old, Nat.le_of_lt low⟩
    · exact (anc_update_of_not parent w below).mpr old

theorem after : Sweep edge entry num (num u) (Function.update parent u (some w)) where
  toTree := visit.tree numbered
  placed := by
    intro x reached done
    by_cases here : x = u
    · rw [here, Function.update_self]
      rfl
    · rw [Function.update_of_ne here]
      apply visit.sweep.placed x reached
      apply Nat.lt_of_le_of_ne done
      intro same
      exact here (numbered.distinct x u reached visit.reached same.symm)
  upward := by
    intro x y inTree reached more
    by_cases here : y = u
    · rw [here, Function.update_self]
      rfl
    · rw [Function.update_of_ne here]
      by_cases here' : x = u
      · rw [here'] at more
        exact visit.sweep.placed y reached more
      · rw [Function.update_of_ne here'] at inTree
        exact visit.sweep.upward x y inTree reached more
  spanned := by
    intro x y own other
    by_cases here : x = u
    · rw [here, Function.update_self] at own
      cases own
      rw [here]
      obtain ⟨q, _, taken, _, inTree, above⟩ := visit.forward numbered
      obtain ⟨done, path, low⟩ := visit.sweep.descends above
      refine ⟨done ++ [q], path.step taken, ?_⟩
      intro z member
      rcases List.mem_append.mp member with early | last
      · exact low z early
      · rw [List.mem_singleton.mp last]
        exact (visit.sweep.rises above inTree).2
    · rw [Function.update_of_ne here] at own
      exact visit.sweep.spanned x y own other
  dominators := visit.dominators numbered
  bounded := visit.bounded numbered
  intact := visit.intact numbered
  stale := visit.stale numbered

end Visit

def level (num : Nat → Nat) : Option Nat → Nat
  | none => 0
  | some node => num node + 1

def height (num : Nat → Nat) (nodes : Nat) (parent : Nat → Option Nat) : Nat :=
  ∑ node ∈ Finset.range nodes, level num (parent node)

theorem height_le {bound nodes : Nat} (low : ∀ x y, parent x = some y → num y < bound) : height num nodes parent ≤ nodes * bound := by
  have each : ∀ node ∈ Finset.range nodes, level num (parent node) ≤ bound := by
    intro node _
    cases own : parent node with
    | none => exact Nat.zero_le _
    | some up => exact low node up own
  have total := Finset.sum_le_card_nsmul _ _ _ each
  rwa [Finset.card_range] at total

theorem Visit.height_lt (numbered : Numbered edge entry num) (visit : Visit edge entry num parent u w) {nodes : Nat}
    (inside : u < nodes) (changes : parent u ≠ some w) :
    height num nodes parent < height num nodes (Function.update parent u (some w)) := by
  have raised : level num (parent u) < level num (some w) := by
    cases own : parent u with
    | none => exact Nat.zero_lt_succ _
    | some y =>
      have above := visit.raises numbered own
      obtain ⟨inTree, _⟩ := visit.sweep.climbs u y own visit.inside
      have different : y ≠ w := by
        rintro rfl
        exact changes own
      apply Nat.succ_lt_succ
      apply Nat.lt_of_le_of_ne (visit.sweep.rises above inTree).2
      intro same
      exact different (visit.sweep.eq_of_num numbered above inTree same)
  apply Finset.sum_lt_sum
  · intro node _
    by_cases here : node = u
    · rw [here, Function.update_self]
      exact Nat.le_of_lt raised
    · rw [Function.update_of_ne here]
  · refine ⟨u, Finset.mem_range.mpr inside, ?_⟩
    rwa [Function.update_self]

/-- When every parent is what another visit would give, the ancestors of a node are its
dominators. -/
theorem settled (sweep : Sweep edge entry num 0 parent)
    (still : ∀ x y, parent x = some y → x ≠ entry → Meets edge parent x y) {d : Nat} (reached : Reachable edge entry x) :
    Anc parent x d ↔ Dominates edge entry d x := by
  constructor
  · intro above done path
    induction path with
    | start => exact .inr (sweep.above_root above)
    | @step done p x path taken ih =>
      by_cases same : d = x
      · exact .inr same
      · left
        have inTree := sweep.placed x (.step ⟨_, path⟩ taken) (Nat.zero_le _)
        obtain ⟨y, own⟩ := Option.isSome_iff_exists.mp inTree
        have reached' : Reachable edge entry p := ⟨_, path⟩
        by_cases here : x = entry
        · rw [here] at above same
          exact absurd (sweep.above_root above) same
        · have up := (still x y own here).common p taken (sweep.placed p reached' (Nat.zero_le _))
          rcases ih reached' (up.trans (above.strict (Ne.symm same) own)) with passed | here
          · exact List.mem_append_left _ passed
          · exact List.mem_append_right _ (List.mem_singleton.mpr here)
  · exact sweep.dominators x d (sweep.placed x reached (Nat.zero_le _))

/-- A parent is the strict dominator that all the others dominate. -/
theorem settled_parent (sweep : Sweep edge entry num 0 parent)
    (still : ∀ x y, parent x = some y → x ≠ entry → Meets edge parent x y) (reached : Reachable edge entry x) (other : x ≠ entry) :
    ∃ y, parent x = some y ∧ y ≠ x ∧ Dominates edge entry y x ∧ ∀ d, Dominates edge entry d x → d ≠ x → Dominates edge entry d y := by
  obtain ⟨y, own⟩ := Option.isSome_iff_exists.mp (sweep.placed x reached (Nat.zero_le _))
  obtain ⟨inTree, more⟩ := sweep.climbs x y own other
  refine ⟨y, own, ?_, (sweep.settled still reached).mp (.up own (.refl parent y)), ?_⟩
  · rintro rfl
    exact absurd more (Nat.lt_irrefl _)
  · intro d dominates different
    have above := (sweep.settled still reached).mpr dominates
    exact (sweep.settled still (sweep.reached y inTree)).mp (above.strict (Ne.symm different) own)

end Sweep

end Rue.Lib
