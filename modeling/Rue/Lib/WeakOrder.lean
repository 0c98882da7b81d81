import Mathlib.Data.List.Basic

/-! Comparisons that order up to ties. -/

namespace Rue.Lib

/-- A strict weak ordering, as a comparison computes it. -/
structure StrictWeak {T : Type} (less : T → T → Bool) : Prop where
  irrefl : ∀ a, less a a = false
  trans : ∀ {a b c}, less a b → less b c → less a c
  incomparable : ∀ {a b c}, less a b = false → less b a = false → less b c = false → less c b = false → less a c = false

namespace StrictWeak
variable {T : Type} {less : T → T → Bool} (order : StrictWeak less) {a b c : T}
include order

theorem asymm (below : less a b) : less b a = false := by
  cases back : less b a with
  | false => rfl
  | true =>
    have loop := order.trans below back
    rw [order.irrefl a] at loop
    cases loop

/-- What does not precede `b`, which does not precede `a`, does not precede `a`. -/
theorem not_less_trans (first : less b a = false) (second : less c b = false) : less c a = false := by
  cases below : less c a with
  | false => rfl
  | true =>
    have one : less a b = false := by
      cases between : less a b with
      | false => rfl
      | true =>
        rw [order.trans below between] at second
        cases second
    have other : less b c = false := by
      cases between : less b c with
      | false => rfl
      | true =>
        rw [order.trans between below] at first
        cases first
    rw [order.incomparable second other first one] at below
    cases below

end StrictWeak

section Places
variable {T : Type} {less : T → T → Bool} {data after : List T}

/-- The element at one place does not precede the one at another. -/
def NotBefore (less : T → T → Bool) (data : List T) (i j : Nat) : Prop :=
  ∀ a b, data[i]? = some a → data[j]? = some b → less a b = false

theorem NotBefore.of_get {i j k l : Nat} (first : after[i]? = data[k]?) (second : after[j]? = data[l]?)
    (notBefore : NotBefore less data k l) : NotBefore less after i j :=
  fun a b here there => notBefore a b (first ▸ here) (second ▸ there)

end Places

end Rue.Lib

/-! Stable sorting: sorted, with the elements that tie in the order they had. -/

namespace Rue.Lib

variable {T : Type} {less : T → T → Bool}

/-- Neither of two elements precedes the other. -/
def alike (less : T → T → Bool) (z a : T) : Bool := !less z a && !less a z

structure StableSorted (less : T → T → Bool) (xs ys : List T) : Prop where
  perm : ys.Perm xs
  sorted : ys.Pairwise fun a b => less b a = false
  stable : ∀ z, ys.filter (alike less z) = xs.filter (alike less z)

section Alike
variable (weak : StrictWeak less)
include weak

theorem alike_self (a : T) : alike less a a := by
  rw [alike, weak.irrefl a]
  rfl

/-- Elements that tie with one element tie with each other. -/
theorem not_less_of_alike {z a b : T} (first : alike less z a) (second : alike less z b) : less b a = false := by
  simp only [alike, Bool.and_eq_true, Bool.not_eq_true'] at first second
  exact weak.incomparable second.2 second.1 first.1 first.2

theorem sorted_unique {ys zs : List T} (perm : ys.Perm zs) (first : ys.Pairwise fun a b => less b a = false)
    (second : zs.Pairwise fun a b => less b a = false) (same : ∀ z, ys.filter (alike less z) = zs.filter (alike less z)) :
    ys = zs := by
  induction ys generalizing zs with
  | nil => exact (List.nil_perm.mp perm).symm
  | cons y ys ih =>
    cases zs with
    | nil => exact absurd perm.symm (by simp)
    | cons z zs =>
      obtain ⟨head, rest⟩ := List.pairwise_cons.mp first
      obtain ⟨head', rest'⟩ := List.pairwise_cons.mp second
      have one : less y z = false := by
        rcases List.mem_cons.mp (perm.mem_iff.mp List.mem_cons_self) with rfl | later
        · exact weak.irrefl _
        · exact head' y later
      have other : less z y = false := by
        rcases List.mem_cons.mp (perm.mem_iff.mpr List.mem_cons_self) with rfl | later
        · exact weak.irrefl _
        · exact head z later
      have ties : alike less y z := by
        rw [alike, one, other]
        rfl
      have equal := same y
      rw [List.filter_cons_of_pos (alike_self weak y), List.filter_cons_of_pos ties] at equal
      have heads : y = z := (List.cons.inj equal).1
      subst heads
      have tails : ∀ w, ys.filter (alike less w) = zs.filter (alike less w) := by
        intro w
        have both := same w
        by_cases kept : alike less w y
        · rw [List.filter_cons_of_pos kept, List.filter_cons_of_pos kept] at both
          exact (List.cons.inj both).2
        · rwa [List.filter_cons_of_neg kept, List.filter_cons_of_neg kept] at both
      rw [ih perm.cons_inv rest rest' tails]

theorem StableSorted.unique {xs ys zs : List T} (one : StableSorted less xs ys) (other : StableSorted less xs zs) : ys = zs :=
  sorted_unique weak (one.perm.trans other.perm.symm) one.sorted other.sorted fun z => (one.stable z).trans (other.stable z).symm

/-- An element and the next one, which precedes it, do not tie. -/
theorem filter_exchanged {a b z : T} {front rest : List T} (below : less b a) :
    (front ++ b :: a :: rest).filter (alike less z) = (front ++ a :: b :: rest).filter (alike less z) := by
  rw [List.filter_append, List.filter_append]
  congr 1
  by_cases first : alike less z a
  · have second : ¬alike less z b := by
      intro second
      rw [not_less_of_alike weak first second] at below
      cases below
    rw [List.filter_cons_of_neg second, List.filter_cons_of_pos first, List.filter_cons_of_pos first, List.filter_cons_of_neg second]
  · rw [List.filter_cons_of_neg first]
    by_cases second : alike less z b
    · rw [List.filter_cons_of_pos second, List.filter_cons_of_pos second, List.filter_cons_of_neg first]
    · rw [List.filter_cons_of_neg second, List.filter_cons_of_neg second, List.filter_cons_of_neg first]

/-! Merging. The left element is taken unless the right one precedes it. -/

theorem merge_sorted {xs ys : List T} (first : xs.Pairwise fun a b => less b a = false)
    (second : ys.Pairwise fun a b => less b a = false) :
    (List.merge xs ys fun a b => !less b a).Pairwise fun a b => less b a = false := by
  have merged := @List.pairwise_merge _ (fun a b => !less b a) ?_ ?_ xs ys (by simpa using first) (by simpa using second)
  · simpa using merged
  · intro a b c one other
    simp only [Bool.not_eq_true'] at one other ⊢
    exact weak.not_less_trans one other
  · intro a b
    cases below : less b a with
    | false => simp
    | true => simp [weak.asymm below]

theorem filter_merge {xs ys : List T} (sorted : xs.Pairwise fun a b => less b a = false) (z : T) :
    (List.merge xs ys fun a b => !less b a).filter (alike less z) = xs.filter (alike less z) ++ ys.filter (alike less z) := by
  induction xs generalizing ys with
  | nil => simp
  | cons x xs ih =>
    obtain ⟨head, rest⟩ := List.pairwise_cons.mp sorted
    induction ys with
    | nil => simp
    | cons y ys ih' =>
      cases below : less y x with
      | false =>
        rw [List.cons_merge_cons_pos _ _ _ (by rw [below]; rfl)]
        by_cases ties : alike less z x
        · rw [List.filter_cons_of_pos ties, List.filter_cons_of_pos ties, ih rest, List.cons_append]
        · rw [List.filter_cons_of_neg ties, List.filter_cons_of_neg ties, ih rest]
      | true =>
        rw [List.cons_merge_cons_neg _ _ _ (by rw [below]; decide), List.filter_cons, ih']
        by_cases ties : alike less z y
        · have none : (x :: xs).filter (alike less z) = [] := by
            rw [List.filter_eq_nil_iff]
            intro a member tied
            have apart : less y a = false := not_less_of_alike weak tied ties
            rcases List.mem_cons.mp member with rfl | later
            · rw [apart] at below
              cases below
            · have between := head a later
              rw [weak.not_less_trans between apart] at below
              cases below
          rw [if_pos ties, none, List.filter_cons_of_pos ties]
          rfl
        · rw [if_neg ties, List.filter_cons_of_neg ties]

end Alike

end Rue.Lib
