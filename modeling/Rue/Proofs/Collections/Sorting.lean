import Mathlib.Tactic.Ring
import Rue.Proofs.Collections.Quicksort

/-! Insertion sort: each element sinks to its place among those before it. -/

namespace Rue.Proofs.Collections
open Rue.Collections Rue.Collections.Sorting Rue.Lib

namespace InsertionSort

variable {T : Type} {less : T → T → Bool} {xs ys : List T} {i j stop : Nat}

theorem swap_adjacent (inside : j + 1 < xs.length) :
    ∃ ys, ArrayBuf.swap xs j (j + 1) = .ok ys ∧ Exchanged j (j + 1) xs ys ∧
      ∃ front rest, xs = front ++ xs[j] :: xs[j + 1] :: rest ∧ ys = front ++ xs[j + 1] :: xs[j] :: rest := by
  obtain ⟨ys, swapped, exchanged⟩ := swap_exchanged (show j < xs.length by omega) inside
  refine ⟨ys, swapped, exchanged, xs.take j, xs.drop (j + 2), ?_, ?_⟩
  · rw [← List.drop_eq_getElem_cons inside, ← List.drop_eq_getElem_cons (by omega), List.take_append_drop]
  · have size : (xs.take j).length = j := by
      rw [List.length_take]
      omega
    apply List.ext_getElem?
    intro k
    rcases Nat.lt_trichotomy k j with before | same | past
    · rw [exchanged.other (by omega) (by omega), List.getElem?_append_left (by omega), List.getElem?_take_of_lt before]
    · subst same
      rw [exchanged.first, List.getElem?_append_right (by omega), size, Nat.sub_self, List.getElem?_cons_zero,
        List.getElem?_eq_getElem inside]
    · by_cases next : k = j + 1
      · subst next
        have one : j + 1 - j = 1 := by omega
        rw [exchanged.second, List.getElem?_append_right (by omega), size, one, List.getElem?_cons_succ, List.getElem?_cons_zero,
          List.getElem?_eq_getElem (by omega)]
      · obtain ⟨more, rfl⟩ : ∃ more, k = j + 2 + more := ⟨k - (j + 2), by omega⟩
        have two : j + 2 + more - j = more + 1 + 1 := by omega
        rw [exchanged.other (by omega) next, List.getElem?_append_right (by omega), size, two, List.getElem?_cons_succ,
          List.getElem?_cons_succ, List.getElem?_drop]

/-- In order up to `stop`, but for what precedes the element at `j`. -/
def Sinking (less : T → T → Bool) (j stop : Nat) (xs : List T) : Prop :=
  ∀ a b, a < b → b < stop → b ≠ j → NotBefore less xs b a

theorem Sinking.move (weak : StrictWeak less) (sinking : Sinking less (j + 1) stop xs) (inside : j + 1 < stop)
    (exchanged : Exchanged j (j + 1) xs ys) (below : ∀ a b, xs[j + 1]? = some a → xs[j]? = some b → less a b) :
    Sinking less j stop ys := by
  intro a b first second apart
  by_cases there : b = j + 1
  · subst there
    by_cases here : a = j
    · subst here
      intro c d one two
      rw [exchanged.second] at one
      rw [exchanged.first] at two
      exact weak.asymm (below d c two one)
    · exact .of_get exchanged.second (exchanged.other here (by omega)) (sinking a j (by omega) (by omega) (by omega))
  · have same := exchanged.other apart there
    by_cases here : a = j
    · subst here
      exact .of_get same exchanged.first (sinking (a + 1) b (by omega) second there)
    · by_cases next : a = j + 1
      · subst next
        exact .of_get same exchanged.second (sinking j b (by omega) second there)
      · exact .of_get same (exchanged.other here next) (sinking a b first second there)

theorem Sinking.finish (weak : StrictWeak less) (sinking : Sinking less j stop xs) (inside : j < xs.length)
    (settled : ∀ k, j = k + 1 → NotBefore less xs j k) : ∀ a b, a < b → b < stop → NotBefore less xs b a := by
  intro a b first second
  by_cases here : b = j
  · subst here
    obtain ⟨k, rfl⟩ : ∃ k, b = k + 1 := ⟨b - 1, by omega⟩
    by_cases next : a = k
    · subst next
      exact settled a rfl
    · intro c d one two
      have known := List.getElem?_eq_getElem (show k < xs.length by omega)
      exact weak.not_less_trans (sinking a k (by omega) (by omega) (by omega) _ d known two) (settled k rfl c _ one known)
  · exact sinking a b first second here

theorem sink_answers (inside : j < xs.length) :
    ∃ ys, sink less j xs = .ok ys ∧ ys.Perm xs ∧
      (StrictWeak less → (∀ z, ys.filter (alike less z) = xs.filter (alike less z)) ∧
        ∀ stop, j < stop → Sinking less j stop xs → ∀ a b, a < b → b < stop → NotBefore less ys b a) := by
  induction j generalizing xs with
  | zero => exact ⟨xs, rfl, .refl xs, fun weak => ⟨fun _ => rfl, fun _ _ sinking => sinking.finish weak inside nofun⟩⟩
  | succ j ih =>
    have before : j < xs.length := by omega
    rw [sink, elementAt_ok before, Stop.ok_bind, elementAt_ok inside, Stop.ok_bind]
    have here := List.getElem?_eq_getElem inside
    have there := List.getElem?_eq_getElem before
    cases compared : less xs[j + 1] xs[j] with
    | true =>
      obtain ⟨swapped, swaps, exchanged, front, rest, shape, shape'⟩ := swap_adjacent inside
      have length := exchanged.length
      obtain ⟨ys, done, perm, orders⟩ := @ih swapped (by omega)
      refine ⟨ys, ?_, perm.trans exchanged.perm, fun weak => ?_⟩
      · rw [if_pos rfl, swaps, Stop.ok_bind, done]
      · obtain ⟨stable, sorted⟩ := orders weak
        refine ⟨fun z => ?_, fun stop within sinking => sorted stop (by omega) (sinking.move weak within exchanged ?_)⟩
        · have kept := @filter_exchanged T less weak xs[j] xs[j + 1] z front rest compared
          rw [stable z, shape', kept, ← shape]
        · intro a b one two
          cases here.symm.trans one
          cases there.symm.trans two
          exact compared
    | false =>
      refine ⟨xs, rfl, .refl xs, fun weak => ⟨fun _ => rfl, fun stop _ sinking => sinking.finish weak inside ?_⟩⟩
      intro k same a b one two
      cases same
      cases here.symm.trans one
      cases there.symm.trans two
      exact compared

/-- A permutation, and the stable sorted one if the comparison orders. -/
theorem insertionSortWith_answers (less : T → T → Bool) (xs : List T) :
    ∃ ys, insertionSortWith less xs = .ok ys ∧ ys.Perm xs ∧ (StrictWeak less → StableSorted less xs ys) := by
  have rounds : ∀ count, count ≤ xs.length - 1 →
      ∃ ys, (List.range' 1 count).foldlM (fun xs i => sink less i xs) xs = .ok ys ∧ ys.Perm xs ∧
        (StrictWeak less → (∀ z, ys.filter (alike less z) = xs.filter (alike less z)) ∧
          ∀ a b, a < b → b < count + 1 → NotBefore less ys b a) := by
    intro count
    induction count with
    | zero => exact fun _ => ⟨xs, rfl, .refl xs, fun _ => ⟨fun _ => rfl, fun a b first second => by omega⟩⟩
    | succ count ih =>
      intro few
      obtain ⟨ys, done, perm, orders⟩ := ih (by omega)
      have length := perm.length_eq
      obtain ⟨zs, sunk, perm', orders'⟩ := @sink_answers T less ys (1 + count) (by omega)
      refine ⟨zs, ?_, perm'.trans perm, fun weak => ?_⟩
      · rw [List.range'_1_concat, List.foldlM_append, done, Stop.ok_bind, List.foldlM_cons, sunk]
        rfl
      · obtain ⟨stable, sorted⟩ := orders weak
        obtain ⟨stable', sorted'⟩ := orders' weak
        refine ⟨fun z => (stable' z).trans (stable z), fun a b first second => ?_⟩
        refine sorted' (count + 1 + 1) (by omega) ?_ a b first second
        intro a b first second apart
        exact sorted a b first (by omega)
  obtain ⟨ys, done, perm, orders⟩ := rounds (xs.length - 1) (Nat.le_refl _)
  refine ⟨ys, done, perm, fun weak => ⟨perm, ?_, (orders weak).1⟩⟩
  have length := perm.length_eq
  rw [List.pairwise_iff_getElem]
  intro i j first second third
  exact (orders weak).2 i j third (by omega) _ _ (List.getElem?_eq_getElem second) (List.getElem?_eq_getElem first)

end InsertionSort

end Rue.Proofs.Collections

/-! Bottom-up merge sort: a pass merges neighbouring runs, and doubles the width
of the runs that are in order. -/

namespace Rue.Proofs.Collections
open Rue.Collections Rue.Collections.Sorting Rue.Lib

namespace MergeSort

variable {T : Type} {less : T → T → Bool} {xs tmp : List T}

/-- The elements of the places from `i` up to `stop`. -/
def segment (xs : List T) (i stop : Nat) : List T := (xs.drop i).take (stop - i)

def merged (less : T → T → Bool) (left right : List T) : List T := List.merge left right fun a b => !less b a

theorem segment_cons {i stop : Nat} (some : i < stop) (inside : i < xs.length) :
    segment xs i stop = xs[i] :: segment xs (i + 1) stop := by
  have count : stop - i = stop - (i + 1) + 1 := by omega
  rw [segment, List.drop_eq_getElem_cons inside, count, List.take_succ_cons, segment]

theorem segment_self (xs : List T) (i : Nat) : segment xs i i = [] := by
  rw [segment, Nat.sub_self, List.take_zero]

theorem mergeRuns_answers {mid hi fuel i j : Nat} (left : i ≤ mid) (right : j ≤ hi) (inside : mid ≤ xs.length)
    (within : hi ≤ xs.length) (enough : mid - i + (hi - j) < fuel) :
    ∃ i' j' tmp', mergeRuns less xs mid hi fuel i j tmp = .ok (i', j', tmp') ∧ i' ≤ mid ∧ j' ≤ hi ∧
      tmp' ++ segment xs i' mid ++ segment xs j' hi = tmp ++ merged less (segment xs i mid) (segment xs j hi) := by
  induction fuel generalizing i j tmp with
  | zero => omega
  | succ fuel ih =>
    rw [mergeRuns]
    split
    next both =>
      obtain ⟨first, second⟩ := both
      have here : i < xs.length := by omega
      have there : j < xs.length := by omega
      rw [elementAt_ok here, Stop.ok_bind, elementAt_ok there, Stop.ok_bind]
      cases compared : less xs[j] xs[i] with
      | true =>
        obtain ⟨i', j', tmp', done, low, high, same⟩ := @ih (tmp ++ [xs[j]]) i (j + 1) left second (by omega)
        refine ⟨i', j', tmp', done, low, high, same.trans ?_⟩
        rw [merged, merged, segment_cons first here, segment_cons second there,
          List.cons_merge_cons_neg _ _ _ (by rw [compared]; decide), List.append_assoc, List.singleton_append]
      | false =>
        obtain ⟨i', j', tmp', done, low, high, same⟩ := @ih (tmp ++ [xs[i]]) (i + 1) j first right (by omega)
        refine ⟨i', j', tmp', done, low, high, same.trans ?_⟩
        rw [merged, merged, segment_cons first here, segment_cons second there,
          List.cons_merge_cons_pos _ _ _ (by rw [compared]; rfl), List.append_assoc, List.singleton_append]
    next spent =>
      refine ⟨i, j, tmp, rfl, left, right, ?_⟩
      rw [List.append_assoc]
      congr 1
      by_cases first : i < mid
      · have last : j = hi := by omega
        rw [last, segment_self, merged, List.append_nil, List.merge_right]
      · have last : i = mid := by omega
        rw [last, segment_self, merged, List.nil_append, List.nil_merge]

theorem copyRun_answers {i stop : Nat} (inside : stop ≤ xs.length) : copyRun xs i stop tmp = .ok (tmp ++ segment xs i stop) := by
  have rounds : ∀ count, i + count ≤ xs.length ∨ count = 0 →
      (List.range' i count).foldlM (fun tmp k => do return tmp ++ [← elementAt xs k]) tmp =
        (.ok (tmp ++ (xs.drop i).take count) : Except Stop (List T)) := by
    intro count
    induction count with
    | zero => simp
    | succ count ih =>
      intro few
      have here : i + count < xs.length := by omega
      rw [List.range'_1_concat, List.foldlM_append, ih (.inl (by omega)), Stop.ok_bind, List.foldlM_cons, elementAt_ok here,
        Stop.ok_bind, List.take_add_one, List.getElem?_drop, List.getElem?_eq_getElem here]
      simp
  exact rounds (stop - i) (by omega)

/-- Neighbouring runs of a width merged, all along a list. -/
def passRuns (less : T → T → Bool) (width : Nat) : Nat → List T → List T
  | 0, l => l
  | fuel + 1, l =>
    if l = [] then []
    else merged less (l.take width) ((l.drop width).take width) ++ passRuns less width fuel (l.drop (2 * width))

theorem take_capped (l : List T) (width : Nat) : l.take (min width l.length) = l.take width := by
  rcases Nat.le_total width l.length with short | long
  · rw [Nat.min_eq_left short]
  · rw [Nat.min_eq_right long, List.take_length, List.take_of_length_le long]

theorem mergePass_answers {width fuel lo : Nat} (positive : 0 < width) (narrow : width ≤ 2 ^ 62) (short : xs.length < 2 ^ 63)
    (enough : xs.length - lo < fuel) (low : lo ≤ xs.length) :
    mergePass less xs width fuel lo tmp = .ok (tmp ++ passRuns less width fuel (xs.drop lo)) := by
  induction fuel generalizing lo tmp with
  | zero => omega
  | succ fuel ih =>
    rw [mergePass]
    split
    next some =>
      rw [U64.add_ok (by omega), Stop.ok_bind]
      dsimp only
      rw [U64.mul_ok (by omega), Stop.ok_bind, U64.add_ok (by omega), Stop.ok_bind]
      have mid : (if lo + width < xs.length then lo + width else xs.length) = min (lo + width) xs.length := by
        rw [Nat.min_def]
        split <;> split <;> omega
      have hi : (if lo + 2 * width < xs.length then lo + 2 * width else xs.length) = min (lo + 2 * width) xs.length := by
        rw [Nat.min_def]
        split <;> split <;> omega
      rw [mid, hi]
      obtain ⟨i, j, tmp', done, left, right, same⟩ := @mergeRuns_answers T less xs tmp (min (lo + width) xs.length)
        (min (lo + 2 * width) xs.length) (min (lo + 2 * width) xs.length - lo + 1) lo (min (lo + width) xs.length) (by omega)
        (by omega) (by omega) (by omega) (by omega)
      rw [done, Stop.ok_bind]
      dsimp only
      rw [copyRun_answers (by omega), Stop.ok_bind, copyRun_answers (by omega), Stop.ok_bind, same, ih (by omega) (by omega)]
      have first : segment xs lo (min (lo + width) xs.length) = (xs.drop lo).take width := by
        have count : min (lo + width) xs.length - lo = min width (xs.drop lo).length := by
          rw [List.length_drop]
          omega
        rw [segment, count, take_capped]
      have second : segment xs (min (lo + width) xs.length) (min (lo + 2 * width) xs.length) =
          ((xs.drop lo).drop width).take width := by
        rw [List.drop_drop, segment]
        rcases Nat.lt_or_ge (lo + width) xs.length with inside | outside
        · have count : min (lo + 2 * width) xs.length - (lo + width) = min width (xs.drop (lo + width)).length := by
            rw [List.length_drop]
            omega
          rw [Nat.min_eq_left (Nat.le_of_lt inside), count, take_capped]
        · rw [Nat.min_eq_right outside, List.drop_length, List.take_nil, List.drop_of_length_le outside, List.take_nil]
      have rest : xs.drop (min (lo + 2 * width) xs.length) = (xs.drop lo).drop (2 * width) := by
        rw [List.drop_drop]
        rcases Nat.lt_or_ge (lo + 2 * width) xs.length with inside | outside
        · rw [Nat.min_eq_left (Nat.le_of_lt inside)]
        · rw [Nat.min_eq_right outside, List.drop_length, List.drop_of_length_le outside]
      have nonempty : ¬xs.drop lo = [] := by
        rw [List.drop_eq_nil_iff]
        omega
      rw [first, second, rest, passRuns, if_neg nonempty, List.append_assoc]
    next none =>
      have empty : xs.drop lo = [] := by
        rw [List.drop_eq_nil_iff]
        omega
      rw [passRuns, if_pos empty, List.append_nil]

theorem copyBack_answers (same : tmp.length = xs.length) : copyBack xs tmp = .ok tmp := by
  have rounds : ∀ count, count ≤ xs.length →
      (List.range count).foldlM (fun xs k => do ArrayBuf.set xs k (← elementAt tmp k)) xs =
        (.ok (tmp.take count ++ xs.drop count) : Except Stop (List T)) := by
    intro count
    induction count with
    | zero => simp
    | succ count ih =>
      intro few
      have here : count < tmp.length := by omega
      have size : (tmp.take count).length = count := by
        rw [List.length_take]
        omega
      have inside : count < (tmp.take count ++ xs.drop count).length := by
        rw [List.length_append, List.length_drop]
        omega
      rw [List.range_succ, List.foldlM_append, ih (by omega), Stop.ok_bind, List.foldlM_cons, elementAt_ok here, Stop.ok_bind,
        ArrayBuf.set_ok inside, Stop.ok_bind, List.set_append_right _ _ (by omega), size, Nat.sub_self,
        List.drop_eq_getElem_cons (by omega), List.set_cons_zero, List.take_add_one, List.getElem?_eq_getElem here,
        Option.toList_some, List.append_assoc, List.singleton_append]
      rfl
  have whole := rounds xs.length (Nat.le_refl _)
  rw [List.drop_length, List.append_nil, ← same, List.take_length] at whole
  rw [copyBack, ← same]
  exact whole

/-- Every run of a width is in order. -/
def RunsSorted (less : T → T → Bool) (width : Nat) (l : List T) : Prop :=
  ∀ k, ((l.drop (k * width)).take width).Pairwise fun a b => less b a = false

section Runs
variable {width fuel : Nat} {l : List T}

theorem length_merged (left right : List T) : (merged less left right).length = left.length + right.length :=
  List.length_merge _ _ _

theorem passRuns_perm (positive : 0 < width) (enough : l.length ≤ fuel) : (passRuns less width fuel l).Perm l := by
  induction fuel generalizing l with
  | zero => exact .refl l
  | succ fuel ih =>
    rw [passRuns]
    split
    next empty =>
      rw [empty]
    next some =>
      have shorter : (l.drop (2 * width)).length ≤ fuel := by
        rw [List.length_drop]
        omega
      have pair : l.take width ++ (l.drop width).take width = l.take (2 * width) := by
        rw [Nat.two_mul, List.take_add]
      have two : (merged less (l.take width) ((l.drop width).take width)).Perm (l.take width ++ (l.drop width).take width) :=
        List.merge_perm_append _
      have all := two.append (ih shorter)
      rwa [pair, List.take_append_drop] at all

theorem RunsSorted.skip (sorted : RunsSorted less width l) : RunsSorted less width (l.drop (2 * width)) := by
  intro k
  have run := sorted (k + 2)
  have position : (k + 2) * width = 2 * width + k * width := by ring
  rwa [position, ← List.drop_drop] at run

theorem passRuns_stable (weak : StrictWeak less) (enough : l.length ≤ fuel) (positive : 0 < width)
    (sorted : RunsSorted less width l) (z : T) : (passRuns less width fuel l).filter (alike less z) = l.filter (alike less z) := by
  induction fuel generalizing l with
  | zero => rfl
  | succ fuel ih =>
    rw [passRuns]
    split
    next empty => rw [empty]
    next some =>
      have shorter : (l.drop (2 * width)).length ≤ fuel := by
        rw [List.length_drop]
        omega
      have first : (l.take width).Pairwise fun a b => less b a = false := by
        have run := sorted 0
        rwa [Nat.zero_mul, List.drop_zero] at run
      have pair : l.take width ++ (l.drop width).take width = l.take (2 * width) := by
        rw [Nat.two_mul, List.take_add]
      rw [List.filter_append, merged, filter_merge weak first, ih shorter sorted.skip, ← List.filter_append, pair,
        ← List.filter_append, List.take_append_drop]

theorem passRuns_sorted (weak : StrictWeak less) (enough : l.length ≤ fuel) (positive : 0 < width)
    (sorted : RunsSorted less width l) : RunsSorted less (2 * width) (passRuns less width fuel l) := by
  induction fuel generalizing l with
  | zero =>
    have empty := List.length_eq_zero_iff.mp (Nat.le_zero.mp enough)
    subst empty
    intro k
    simp [passRuns]
  | succ fuel ih =>
    rw [passRuns]
    split
    next empty =>
      intro k
      simp
    next some =>
      have shorter : (l.drop (2 * width)).length ≤ fuel := by
        rw [List.length_drop]
        omega
      have rest := ih shorter sorted.skip
      have one := sorted 0
      have two := sorted 1
      rw [Nat.zero_mul, List.drop_zero] at one
      rw [Nat.one_mul] at two
      have run : (merged less (l.take width) ((l.drop width).take width)).Pairwise fun a b => less b a = false :=
        merge_sorted weak one two
      have size : (merged less (l.take width) ((l.drop width).take width)).length = min (2 * width) l.length := by
        rw [length_merged, List.length_take, List.length_take, List.length_drop]
        omega
      have left := (@passRuns_perm T less width fuel _ positive shorter).length_eq
      rw [List.length_drop] at left
      rcases Nat.lt_or_ge l.length (2 * width) with short | long
      · have last : passRuns less width fuel (l.drop (2 * width)) = [] := List.length_eq_zero_iff.mp (by omega)
        rw [last, List.append_nil]
        intro k
        exact run.sublist ((List.take_sublist _ _).trans (List.drop_sublist _ _))
      · intro k
        cases k with
        | zero =>
          have full : 2 * width = (merged less (l.take width) ((l.drop width).take width)).length := by omega
          rw [Nat.zero_mul, List.drop_zero, full, List.take_left]
          exact run
        | succ k =>
          have position : (k + 1) * (2 * width) =
              (merged less (l.take width) ((l.drop width).take width)).length + k * (2 * width) := by
            rw [size, Nat.min_eq_left long]
            ring
          rw [position, List.drop_append, List.drop_of_length_le (Nat.le_add_right _ _), List.nil_append, Nat.add_sub_cancel_left]
          exact rest k

end Runs

theorem width_bound {k n : Nat} (inside : 2 ^ k < n) (short : n < 2 ^ 63) : k ≤ 62 := by
  have bound : k < 63 := (Nat.pow_lt_pow_iff_right (by decide)).mp (Nat.lt_trans inside short)
  omega

theorem mergeWidths_answers {fuel k : Nat} (short : xs.length < 2 ^ 63) (enough : xs.length < fuel + 2 ^ k) (turn : 0 < fuel) :
    ∃ ys, mergeWidths less fuel (2 ^ k) xs = .ok ys ∧ ys.Perm xs ∧
      (StrictWeak less → RunsSorted less (2 ^ k) xs → StableSorted less xs ys) := by
  induction fuel generalizing k xs with
  | zero => omega
  | succ fuel ih =>
    rw [mergeWidths]
    split
    next inside =>
      have positive : 0 < 2 ^ k := Nat.two_pow_pos k
      have narrow := width_bound inside short
      have capped : 2 ^ k ≤ 2 ^ 62 := Nat.pow_le_pow_right (by decide) narrow
      have perm := @passRuns_perm T less (2 ^ k) (xs.length + 1) xs positive (by omega)
      have twice : 2 ^ k * 2 = 2 ^ (k + 1) := (Nat.pow_succ 2 k).symm
      have pass := @mergePass_answers T less xs [] (2 ^ k) (xs.length + 1) 0 positive capped short (by omega) (by omega)
      rw [List.nil_append, List.drop_zero] at pass
      rw [pass, Stop.ok_bind, copyBack_answers perm.length_eq, Stop.ok_bind, U64.mul_ok (by omega), Stop.ok_bind, twice]
      have size := perm.length_eq
      obtain ⟨ys, done, same, sorts⟩ := @ih (passRuns less (2 ^ k) (xs.length + 1) xs) (k + 1) (by omega) (by omega) (by omega)
      refine ⟨ys, done, same.trans perm, fun weak runs => ?_⟩
      have next : RunsSorted less (2 ^ (k + 1)) (passRuns less (2 ^ k) (xs.length + 1) xs) := by
        rw [← twice, Nat.mul_comm]
        exact passRuns_sorted weak (by omega) positive runs
      obtain ⟨-, sorted, stable⟩ := sorts weak next
      exact ⟨same.trans perm, sorted, fun z => (stable z).trans (passRuns_stable weak (by omega) positive runs z)⟩
    next whole =>
      refine ⟨xs, rfl, .refl xs, fun _ runs => ⟨.refl xs, ?_, fun _ => rfl⟩⟩
      have first := runs 0
      rwa [Nat.zero_mul, List.drop_zero, List.take_of_length_le (by omega)] at first

theorem runsSorted_one (xs : List T) : RunsSorted less 1 xs := by
  intro k
  cases rest : xs.drop (k * 1) with
  | nil => simp
  | cons x rest => simp

end MergeSort

/-- With room for the scratch buffer a merge sort answers; a strict weak order is
then sorted stably. -/
theorem mergeSortWith_answers {T : Type} (less : T → T → Bool) {xs : List T} (short : xs.length < 2 ^ 63) :
    ∃ ys, mergeSortWith less true xs = .ok ys ∧ ys.Perm xs ∧ (StrictWeak less → StableSorted less xs ys) := by
  rw [mergeSortWith]
  split
  next few =>
    refine ⟨xs, rfl, .refl xs, fun _ => ⟨.refl xs, ?_, fun _ => rfl⟩⟩
    rcases xs with - | ⟨x, - | ⟨y, rest⟩⟩
    · exact .nil
    · exact List.pairwise_singleton _ _
    · simp only [List.length_cons] at few
      omega
  next many =>
    rw [if_pos rfl]
    obtain ⟨ys, done, perm, sorts⟩ := @MergeSort.mergeWidths_answers T less xs (xs.length + 1) 0 short (by omega) (by omega)
    exact ⟨ys, done, perm, fun weak => sorts weak (MergeSort.runsSorted_one xs)⟩

end Rue.Proofs.Collections

/-! The sorts of the library. Any comparison will do for an answer; one that
orders sorts. -/

namespace Rue.Proofs.Collections
open Rue.Collections Rue.Collections.Sorting Rue.Lib Quicksort InsertionSort

variable {T C : Type}

/-- A permutation, reached by calls no deeper than the logarithm of the length,
in order if the comparison orders. -/
def SortsInPlace (less : T → T → Bool) (xs : Buffer T) (answer : Except Stop (List T × Nat)) : Prop :=
  ∃ after depth, answer = .ok (after, depth) ∧ after.Perm xs.items ∧ depth ≤ Nat.log 2 xs.items.length + 1 ∧
    (StrictWeak less → after.Pairwise fun a b => less b a = false)

/-- A permutation, which is the one stable sorted one if the comparison orders. -/
def SortsStably (less : T → T → Bool) (xs : Buffer T) (answer : Except Stop (List T)) : Prop :=
  ∃ after, answer = .ok after ∧ after.Perm xs.items ∧
    (StrictWeak less → StableSorted less xs.items after ∧ ∀ other, StableSorted less xs.items other → other = after)

variable {less : T → T → Bool} {xs : Buffer T}

theorem sortsInPlace_of_reads {reading : Reading T} (reads : Reads reading less) :
    SortsInPlace less xs (quicksortWith reading xs.items) :=
  quicksortWith_answers reads (Nat.lt_trans xs.addressable (by decide))

theorem sortsStably_of_answer {answer : Except Stop (List T)}
    (found : ∃ ys, answer = .ok ys ∧ ys.Perm xs.items ∧ (StrictWeak less → StableSorted less xs.items ys)) :
    SortsStably less xs answer := by
  obtain ⟨ys, done, perm, sorts⟩ := found
  exact ⟨ys, done, perm, fun weak => ⟨sorts weak, fun _ other => other.unique weak (sorts weak)⟩⟩

theorem mergeSortWith_sorts (less : T → T → Bool) (room : Bool) (xs : Buffer T) :
    SortsStably less xs (mergeSortWith less room xs.items) ∨
      room = false ∧ mergeSortWith less room xs.items = .error .outOfMemory := by
  cases room with
  | true => exact .inl (sortsStably_of_answer (mergeSortWith_answers less xs.addressable))
  | false =>
    rcases Nat.lt_or_ge xs.items.length 2 with few | many
    · -- Short buffers are left alone before the scratch buffer is asked for.
      have same : mergeSortWith less false xs.items = mergeSortWith less true xs.items := by
        rw [mergeSortWith, mergeSortWith, if_pos few, if_pos few]
      rw [same]
      exact .inl (sortsStably_of_answer (mergeSortWith_answers less xs.addressable))
    · refine .inr ⟨rfl, ?_⟩
      rw [mergeSortWith, if_neg (Nat.not_lt.mpr many)]
      rfl

/-- Every sort answers on every buffer, whatever the comparison; a merge sort may
only miss the memory for its scratch buffer. -/
theorem sorts_sound (lt : T → T → Bool) (ctx : C) (less : C → T → T → Bool) (room : Bool) (xs : Buffer T) :
    (SortsInPlace lt xs (quicksort lt xs) ∧ SortsInPlace (less ctx) xs (sortBy ctx less xs) ∧
      SortsInPlace lt xs (sortByOrder lt xs)) ∧
    (SortsStably lt xs (insertionSort lt xs) ∧ SortsStably (less ctx) xs (insertionSortBy ctx less xs)) ∧
    (SortsStably lt xs (mergeSort lt room xs) ∨ room = false ∧ mergeSort lt room xs = .error .outOfMemory) ∧
    (SortsStably (less ctx) xs (mergeSortBy ctx less room xs) ∨
      room = false ∧ mergeSortBy ctx less room xs = .error .outOfMemory) := by
  refine ⟨⟨?_, ?_, ?_⟩, ⟨?_, ?_⟩, ?_, ?_⟩
  · exact sortsInPlace_of_reads (reading_reads lt)
  · exact sortsInPlace_of_reads (readingBy_reads (less ctx))
  · exact sortsInPlace_of_reads (readingBy_reads lt)
  · exact sortsStably_of_answer (insertionSortWith_answers lt xs.items)
  · exact sortsStably_of_answer (insertionSortWith_answers (less ctx) xs.items)
  · exact mergeSortWith_sorts lt room xs
  · exact mergeSortWith_sorts (less ctx) room xs

end Rue.Proofs.Collections
