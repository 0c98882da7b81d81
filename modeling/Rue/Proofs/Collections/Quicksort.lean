import Mathlib.Data.Nat.Log
import Rue.Lib.WeakOrder
import Rue.Proofs.Collections.ArrayBuf

/-! Quicksort on a range: a pass puts the elements before the pivot first, and
the two sides are sorted on their own. -/

namespace Rue.Proofs.Collections
open Rue.Collections Rue.Collections.Sorting Rue.Lib

namespace Quicksort

variable {T : Type} {less : T → T → Bool} {reading : Reading T}

/-- In bounds a reading compares by the elements that are there. -/
structure Reads (reading : Reading T) (less : T → T → Bool) : Prop where
  median : ∀ xs a b c, a < xs.length → b < xs.length → c < xs.length →
    ∃ m, reading.median xs a b c = .ok m ∧ (m = a ∨ m = b ∨ m = c)
  against : ∀ xs hi pivot, xs[hi]? = some pivot → ∃ test, reading.against xs hi = .ok test ∧
    ∀ ys j a, ys[hi]? = some pivot → ys[j]? = some a → test ys j = .ok (less a pivot)

theorem elementAt_eq {xs : List T} {i : Nat} {a : T} (here : xs[i]? = some a) : elementAt xs i = .ok a := by
  rw [elementAt, here]

theorem reading_reads (lt : T → T → Bool) : Reads (Sorting.reading lt) lt := by
  constructor
  · intro xs a b c first second third
    change ∃ m, medianOfThree lt xs a b c = .ok m ∧ _
    refine ⟨_, by rw [medianOfThree, elementAt_ok first, elementAt_ok second, elementAt_ok third]; rfl, ?_⟩
    split
    · split
      · exact .inr (.inl rfl)
      · split
        · exact .inr (.inr rfl)
        · exact .inl rfl
    · split
      · exact .inl rfl
      · split
        · exact .inr (.inr rfl)
        · exact .inr (.inl rfl)
  · intro xs hi pivot here
    refine ⟨fun xs j => do return lt (← elementAt xs j) pivot, ?_, ?_⟩
    · change (do let pivot ← elementAt xs hi; _) = _
      rw [elementAt_eq here]
      rfl
    · intro ys j a _ there
      dsimp only
      rw [elementAt_eq there]
      rfl

theorem readingBy_reads (less : T → T → Bool) : Reads (readingBy less) less := by
  constructor
  · intro xs a b c first second third
    change ∃ m, medianOfThreeBy less xs a b c = .ok m ∧ _
    rw [medianOfThreeBy, lessAt_ok first second, lessAt_ok second third, lessAt_ok first third]
    simp only [Stop.ok_bind]
    split
    · split
      · exact ⟨b, rfl, .inr (.inl rfl)⟩
      · split
        · exact ⟨c, rfl, .inr (.inr rfl)⟩
        · exact ⟨a, rfl, .inl rfl⟩
    · split
      · exact ⟨a, rfl, .inl rfl⟩
      · split
        · exact ⟨c, rfl, .inr (.inr rfl)⟩
        · exact ⟨b, rfl, .inr (.inl rfl)⟩
  · intro xs hi pivot here
    refine ⟨_, rfl, ?_⟩
    intro ys j a there known
    rw [lessAt, elementAt_eq there, elementAt_eq known]
    rfl

/-- The state of a pass that has compared the places up to `j`. -/
structure Passed (less : T → T → Bool) (pivot : T) (lo hi j : Nat) (data xs : List T) (store : Nat) : Prop where
  rearranged : Rearranged lo (hi - 1) data xs
  low : lo ≤ store
  high : store ≤ j
  before : ∀ k a, lo ≤ k → k < store → xs[k]? = some a → less a pivot
  rest : ∀ k a, store ≤ k → k < j → xs[k]? = some a → less a pivot = false

section Pass
variable {pivot : T} {lo hi j store : Nat} {data xs : List T}

theorem Passed.stay (passed : Passed less pivot lo hi j data xs store)
    (compared : ∀ a, xs[j]? = some a → less a pivot = false) : Passed less pivot lo hi (j + 1) data xs store := by
  refine ⟨passed.rearranged, passed.low, Nat.le_succ_of_le passed.high, passed.before, ?_⟩
  intro k a above below here
  by_cases last : k = j
  · subst last
    exact compared a here
  · exact passed.rest k a above (by omega) here

theorem Passed.move (passed : Passed less pivot lo hi j data xs store) (within : j < hi) {swapped : List T}
    (exchanged : Exchanged store j xs swapped) (compared : ∀ a, xs[j]? = some a → less a pivot) :
    Passed less pivot lo hi (j + 1) data swapped (store + 1) := by
  have low := passed.low
  have high := passed.high
  refine ⟨passed.rearranged.trans (exchanged.rearranged low (by omega) (by omega) (by omega)), by omega, by omega, ?_, ?_⟩
  · intro k a above below here
    by_cases last : k = store
    · subst last
      rw [exchanged.first] at here
      exact compared a here
    · rw [exchanged.other last (by omega)] at here
      exact passed.before k a above (by omega) here
  · intro k a above below here
    by_cases last : k = j
    · subst last
      rw [exchanged.second] at here
      exact passed.rest store a (Nat.le_refl _) (by omega) here
    · rw [exchanged.other (by omega) last] at here
      exact passed.rest k a (by omega) (by omega) here

theorem partition_answers {test : List T → Nat → Except Stop Bool} (ordered : lo < hi) (here : data[hi]? = some pivot)
    (tests : ∀ ys j a, ys[hi]? = some pivot → ys[j]? = some a → test ys j = .ok (less a pivot)) :
    ∃ xs store, partition test lo hi data = .ok (xs, store) ∧ Passed less pivot lo hi hi data xs store := by
  have inside := (List.getElem?_eq_some_iff.mp here).1
  have passes : ∀ rounds, lo + rounds ≤ hi → ∃ xs store,
      (List.range' lo rounds).foldlM (fun state j => do
        if ← test state.1 j then return (← ArrayBuf.swap state.1 state.2 j, state.2 + 1) else return state) (data, lo) =
          .ok (xs, store) ∧ Passed less pivot lo hi (lo + rounds) data xs store := by
    intro rounds
    induction rounds with
    | zero =>
      intro _
      exact ⟨data, lo, rfl, .refl data, Nat.le_refl _, Nat.le_refl _, fun k a low high => by omega, fun k a low high => by omega⟩
    | succ rounds ih =>
      intro few
      obtain ⟨xs, store, done, passed⟩ := ih (by omega)
      have length := passed.rearranged.length
      have known : lo + rounds < xs.length := by omega
      have there := List.getElem?_eq_getElem known
      have kept : xs[hi]? = some pivot := by rw [passed.rearranged.outside (by omega), here]
      rw [List.range'_1_concat, List.foldlM_append, done, Stop.ok_bind, List.foldlM_cons, tests xs _ _ kept there, Stop.ok_bind]
      cases compared : less xs[lo + rounds] pivot with
      | true =>
        have high := passed.high
        obtain ⟨swapped, exchanges, exchanged⟩ := swap_exchanged (show store < xs.length by omega) known
        refine ⟨swapped, store + 1, ?_, passed.move (by omega) exchanged ?_⟩
        · rw [if_pos rfl, exchanges]
          rfl
        · intro a same
          cases there.symm.trans same
          exact compared
      | false =>
        refine ⟨xs, store, rfl, passed.stay ?_⟩
        intro a same
        cases there.symm.trans same
        exact compared
  have whole : lo + (hi - lo) = hi := by omega
  obtain ⟨xs, store, done, passed⟩ := passes (hi - lo) (by omega)
  rw [whole] at passed
  exact ⟨xs, store, done, passed⟩

end Pass

/-- A range split around the pivot, which is in its place. -/
structure Divided (less : T → T → Bool) (pivot : T) (lo hi store : Nat) (xs : List T) : Prop where
  low : lo ≤ store
  high : store ≤ hi
  here : xs[store]? = some pivot
  left : ∀ k a, lo ≤ k → k < store → xs[k]? = some a → less a pivot
  right : ∀ k a, store < k → k ≤ hi → xs[k]? = some a → less a pivot = false

/-- The places from `lo` up to `stop` are in order. -/
def SortedOn (less : T → T → Bool) (lo stop : Nat) (xs : List T) : Prop :=
  ∀ i j, lo ≤ i → i < j → j < stop → NotBefore less xs j i

section Divide
variable {pivot : T} {lo hi store : Nat} {data xs after : List T}

theorem Passed.divide (passed : Passed less pivot lo hi hi data xs store) (ordered : lo < hi) (last : data[hi]? = some pivot)
    (exchanged : Exchanged store hi xs after) : Divided less pivot lo hi store after := by
  have high := passed.high
  refine ⟨passed.low, high, ?_, ?_, ?_⟩
  · rw [exchanged.first, passed.rearranged.outside (by omega), last]
  · intro k a above below here
    rw [exchanged.other (by omega) (by omega)] at here
    exact passed.before k a above below here
  · intro k a above below here
    by_cases there : k = hi
    · subst there
      rw [exchanged.second] at here
      exact passed.rest store a (Nat.le_refl _) above here
    · rw [exchanged.other (by omega) there] at here
      exact passed.rest k a (by omega) (by omega) here

theorem Divided.leftMoved (divided : Divided less pivot lo hi store xs) (some : lo < store)
    (rearranged : Rearranged lo (store - 1) xs after) : Divided less pivot lo hi store after := by
  refine ⟨divided.low, divided.high, ?_, ?_, ?_⟩
  · rw [rearranged.outside (by omega), divided.here]
  · intro k a above below here
    refine rearranged.transport (fun k a low high => divided.left k a low (by omega)) k a above (by omega) here
  · intro k a above below here
    rw [rearranged.outside (by omega)] at here
    exact divided.right k a above below here

theorem Divided.rightMoved (divided : Divided less pivot lo hi store xs) (rearranged : Rearranged (store + 1) hi xs after) :
    Divided less pivot lo hi store after := by
  refine ⟨divided.low, divided.high, ?_, ?_, ?_⟩
  · rw [rearranged.outside (by omega), divided.here]
  · intro k a above below here
    rw [rearranged.outside (by omega)] at here
    exact divided.left k a above below here
  · exact fun k a above below here => rearranged.transport (fun k a low high => divided.right k a low high) k a above below here

theorem SortedOn.outside {stop low high : Nat} (sorted : SortedOn less lo stop xs) (rearranged : Rearranged low high xs after)
    (apart : stop ≤ low ∨ high < lo) : SortedOn less lo stop after := by
  intro i j first second third
  exact .of_get (rearranged.outside (by omega)) (rearranged.outside (by omega)) (sorted i j first second third)

theorem Divided.sorted (weak : StrictWeak less) (divided : Divided less pivot lo hi store xs) (left : SortedOn less lo store xs)
    (right : SortedOn less (store + 1) (hi + 1) xs) : SortedOn less lo (hi + 1) xs := by
  intro i j first second third a b here there
  rcases Nat.lt_trichotomy j store with before | same | past
  · exact left i j first second before a b here there
  · subst same
    cases divided.here.symm.trans here
    exact weak.asymm (divided.left i b first second there)
  · have larger := divided.right j a past (by omega) here
    rcases Nat.lt_trichotomy i store with before | same | past'
    · exact weak.not_less_trans (weak.asymm (divided.left i b first before there)) larger
    · subst same
      cases divided.here.symm.trans there
      exact larger
    · exact right i j past' second third a b here there

end Divide

/-- A range was sorted, if the comparison orders at all, and the calls were no
deeper than a power of two says. -/
def Outcome (less : T → T → Bool) (lo hi bound : Nat) (xs : List T) (result : Except Stop (List T × Nat)) : Prop :=
  ∃ after depth, result = .ok (after, depth) ∧ Rearranged lo hi xs after ∧ 2 ^ depth ≤ bound ∧
    (StrictWeak less → SortedOn less lo (hi + 1) after)

section Recursion
variable {lo hi store fuel : Nat} {xs : List T} {pivot : T}

/-- What the recursive calls of less fuel do. -/
def Sorts (reading : Reading T) (less : T → T → Bool) (fuel : Nat) : Prop :=
  ∀ (xs : List T) (lo hi : Nat), lo ≤ hi → hi < xs.length → xs.length < 2 ^ 64 → hi - lo < fuel →
    Outcome less lo hi (hi - lo + 1) xs (qsortRange reading fuel xs lo hi)

/-- A side of more than one element is sorted by a call of its own. -/
theorem left_nested (sorts : Sorts reading less fuel) (divided : Divided less pivot lo hi store xs) (inside : hi < xs.length)
    (short : xs.length < 2 ^ 64) (enough : hi - lo < fuel + 1) (small : 2 * (store - lo) ≤ hi - lo) :
    ∃ after depth,
      nested (store - lo) xs (do qsortRange reading fuel xs lo (← U64.sub store 1)) = .ok (after, depth) ∧
      Divided less pivot lo hi store after ∧ Rearranged lo hi xs after ∧ 2 ^ depth ≤ hi - lo + 1 ∧
      (StrictWeak less → SortedOn less lo store after) := by
  have high := divided.high
  rw [nested]
  split
  next many =>
    obtain ⟨after, depth, done, rearranged, deep, sorted⟩ := sorts xs lo (store - 1) (by omega) (by omega) short (by omega)
    refine ⟨after, depth + 1, ?_, divided.leftMoved (by omega) rearranged, rearranged.mono (Nat.le_refl _) (by omega), ?_, ?_⟩
    · rw [U64.sub_ok (by omega), Stop.ok_bind, done]
      rfl
    · rw [Nat.pow_succ]
      omega
    · intro weak
      have whole : store - 1 + 1 = store := by omega
      have done := sorted weak
      rwa [whole] at done
  next few =>
    refine ⟨xs, 0, rfl, divided, .refl xs, by omega, fun _ => ?_⟩
    intro i j first second third
    omega

theorem right_nested (sorts : Sorts reading less fuel) (divided : Divided less pivot lo hi store xs) (inside : hi < xs.length)
    (short : xs.length < 2 ^ 64) (enough : hi - lo < fuel + 1) (small : 2 * (hi - store) ≤ hi - lo) :
    ∃ after depth,
      nested (hi - store) xs (do qsortRange reading fuel xs (← U64.add store 1) hi) = .ok (after, depth) ∧
      Divided less pivot lo hi store after ∧ Rearranged lo hi xs after ∧ 2 ^ depth ≤ hi - lo + 1 ∧
      (StrictWeak less → SortedOn less (store + 1) (hi + 1) after) := by
  have low := divided.low
  rw [nested]
  split
  next many =>
    obtain ⟨after, depth, done, rearranged, deep, sorted⟩ := sorts xs (store + 1) hi (by omega) inside short (by omega)
    refine ⟨after, depth + 1, ?_, divided.rightMoved rearranged, rearranged.mono (by omega) (Nat.le_refl _), ?_, sorted⟩
    · rw [U64.add_ok (by omega), Stop.ok_bind, done]
      rfl
    · rw [Nat.pow_succ]
      omega
  next few =>
    refine ⟨xs, 0, rfl, divided, .refl xs, by omega, fun _ => ?_⟩
    intro i j first second third
    omega

/-- The longer right side is the next turn of the loop. -/
theorem right_turn (sorts : Sorts reading less fuel) (divided : Divided less pivot lo hi store xs) (inside : hi < xs.length)
    (short : xs.length < 2 ^ 64) (enough : hi - lo < fuel + 1) (some : store < hi) (left : StrictWeak less → SortedOn less lo store xs) :
    ∃ after depth, qsortRange reading fuel xs (store + 1) hi = .ok (after, depth) ∧ Rearranged lo hi xs after ∧
      2 ^ depth ≤ hi - lo + 1 ∧ (StrictWeak less → SortedOn less lo (hi + 1) after) := by
  have low := divided.low
  obtain ⟨after, depth, done, rearranged, deep, sorted⟩ := sorts xs (store + 1) hi (by omega) inside short (by omega)
  refine ⟨after, depth, done, rearranged.mono (by omega) (Nat.le_refl _), by omega, fun weak => ?_⟩
  exact (divided.rightMoved rearranged).sorted weak ((left weak).outside rearranged (.inl (by omega))) (sorted weak)

theorem left_turn (sorts : Sorts reading less fuel) (divided : Divided less pivot lo hi store xs) (inside : hi < xs.length)
    (short : xs.length < 2 ^ 64) (enough : hi - lo < fuel + 1) (some : lo < store)
    (right : StrictWeak less → SortedOn less (store + 1) (hi + 1) xs) :
    ∃ after depth, qsortRange reading fuel xs lo (store - 1) = .ok (after, depth) ∧ Rearranged lo hi xs after ∧
      2 ^ depth ≤ hi - lo + 1 ∧ (StrictWeak less → SortedOn less lo (hi + 1) after) := by
  have high := divided.high
  obtain ⟨after, depth, done, rearranged, deep, sorted⟩ := sorts xs lo (store - 1) (by omega) (by omega) short (by omega)
  refine ⟨after, depth, done, rearranged.mono (Nat.le_refl _) (by omega), by omega, fun weak => ?_⟩
  have whole : store - 1 + 1 = store := by omega
  have left := sorted weak
  rw [whole] at left
  exact (divided.leftMoved some rearranged).sorted weak left ((right weak).outside rearranged (.inr (by omega)))

theorem max_pow {first second bound : Nat} (one : 2 ^ first ≤ bound) (two : 2 ^ second ≤ bound) : 2 ^ max first second ≤ bound := by
  rcases Nat.le_total first second with below | above
  · rwa [Nat.max_eq_right below]
  · rwa [Nat.max_eq_left above]

theorem qsortRange_answers (reads : Reads reading less) : ∀ fuel, Sorts reading less fuel := by
  intro fuel
  induction fuel with
  | zero =>
    intro xs lo hi _ _ _ enough
    omega
  | succ fuel sorts =>
    intro xs lo hi within inside short enough
    rw [qsortRange]
    split
    next ordered =>
      obtain ⟨m, chosen, place⟩ := reads.median xs lo (lo + (hi - lo) / 2) hi (by omega) (by omega) inside
      have low : lo ≤ m := by omega
      have high : m ≤ hi := by omega
      obtain ⟨parked, parks, exchanged⟩ := swap_exchanged (show m < xs.length by omega) inside
      have length := exchanged.length
      obtain ⟨pivot, last⟩ : ∃ pivot, parked[hi]? = some pivot := ⟨_, List.getElem?_eq_getElem (by omega)⟩
      obtain ⟨test, made, tests⟩ := reads.against parked hi pivot last
      obtain ⟨passed, store, pass, state⟩ := partition_answers ordered last tests
      have length' := state.rearranged.length
      have first := state.low
      have second := state.high
      obtain ⟨split', splits, exchanged'⟩ := swap_exchanged (show store < passed.length by omega) (show hi < passed.length by omega)
      have divided := state.divide ordered last exchanged'
      have length'' := exchanged'.length
      have moved : Rearranged lo hi xs split' :=
        ((exchanged.rearranged low high within (Nat.le_refl _)).trans (state.rearranged.mono (Nat.le_refl _) (Nat.sub_le hi 1))).trans
          (exchanged'.rearranged first second within (Nat.le_refl _))
      rw [U64.sub_ok within, Stop.ok_bind, U64.add_ok (by omega), Stop.ok_bind, chosen, Stop.ok_bind, parks, Stop.ok_bind, made,
        Stop.ok_bind, pass, Stop.ok_bind]
      dsimp only
      rw [splits, Stop.ok_bind, U64.sub_ok first, Stop.ok_bind, U64.sub_ok second, Stop.ok_bind]
      by_cases shorter : store - lo < hi - store
      · obtain ⟨one, depth, calls, divided', rearranged, deep, sorted⟩ :=
          left_nested sorts divided (by omega) (by omega) enough (by omega)
        have size := rearranged.length
        obtain ⟨after, rest, done, rearranged', deep', sorted'⟩ :=
          right_turn sorts divided' (by omega) (by omega) enough (by omega) sorted
        refine ⟨after, max depth rest, ?_, (moved.trans rearranged).trans rearranged', max_pow deep deep', sorted'⟩
        rw [if_pos shorter, calls, Stop.ok_bind]
        dsimp only
        rw [if_neg (by omega), U64.add_ok (by omega), Stop.ok_bind, done]
        rfl
      · obtain ⟨one, depth, calls, divided', rearranged, deep, sorted⟩ :=
          right_nested sorts divided (by omega) (by omega) enough (by omega)
        have size := rearranged.length
        have some : lo < store := by omega
        obtain ⟨after, rest, done, rearranged', deep', sorted'⟩ :=
          left_turn sorts divided' (by omega) (by omega) enough some sorted
        refine ⟨after, max depth rest, ?_, (moved.trans rearranged).trans rearranged', max_pow deep deep', sorted'⟩
        rw [if_neg shorter, calls, Stop.ok_bind]
        dsimp only
        rw [if_neg (by omega), U64.sub_ok (by omega), Stop.ok_bind, done]
        rfl
    next single =>
      refine ⟨xs, 0, rfl, .refl xs, by omega, fun _ => ?_⟩
      intro i j first second third
      omega

end Recursion

/-- A permutation, sorted if the comparison orders, by calls that nest no deeper
than the logarithm of the length. -/
theorem quicksortWith_answers (reads : Reads reading less) {xs : List T} (short : xs.length < 2 ^ 64) :
    ∃ after depth, quicksortWith reading xs = .ok (after, depth) ∧ after.Perm xs ∧ depth ≤ Nat.log 2 xs.length + 1 ∧
      (StrictWeak less → after.Pairwise fun a b => less b a = false) := by
  rw [quicksortWith]
  dsimp only
  split
  next many =>
    obtain ⟨after, depth, done, rearranged, deep, sorted⟩ :=
      qsortRange_answers reads xs.length xs 0 (xs.length - 1) (Nat.zero_le _) (by omega) short (by omega)
    refine ⟨after, depth + 1, ?_, rearranged.perm, ?_, ?_⟩
    · rw [U64.sub_ok (by omega), Stop.ok_bind, done]
      rfl
    · have whole : xs.length - 1 - 0 + 1 = xs.length := by omega
      rw [whole] at deep
      exact Nat.succ_le_succ (Nat.le_log_of_pow_le (by decide) deep)
    · intro weak
      have length := rearranged.length
      rw [List.pairwise_iff_getElem]
      intro i j first second third
      exact sorted weak i j (Nat.zero_le _) third (by omega) _ _ (List.getElem?_eq_getElem second) (List.getElem?_eq_getElem first)
  next few =>
    refine ⟨xs, 0, rfl, .refl xs, Nat.zero_le _, fun _ => ?_⟩
    rw [List.pairwise_iff_getElem]
    intro i j first second third
    omega

end Quicksort

end Rue.Proofs.Collections
