import Mathlib.Data.List.Basic
import Mathlib.Logic.Equiv.Basic

/-! Loops that may fail, as folds. -/

namespace Rue.Lib

variable {α β ε : Type} {step : β → α → Except ε β} {items : List α} {start last : β}

theorem foldlM_keeps (kept : β → Prop)
    (keeps : ∀ item ∈ items, ∀ state next, kept state → step state item = .ok next → kept next)
    (first : kept start) (done : items.foldlM step start = .ok last) : kept last := by
  induction items generalizing start with
  | nil =>
    cases done
    exact first
  | cons item rest ih =>
    simp only [List.foldlM_cons, bind, Except.bind] at done
    split at done
    · cases done
    next middle stepped =>
      have later := keeps item (by simp) start middle first stepped
      exact ih (fun other member => keeps other (by simp [member])) later done

/-- A loop over two lists in turn, as far as it gets. -/
theorem foldlM_append_ok {first second : List α} (done : (first ++ second).foldlM step start = .ok last) :
    ∃ middle, first.foldlM step start = .ok middle ∧ second.foldlM step middle = .ok last := by
  rw [List.foldlM_append] at done
  cases reached : first.foldlM step start with
  | error stop =>
    rw [reached] at done
    cases done
  | ok middle =>
    rw [reached] at done
    exact ⟨middle, rfl, done⟩

theorem foldlM_cons_ok {item : α} (done : (item :: items).foldlM step start = .ok last) :
    ∃ middle, step start item = .ok middle ∧ items.foldlM step middle = .ok last := by
  obtain ⟨middle, stepped, rest⟩ := @foldlM_append_ok _ _ _ step start last [item] items done
  refine ⟨middle, ?_, rest⟩
  rw [List.foldlM_cons] at stepped
  cases reached : step start item with
  | error stop =>
    rw [reached] at stepped
    cases stepped
  | ok next =>
    rw [reached] at stepped
    exact stepped

end Rue.Lib

/-! Lists with places exchanged, and rearranged within a range. -/

namespace Rue.Lib

variable {T : Type}

structure Exchanged (i j : Nat) (data after : List T) : Prop where
  perm : after.Perm data
  get : ∀ k, after[k]? = data[Equiv.swap i j k]?

namespace Exchanged
variable {i j k : Nat} {data after : List T} (exchanged : Exchanged i j data after)
include exchanged

theorem length : after.length = data.length := exchanged.perm.length_eq

theorem first : after[i]? = data[j]? := by rw [exchanged.get, Equiv.swap_apply_left]

theorem second : after[j]? = data[i]? := by rw [exchanged.get, Equiv.swap_apply_right]

theorem other (first : k ≠ i) (second : k ≠ j) : after[k]? = data[k]? := by
  rw [exchanged.get, Equiv.swap_apply_of_ne_of_ne first second]

end Exchanged

/-- The places of an inclusive range in another order. -/
structure Rearranged (lo hi : Nat) (data after : List T) : Prop where
  perm : after.Perm data
  moved : ∃ places : Equiv.Perm Nat, (∀ k, k < lo ∨ hi < k → places k = k) ∧ ∀ k, after[k]? = data[places k]?

namespace Rearranged
variable {lo hi : Nat} {data middle after : List T}

theorem refl (data : List T) : Rearranged lo hi data data := ⟨.refl data, Equiv.refl Nat, fun _ _ => rfl, fun _ => rfl⟩

theorem trans (first : Rearranged lo hi data middle) (second : Rearranged lo hi middle after) : Rearranged lo hi data after := by
  obtain ⟨one, fixed, same⟩ := first.moved
  obtain ⟨two, fixed', same'⟩ := second.moved
  refine ⟨second.perm.trans first.perm, two.trans one, ?_, fun k => (same' k).trans (same (two k))⟩
  intro k outside
  rw [Equiv.trans_apply, fixed' k outside, fixed k outside]

theorem mono {low high : Nat} (rearranged : Rearranged lo hi data after) (below : low ≤ lo) (above : hi ≤ high) :
    Rearranged low high data after := by
  obtain ⟨places, fixed, same⟩ := rearranged.moved
  exact ⟨rearranged.perm, places, fun k outside => fixed k (by omega), same⟩

theorem length (rearranged : Rearranged lo hi data after) : after.length = data.length := rearranged.perm.length_eq

theorem outside (rearranged : Rearranged lo hi data after) {k : Nat} (apart : k < lo ∨ hi < k) : after[k]? = data[k]? := by
  obtain ⟨places, fixed, same⟩ := rearranged.moved
  rw [same, fixed k apart]

/-- What holds of every element of the range still does. -/
theorem transport (rearranged : Rearranged lo hi data after) {holds : T → Prop}
    (known : ∀ k a, lo ≤ k → k ≤ hi → data[k]? = some a → holds a) :
    ∀ k a, lo ≤ k → k ≤ hi → after[k]? = some a → holds a := by
  obtain ⟨places, fixed, same⟩ := rearranged.moved
  intro k a low high here
  rw [same] at here
  have within : ¬(places k < lo ∨ hi < places k) := by
    intro outside
    have back := places.injective (fixed (places k) outside)
    omega
  exact known (places k) a (by omega) (by omega) here

end Rearranged

theorem Exchanged.rearranged {i j lo hi : Nat} {data after : List T} (exchanged : Exchanged i j data after) (first : lo ≤ i)
    (second : i ≤ hi) (third : lo ≤ j) (fourth : j ≤ hi) : Rearranged lo hi data after := by
  refine ⟨exchanged.perm, Equiv.swap i j, ?_, exchanged.get⟩
  intro k outside
  exact Equiv.swap_apply_of_ne_of_ne (by omega) (by omega)

end Rue.Lib
