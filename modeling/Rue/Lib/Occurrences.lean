import Mathlib.Data.List.Basic
import Mathlib.Data.Nat.Find

/-! Occurrences of a needle in a text, the greedy choice of non-overlapping ones from
left to right, and the pieces of the text between them. -/

namespace Rue.Lib.Occurrences

variable {α : Type}

def Occurs (text needle : List α) (pos : Nat) : Prop :=
  pos + needle.length ≤ text.length ∧ (text.drop pos).take needle.length = needle

/-- The first occurrence at or after a start, if there is one. -/
def First (text needle : List α) (start : Nat) : Option Nat → Prop
  | none => ∀ pos ≥ start, ¬Occurs text needle pos
  | some pos => start ≤ pos ∧ Occurs text needle pos ∧ ∀ earlier ≥ start, earlier < pos → ¬Occurs text needle earlier

/-- The last occurrence, if there is one. -/
def Last (text needle : List α) : Option Nat → Prop
  | none => ∀ pos, ¬Occurs text needle pos
  | some pos => Occurs text needle pos ∧ ∀ later > pos, ¬Occurs text needle later

/-- Each occurrence taken is the first behind the one before it; behind an empty one
the search goes on one place later. -/
inductive Greedy (text needle : List α) : Nat → List Nat → Prop where
  | done {start} (none' : First text needle start none) : Greedy text needle start []
  | found {start pos rest} (here : First text needle start (some pos))
      (next : Greedy text needle (pos + max 1 needle.length) rest) : Greedy text needle start (pos :: rest)

/-- The pieces before, between and behind occurrences of some width. -/
def pieces (text : List α) (width : Nat) : Nat → List Nat → List (List α)
  | start, [] => [text.drop start]
  | start, pos :: rest => (text.drop start).take (pos - start) :: pieces text width (pos + width) rest

variable {text needle : List α} {start : Nat}

theorem First.unique {one other : Option Nat} (here : First text needle start one) (there : First text needle start other) :
    one = other := by
  cases one with
  | none =>
    cases other with
    | none => rfl
    | some pos => exact absurd there.2.1 (here pos there.1)
  | some pos =>
    cases other with
    | none => exact absurd here.2.1 (there pos here.1)
    | some second =>
      rcases Nat.lt_trichotomy pos second with before | same | behind
      · exact absurd here.2.1 (there.2.2 pos here.1 before)
      · rw [same]
      · exact absurd there.2.1 (here.2.2 second there.1 behind)

theorem exists_first [DecidableEq α] (text needle : List α) (start : Nat) : ∃ result, First text needle start result := by
  by_cases some' : ∃ pos, start ≤ pos ∧ Occurs text needle pos
  · have decidable : DecidablePred fun pos => start ≤ pos ∧ Occurs text needle pos := fun pos =>
      inferInstanceAs (Decidable (_ ∧ _ ∧ _))
    obtain ⟨late, here⟩ := Nat.find_spec some'
    exact ⟨some (Nat.find some'), late, here, fun earlier after before occurs => Nat.find_min some' before ⟨after, occurs⟩⟩
  · exact ⟨none, fun pos late occurs => some' ⟨pos, late, occurs⟩⟩

theorem exists_greedy [DecidableEq α] (text needle : List α) (start : Nat) : ∃ taken, Greedy text needle start taken := by
  obtain ⟨result, first⟩ := exists_first text needle start
  cases result with
  | none => exact ⟨[], .done first⟩
  | some pos =>
    have inside := first.2.1.1
    have late := first.1
    obtain ⟨rest, next⟩ := exists_greedy text needle (pos + max 1 needle.length)
    exact ⟨pos :: rest, .found first next⟩
  termination_by text.length + 1 - start

theorem Greedy.unique {one other : List Nat} (here : Greedy text needle start one) (there : Greedy text needle start other) :
    one = other := by
  induction here generalizing other with
  | done none' =>
    cases there with
    | done => rfl
    | found here' => exact absurd (none'.unique here') nofun
  | found here _ ih =>
    cases there with
    | done none' => exact absurd (here.unique none') nofun
    | found here' next =>
      obtain rfl := Option.some.inj (here.unique here')
      rw [ih next]

/-- Putting the needle back between the pieces gives the text back. -/
theorem Greedy.intercalate {taken : List Nat} (greedy : Greedy text needle start taken) {behind : Nat} (early : behind ≤ start) :
    needle.intercalate (pieces text needle.length behind taken) = text.drop behind := by
  induction greedy generalizing behind with
  | done none' => exact List.intercalate_singleton
  | @found start pos rest here next ih =>
    have nonempty : pieces text needle.length (pos + needle.length) rest ≠ [] := by cases rest <;> exact List.cons_ne_nil _ _
    rw [pieces, List.intercalate_cons_of_ne_nil nonempty, ih (by omega)]
    have late := here.1
    have split : text.drop pos = needle ++ text.drop (pos + needle.length) := by
      rw [← List.drop_drop]
      exact (List.take_append_drop needle.length (text.drop pos)).symm.trans (congrArg (· ++ _) here.2.1.2)
    have whole : text.drop behind = (text.drop behind).take (pos - behind) ++ text.drop pos := by
      have cut := List.take_append_drop (pos - behind) (text.drop behind)
      rw [List.drop_drop, Nat.add_sub_of_le (by omega)] at cut
      exact cut.symm
    calc (text.drop behind).take (pos - behind) ++ needle ++ text.drop (pos + needle.length)
        = (text.drop behind).take (pos - behind) ++ (needle ++ text.drop (pos + needle.length)) := List.append_assoc _ _ _
      _ = (text.drop behind).take (pos - behind) ++ text.drop pos := by rw [← split]
      _ = text.drop behind := whole.symm

theorem length_pieces (text : List α) (width start : Nat) (taken : List Nat) :
    (pieces text width start taken).length = taken.length + 1 := by
  induction taken generalizing start with
  | nil => rfl
  | cons pos rest ih => rw [pieces, List.length_cons, ih, List.length_cons]

theorem greedy_nil (text : List α) {start count : Nat} (within : start + count = text.length + 1) :
    Greedy text [] start (List.range' start count) := by
  have occurs : ∀ pos, Occurs text [] pos ↔ pos ≤ text.length := fun pos => ⟨fun here => here.1, fun here => ⟨here, rfl⟩⟩
  induction count generalizing start with
  | zero => exact .done fun pos late here => absurd ((occurs pos).mp here) (by omega)
  | succ count ih =>
    refine .found ⟨Nat.le_refl _, (occurs start).mpr (by omega), fun earlier late before => absurd before (by omega)⟩ ?_
    exact ih (by simp only [List.length_nil]; omega)

theorem pieces_nil (text : List α) {start count : Nat} (within : start + count = text.length) :
    pieces text 0 start (List.range' (start + 1) count) = (text.drop start).map (fun a => [a]) ++ [[]] := by
  induction count generalizing start with
  | zero =>
    have over' : text.drop start = [] := List.drop_eq_nil_of_le (by omega)
    rw [List.range'_zero, pieces, over']
    rfl
  | succ count ih =>
    have inside : start < text.length := by omega
    have next := @ih (start + 1) (by omega)
    rw [List.range'_succ, pieces, List.drop_eq_getElem_cons inside]
    simp only [Nat.add_sub_cancel_left, Nat.add_zero, next]
    rfl

end Rue.Lib.Occurrences
