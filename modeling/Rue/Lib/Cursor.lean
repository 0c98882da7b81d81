import Mathlib.Data.List.TakeWhile

/-! Positions in an input, told apart by what is left of the input there. -/

namespace Rue.Lib.Cursor

/-- What is left of the input at a position. -/
def At {α : Type} (input : List α) (pos : Nat) (rest : List α) : Prop := pos ≤ input.length ∧ input.drop pos = rest

variable {α : Type} {input rest : List α} {pos : Nat}

theorem At.start : At input 0 input := ⟨Nat.zero_le _, rfl⟩

theorem At.length (here : At input pos rest) : pos + rest.length = input.length := by
  obtain ⟨inside, same⟩ := here
  subst same
  rw [List.length_drop]
  omega

theorem At.unique {other : Nat} (here : At input pos rest) (there : At input other rest) : pos = other := by
  have first := here.length
  have second := there.length
  omega

theorem At.get (here : At input pos rest) (i : Nat) : input[pos + i]? = rest[i]? := by
  obtain ⟨_, same⟩ := here
  subst same
  exact List.getElem?_drop.symm

theorem At.head (here : At input pos rest) : input[pos]? = rest.head? := by
  rw [List.head?_eq_getElem?]
  exact here.get 0

theorem At.skip {text : List α} (here : At input pos (text ++ rest)) : At input (pos + text.length) rest := by
  have size := here.length
  rw [List.length_append] at size
  refine ⟨by omega, ?_⟩
  rw [← List.drop_drop, here.2, List.drop_left]

theorem At.next {a : α} (here : At input pos (a :: rest)) : At input (pos + 1) rest := @At.skip _ _ rest pos [a] here

theorem At.cons {a : α} (here : At input pos rest) (found : input[pos]? = some a) : ∃ after, rest = a :: after := by
  rw [here.head] at found
  cases rest with
  | nil => cases found
  | cons b after =>
    cases found
    exact ⟨after, rfl⟩

theorem At.nil (here : At input pos rest) (none' : input[pos]? = none) : rest = [] := by
  rw [here.head] at none'
  exact List.head?_eq_none_iff.mp none'

theorem At.atEnd (here : At input pos rest) : pos = input.length ↔ rest = [] := by
  have size := here.length
  rw [← List.length_eq_zero_iff]
  omega

theorem At.between {text : List α} (here : At input pos (text ++ rest)) : (input.drop pos).take text.length = text := by
  rw [here.2, List.take_left]

section Loop

variable {test : α → Bool} {go : Nat → Nat} (turn : ∀ pos a, input[pos]? = some a → go pos = if test a then go (pos + 1) else pos)
  (atEnd : ∀ pos, input[pos]? = none → go pos = pos)

include turn atEnd

theorem At.skipped (here : At input pos rest) : At input (go pos) (rest.dropWhile test) := by
  induction rest generalizing pos with
  | nil =>
    rw [atEnd pos here.head]
    exact here
  | cons a after ih =>
    rw [turn pos a here.head, List.dropWhile_cons]
    split
    next => exact ih here.next
    next => exact here

theorem At.skipped_reads (here : At input pos rest) :
    ∃ text after, rest = text ++ after ∧ (∀ a ∈ text, test a) ∧ At input (go pos) after ∧ go pos = pos + text.length := by
  have there := here.skipped turn atEnd
  have parts := (List.takeWhile_append_dropWhile (p := test) (l := rest)).symm
  refine ⟨rest.takeWhile test, rest.dropWhile test, parts, fun a => List.mem_takeWhile_imp, there, ?_⟩
  rw [parts] at here
  exact there.unique here.skip

theorem At.skipped_past {text : List α} (here : At input pos (text ++ rest)) (all : ∀ a ∈ text, test a)
    (stop : ∀ a, rest.head? = some a → test a = false) : go pos = pos + text.length := by
  have there := here.skipped turn atEnd
  rw [List.dropWhile_append_of_pos all] at there
  have same : rest.dropWhile test = rest := by
    cases rest with
    | nil => rfl
    | cons a after => exact List.dropWhile_cons_of_neg (Bool.not_eq_true _ ▸ stop a rfl)
  rw [same] at there
  exact there.unique here.skip

end Loop

end Rue.Lib.Cursor
