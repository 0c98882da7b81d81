import Mathlib.Data.Finset.Card
import Mathlib.Logic.Function.Iterate
import Mathlib.Logic.Relation

/-! Following a partial function to where it is undefined, and the chains that
come round to where they have been. -/

namespace Rue.Lib.Chains

open Relation

universe u

variable {α : Type u} {next : α → Option α} {value target : α}

/-- The end of a chain, if so many turns come to it. -/
def follow (next : α → Option α) : Nat → α → Option α
  | 0, _ => none
  | turns + 1, value =>
    match next value with
    | some target => follow next turns target
    | none => some value

abbrev Goes (next : α → Option α) (value target : α) : Prop := next value = some target

/-- The chain from the value comes round. -/
def RunsRound (next : α → Option α) (value : α) : Prop :=
  ∃ again, ReflTransGen (Goes next) value again ∧ TransGen (Goes next) again again

theorem follow_ends {turns : Nat} (found : follow next turns value = some target) :
    ReflTransGen (Goes next) value target ∧ next target = none := by
  induction turns generalizing value with
  | zero => cases found
  | succ turns ih =>
    rw [follow] at found
    split at found
    next middle same =>
      obtain ⟨leads, ends⟩ := ih found
      exact ⟨.head same leads, ends⟩
    next ends =>
      cases found
      exact ⟨.refl, ends⟩

theorem follow_succ_none {turns : Nat} (unended : follow next (turns + 1) value = none) :
    ∃ target, next value = some target ∧ follow next turns target = none := by
  rw [follow] at unended
  split at unended
  next target same => exact ⟨target, same, unended⟩
  next => cases unended

theorem RunsRound.step (round : RunsRound next value) : ∃ target, next value = some target ∧ RunsRound next target := by
  obtain ⟨again, leads, cycle⟩ := round
  rcases ReflTransGen.cases_head leads with rfl | ⟨target, same, onward⟩
  · obtain ⟨target, same, back⟩ := TransGen.head'_iff.mp cycle
    exact ⟨target, same, value, back, cycle⟩
  · exact ⟨target, same, again, onward, cycle⟩

theorem follow_of_runsRound (turns : Nat) (round : RunsRound next value) : follow next turns value = none := by
  induction turns generalizing value with
  | zero => rfl
  | succ turns ih =>
    obtain ⟨target, same, onward⟩ := round.step
    rw [follow, same]
    exact ih onward

def onward (next : α → Option α) (steps : Nat) (value : α) : α := (fun value => (next value).getD value)^[steps] value

theorem onward_succ {steps : Nat} (goes : next (onward next steps value) ≠ none) :
    Goes next (onward next steps value) (onward next (steps + 1) value) := by
  obtain ⟨target, same⟩ := Option.ne_none_iff_exists'.mp goes
  have on : onward next (steps + 1) value = (next (onward next steps value)).getD (onward next steps value) :=
    Function.iterate_succ_apply' _ _ _
  rw [on, same]
  exact same

theorem onward_goes {turns steps : Nat} (unended : follow next turns value = none) (inside : steps < turns) :
    next (onward next steps value) ≠ none := by
  induction steps generalizing turns value with
  | zero =>
    obtain ⟨turns, rfl⟩ := Nat.exists_eq_succ_of_ne_zero (Nat.ne_of_gt inside)
    obtain ⟨target, same, _⟩ := follow_succ_none unended
    rw [onward, Function.iterate_zero_apply, same]
    nofun
  | succ steps ih =>
    obtain ⟨turns, rfl⟩ := Nat.exists_eq_succ_of_ne_zero (Nat.ne_of_gt (Nat.zero_lt_of_lt inside))
    obtain ⟨target, same, later⟩ := follow_succ_none unended
    rw [onward, Function.iterate_succ_apply, same]
    exact ih later (Nat.lt_of_succ_lt_succ inside)

theorem onward_leads {few many turns : Nat} (unended : follow next turns value = none) (ordered : few ≤ many)
    (inside : many ≤ turns) : ReflTransGen (Goes next) (onward next few value) (onward next many value) := by
  induction many with
  | zero =>
    rw [Nat.le_zero.mp ordered]
  | succ many ih =>
    rcases Nat.lt_or_eq_of_le ordered with less | rfl
    · exact (ih (Nat.le_of_lt_succ less) (Nat.le_of_succ_le inside)).tail (onward_succ (onward_goes unended inside))
    · exact .refl

/-- Among so many values, a chain that goes on for longer comes round. -/
theorem runsRound_of_follow {next : Nat → Option Nat} {value count : Nat} (few : ∀ value, next value ≠ none → value < count)
    (unended : follow next (count + 1) value = none) : RunsRound next value := by
  have inside : ∀ steps ∈ Finset.range (count + 1), onward next steps value ∈ Finset.range count := by
    intro steps member
    exact Finset.mem_range.mpr (few _ (onward_goes unended (Finset.mem_range.mp member)))
  obtain ⟨one, oneInside, other, otherInside, different, same⟩ :=
    Finset.exists_ne_map_eq_of_card_lt_of_maps_to (by rw [Finset.card_range, Finset.card_range]; exact Nat.lt_succ_self _) inside
  rw [Finset.mem_range] at oneInside otherInside
  have round : ∀ {early late : Nat}, early < late → late ≤ count → onward next early value = onward next late value →
      RunsRound next value := by
    intro early late before bound again
    have start := onward_leads unended (Nat.zero_le early) (by omega)
    refine ⟨onward next early value, start, ?_⟩
    have first := onward_succ (onward_goes unended (by omega : early < count + 1))
    have rest := onward_leads unended before (by omega : late ≤ count + 1)
    rw [← again] at rest
    exact TransGen.head' first rest
  rcases Nat.lt_or_gt_of_ne different with before | after
  · exact round before (by omega) same
  · exact round after (by omega) same.symm

end Rue.Lib.Chains
