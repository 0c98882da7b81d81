import Mathlib.Data.Nat.ModEq
import Mathlib.Data.Finset.Card
import Mathlib.Data.Fintype.Basic

/-! Linear probing around a table: the slots in the order they are tried, the
search for the first one that stops it, and what makes the search find a key. -/

namespace Rue.Lib

/-- The slot tried after a number of steps. -/
def probe (cap home steps : Nat) : Nat := (home + steps) % cap

section Probe

variable {cap home steps : Nat}

theorem probe_succ : (probe cap home steps + 1) % cap = probe cap home (steps + 1) := by
  rw [probe, probe, Nat.mod_add_mod, Nat.add_assoc]

theorem probe_zero (inside : home < cap) : probe cap home 0 = home := by
  rw [probe, Nat.add_zero, Nat.mod_eq_of_lt inside]

theorem probe_lt (positive : 0 < cap) : probe cap home steps < cap := Nat.mod_lt _ positive

theorem exists_probe {slot : Nat} (inside : slot < cap) : ∃ steps < cap, probe cap home steps = slot := by
  have positive : 0 < cap := by omega
  have within := Nat.mod_lt home positive
  by_cases behind : home % cap ≤ slot
  · refine ⟨slot - home % cap, by omega, ?_⟩
    rw [probe, ← Nat.mod_add_mod, show home % cap + (slot - home % cap) = slot by omega, Nat.mod_eq_of_lt inside]
  · refine ⟨cap + slot - home % cap, by omega, ?_⟩
    rw [probe, ← Nat.mod_add_mod, show home % cap + (cap + slot - home % cap) = slot + cap by omega, Nat.add_mod_right,
      Nat.mod_eq_of_lt inside]

end Probe

/-- The first slot on the way that stops the search. -/
def search (cap : Nat) (stop : Nat → Bool) : Nat → Nat → Option Nat
  | 0, _ => none
  | tries + 1, slot => if stop slot then some slot else search cap stop tries ((slot + 1) % cap)

section Search

variable {cap home : Nat} {stop : Nat → Bool}

theorem search_eq_some {tries steps slot : Nat} (found : search cap stop tries (probe cap home steps) = some slot) :
    ∃ reached < steps + tries, steps ≤ reached ∧ probe cap home reached = slot ∧ stop slot ∧
      ∀ earlier < reached, steps ≤ earlier → stop (probe cap home earlier) = false := by
  induction tries generalizing steps with
  | zero => cases found
  | succ tries ih =>
    rw [search] at found
    split at found
    next stops =>
      cases found
      exact ⟨steps, by omega, Nat.le_refl _, rfl, stops, fun earlier before after => by omega⟩
    next goesOn =>
      rw [probe_succ] at found
      obtain ⟨reached, within, behind, here, stops, clear⟩ := ih found
      refine ⟨reached, by omega, by omega, here, stops, ?_⟩
      intro earlier before after
      by_cases first : earlier = steps
      · simpa [first] using goesOn
      · exact clear earlier before (by omega)

theorem search_eq_none {tries steps : Nat} (nothing : search cap stop tries (probe cap home steps) = none) :
    ∀ reached < steps + tries, steps ≤ reached → stop (probe cap home reached) = false := by
  induction tries generalizing steps with
  | zero =>
    intro reached before after
    omega
  | succ tries ih =>
    rw [search] at nothing
    split at nothing
    next => cases nothing
    next goesOn =>
      rw [probe_succ] at nothing
      intro reached before after
      by_cases first : reached = steps
      · simpa [first] using goesOn
      · exact ih nothing reached (by omega) (by omega)

/-- One turn finds a slot that stops the search, if there is any. -/
theorem search_finds {slot : Nat} (inside : slot < cap) (stops : stop slot) (start : home < cap) :
    ∃ found, search cap stop cap home = some found ∧ found < cap ∧ stop found := by
  have positive : 0 < cap := by omega
  rw [← probe_zero start]
  cases outcome : search cap stop cap (probe cap home 0) with
  | none =>
    obtain ⟨steps, within, rfl⟩ := @exists_probe cap home slot inside
    rw [search_eq_none outcome steps (by omega) (Nat.zero_le _)] at stops
    cases stops
  | some found =>
    obtain ⟨reached, _, _, rfl, stops, _⟩ := search_eq_some outcome
    exact ⟨_, rfl, probe_lt positive, stops⟩

end Search

/-- A slot that probing from a home comes to over taken slots only. -/
def Reaches (cap : Nat) (taken : Nat → Prop) (home slot : Nat) : Prop :=
  ∃ steps < cap, probe cap home steps = slot ∧ ∀ earlier < steps, taken (probe cap home earlier)

theorem Reaches.mono {cap home slot : Nat} {taken more : Nat → Prop} (reaches : Reaches cap taken home slot)
    (kept : ∀ slot, taken slot → more slot) : Reaches cap more home slot := by
  obtain ⟨steps, within, here, before⟩ := reaches
  exact ⟨steps, within, here, fun earlier less => kept _ (before earlier less)⟩

theorem reaches_of_search {cap home slot : Nat} {taken : Nat → Prop} {stop : Nat → Bool} (start : home < cap)
    (free : ∀ slot, stop slot = false → taken slot) (found : search cap stop cap home = some slot) :
    Reaches cap taken home slot := by
  rw [← probe_zero start] at found
  obtain ⟨reached, within, _, here, _, clear⟩ := search_eq_some found
  refine ⟨reached, by omega, here, ?_⟩
  intro earlier before
  exact free _ (clear earlier before (Nat.zero_le _))

/-- Past the first free slot there is nothing left that was reached over taken
ones. -/
theorem Reaches.before_free {cap home slot free : Nat} {taken : Nat → Prop} (reaches : Reaches cap taken home slot)
    (open' : ¬ taken (probe cap home free)) (held : taken slot) : ∃ steps < free, probe cap home steps = slot := by
  obtain ⟨steps, _, here, before⟩ := reaches
  refine ⟨steps, ?_, here⟩
  by_contra behind
  rcases Nat.lt_or_eq_of_le (Nat.le_of_not_lt behind) with less | same
  · exact open' (before free less)
  · rw [same, here] at open'
    exact open' held

end Rue.Lib
