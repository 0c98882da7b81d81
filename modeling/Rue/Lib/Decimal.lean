import Mathlib.Data.Nat.Digits.Lemmas

/-! Decimal numerals in bytes: what a string of digits denotes, and the one
spelling of a number without leading zeros. -/

namespace Rue.Lib.Decimal

def isDigit (b : UInt8) : Bool := 48 ≤ b.toNat && b.toNat ≤ 57

def digit (b : UInt8) : Nat := b.toNat - 48

def ofDigit (d : Nat) : UInt8 := UInt8.ofNat (48 + d)

def minus : UInt8 := 45

def accumulate (start : Nat) (bytes : List UInt8) : Nat := bytes.foldl (fun v b => v * 10 + digit b) start

def Denotes (bytes : List UInt8) (n : Nat) : Prop := bytes ≠ [] ∧ (∀ b ∈ bytes, isDigit b) ∧ accumulate 0 bytes = n

def DenotesInt (bytes : List UInt8) (v : Int) : Prop :=
  (∃ n : Nat, v = n ∧ Denotes bytes n) ∨ ∃ (n : Nat) (rest : List UInt8), v = -n ∧ bytes = minus :: rest ∧ Denotes rest n

/-- The spelling of a number, with no zero in front. -/
structure Spells (bytes : List UInt8) (n : Nat) : Prop where
  denotes : Denotes bytes n
  trimmed : bytes.head? = some 48 → bytes = [48]

def SpellsInt (bytes : List UInt8) (v : Int) : Prop :=
  0 ≤ v ∧ Spells bytes v.natAbs ∨ v < 0 ∧ ∃ rest, bytes = minus :: rest ∧ Spells rest v.natAbs

section Digits
variable {b : UInt8} {d : Nat}

theorem isDigit_iff : isDigit b ↔ 48 ≤ b.toNat ∧ b.toNat ≤ 57 := by
  simp [isDigit]

theorem digit_lt (one : isDigit b) : digit b < 10 := by
  obtain ⟨low, high⟩ := isDigit_iff.mp one
  rw [digit]
  omega

theorem ofDigit_digit (one : isDigit b) : ofDigit (digit b) = b := by
  obtain ⟨low, high⟩ := isDigit_iff.mp one
  rw [ofDigit, digit, Nat.add_sub_cancel' low, UInt8.ofNat_toNat]

theorem ofDigit_toNat (small : d < 10) : (ofDigit d).toNat = 48 + d := by
  rw [ofDigit, UInt8.toNat_ofNat', Nat.mod_eq_of_lt (by omega)]

theorem isDigit_ofDigit (small : d < 10) : isDigit (ofDigit d) := by
  rw [isDigit_iff, ofDigit_toNat small]
  omega

theorem digit_ofDigit (small : d < 10) : digit (ofDigit d) = d := by
  rw [digit, ofDigit_toNat small, Nat.add_sub_cancel_left]

theorem minus_not_digit : ¬isDigit minus := by decide

end Digits

theorem le_accumulate (start : Nat) (bytes : List UInt8) : start ≤ accumulate start bytes := by
  induction bytes generalizing start with
  | nil => exact Nat.le_refl _
  | cons b rest ih =>
    have more := ih (start * 10 + digit b)
    rw [accumulate, List.foldl_cons, ← accumulate]
    omega

theorem accumulate_eq (start : Nat) (bytes : List UInt8) :
    accumulate start bytes = start * 10 ^ bytes.length + Nat.ofDigits 10 (bytes.reverse.map digit) := by
  induction bytes generalizing start with
  | nil => simp [accumulate]
  | cons b rest ih =>
    rw [accumulate, List.foldl_cons, ← accumulate, ih, List.reverse_cons, List.map_append, Nat.ofDigits_append, List.length_map,
      List.length_reverse, List.length_cons, pow_succ, List.map_singleton, Nat.ofDigits_singleton]
    ring

def numerals (n : Nat) : List UInt8 := (Nat.digits 10 n).reverse.map ofDigit

def spelling (n : Nat) : List UInt8 := if n = 0 then [48] else numerals n

section Spelling
variable {bytes : List UInt8} {n : Nat}

theorem numerals_digits (n : Nat) : ∀ b ∈ numerals n, isDigit b := by
  intro b member
  obtain ⟨d, inside, rfl⟩ := List.mem_map.mp member
  exact isDigit_ofDigit (Nat.digits_lt_base (by decide) (List.mem_reverse.mp inside))

theorem accumulate_numerals (n : Nat) : accumulate 0 (numerals n) = n := by
  have back : ((numerals n).reverse.map digit) = Nat.digits 10 n := by
    rw [numerals, ← List.map_reverse, List.reverse_reverse, List.map_map]
    refine (List.map_congr_left fun d inside => ?_).trans (List.map_id _)
    exact digit_ofDigit (Nat.digits_lt_base (by decide) inside)
  rw [accumulate_eq, back, Nat.ofDigits_digits, Nat.zero_mul, Nat.zero_add]

theorem numerals_step (positive : 0 < n) : numerals n = numerals (n / 10) ++ [ofDigit (n % 10)] := by
  rw [numerals, Nat.digits_def' (by decide) positive, List.reverse_cons, List.map_append, numerals]
  rfl

theorem length_numerals {k : Nat} (small : n < 10 ^ k) : (numerals n).length ≤ k := by
  rw [numerals, List.length_map, List.length_reverse]
  exact (Nat.digits_length_le_iff (by decide) n).mpr small

theorem length_spelling {k : Nat} (positive : 0 < k) (small : n < 10 ^ k) : (spelling n).length ≤ k := by
  rw [spelling]
  split
  next => exact positive
  next => exact length_numerals small

theorem spelling_spells (n : Nat) : Spells (spelling n) n := by
  rw [spelling]
  split
  next zero =>
    subst zero
    exact ⟨⟨List.cons_ne_nil _ _, List.forall_mem_singleton.mpr rfl, rfl⟩, fun _ => rfl⟩
  next positive =>
    have some : Nat.digits 10 n ≠ [] := Nat.digits_ne_nil_iff_ne_zero.mpr positive
    have first : (numerals n).head? = Option.some (ofDigit ((Nat.digits 10 n).getLast some)) := by
      rw [numerals, List.head?_map, List.head?_reverse, List.getLast?_eq_some_getLast some]
      rfl
    refine ⟨⟨?_, numerals_digits n, accumulate_numerals n⟩, fun zero => ?_⟩
    · intro empty
      rw [empty] at first
      cases first
    · have small := Nat.digits_lt_base (by decide : 1 < 10) (List.getLast_mem some)
      have last := Nat.getLast_digit_ne_zero 10 positive
      have same := congrArg UInt8.toNat (Option.some.inj (first.symm.trans zero))
      rw [ofDigit_toNat small] at same
      exact absurd (Nat.add_left_cancel (k := 0) same) last

theorem Spells.eq (spells : Spells bytes n) : bytes = spelling n := by
  obtain ⟨⟨some, digits, value⟩, trimmed⟩ := spells
  cases bytes with
  | nil => exact absurd rfl some
  | cons b rest =>
    by_cases zero : b = 48
    · have alone := trimmed (by rw [zero]; rfl)
      rw [alone] at value ⊢
      rw [← value]
      rfl
    · rw [accumulate_eq, Nat.zero_mul, Nat.zero_add] at value
      have one := digits b List.mem_cons_self
      have lead : digit b ≠ 0 := by
        obtain ⟨low, high⟩ := isDigit_iff.mp one
        intro none
        rw [digit] at none
        exact zero (UInt8.toNat_inj.mp (by change b.toNat = 48; omega))
      have back : Nat.digits 10 n = (b :: rest).reverse.map digit := by
        rw [← value]
        refine Nat.digits_ofDigits 10 (by decide) _ ?_ ?_
        · intro d inside
          obtain ⟨c, member, rfl⟩ := List.mem_map.mp inside
          exact digit_lt (digits c (List.mem_reverse.mp member))
        · intro present
          simpa using lead
      have positive : n ≠ 0 := by
        intro none
        rw [none, Nat.digits_zero] at back
        simp at back
      rw [spelling, if_neg positive, numerals, back, ← List.map_reverse, List.reverse_reverse, List.map_map]
      refine ((List.map_congr_left fun c member => ?_).trans (List.map_id _)).symm
      exact ofDigit_digit (digits c member)

end Spelling

theorem SpellsInt.denotes {bytes : List UInt8} {v : Int} (spells : SpellsInt bytes v) : DenotesInt bytes v := by
  rcases spells with ⟨sign, spells⟩ | ⟨sign, rest, same, spells⟩
  · exact .inl ⟨v.natAbs, by omega, spells.denotes⟩
  · exact .inr ⟨v.natAbs, rest, by omega, same, spells.denotes⟩

theorem SpellsInt.unique {bytes other : List UInt8} {v : Int} (spells : SpellsInt bytes v) (also : SpellsInt other v) :
    bytes = other := by
  rcases spells with ⟨sign, spells⟩ | ⟨sign, rest, same, spells⟩ <;>
    rcases also with ⟨sign', spells'⟩ | ⟨sign', rest', same', spells'⟩
  · exact spells.eq.trans spells'.eq.symm
  · omega
  · omega
  · rw [same, same', spells.eq, spells'.eq]

end Rue.Lib.Decimal
