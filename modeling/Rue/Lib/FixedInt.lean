import Mathlib.Data.Int.Init
import Mathlib.Data.Int.ModEq
import Mathlib.Data.Nat.Bitwise
import Mathlib.Tactic.Linarith

/-! Fixed-width integers held in 64-bit images: what an image means, and the
checked and wrapping operations on meanings. -/

namespace Rue.Lib

/-- Width and signedness of an integer type of at most 64 bits. -/
structure IntFormat where
  bits : Nat
  signed : Bool
  positive : 0 < bits
  narrow : bits ≤ 64

namespace IntFormat

variable (format : IntFormat)

def low : Int := if format.signed then -2 ^ (format.bits - 1) else 0

def high : Int := if format.signed then 2 ^ (format.bits - 1) - 1 else 2 ^ format.bits - 1

def fits (value : Int) : Bool := format.low ≤ value && value ≤ format.high

/-- The number an image stands for: its low bits, read with or without a sign. -/
def meaning (image : BitVec 64) : Int :=
  if format.signed then (image.setWidth format.bits).toInt else (image.setWidth format.bits).toNat

def encode (value : Int) : BitVec 64 := BitVec.ofInt 64 value

/-- The image that agrees with this one in the low bits and extends them. -/
def canonical (image : BitVec 64) : BitVec 64 := encode (format.meaning image)

def checked (value : Int) : Option (BitVec 64) := if format.fits value then some (encode value) else none

/-- The number of the format that differs by a multiple of its span. -/
def wrapped (value : Int) : Int := if format.signed then value.bmod (2 ^ format.bits) else value % 2 ^ format.bits

/-- Truncated quotient; nothing when it does not fit or the divisor is zero. -/
def quotient (lhs rhs : Int) : Option (BitVec 64) := if rhs = 0 then none else format.checked (lhs.tdiv rhs)

/-- Truncated remainder, refused where the quotient does not fit. -/
def remainder (lhs rhs : Int) : Option (BitVec 64) :=
  if rhs = 0 ∨ ¬ format.fits (lhs.tdiv rhs) then none else format.checked (lhs.tmod rhs)

def shiftCount (amount : BitVec 64) : Nat := amount.toNat % format.bits

def shiftLeft (image amount : BitVec 64) : BitVec 64 := format.canonical (image <<< format.shiftCount amount)

def shiftRight (image amount : BitVec 64) : BitVec 64 :=
  encode (format.meaning image >>> format.shiftCount amount)

end IntFormat

end Rue.Lib

/-! Laws of fixed-width operations: what is neutral, and dividing by a power of
two. -/

namespace Rue.Lib.IntFormat

variable {format : IntFormat} {image amount : BitVec 64}

theorem fits_meaning (format : IntFormat) (image : BitVec 64) : format.fits (format.meaning image) = true := by
  obtain ⟨bits, signed, positive, narrow⟩ := format
  cases signed with
  | false =>
    have below := (image.setWidth bits).isLt
    have bound : ((image.setWidth bits).toNat : Int) < 2 ^ bits := by exact_mod_cast below
    simp only [fits, low, high, meaning, Bool.false_eq_true, if_false, Bool.and_eq_true, decide_eq_true_eq]
    omega
  | true =>
    have above := @BitVec.le_toInt bits (image.setWidth bits)
    have below := @BitVec.toInt_lt bits (image.setWidth bits)
    simp only [fits, low, high, meaning, if_true, Bool.and_eq_true, decide_eq_true_eq]
    omega

private theorem two_pow_ne_zero (bits : Nat) : ((2 ^ bits : Nat) : Int) ≠ 0 := by
  exact_mod_cast (Nat.two_pow_pos bits).ne'

theorem setWidth_ofInt {width bits : Nat} (narrow : bits ≤ width) (value : Int) :
    (BitVec.ofInt width value).setWidth bits = BitVec.ofInt bits value := by
  apply BitVec.eq_of_toInt_eq
  rw [BitVec.toInt_setWidth, BitVec.toNat_ofInt, BitVec.toInt_ofInt, Int.toNat_of_nonneg (Int.emod_nonneg _ (two_pow_ne_zero width)),
    Int.bmod, Int.emod_emod_of_dvd value (Int.natCast_dvd_natCast.mpr (Nat.pow_dvd_pow 2 narrow))]
  rfl

/-- The image of any number stands for that number, wrapped. -/
theorem meaning_encode_wrapped (format : IntFormat) (value : Int) : format.meaning (encode value) = format.wrapped value := by
  obtain ⟨bits, signed, positive, narrow⟩ := format
  cases signed with
  | false =>
    simp only [meaning, encode, wrapped, setWidth_ofInt narrow, Bool.false_eq_true, if_false, BitVec.toNat_ofInt]
    rw [Int.toNat_of_nonneg (Int.emod_nonneg _ (two_pow_ne_zero bits))]
    norm_cast
  | true =>
    simp only [meaning, encode, wrapped, setWidth_ofInt narrow, if_true, BitVec.toInt_ofInt]

theorem fits_wrapped (format : IntFormat) (value : Int) : format.fits (format.wrapped value) = true := by
  rw [← meaning_encode_wrapped]
  exact fits_meaning _ _

theorem wrapped_modEq (format : IntFormat) (value : Int) : format.wrapped value ≡ value [ZMOD 2 ^ format.bits] := by
  rw [wrapped]
  split
  · have dvd : ((2 ^ format.bits : Nat) : Int) ∣ value.bmod (2 ^ format.bits) - value := Int.dvd_bmod_sub_self
    push_cast at dvd
    exact (Int.modEq_iff_dvd.mpr dvd).symm
  · exact Int.mod_modEq _ _

theorem wrapped_congr {first second : Int} (same : first ≡ second [ZMOD 2 ^ format.bits]) :
    format.wrapped first = format.wrapped second := by
  have same' : first % ((2 ^ format.bits : Nat) : Int) = second % ((2 ^ format.bits : Nat) : Int) := by
    push_cast
    exact same
  rw [wrapped, wrapped]
  split
  · rw [Int.bmod, Int.bmod, same']
  · exact same

/-- Read with or without a sign, an image is the same number but for multiples of
a span that it has room for. -/
theorem toInt_modEq {width bits : Nat} (narrow : bits ≤ width) (image : BitVec width) :
    image.toInt ≡ image.toNat [ZMOD 2 ^ bits] := by
  rw [BitVec.toInt_eq_toNat_bmod]
  apply Int.ModEq.symm
  apply Int.modEq_iff_dvd.mpr
  refine Int.dvd_trans ?_ Int.dvd_bmod_sub_self
  exact_mod_cast Nat.pow_dvd_pow 2 narrow

theorem wrapped_of_fits {value : Int} (inside : format.fits value = true) : format.wrapped value = value := by
  obtain ⟨bits, signed, positive, narrow⟩ := format
  cases signed with
  | false =>
    simp only [fits, low, high, Bool.false_eq_true, if_false, Bool.and_eq_true, decide_eq_true_eq] at inside
    simp only [wrapped, Bool.false_eq_true, if_false]
    exact Int.emod_eq_of_lt inside.1 (by omega)
  | true =>
    simp only [fits, low, high, if_true, Bool.and_eq_true, decide_eq_true_eq] at inside
    simp only [wrapped, if_true]
    rw [← BitVec.toInt_ofInt]
    exact BitVec.toInt_ofInt_eq_self positive inside.1 (by omega)

theorem meaning_encode {value : Int} (inside : format.fits value = true) : format.meaning (encode value) = value := by
  rw [meaning_encode_wrapped, wrapped_of_fits inside]

theorem canonical_encode {value : Int} (inside : format.fits value = true) :
    format.canonical (encode value) = encode value := by
  rw [canonical, meaning_encode inside]

theorem canonical_canonical (format : IntFormat) (image : BitVec 64) :
    format.canonical (format.canonical image) = format.canonical image :=
  canonical_encode (fits_meaning format image)

theorem canonical_of_checked {value : Int} (found : format.checked value = some image) :
    format.canonical image = image := by
  rw [checked] at found
  split at found
  next inside =>
    rw [← Option.some.inj found]
    exact canonical_encode inside
  next => cases found

theorem canonical_of_quotient {lhs rhs : Int} (found : format.quotient lhs rhs = some image) :
    format.canonical image = image := by
  rw [quotient] at found
  split at found
  · cases found
  · exact canonical_of_checked found

theorem canonical_of_remainder {lhs rhs : Int} (found : format.remainder lhs rhs = some image) :
    format.canonical image = image := by
  rw [remainder] at found
  split at found
  · cases found
  · exact canonical_of_checked found

theorem low_nonpos (format : IntFormat) : format.low ≤ 0 := by
  rw [low]
  split
  · have := @Int.pow_pos 2 (format.bits - 1) (by decide)
    omega
  · exact Int.le_refl 0

theorem high_nonneg (format : IntFormat) : 0 ≤ format.high := by
  rw [high]
  split
  · have := @Int.pow_pos 2 (format.bits - 1) (by decide)
    omega
  · have := @Int.pow_pos 2 format.bits (by decide)
    omega

/-- What is closer to zero than a number that fits, on the same side, fits. -/
theorem fits_closer {value closer : Int} (inside : format.fits value = true)
    (between : 0 ≤ closer ∧ closer ≤ value ∨ value ≤ closer ∧ closer ≤ 0) : format.fits closer = true := by
  have lowest := low_nonpos format
  have highest := high_nonneg format
  simp only [fits, Bool.and_eq_true, decide_eq_true_eq] at inside ⊢
  omega

/-- Shifting to the right leaves what is closer to zero. -/
theorem fits_shiftRight (format : IntFormat) (image : BitVec 64) (count : Nat) :
    format.fits (format.meaning image >>> count) = true := by
  apply fits_closer (fits_meaning format image)
  generalize format.meaning image = number
  rw [Int.shiftRight_eq_div_pow]
  have positive : (0 : Int) < (2 ^ count : Nat) := by exact_mod_cast Nat.two_pow_pos _
  rcases Int.lt_or_le number 0 with negative | positive'
  · have less := Int.ediv_neg_of_neg_of_pos negative positive
    have closer : number ≤ number / (2 ^ count : Nat) := by
      rw [Int.le_ediv_iff_mul_le positive]
      nlinarith
    exact Or.inr ⟨closer, Int.le_of_lt less⟩
  · exact Or.inl ⟨Int.ediv_nonneg positive' (Int.le_of_lt positive), Int.ediv_le_self _ positive'⟩

theorem canonical_shiftRight (format : IntFormat) (image amount : BitVec 64) :
    format.canonical (format.shiftRight image amount) = format.shiftRight image amount :=
  canonical_encode (fits_shiftRight format image _)

theorem checked_meaning (canonical : format.canonical image = image) : format.checked (format.meaning image) = some image := by
  rw [checked, if_pos (fits_meaning format image)]
  exact congrArg some canonical

theorem meaning_zero (format : IntFormat) : format.meaning 0 = 0 := by
  simp [meaning]

theorem meaning_one (wide : 2 ≤ format.bits) : format.meaning 1 = 1 := by
  apply @meaning_encode _ 1
  obtain ⟨bits, signed, positive, narrow⟩ := format
  have half : (2 : Int) ^ 1 ≤ 2 ^ (bits - 1) := by
    exact_mod_cast Nat.pow_le_pow_right (by decide : 0 < 2) (Nat.le_sub_one_of_lt wide)
  have full : (2 : Int) ^ 2 ≤ 2 ^ bits := by
    exact_mod_cast Nat.pow_le_pow_right (by decide : 0 < 2) wide
  cases signed with
  | false =>
    simp only [fits, low, high, Bool.false_eq_true, if_false, Bool.and_eq_true, decide_eq_true_eq]
    omega
  | true =>
    simp only [fits, low, high, if_true, Bool.and_eq_true, decide_eq_true_eq]
    omega

theorem shiftCount_zero (format : IntFormat) : format.shiftCount 0 = 0 := by
  simp [shiftCount]

theorem shiftLeft_zero (canonical : format.canonical image = image) : format.shiftLeft image 0 = image := by
  rw [shiftLeft, shiftCount_zero, BitVec.shiftLeft_zero]
  exact canonical

theorem shiftRight_zero (canonical : format.canonical image = image) : format.shiftRight image 0 = image := by
  rw [shiftRight, shiftCount_zero, Int.shiftRight_zero]
  exact canonical

theorem quotient_one (canonical : format.canonical image = image) :
    format.quotient (format.meaning image) 1 = some image := by
  rw [quotient, if_neg Int.one_ne_zero, Int.tdiv_one]
  exact checked_meaning canonical

section

variable (unsigned : format.signed = false)

include unsigned

theorem meaning_unsigned (image : BitVec 64) : format.meaning image = (image.toNat % 2 ^ format.bits : Nat) := by
  simp [meaning, unsigned]

theorem fits_unsigned {value : Nat} (below : value < 2 ^ format.bits) : format.fits value = true := by
  have bound : (value : Int) < 2 ^ format.bits := by exact_mod_cast below
  simp only [fits, low, high, unsigned, Bool.false_eq_true, if_false, Bool.and_eq_true, decide_eq_true_eq]
  omega

theorem canonical_ofNat {value : Nat} (below : value < 2 ^ format.bits) :
    format.canonical (BitVec.ofNat 64 value) = BitVec.ofNat 64 value := by
  have narrow : 2 ^ format.bits ≤ 2 ^ 64 := Nat.pow_le_pow_right (by decide) format.narrow
  have same : (BitVec.ofNat 64 value).toNat = value := by
    rw [BitVec.toNat_ofNat, Nat.mod_eq_of_lt (Nat.lt_of_lt_of_le below narrow)]
  rw [canonical, meaning_unsigned unsigned, same, Nat.mod_eq_of_lt below]
  rfl

theorem quotient_two_pow {power : Nat} (small : power < format.bits) :
    format.quotient (format.meaning image) (2 ^ power : Nat) = some (format.shiftRight image (BitVec.ofNat 64 power)) := by
  have narrow := format.narrow
  have count : format.shiftCount (BitVec.ofNat 64 power) = power := by
    rw [shiftCount, BitVec.toNat_ofNat, Nat.mod_eq_of_lt (Nat.lt_of_lt_of_le small (by omega)), Nat.mod_eq_of_lt small]
  have below : image.toNat % 2 ^ format.bits / 2 ^ power < 2 ^ format.bits :=
    Nat.lt_of_le_of_lt (Nat.div_le_self _ _) (Nat.mod_lt _ (Nat.two_pow_pos _))
  have divided : (format.meaning image).tdiv (2 ^ power : Nat) = (image.toNat % 2 ^ format.bits / 2 ^ power : Nat) := by
    rw [meaning_unsigned unsigned]
    rfl
  have shifted : format.meaning image >>> power = (image.toNat % 2 ^ format.bits / 2 ^ power : Nat) := by
    rw [meaning_unsigned unsigned, Int.shiftRight_eq_div_pow]
    norm_cast
  rw [quotient, if_neg (by exact_mod_cast (Nat.two_pow_pos power).ne'), divided, checked,
    if_pos (fits_unsigned unsigned below), shiftRight, count, shifted]

theorem remainder_two_pow {power : Nat} (small : power < format.bits) :
    format.remainder (format.meaning image) (2 ^ power : Nat) =
      some (format.canonical (image &&& (BitVec.ofNat 64 (2 ^ power) - 1))) := by
  have narrow := format.narrow
  have positive := Nat.two_pow_pos power
  have wide : 2 ^ power < 2 ^ 64 := Nat.pow_lt_pow_right (by omega) (by omega)
  have mask : (BitVec.ofNat 64 (2 ^ power) - 1).toNat = 2 ^ power - 1 := by
    rw [BitVec.toNat_sub_of_le]
    · rw [BitVec.toNat_ofNat, Nat.mod_eq_of_lt wide]
      rfl
    · rw [BitVec.le_def, BitVec.toNat_ofNat, Nat.mod_eq_of_lt wide]
      exact positive
  have below : image.toNat % 2 ^ format.bits / 2 ^ power < 2 ^ format.bits :=
    Nat.lt_of_le_of_lt (Nat.div_le_self _ _) (Nat.mod_lt _ (Nat.two_pow_pos _))
  have divided : (format.meaning image).tdiv (2 ^ power : Nat) = (image.toNat % 2 ^ format.bits / 2 ^ power : Nat) := by
    rw [meaning_unsigned unsigned]
    rfl
  have less : image.toNat % 2 ^ power < 2 ^ format.bits :=
    Nat.lt_trans (Nat.mod_lt _ positive) (Nat.pow_lt_pow_right (by omega) small)
  have left : (format.meaning image).tmod (2 ^ power : Nat) = (image.toNat % 2 ^ power : Nat) := by
    rw [meaning_unsigned unsigned]
    have same : image.toNat % 2 ^ format.bits % 2 ^ power = image.toNat % 2 ^ power :=
      Nat.mod_mod_of_dvd _ (Nat.pow_dvd_pow 2 (Nat.le_of_lt small))
    rw [← same]
    rfl
  have masked : format.meaning (image &&& (BitVec.ofNat 64 (2 ^ power) - 1)) = (image.toNat % 2 ^ power : Nat) := by
    rw [meaning_unsigned unsigned, BitVec.toNat_and, mask, Nat.and_two_pow_sub_one_eq_mod, Nat.mod_eq_of_lt less]
  rw [remainder, if_neg, left, checked, if_pos (fits_unsigned unsigned less), canonical, masked]
  rw [divided, not_or, not_not]
  exact ⟨by exact_mod_cast positive.ne', fits_unsigned unsigned below⟩

end

end Rue.Lib.IntFormat
