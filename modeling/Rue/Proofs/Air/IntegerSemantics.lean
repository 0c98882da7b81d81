import Rue.Air.IntegerSemantics
import Rue.Lib.FixedInt

/-! The integer kernel computes exactly: on any register images each operation
gives the image of the mathematical result, or nothing where it has none. -/

namespace Rue.Air.IntegerType

open Lib Lib.IntFormat

variable {type : IntegerType} {value : BitVec 128} {image lhs rhs : BitVec 64}

theorem few (type : IntegerType) : type.bits = 8 ∨ type.bits = 16 ∨ type.bits = 32 ∨ type.bits = 64 := by
  simpa using type.supported

def format (type : IntegerType) : IntFormat where
  bits := type.bits
  signed := type.signed
  positive := by have := few type; omega
  narrow := by have := few type; omega

@[simp] theorem format_bits (type : IntegerType) : type.format.bits = type.bits := rfl

@[simp] theorem format_signed (type : IntegerType) : type.format.signed = type.signed := rfl

theorem toInt_minI128 (type : IntegerType) : type.minI128.toInt = type.format.low := by
  rw [minI128, low, format_signed, format_bits]
  rcases few type with bits | bits | bits | bits
  all_goals
    rw [bits]
    split
    · decide
    · decide

theorem toInt_maxI128 (type : IntegerType) : type.maxI128.toInt = type.format.high := by
  rw [maxI128, high, format_signed, format_bits]
  rcases few type with bits | bits | bits | bits
  all_goals
    rw [bits]
    split
    · decide
    · decide

theorem toNat_masked (type : IntegerType) (value : BitVec 128) : (value &&& type.maskU128).toNat = value.toNat % 2 ^ type.bits := by
  have mask : type.maskU128.toNat = 2 ^ type.bits - 1 := by
    rw [maskU128]
    rcases few type with bits | bits | bits | bits
    all_goals
      rw [bits]
      rfl
  rw [BitVec.toNat_and, mask, Nat.and_two_pow_sub_one_eq_mod]

theorem fitsI128_eq (type : IntegerType) (value : BitVec 128) : type.fitsI128 value = type.format.fits value.toInt := by
  rw [fitsI128, fits, Bool.eq_iff_iff, Bool.and_eq_true, Bool.and_eq_true, BitVec.sle_iff_toInt_le, BitVec.sle_iff_toInt_le,
    toInt_minI128, toInt_maxI128, decide_eq_true_eq, decide_eq_true_eq]

theorem toInt_half (type : IntegerType) : (1#128 <<< (type.bits - 1)).toInt = 2 ^ (type.bits - 1) ∧
    (1#128 <<< type.bits).toInt = 2 ^ type.bits ∧ (2 ^ type.bits + 1) / 2 = 2 ^ (type.bits - 1) ∧
    2 ^ type.bits ≤ 2 ^ 64 := by
  rcases few type with bits | bits | bits | bits
  all_goals
    rw [bits]
    decide

theorem toInt_canonicalizeI128 (type : IntegerType) (value : BitVec 128) :
    (type.canonicalizeI128 value).toInt = type.format.wrapped value.toInt := by
  obtain ⟨half, span, middle, narrow⟩ := toInt_half type
  have room : type.bits ≤ 128 := by have := few type; omega
  have below : value.toNat % 2 ^ type.bits < 2 ^ type.bits := Nat.mod_lt _ (Nat.two_pow_pos _)
  have masked : (value &&& type.maskU128).toInt = (value.toNat % 2 ^ type.bits : Nat) := by
    rw [BitVec.toInt_eq_toNat_of_lt, toNat_masked]
    rw [toNat_masked]
    omega
  have residue : (value.toNat : Int) % ((2 ^ type.bits : Nat) : Int) = (value.toNat % 2 ^ type.bits : Nat) := rfl
  rw [wrapped_congr (toInt_modEq room value), canonicalizeI128, wrapped, format_signed, format_bits]
  cases type.signed with
  | false => 
    simp only [Bool.false_and, Bool.false_eq_true, if_false, masked]
    push_cast
    rfl
  | true =>
    have middle' : (((2 ^ type.bits : Nat) : Int) + 1) / 2 = 2 ^ (type.bits - 1) := by exact_mod_cast middle
    have narrow' : ((2 ^ type.bits : Nat) : Int) ≤ 2 ^ 64 := by exact_mod_cast narrow
    have below' : ((value.toNat % 2 ^ type.bits : Nat) : Int) < (2 ^ type.bits : Nat) := by exact_mod_cast below
    simp only [Bool.true_and, if_true, BitVec.sle_iff_toInt_le, half, masked, Int.bmod, residue, middle']
    split
    next high =>
      rw [if_neg (Int.not_lt_of_ge high), BitVec.toInt_sub, masked, span]
      push_cast at below' narrow' ⊢
      apply Int.bmod_eq_of_le
      · omega
      · omega
    next low =>
      rw [if_pos (Int.lt_of_not_ge low), masked]

theorem setWidth_eq_encode (value : BitVec 128) : value.setWidth 64 = encode value.toInt := by
  have whole := setWidth_ofInt (by decide : 64 ≤ 128) value.toInt
  rwa [BitVec.ofInt_toInt] at whole

theorem meaning_eq_wrapped (image : BitVec 64) : type.format.meaning image = type.format.wrapped image.toNat := by
  have whole : encode image.toInt = image := BitVec.ofInt_toInt
  rw [← wrapped_congr (toInt_modEq type.format.narrow image), ← meaning_encode_wrapped, whole]

theorem toInt_widened (image : BitVec 64) : (image.setWidth 128).toInt = image.toNat := by
  have below := image.isLt
  have narrow : (image.setWidth 128).toNat = image.toNat := by
    rw [BitVec.toNat_setWidth, Nat.mod_eq_of_lt (by omega)]
  rw [BitVec.toInt_eq_toNat_of_lt, narrow]
  omega

theorem canonicalizeU64_eq (type : IntegerType) (image : BitVec 64) : type.canonicalizeU64 image = type.format.canonical image := by
  rw [canonicalizeU64, setWidth_eq_encode, toInt_canonicalizeI128, toInt_widened, canonical, meaning_eq_wrapped]

theorem bounds (type : IntegerType) : -2 ^ 63 ≤ type.format.low ∧ type.format.high < 2 ^ 64 ∧
    (type.signed = true → type.format.high < 2 ^ 63) := by
  rw [low, high, format_signed, format_bits]
  rcases few type with bits | bits | bits | bits
  all_goals
    rw [bits]
    cases type.signed
    · decide
    · decide

theorem span (type : IntegerType) : type.format.high - type.format.low < 2 ^ 64 := by
  rw [low, high, format_signed, format_bits]
  rcases few type with bits | bits | bits | bits
  all_goals
    rw [bits]
    cases type.signed
    · decide
    · decide

theorem toInt_encode {value : Int} (inside : type.format.fits value = true) (signed : type.signed = true) :
    (encode value).toInt = value := by
  obtain ⟨lowest, _, highest⟩ := bounds type
  have small := highest signed
  simp only [fits, Bool.and_eq_true, decide_eq_true_eq] at inside
  exact BitVec.toInt_ofInt_eq_self (by decide) (Int.le_trans lowest inside.1) (Int.lt_of_le_of_lt inside.2 small)

theorem toNat_maskU64 (type : IntegerType) (image : BitVec 64) : (type.maskU64 image).toNat = image.toNat % 2 ^ type.bits := by
  have mask : (type.maskU128.setWidth 64).toNat = 2 ^ type.bits - 1 := by
    rw [maskU128]
    rcases few type with bits | bits | bits | bits
    all_goals
      rw [bits]
      rfl
  rw [maskU64, BitVec.toNat_and, mask, Nat.and_two_pow_sub_one_eq_mod]

theorem toInt_toI128 (type : IntegerType) (image : BitVec 64) : (type.toI128 image).toInt = type.format.meaning image := by
  rw [toI128]
  split
  next signed =>
    rw [BitVec.toInt_signExtend_of_le (by decide), canonicalizeU64_eq, canonical]
    exact toInt_encode (fits_meaning _ _) signed
  next unsigned =>
    rw [toInt_widened, toNat_maskU64, meaning_unsigned (by simpa using unsigned), format_bits]

theorem canonicalizeI128_toI128 (type : IntegerType) (image : BitVec 64) :
    type.canonicalizeI128 (type.toI128 image) = type.toI128 image := by
  apply BitVec.eq_of_toInt_eq
  rw [toInt_canonicalizeI128, toInt_toI128, wrapped_of_fits (fits_meaning _ _)]

theorem toInt_ofExact {value : Int} {made : BitVec 128} (exact : I128.ofExact value = some made) : made.toInt = value := by
  rw [I128.ofExact] at exact
  split at exact
  next inside =>
    rw [← Option.some.inj exact]
    exact BitVec.toInt_ofInt_eq_self (by decide) inside.1 inside.2
  next => cases exact

/-- A number that fits has room among the 128-bit numbers. -/
theorem ofExact_of_fits {value : Int} (inside : type.format.fits value = true) : ∃ made, I128.ofExact value = some made := by
  obtain ⟨lowest, highest, _⟩ := bounds type
  simp only [fits, Bool.and_eq_true, decide_eq_true_eq] at inside
  exact ⟨_, if_pos ⟨by omega, by omega⟩⟩

/-- A mathematical result becomes an image if it fits. -/
theorem mapU64_reportRaw (type : IntegerType) (value : Int) :
    (type.reportRaw (I128.ofExact value)).checked.bind type.mapU64 = type.format.checked value := by
  simp only [reportRaw, checked]
  split
  next inside =>
    obtain ⟨made, exact⟩ := ofExact_of_fits inside
    have same := toInt_ofExact exact
    have accepted : type.fitsI128 made = true := by rw [fitsI128_eq, same, inside]
    rw [exact, Option.filter_some, if_pos accepted, Option.bind_some, mapU64, if_pos accepted, setWidth_eq_encode,
      toInt_canonicalizeI128, same, wrapped_of_fits inside]
  next outside =>
    cases exact : I128.ofExact value with
    | none => rfl
    | some made =>
      have same := toInt_ofExact exact
      have refused : ¬type.fitsI128 made = true := by rw [fitsI128_eq, same]; exact outside
      rw [Option.filter_some, if_neg refused]
      rfl

theorem checkedAddU64_eq (type : IntegerType) (lhs rhs : BitVec 64) :
    type.checkedAddU64 lhs rhs = type.format.checked (type.format.meaning lhs + type.format.meaning rhs) := by
  simp only [checkedAddU64, checkedAddI128, checkedAddReportI128, checkedBinaryReportI128, canonicalizeI128_toI128,
    I128.checkedAdd, toInt_toI128, mapU64_reportRaw]

theorem checkedSubU64_eq (type : IntegerType) (lhs rhs : BitVec 64) :
    type.checkedSubU64 lhs rhs = type.format.checked (type.format.meaning lhs - type.format.meaning rhs) := by
  simp only [checkedSubU64, checkedSubI128, checkedSubReportI128, checkedBinaryReportI128, canonicalizeI128_toI128,
    I128.checkedSub, toInt_toI128, mapU64_reportRaw]

theorem checkedMulU64_eq (type : IntegerType) (lhs rhs : BitVec 64) :
    type.checkedMulU64 lhs rhs = type.format.checked (type.format.meaning lhs * type.format.meaning rhs) := by
  simp only [checkedMulU64, checkedMulI128, checkedMulReportI128, checkedBinaryReportI128, canonicalizeI128_toI128,
    I128.checkedMul, toInt_toI128, mapU64_reportRaw]

theorem checkedNegU64_eq (type : IntegerType) (image : BitVec 64) :
    type.checkedNegU64 image = type.format.checked (-type.format.meaning image) := by
  simp only [checkedNegU64, checkedNegI128, checkedNegReportI128, canonicalizeI128_toI128, I128.checkedNeg, toInt_toI128,
    mapU64_reportRaw]

/-- The quotient that has no room: of the least number by minus one. -/
def Unrepresentable (type : IntegerType) (lhs rhs : Int) : Prop := type.signed = true ∧ lhs = type.format.low ∧ rhs = -1

instance (lhs rhs : Int) : Decidable (Unrepresentable type lhs rhs) := inferInstanceAs (Decidable (_ ∧ _ ∧ _))

theorem unrepresentable_iff (type : IntegerType) (lhs rhs : BitVec 64) :
    (type.signed && type.toI128 lhs = type.minI128 && type.toI128 rhs = -1) = true ↔
      Unrepresentable type (type.format.meaning lhs) (type.format.meaning rhs) := by
  have least : (-1 : BitVec 128).toInt = -1 := by decide
  rw [Bool.and_eq_true, Bool.and_eq_true, decide_eq_true_eq, decide_eq_true_eq, ← BitVec.toInt_inj, ← BitVec.toInt_inj,
    toInt_toI128, toInt_toI128, toInt_minI128, least, and_assoc, Unrepresentable]

/-- Dividing leaves what is closer to zero, or turns its sign. -/
theorem fits_tdiv {lhs rhs : Int} (inside : type.format.fits lhs = true) (divisor : type.format.fits rhs = true)
    (nonzero : rhs ≠ 0) (representable : ¬Unrepresentable type lhs rhs) : type.format.fits (lhs.tdiv rhs) = true := by
  rcases Int.lt_or_gt_of_ne nonzero with negative | positive
  · have signed : type.signed = true := by
      by_contra unsigned
      simp only [fits, low, format_signed, unsigned, if_false, Bool.and_eq_true, decide_eq_true_eq] at divisor
      omega
    simp only [Unrepresentable, low, fits, high, format_signed, signed, if_true, true_and, Bool.and_eq_true,
      decide_eq_true_eq] at inside representable ⊢
    have span := @Int.pow_pos 2 (type.format.bits - 1) (by decide)
    have size : (lhs.tdiv rhs).natAbs = lhs.natAbs / rhs.natAbs := Int.natAbs_tdiv lhs rhs
    by_cases least : rhs = -1
    · have turned : lhs.tdiv rhs = -lhs := by rw [least, Int.tdiv_neg, Int.tdiv_one]
      rw [turned]
      omega
    · have halved : lhs.natAbs / rhs.natAbs ≤ lhs.natAbs / 2 := Nat.div_le_div_left (by omega) (by decide)
      omega
  · apply fits_closer inside
    have size := Int.natAbs_tdiv_le_natAbs lhs rhs
    rcases Int.le_total 0 lhs with above | below
    · have side := Int.tdiv_nonneg above (Int.le_of_lt positive)
      omega
    · have side := Int.tdiv_nonneg (Int.neg_nonneg_of_nonpos below) (Int.le_of_lt positive)
      rw [Int.neg_tdiv] at side
      omega

theorem fits_tmod {lhs : Int} (inside : type.format.fits lhs = true) (rhs : Int) : type.format.fits (lhs.tmod rhs) = true := by
  apply fits_closer inside
  have size := Nat.mod_le lhs.natAbs rhs.natAbs
  rw [← Int.natAbs_tmod] at size
  rcases Int.le_total 0 lhs with above | below
  · have side := Int.tmod_nonneg rhs above
    omega
  · have side := Int.tmod_nonneg rhs (Int.neg_nonneg_of_nonpos below)
    rw [Int.neg_tmod] at side
    omega

theorem toI128_eq_zero (type : IntegerType) (image : BitVec 64) : type.toI128 image = 0 ↔ type.format.meaning image = 0 := by
  rw [← BitVec.toInt_inj, toInt_toI128]
  rfl

theorem checkedDivU64_eq (type : IntegerType) (lhs rhs : BitVec 64) : type.checkedDivU64 lhs rhs =
    if type.format.meaning rhs = 0 ∨ Unrepresentable type (type.format.meaning lhs) (type.format.meaning rhs) then none
    else some (encode ((type.format.meaning lhs).tdiv (type.format.meaning rhs))) := by
  simp only [checkedDivU64, checkedDivI128, checkedDivReportI128, canonicalizeI128_toI128]
  by_cases refused : Unrepresentable type (type.format.meaning lhs) (type.format.meaning rhs)
  · rw [if_pos ((unrepresentable_iff type lhs rhs).mpr refused), if_pos (Or.inr refused)]
    rfl
  · rw [if_neg (fun found => refused ((unrepresentable_iff type lhs rhs).mp found))]
    simp only [checkedBinaryReportI128, canonicalizeI128_toI128, I128.checkedDiv, toI128_eq_zero, toInt_toI128]
    by_cases zero : type.format.meaning rhs = 0
    · rw [if_pos zero, if_pos (Or.inl zero)]
      rfl
    · rw [if_neg zero, if_neg (by simp [zero, refused]), mapU64_reportRaw, checked,
        if_pos (fits_tdiv (fits_meaning _ _) (fits_meaning _ _) zero refused)]

theorem checkedRemU64_eq (type : IntegerType) (lhs rhs : BitVec 64) : type.checkedRemU64 lhs rhs =
    if type.format.meaning rhs = 0 ∨ Unrepresentable type (type.format.meaning lhs) (type.format.meaning rhs) then none
    else some (encode ((type.format.meaning lhs).tmod (type.format.meaning rhs))) := by
  simp only [checkedRemU64, checkedRemI128, checkedRemReportI128, canonicalizeI128_toI128]
  by_cases refused : Unrepresentable type (type.format.meaning lhs) (type.format.meaning rhs)
  · rw [if_pos ((unrepresentable_iff type lhs rhs).mpr refused), if_pos (Or.inr refused)]
    rfl
  · rw [if_neg (fun found => refused ((unrepresentable_iff type lhs rhs).mp found))]
    simp only [checkedBinaryReportI128, canonicalizeI128_toI128, I128.checkedRem, I128.checkedDiv, toI128_eq_zero, toInt_toI128]
    by_cases zero : type.format.meaning rhs = 0
    · rw [if_pos zero, if_pos (Or.inl zero)]
      rfl
    · obtain ⟨quotient, exact⟩ := ofExact_of_fits (fits_tdiv (fits_meaning _ _) (fits_meaning _ _) zero refused)
      rw [if_neg zero, if_neg zero, if_neg (by simp [zero, refused]), exact, Option.bind_some, mapU64_reportRaw, checked,
        if_pos (fits_tmod (fits_meaning _ _) _)]

theorem meaning_modEq (type : IntegerType) (image : BitVec 64) :
    type.format.meaning image ≡ image.toInt [ZMOD 2 ^ type.bits] := by
  rw [meaning_eq_wrapped]
  exact (wrapped_modEq type.format _).trans (toInt_modEq type.format.narrow image).symm

/-- What a machine operation yields is the wrapped number, if it differs from that
number by multiples of 2^64. -/
theorem canonicalizeU64_of_bmod {value exact : Int} (machine : image.toInt = value.bmod (2 ^ 64))
    (same : value ≡ exact [ZMOD 2 ^ type.bits]) : type.canonicalizeU64 image = encode (type.format.wrapped exact) := by
  have narrow := type.format.narrow
  have steps : (image.toNat : Int) ≡ exact [ZMOD 2 ^ type.bits] := by
    refine ((toInt_modEq narrow image).symm.trans ?_).trans same
    rw [machine]
    apply Int.ModEq.symm
    apply Int.modEq_iff_dvd.mpr
    refine Int.dvd_trans ?_ Int.dvd_bmod_sub_self
    exact_mod_cast Nat.pow_dvd_pow 2 narrow
  rw [canonicalizeU64_eq, canonical, meaning_eq_wrapped, @wrapped_congr type.format _ _ steps]

theorem wrappingAddU64_eq (type : IntegerType) (lhs rhs : BitVec 64) : type.wrappingAddU64 lhs rhs =
    encode (type.format.wrapped (type.format.meaning lhs + type.format.meaning rhs)) :=
  canonicalizeU64_of_bmod (BitVec.toInt_add lhs rhs) ((meaning_modEq type lhs).add (meaning_modEq type rhs)).symm

theorem wrappingSubU64_eq (type : IntegerType) (lhs rhs : BitVec 64) : type.wrappingSubU64 lhs rhs =
    encode (type.format.wrapped (type.format.meaning lhs - type.format.meaning rhs)) :=
  canonicalizeU64_of_bmod BitVec.toInt_sub ((meaning_modEq type lhs).sub (meaning_modEq type rhs)).symm

theorem wrappingMulU64_eq (type : IntegerType) (lhs rhs : BitVec 64) : type.wrappingMulU64 lhs rhs =
    encode (type.format.wrapped (type.format.meaning lhs * type.format.meaning rhs)) :=
  canonicalizeU64_of_bmod (BitVec.toInt_mul lhs rhs) ((meaning_modEq type lhs).mul (meaning_modEq type rhs)).symm

theorem bitnotU64_eq (type : IntegerType) (image : BitVec 64) : type.bitnotU64 image =
    encode (type.format.wrapped (-type.format.meaning image - 1)) := by
  apply canonicalizeU64_of_bmod BitVec.toInt_not
  have span : (2 ^ 64 : Int) ≡ 0 [ZMOD 2 ^ type.bits] := by
    apply Int.modEq_zero_iff_dvd.mpr
    exact_mod_cast Nat.pow_dvd_pow 2 type.format.narrow
  have same : (image.toNat : Int) ≡ type.format.meaning image [ZMOD 2 ^ type.bits] :=
    (toInt_modEq type.format.narrow image).symm.trans (meaning_modEq type image).symm
  have turned := (span.sub_right 1).sub same
  have arranged : (0 : Int) - 1 - type.format.meaning image = -type.format.meaning image - 1 := by omega
  rwa [arranged] at turned

theorem shiftCountI128_eq (type : IntegerType) (amount : BitVec 64) :
    type.shiftCountI128 (amount.setWidth 128) = amount.toNat % type.bits := by
  have below := amount.isLt
  have wide : (amount.setWidth 128).toNat = amount.toNat := by
    rw [BitVec.toNat_setWidth, Nat.mod_eq_of_lt (by omega)]
  rw [shiftCountI128, shiftCountMask, BitVec.toNat_and, wide]
  rcases few type with bits | bits | bits | bits
  · rw [bits]
    exact Nat.and_two_pow_sub_one_eq_mod _ 3
  · rw [bits]
    exact Nat.and_two_pow_sub_one_eq_mod _ 4
  · rw [bits]
    exact Nat.and_two_pow_sub_one_eq_mod _ 5
  · rw [bits]
    exact Nat.and_two_pow_sub_one_eq_mod _ 6

theorem shiftU64_left (type : IntegerType) (image amount : BitVec 64) : type.shiftU64 image amount true =
    encode (type.format.wrapped (type.format.meaning image * 2 ^ (amount.toNat % type.bits))) := by
  have room : type.bits ≤ 128 := by have := few type; omega
  have count : amount.toNat % type.bits % 128 = amount.toNat % type.bits := by
    have small : amount.toNat % type.bits < type.bits := Nat.mod_lt _ type.format.positive
    exact Nat.mod_eq_of_lt (by omega)
  simp only [shiftU64, shiftI128, shiftCountI128_eq, canonicalizeI128_toI128, if_true, count]
  rw [setWidth_eq_encode, toInt_canonicalizeI128, BitVec.toInt_shiftLeft, ← toInt_toI128]
  apply congrArg encode
  apply wrapped_congr
  rw [Nat.shiftLeft_eq]
  push_cast
  have machine : (((type.toI128 image).toNat : Int) * 2 ^ (amount.toNat % type.bits)).bmod (2 ^ 128) ≡
      (type.toI128 image).toNat * 2 ^ (amount.toNat % type.bits) [ZMOD 2 ^ type.bits] := by
    apply Int.ModEq.symm
    apply Int.modEq_iff_dvd.mpr
    refine Int.dvd_trans ?_ Int.dvd_bmod_sub_self
    exact_mod_cast Nat.pow_dvd_pow 2 room
  exact machine.trans ((toInt_modEq room (type.toI128 image)).symm.mul_right _)

theorem shiftU64_right (type : IntegerType) (image amount : BitVec 64) : type.shiftU64 image amount false =
    encode (type.format.meaning image >>> (amount.toNat % type.bits)) := by
  simp only [shiftU64, shiftI128, shiftCountI128_eq, canonicalizeI128_toI128, Bool.false_eq_true, if_false]
  rw [setWidth_eq_encode, toInt_canonicalizeI128, BitVec.toInt_sshiftRight, toInt_toI128,
    wrapped_of_fits (fits_shiftRight _ _ _)]

theorem compareU64_eq (type : IntegerType) (lhs rhs : BitVec 64) :
    type.compareU64 lhs rhs = compare (type.format.meaning lhs) (type.format.meaning rhs) := by
  simp only [compareU64, toInt_toI128]

/-- Every operation gives the image of the exact result. -/
structure Exact (type : IntegerType) : Prop where
  add : ∀ lhs rhs, type.checkedAddU64 lhs rhs = type.format.checked (type.format.meaning lhs + type.format.meaning rhs)
  sub : ∀ lhs rhs, type.checkedSubU64 lhs rhs = type.format.checked (type.format.meaning lhs - type.format.meaning rhs)
  mul : ∀ lhs rhs, type.checkedMulU64 lhs rhs = type.format.checked (type.format.meaning lhs * type.format.meaning rhs)
  div : ∀ lhs rhs, type.checkedDivU64 lhs rhs =
    if type.format.meaning rhs = 0 ∨ Unrepresentable type (type.format.meaning lhs) (type.format.meaning rhs) then none
    else type.format.checked ((type.format.meaning lhs).tdiv (type.format.meaning rhs))
  rem : ∀ lhs rhs, type.checkedRemU64 lhs rhs =
    if type.format.meaning rhs = 0 ∨ Unrepresentable type (type.format.meaning lhs) (type.format.meaning rhs) then none
    else type.format.checked ((type.format.meaning lhs).tmod (type.format.meaning rhs))
  neg : ∀ value, type.checkedNegU64 value = type.format.checked (-type.format.meaning value)
  wrappingAdd : ∀ lhs rhs, type.wrappingAddU64 lhs rhs =
    encode (type.format.wrapped (type.format.meaning lhs + type.format.meaning rhs))
  wrappingSub : ∀ lhs rhs, type.wrappingSubU64 lhs rhs =
    encode (type.format.wrapped (type.format.meaning lhs - type.format.meaning rhs))
  wrappingMul : ∀ lhs rhs, type.wrappingMulU64 lhs rhs =
    encode (type.format.wrapped (type.format.meaning lhs * type.format.meaning rhs))
  shiftLeft : ∀ value amount, type.shiftU64 value amount true =
    encode (type.format.wrapped (type.format.meaning value * 2 ^ (amount.toNat % type.bits)))
  shiftRight : ∀ value amount, type.shiftU64 value amount false =
    encode (type.format.meaning value >>> (amount.toNat % type.bits))
  bitnot : ∀ value, type.bitnotU64 value = encode (type.format.wrapped (-type.format.meaning value - 1))
  compare : ∀ lhs rhs, type.compareU64 lhs rhs = Ord.compare (type.format.meaning lhs) (type.format.meaning rhs)

/-- The operations that yield an image; those of one operand ignore the second. -/
def operations (type : IntegerType) : List (BitVec 64 → BitVec 64 → Option (BitVec 64)) :=
  [type.checkedAddU64, type.checkedSubU64, type.checkedMulU64, type.checkedDivU64, type.checkedRemU64,
    fun value _ => type.checkedNegU64 value, fun lhs rhs => some (type.wrappingAddU64 lhs rhs),
    fun lhs rhs => some (type.wrappingSubU64 lhs rhs), fun lhs rhs => some (type.wrappingMulU64 lhs rhs),
    fun value amount => some (type.shiftU64 value amount true), fun value amount => some (type.shiftU64 value amount false),
    fun value _ => some (type.bitnotU64 value)]

theorem exact (type : IntegerType) : Exact type where
  add := checkedAddU64_eq type
  sub := checkedSubU64_eq type
  mul := checkedMulU64_eq type
  div lhs rhs := by
    rw [checkedDivU64_eq]
    split
    · rfl
    next accepted =>
      rw [not_or] at accepted
      rw [checked, if_pos (fits_tdiv (fits_meaning _ _) (fits_meaning _ _) accepted.1 accepted.2)]
  rem lhs rhs := by
    rw [checkedRemU64_eq]
    split
    · rfl
    · rw [checked, if_pos (fits_tmod (fits_meaning _ _) _)]
  neg := checkedNegU64_eq type
  wrappingAdd := wrappingAddU64_eq type
  wrappingSub := wrappingSubU64_eq type
  wrappingMul := wrappingMulU64_eq type
  shiftLeft := shiftU64_left type
  shiftRight := shiftU64_right type
  bitnot := bitnotU64_eq type
  compare := compareU64_eq type

/-- Images that agree in the low bits stand for one number. -/
theorem meaning_congr {first second : BitVec 64} (low : first.setWidth type.bits = second.setWidth type.bits) :
    type.format.meaning first = type.format.meaning second := by
  rw [meaning, meaning, format_bits, low]

theorem count_congr {first second : BitVec 64} (low : first.setWidth type.bits = second.setWidth type.bits) :
    first.toNat % type.bits = second.toNat % type.bits := by
  have residue := congrArg BitVec.toNat low
  rw [BitVec.toNat_setWidth, BitVec.toNat_setWidth] at residue
  have divides : type.bits ∣ 2 ^ type.bits := by
    rcases few type with bits | bits | bits | bits
    all_goals
      rw [bits]
      decide
  rw [← Nat.mod_mod_of_dvd first.toNat divides, ← Nat.mod_mod_of_dvd second.toNat divides, residue]

theorem canonical_of_fits {value : Int} (inside : type.format.fits value = true) :
    type.canonicalizeU64 (encode value) = encode value := by
  rw [canonicalizeU64_eq]
  exact canonical_encode inside

/-- Every operation of every integer type is exact, reads no more of its operands
than their low bits, and yields a canonical image. -/
theorem integer_operations_exact (type : IntegerType) : Exact type ∧
    (∀ op ∈ operations type, ∀ lhs lhs' rhs rhs' : BitVec 64, lhs.setWidth type.bits = lhs'.setWidth type.bits →
      rhs.setWidth type.bits = rhs'.setWidth type.bits → op lhs rhs = op lhs' rhs') ∧
    (∀ lhs lhs' rhs rhs' : BitVec 64, lhs.setWidth type.bits = lhs'.setWidth type.bits →
      rhs.setWidth type.bits = rhs'.setWidth type.bits → type.compareU64 lhs rhs = type.compareU64 lhs' rhs') ∧
    ∀ op ∈ operations type, ∀ lhs rhs image, op lhs rhs = some image → type.canonicalizeU64 image = image := by
  have all := exact type
  refine ⟨all, ?_, ?_, ?_⟩
  · intro op member lhs lhs' rhs rhs' left right
    have sameLeft := meaning_congr left
    have sameRight := meaning_congr right
    have sameCount := count_congr right
    simp only [operations, List.mem_cons, List.not_mem_nil, or_false] at member
    rcases member with rfl | rfl | rfl | rfl | rfl | rfl | rfl | rfl | rfl | rfl | rfl | rfl
    all_goals
      simp only [all.add, all.sub, all.mul, all.div, all.rem, all.neg, all.wrappingAdd, all.wrappingSub, all.wrappingMul,
        all.shiftLeft, all.shiftRight, all.bitnot, sameLeft, sameRight, sameCount]
  · intro lhs lhs' rhs rhs' left right
    rw [all.compare, all.compare, meaning_congr left, meaning_congr right]
  · intro op member lhs rhs image made
    have ofChecked : ∀ {value : Int}, type.format.checked value = some image → type.canonicalizeU64 image = image := by
      intro value found
      rw [canonicalizeU64_eq]
      exact canonical_of_checked found
    have ofWrapped : ∀ {value : Int}, some (encode (type.format.wrapped value)) = some image →
        type.canonicalizeU64 image = image := by
      intro value found
      rw [← Option.some.inj found]
      exact canonical_of_fits (fits_wrapped _ _)
    have ofGuarded : ∀ {refused : Prop} [Decidable refused] {value : Int},
        (if refused then none else type.format.checked value) = some image → type.canonicalizeU64 image = image := by
      intro refused _ value found
      split at found
      · cases found
      · exact ofChecked found
    simp only [operations, List.mem_cons, List.not_mem_nil, or_false] at member
    rcases member with rfl | rfl | rfl | rfl | rfl | rfl | rfl | rfl | rfl | rfl | rfl | rfl
    · exact ofChecked ((all.add lhs rhs).symm.trans made)
    · exact ofChecked ((all.sub lhs rhs).symm.trans made)
    · exact ofChecked ((all.mul lhs rhs).symm.trans made)
    · exact ofGuarded ((all.div lhs rhs).symm.trans made)
    · exact ofGuarded ((all.rem lhs rhs).symm.trans made)
    · exact ofChecked ((all.neg lhs).symm.trans made)
    · exact ofWrapped ((congrArg some (all.wrappingAdd lhs rhs)).symm.trans made)
    · exact ofWrapped ((congrArg some (all.wrappingSub lhs rhs)).symm.trans made)
    · exact ofWrapped ((congrArg some (all.wrappingMul lhs rhs)).symm.trans made)
    · exact ofWrapped ((congrArg some (all.shiftLeft lhs rhs)).symm.trans made)
    · rw [← Option.some.inj made, all.shiftRight]
      exact canonical_of_fits (fits_shiftRight _ _ _)
    · exact ofWrapped ((congrArg some (all.bitnot lhs)).symm.trans made)

end Rue.Air.IntegerType
