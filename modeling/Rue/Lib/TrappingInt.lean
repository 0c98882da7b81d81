import Mathlib.Data.Int.Init
import Mathlib.Tactic.Linarith

/-! Integers of a fixed width, signed or not, with arithmetic that traps where the
result is not a value of the type. Division truncates. -/

namespace Rue.Lib

/-- A width, at which 2 is a value, and a signedness. -/
structure TrappingInt where
  bits : Nat
  signed : Bool
  wide : 3 ≤ bits

namespace TrappingInt

inductive Trap where
  | overflow
  | zeroDivisor
  | panic
  | endless
  deriving DecidableEq

variable (T : TrappingInt)

def low : Int := if T.signed then -2 ^ (T.bits - 1) else 0

def high : Int := if T.signed then 2 ^ (T.bits - 1) - 1 else 2 ^ T.bits - 1

def Fits (x : Int) : Prop := T.low ≤ x ∧ x ≤ T.high

instance (x : Int) : Decidable (T.Fits x) := inferInstanceAs (Decidable (_ ∧ _))

@[ext]
structure Value where
  val : Int
  fits : T.Fits val
  deriving DecidableEq

variable {T}

theorem low_signed (signed : T.signed = true) : T.low = -T.high - 1 := by
  rw [low, high, signed]
  simp only [if_true]
  omega

/-- Below a signed type's range lies one more value than above it. -/
theorem low_cases (T : TrappingInt) : (T.low = 0 ∨ T.low = -T.high - 1) ∧ 3 ≤ T.high := by
  have four : (4 : Int) ≤ 2 ^ (T.bits - 1) := by
    exact_mod_cast Nat.pow_le_pow_right (by decide : 0 < 2) (Nat.sub_le_sub_right T.wide 1)
  have double : (2 : Int) ^ T.bits = 2 * 2 ^ (T.bits - 1) := by
    rw [← pow_succ', Nat.sub_add_cancel (Nat.le_trans (by decide) T.wide)]
  rw [low, high]
  cases T.signed with
  | true =>
    simp only [if_true]
    omega
  | false =>
    simp only [Bool.false_eq_true, if_false]
    exact ⟨.inl trivial, by linarith⟩

theorem Value.bounds (x : T.Value) : T.low ≤ x.val ∧ x.val ≤ T.high := x.fits

def make (x : Int) : Except Trap T.Value := if fits : T.Fits x then .ok ⟨x, fits⟩ else .error .overflow

theorem make_ok {x : Int} (fits : T.Fits x) : make x = .ok (⟨x, fits⟩ : T.Value) := dif_pos fits

theorem make_error {x : Int} (large : ¬T.Fits x) : (make x : Except Trap T.Value) = .error .overflow := dif_neg large

theorem fits_small (T : TrappingInt) {x : Int} (nonneg : 0 ≤ x) (small : x ≤ 3) : T.Fits x := by
  obtain ⟨low, high⟩ := T.low_cases
  constructor <;> omega

theorem fits_zero (T : TrappingInt) : T.Fits 0 := T.fits_small (by decide) (by decide)

theorem fits_one (T : TrappingInt) : T.Fits 1 := T.fits_small (by decide) (by decide)

theorem fits_two (T : TrappingInt) : T.Fits 2 := T.fits_small (by decide) (by decide)

def zero : T.Value := ⟨0, T.fits_zero⟩

def one : T.Value := ⟨1, T.fits_one⟩

def two : T.Value := ⟨2, T.fits_two⟩

theorem fits_low (T : TrappingInt) : T.Fits T.low := by
  obtain ⟨low, high⟩ := T.low_cases
  constructor <;> omega

theorem fits_high (T : TrappingInt) : T.Fits T.high := by
  obtain ⟨low, high⟩ := T.low_cases
  constructor <;> omega

def intMin : T.Value := ⟨T.low, T.fits_low⟩

def intMax : T.Value := ⟨T.high, T.fits_high⟩

def add (a b : T.Value) : Except Trap T.Value := make (a.val + b.val)

def sub (a b : T.Value) : Except Trap T.Value := make (a.val - b.val)

def mul (a b : T.Value) : Except Trap T.Value := make (a.val * b.val)

def neg (a : T.Value) : Except Trap T.Value := make (-a.val)

def div (a b : T.Value) : Except Trap T.Value := if b.val = 0 then .error .zeroDivisor else make (a.val.tdiv b.val)

/-- The remainder traps where the quotient does. -/
def rem (a b : T.Value) : Except Trap T.Value :=
  if b.val = 0 then .error .zeroDivisor
  else if T.Fits (a.val.tdiv b.val) then make (a.val.tmod b.val) else .error .overflow

theorem fits_tmod (a b : T.Value) : T.Fits (a.val.tmod b.val) := by
  obtain ⟨low, high⟩ := T.low_cases
  have bounds := a.bounds
  have size : (a.val.tmod b.val).natAbs ≤ a.val.natAbs := by
    rw [Int.natAbs_tmod]
    exact Nat.mod_le _ _
  rcases Int.le_total 0 a.val with nonneg | negative
  · have sign := Int.tmod_nonneg b.val nonneg
    constructor <;> omega
  · have sign : a.val.tmod b.val ≤ 0 := by
      have flipped := Int.tmod_nonneg b.val (Int.neg_nonneg_of_nonpos negative)
      rw [Int.neg_tmod] at flipped
      omega
    constructor <;> omega

/-- The quotient fits unless the least value is divided by -1. -/
theorem fits_tdiv {a b : T.Value} (safe : ¬(a.val = T.low ∧ b.val = -1)) : T.Fits (a.val.tdiv b.val) := by
  obtain ⟨low, high⟩ := T.low_cases
  have bounds := a.bounds
  have other := b.bounds
  have size : (a.val.tdiv b.val).natAbs = a.val.natAbs / b.val.natAbs := Int.natAbs_tdiv a.val b.val
  rcases low with unsigned | signed
  · have sign : 0 ≤ a.val.tdiv b.val := Int.tdiv_nonneg (by omega) (by omega)
    have less := Nat.div_le_self a.val.natAbs b.val.natAbs
    constructor <;> omega
  · by_cases one : b.val.natAbs = 1
    · rcases Int.natAbs_eq_iff.mp one with positive | negative
      · rw [positive, Nat.cast_one, Int.tdiv_one]
        exact a.fits
      · rw [negative, Nat.cast_one] at safe ⊢
        rw [Int.tdiv_neg, Int.tdiv_one]
        constructor <;> omega
    · have half : a.val.natAbs / b.val.natAbs ≤ a.val.natAbs / 2 := by
        rcases Nat.eq_zero_or_pos b.val.natAbs with zero | positive
        · rw [zero, Nat.div_zero]
          exact Nat.zero_le _
        · exact Nat.div_le_div_left (by omega) (by decide)
      constructor <;> omega

theorem rem_ok {a b : T.Value} (divisor : b.val ≠ 0) (safe : ¬(a.val = T.low ∧ b.val = -1)) :
    rem a b = .ok ⟨a.val.tmod b.val, fits_tmod a b⟩ := by
  rw [rem, if_neg divisor, if_pos (fits_tdiv safe), make_ok]

theorem div_ok {a b : T.Value} (divisor : b.val ≠ 0) (safe : ¬(a.val = T.low ∧ b.val = -1)) :
    div a b = .ok ⟨a.val.tdiv b.val, fits_tdiv safe⟩ := by
  rw [div, if_neg divisor, make_ok]

/-- A factor fits when a positive multiple of it does. -/
theorem fits_of_mul {x y : Int} (fits : T.Fits (x * y)) (positive : 1 ≤ y) : T.Fits x := by
  obtain ⟨low, high⟩ := T.low_cases
  obtain ⟨above, below⟩ := fits
  rcases Int.le_total 0 x with nonneg | negative
  · have grows : x * 1 ≤ x * y := Int.mul_le_mul_of_nonneg_left positive nonneg
    constructor <;> omega
  · have falls : x * y ≤ x * 1 := Int.mul_le_mul_of_nonpos_left negative positive
    constructor <;> omega

@[simp] theorem ok_bind {A B : Type} (a : A) (rest : A → Except Trap B) : (Except.ok a >>= rest) = rest a := rfl

@[simp] theorem error_bind {A B : Type} (trap : Trap) (rest : A → Except Trap B) : (Except.error trap >>= rest) = .error trap := rfl

@[simp] theorem pure_eq {A : Type} (a : A) : (pure a : Except Trap A) = .ok a := rfl

/-- The program ends; it yields the number where that is a value of the type and
traps where it is not. -/
def Computes (program : Except Trap T.Value) (result : Int) : Prop :=
  (T.Fits result ∧ ∃ value, program = .ok value ∧ value.val = result) ∨
    (¬T.Fits result ∧ ∃ trap, program = .error trap ∧ trap ≠ .endless)

end TrappingInt

end Rue.Lib
