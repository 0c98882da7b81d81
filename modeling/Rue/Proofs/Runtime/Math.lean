import Mathlib
import Rue.Runtime.Math

/-! The integer functions of the library compute exactly, over every trapping
integer type. -/

namespace Rue.Proofs.Runtime.Math
open Rue.Runtime.Math Rue.Lib Rue.Lib.TrappingInt

variable {T : TrappingInt}

/-- A checked operation gives the mathematical result where it is a value. -/
def Checks (program : Except Trap (Option T.Value)) (result : Int) : Prop :=
  ∃ answer, program = .ok answer ∧ answer.map Value.val = if T.Fits result then some result else none

theorem Checks.none {result : Int} (large : ¬T.Fits result) : Checks (.ok none : Except Trap (Option T.Value)) result :=
  ⟨_, rfl, (if_neg large).symm⟩

theorem Checks.some {result : Int} (fits : T.Fits result) :
    Checks (do return some (← (make result : Except Trap T.Value))) result := by
  rw [make_ok fits]
  exact ⟨_, rfl, (if_pos fits).symm⟩

theorem checkedAdd_checks (a b : T.Value) : Checks (checkedAdd a b) (a.val + b.val) := by
  obtain ⟨low, high⟩ := T.low_cases
  have first := a.bounds
  have second := b.bounds
  rw [checkedAdd]
  split
  next positive =>
    rw [sub, make_ok (by constructor <;> simp only [intMax] <;> omega)]
    simp only [ok_bind, intMax]
    split
    next over' => exact .none fun fits => absurd fits.2 (by omega)
    next => exact .some (by constructor <;> omega)
  next nonpositive =>
    rw [sub, make_ok (by constructor <;> simp only [intMin] <;> omega)]
    simp only [ok_bind, intMin]
    split
    next under => exact .none fun fits => absurd fits.1 (by omega)
    next => exact .some (by constructor <;> omega)

theorem checkedSub_checks (a b : T.Value) : Checks (checkedSub a b) (a.val - b.val) := by
  obtain ⟨low, high⟩ := T.low_cases
  have first := a.bounds
  have second := b.bounds
  rw [checkedSub]
  split
  next negative =>
    rw [add, make_ok (by constructor <;> simp only [intMax] <;> omega)]
    simp only [ok_bind, intMax]
    split
    next over' => exact .none fun fits => absurd fits.2 (by omega)
    next => exact .some (by constructor <;> omega)
  next nonnegative =>
    rw [add, make_ok (by constructor <;> simp only [intMin] <;> omega)]
    simp only [ok_bind, intMin]
    split
    next under => exact .none fun fits => absurd fits.1 (by omega)
    next => exact .some (by constructor <;> omega)

/-- A product passes a bound just when a factor passes its quotient. -/
theorem tdiv_lt_iff {bound factor other : Int} (nonneg : 0 ≤ bound) (positive : 0 < factor) :
    bound.tdiv factor < other ↔ bound < other * factor := by
  rw [Int.tdiv_eq_ediv_of_nonneg nonneg]
  exact Int.ediv_lt_iff_lt_mul positive

theorem signedOverflow_eq {a b : T.Value} (signed : T.low = -T.high - 1) (left : a.val ≠ 0) (right : b.val ≠ 0)
    (leftSafe : a.val ≠ -1) (rightSafe : b.val ≠ -1) :
    signedOverflow a b = .ok (decide (¬T.Fits (a.val * b.val))) := by
  obtain ⟨-, high⟩ := T.low_cases
  have nonneg : 0 ≤ T.high := by omega
  have least : 0 ≤ -T.low := by omega
  rw [signedOverflow]
  split
  next positive =>
    split
    next positive' =>
      rw [div_ok right fun ⟨_, one⟩ => rightSafe one]
      have sign : 0 < a.val * b.val := Int.mul_pos positive positive'
      simp only [ok_bind, pure_eq, intMax, gt_iff_lt, tdiv_lt_iff nonneg positive']
      congr 2
      rw [Fits, eq_iff_iff]
      omega
    next negative =>
      rw [div_ok left fun ⟨_, one⟩ => leftSafe one]
      have flip : b.val < T.low.tdiv a.val ↔ -T.low < -b.val * a.val := by
        rw [← tdiv_lt_iff least positive, Int.neg_tdiv]
        omega
      have sign : a.val * b.val < 0 := Int.mul_neg_of_pos_of_neg positive (by omega)
      simp only [ok_bind, pure_eq, intMin, flip]
      congr 2
      rw [Fits, eq_iff_iff, Int.neg_mul, Int.mul_comm b.val]
      omega
  next negative =>
    split
    next positive' =>
      rw [div_ok right fun ⟨_, one⟩ => rightSafe one]
      have flip : a.val < T.low.tdiv b.val ↔ -T.low < -a.val * b.val := by
        rw [← tdiv_lt_iff least positive', Int.neg_tdiv]
        omega
      have sign : a.val * b.val < 0 := Int.mul_neg_of_neg_of_pos (by omega) positive'
      simp only [ok_bind, pure_eq, intMin, flip]
      congr 2
      rw [Fits, eq_iff_iff, Int.neg_mul]
      omega
    next negative' =>
      rw [div_ok right fun ⟨_, one⟩ => rightSafe one]
      have flip : a.val < T.high.tdiv b.val ↔ T.high < -a.val * -b.val := by
        rw [← tdiv_lt_iff nonneg (by omega), Int.tdiv_neg]
        omega
      have sign : 0 < a.val * b.val := Int.mul_pos_of_neg_of_neg (by omega) (by omega)
      simp only [ok_bind, pure_eq, intMax, flip]
      congr 2
      rw [Fits, eq_iff_iff, Int.neg_mul_neg]
      omega

theorem checkedMul_checks (a b : T.Value) : Checks (checkedMul a b) (a.val * b.val) := by
  obtain ⟨low, high⟩ := T.low_cases
  have first := a.bounds
  have second := b.bounds
  rw [checkedMul]
  split
  next either =>
    have product : a.val * b.val = 0 := by
      rcases either with rfl | rfl
      · exact Int.zero_mul _
      · exact Int.mul_zero _
    rw [product]
    exact ⟨_, rfl, (if_pos T.fits_zero).symm⟩
  next neither =>
    obtain ⟨left, right⟩ := not_or.mp neither
    have left : a.val ≠ 0 := fun same => left (Value.ext same)
    have right : b.val ≠ 0 := fun same => right (Value.ext same)
    split
    next unsigned =>
      have unsigned : T.low = 0 := unsigned
      rw [div_ok right fun ⟨_, one⟩ => by omega]
      simp only [ok_bind, intMax, gt_iff_lt, tdiv_lt_iff (by omega : 0 ≤ T.high) (by omega : 0 < b.val)]
      split
      next over' => exact .none fun fits => absurd fits.2 (by omega)
      next within =>
        have sign : 0 ≤ a.val * b.val := Int.mul_nonneg (by omega) (by omega)
        exact .some (by constructor <;> omega)
    next signed =>
      have signed : T.low = -T.high - 1 := low.resolve_left signed
      have minus : T.Fits (0 - 1) := by constructor <;> omega
      have one : (sub zero one : Except Trap T.Value) = .ok ⟨0 - 1, minus⟩ := make_ok minus
      rw [one]
      simp only [ok_bind]
      split
      next leftOne =>
        obtain rfl := leftOne
        split
        next least =>
          obtain rfl := least
          exact .none fun fits => absurd fits.2 (by simp only [intMin]; omega)
        next other =>
          have inner : b.val ≠ T.low := fun same => other (Value.ext same)
          exact .some (by constructor <;> simp only [] <;> omega)
      next leftSafe =>
        have leftSafe : a.val ≠ -1 := fun same => leftSafe (Value.ext same)
        split
        next rightOne =>
          obtain rfl := rightOne
          split
          next least =>
            obtain rfl := least
            exact .none fun fits => absurd fits.2 (by simp only [intMin]; omega)
          next other =>
            have inner : a.val ≠ T.low := fun same => other (Value.ext same)
            exact .some (by constructor <;> simp only [] <;> omega)
        next rightSafe =>
          have rightSafe : b.val ≠ -1 := fun same => rightSafe (Value.ext same)
          rw [signedOverflow_eq signed left right leftSafe rightSafe]
          simp only [ok_bind, decide_eq_true_eq]
          split
          next large => exact .none large
          next fits => exact .some (not_not.mp fits)

/-- No remainder of the loop traps: the least value never meets -1. -/
theorem gcdLoop_ok {x y : T.Value} {tries : Nat} (safe : ¬(x.val = T.low ∧ y.val = -1))
    (apart : ¬(y.val = T.low ∧ x.val = -1)) (enough : y.val.natAbs < tries) :
    ∃ result, gcdLoop tries x y = .ok result ∧ result.val.natAbs = Int.gcd x.val y.val := by
  induction tries generalizing x y with
  | zero => omega
  | succ tries ih =>
    obtain ⟨low, high⟩ := T.low_cases
    have first := x.bounds
    have second := y.bounds
    rw [gcdLoop]
    split
    next nonzero =>
      rw [rem_ok nonzero safe]
      have size : (x.val.tmod y.val).natAbs = x.val.natAbs % y.val.natAbs := Int.natAbs_tmod _ _
      have less : x.val.natAbs % y.val.natAbs < y.val.natAbs := Nat.mod_lt _ (by omega)
      have safe' : ¬(y.val = T.low ∧ x.val.tmod y.val = -1) := by
        rintro ⟨least, one⟩
        have within : x.val.natAbs < y.val.natAbs ∨ x.val.natAbs = y.val.natAbs := by omega
        rcases within with inner | same
        · have kept : x.val.natAbs = 1 := by
            rw [Nat.mod_eq_of_lt inner] at size
            omega
          have negative : x.val < 0 := by
            apply Int.not_le.mp
            intro nonneg
            have sign := Int.tmod_nonneg y.val nonneg
            omega
          exact apart ⟨least, by omega⟩
        · rw [same, Nat.mod_self] at size
          omega
      have apart' : ¬(x.val.tmod y.val = T.low ∧ y.val = -1) := by
        rintro ⟨least, one⟩
        omega
      obtain ⟨result, run, same⟩ := @ih y ⟨x.val.tmod y.val, fits_tmod x y⟩ safe' apart' (by simp only; omega)
      have step : Int.gcd y.val (x.val.tmod y.val) = Int.gcd x.val y.val := by
        rw [Int.gcd, Int.gcd, size, Nat.gcd_comm, ← Nat.gcd_rec]
        exact Nat.gcd_comm _ _
      exact ⟨result, run, same.trans step⟩
    next zero' =>
      rw [ne_eq, not_not] at zero'
      refine ⟨x, rfl, ?_⟩
      rw [zero', Int.gcd_zero_right]

/-- The sign is put right unless the divisor has the magnitude of the least value. -/
theorem gcdFrom_computes {a b : T.Value} (safe : ¬(a.val = T.low ∧ b.val = -1)) (apart : ¬(b.val = T.low ∧ a.val = -1)) :
    Computes (gcdFrom a b) (Int.gcd a.val b.val) := by
  obtain ⟨low, high⟩ := T.low_cases
  obtain ⟨x, run, same⟩ := gcdLoop_ok safe apart (Nat.lt_succ_self _)
  have bounds := x.bounds
  rw [gcdFrom, run, ← same]
  simp only [ok_bind]
  split
  next negative =>
    split
    next least =>
      obtain rfl := least
      refine .inr ⟨fun fits => absurd fits.2 ?_, .panic, rfl, Trap.noConfusion⟩
      simp only [intMin] at negative ⊢
      omega
    next other =>
      have inner : x.val ≠ T.low := fun same => other (Value.ext same)
      have fits : T.Fits (0 - x.val) := by constructor <;> omega
      refine .inl ⟨by constructor <;> omega, ⟨_, fits⟩, ?_, by simp only; omega⟩
      exact make_ok fits
  next nonnegative => exact .inl ⟨by constructor <;> omega, x, rfl, by omega⟩

theorem gcd_computes (a b : T.Value) : Computes (gcd a b) (Int.gcd a.val b.val) := by
  obtain ⟨low, high⟩ := T.low_cases
  have first := a.bounds
  have second := b.bounds
  rw [Runtime.Math.gcd]
  split
  next signed =>
    have signed : T.low = -T.high - 1 := low.resolve_left signed
    have minus : T.Fits (0 - 1) := by constructor <;> omega
    have one' : (sub zero one : Except Trap T.Value) = .ok ⟨0 - 1, minus⟩ := make_ok minus
    rw [one']
    simp only [ok_bind]
    split
    next unit =>
      have value : Int.gcd a.val b.val = 1 := by
        rcases unit with rfl | rfl | rfl | rfl <;> simp [TrappingInt.one]
      rw [value]
      exact .inl ⟨T.fits_one, one, rfl, rfl⟩
    next plain =>
      simp only [not_or] at plain
      refine gcdFrom_computes (fun ⟨_, same⟩ => plain.2.2.2 (Value.ext same)) fun ⟨_, same⟩ => plain.2.2.1 (Value.ext same)
  next unsigned =>
    have unsigned : T.low = 0 := not_not.mp unsigned
    exact gcdFrom_computes (fun ⟨_, same⟩ => by omega) fun ⟨_, same⟩ => by omega

theorem lcm_size (a b : Int) : (a.tdiv (Int.gcd a b) * b).natAbs = Int.lcm a b := by
  rw [Int.natAbs_mul, Int.natAbs_tdiv, Int.natAbs_natCast, Int.lcm, Nat.lcm, Int.gcd]
  exact (Nat.div_mul_right_comm (Nat.gcd_dvd_left _ _) _)

/-- Taking the magnitude traps where the number or its magnitude has no room. -/
theorem magnitude_computes (signed : T.signed = true) (x : Int) :
    Computes (do let m ← (make x : Except Trap T.Value); if m.val < 0 then neg m else return m) x.natAbs := by
  have low := low_signed signed
  by_cases fits : T.Fits x
  · have above := fits.1
    have below := fits.2
    rw [make_ok fits]
    simp only [ok_bind]
    split
    next negative =>
      rw [neg]
      have size : (x.natAbs : Int) = -x := by omega
      rw [size]
      by_cases room : T.Fits (-x)
      · rw [make_ok room]
        exact .inl ⟨room, _, rfl, rfl⟩
      · rw [make_error room]
        exact .inr ⟨room, .overflow, rfl, Trap.noConfusion⟩
    next nonnegative =>
      have size : (x.natAbs : Int) = x := by omega
      rw [size]
      exact .inl ⟨fits, _, rfl, rfl⟩
  · rw [make_error fits]
    refine .inr ⟨fun room => fits ?_, .overflow, rfl, Trap.noConfusion⟩
    have above := room.1
    have below := room.2
    constructor <;> omega

/-- A multiple of the least value has no room, and otherwise the product decides. -/
theorem lcm_computes (signed : T.signed = true) (a b : T.Value) : Computes (lcm a b) (Int.lcm a.val b.val) := by
  obtain ⟨-, high⟩ := T.low_cases
  have low := low_signed signed
  have first := a.bounds
  have second := b.bounds
  rw [Runtime.Math.lcm]
  split
  next zero' =>
    rw [zero']
    refine .inl ⟨?_, zero, rfl, ?_⟩ <;> simp [zero, T.fits_zero]
  next left =>
    split
    next zero' =>
      rw [zero']
      refine .inl ⟨?_, zero, rfl, ?_⟩ <;> simp [zero, T.fits_zero]
    next right =>
      have left : a.val ≠ 0 := fun same => left (Value.ext same)
      have right : b.val ≠ 0 := fun same => right (Value.ext same)
      have multiple : a.val.natAbs ≤ Int.lcm a.val b.val ∧ b.val.natAbs ≤ Int.lcm a.val b.val :=
        ⟨Nat.le_of_dvd (Int.lcm_pos left right) (Nat.dvd_lcm_left _ _), Nat.le_of_dvd (Int.lcm_pos left right) (Nat.dvd_lcm_right _ _)⟩
      split
      next least =>
        refine .inr ⟨fun fits => absurd fits.2 ?_, .panic, rfl, Trap.noConfusion⟩
        rcases least with rfl | rfl <;> simp only [intMin] at multiple ⊢ <;> omega
      next inner =>
        obtain ⟨inner, -⟩ := not_or.mp inner
        have inner : a.val ≠ T.low := fun same => inner (Value.ext same)
        have divides : Int.gcd a.val b.val ≤ a.val.natAbs := Nat.le_of_dvd (by omega) (Nat.gcd_dvd_left _ _)
        have positive : 0 < Int.gcd a.val b.val := Int.gcd_pos_of_ne_zero_left _ left
        obtain ⟨-, g, run, value⟩ | ⟨large, -⟩ := gcd_computes a b
        · rw [run]
          simp only [ok_bind]
          rw [div_ok (by omega) fun ⟨same, _⟩ => inner same]
          simp only [ok_bind, mul, value]
          rw [← lcm_size]
          exact magnitude_computes signed _
        · exact absurd ⟨by omega, by omega⟩ large

/-- A product that is 0 or -1 has a base of magnitude at most 1. -/
structure Steady (result b : Int) : Prop where
  zero : result = 0 → b = 0
  minusOne : result = -1 → b * b = 1

theorem Steady.multiplied {result b : Int} (steady : Steady result b) : Steady (result * b) b := by
  constructor
  · intro zero'
    rcases Int.mul_eq_zero.mp zero' with first | second
    · exact steady.zero first
    · exact second
  · intro minus
    have size : result.natAbs * b.natAbs = 1 := by
      rw [← Int.natAbs_mul, minus]
      rfl
    rcases Int.natAbs_eq_iff.mp (Nat.eq_one_of_mul_eq_one_left size) with rfl | rfl <;> rfl

theorem Steady.squared {result b : Int} (steady : Steady result b) : Steady result (b * b) := by
  constructor
  · intro zero'
    rw [steady.zero zero']
    rfl
  · intro minus
    rw [steady.minusOne minus]
    rfl

/-- The square of what is not zero is positive, and so are its powers. -/
theorem one_le_square_pow {b : Int} (nonzero : b ≠ 0) (k : Nat) : 1 ≤ (b * b) ^ k :=
  Int.add_one_le_iff.mpr (pow_pos (mul_self_pos.mpr nonzero) k)

theorem fits_square {result b : Int} {k : Nat} (fits : T.Fits (result * (b * b) ^ (k + 1))) (steady : Steady result b) :
    T.Fits (b * b) := by
  obtain ⟨low, high⟩ := T.low_cases
  by_cases nonzero : b = 0
  · rw [nonzero, Int.mul_zero]
    exact T.fits_zero
  · have square := one_le_square_pow nonzero 1
    rw [pow_one] at square
    have rest := one_le_square_pow nonzero k
    have split : result * (b * b) ^ (k + 1) = (b * b) * (result * (b * b) ^ k) := by ring
    rw [split] at fits
    rcases Int.lt_trichotomy result 0 with negative | zero' | positive
    · by_cases one : result = -1
      · rw [steady.minusOne one]
        exact T.fits_one
      · have below := fits.1
        have factor : result * (b * b) ^ k ≤ result * 1 := Int.mul_le_mul_of_nonpos_left (by omega) rest
        have product : b * b * (result * (b * b) ^ k) ≤ b * b * (-2) := Int.mul_le_mul_of_nonneg_left (by omega) (by omega)
        constructor <;> omega
    · exact absurd (steady.zero zero') nonzero
    · have factor : result * 1 ≤ result * (b * b) ^ k := Int.mul_le_mul_of_nonneg_left rest (by omega)
      exact fits_of_mul fits (by omega)

theorem power_split (result b : Int) (e : Nat) :
    result * b ^ e = (if e % 2 = 1 then result * b else result) * (if e / 2 > 0 then b * b else b) ^ (e / 2) := by
  have halves : e = 2 * (e / 2) + e % 2 := (Nat.div_add_mod e 2).symm
  have square : b ^ (2 * (e / 2)) = (if e / 2 > 0 then b * b else b) ^ (e / 2) := by
    split
    next => rw [pow_mul, sq]
    next none' => rw [Nat.eq_zero_of_not_pos none', Nat.mul_zero, pow_zero]
  rw [← square]
  conv_lhs => rw [halves]
  rcases Nat.mod_two_eq_zero_or_one e with even | odd
  · rw [even, if_neg (by decide), Nat.add_zero]
  · rw [odd, if_pos rfl]
    ring

/-- At every step the power still to come is a multiple of what is computed next, so
that an operation traps only where the power has no room. -/
theorem powLoop_computes {tries e : Nat} {b result : T.Value} (enough : e < tries) (steady : Steady result.val b.val) :
    Computes (powLoop tries e b result) (result.val * b.val ^ e) := by
  induction tries generalizing e b result with
  | zero => omega
  | succ tries ih =>
    rw [powLoop]
    split
    next more =>
      have multiply : (if e % 2 = 1 then mul result b else .ok result) =
          (make (if e % 2 = 1 then result.val * b.val else result.val) : Except Trap T.Value) := by
        split
        next => rfl
        next => exact (make_ok result.fits).symm
      have square : (if e / 2 > 0 then mul b b else .ok b) =
          (make (if e / 2 > 0 then b.val * b.val else b.val) : Except Trap T.Value) := by
        split
        next => rfl
        next => exact (make_ok b.fits).symm
      have steady' : Steady (if e % 2 = 1 then result.val * b.val else result.val) b.val := by
        split
        next => exact steady.multiplied
        next => exact steady
      have target := power_split result.val b.val e
      have multiplied : T.Fits (result.val * b.val ^ e) → T.Fits (if e % 2 = 1 then result.val * b.val else result.val) := by
        intro fits
        by_cases nonzero : b.val = 0
        · split
          next => rw [nonzero, Int.mul_zero]; exact T.fits_zero
          next => exact result.fits
        · rw [target] at fits
          refine fits_of_mul fits ?_
          split
          next => exact one_le_square_pow nonzero _
          next none' => rw [Nat.eq_zero_of_not_pos none', pow_zero]
      have squared : T.Fits (result.val * b.val ^ e) → T.Fits (if e / 2 > 0 then b.val * b.val else b.val) := by
        intro fits
        split
        next half =>
          rw [target, if_pos half, ← Nat.sub_add_cancel half] at fits
          exact fits_square fits steady'
        next => exact b.fits
      rw [multiply, square]
      by_cases room : T.Fits (if e % 2 = 1 then result.val * b.val else result.val)
      · rw [make_ok room]
        simp only [ok_bind]
        by_cases room' : T.Fits (if e / 2 > 0 then b.val * b.val else b.val)
        · rw [make_ok room', target]
          have steady'' : Steady (if e % 2 = 1 then result.val * b.val else result.val) (if e / 2 > 0 then b.val * b.val else b.val) := by
            by_cases half : e / 2 > 0
            · rw [if_pos half]
              exact steady'.squared
            · rw [if_neg half]
              exact steady'
          exact ih (by omega) steady''
        · rw [make_error room']
          exact .inr ⟨fun fits => room' (squared fits), .overflow, rfl, Trap.noConfusion⟩
      · rw [make_error room]
        exact .inr ⟨fun fits => room (multiplied fits), .overflow, rfl, Trap.noConfusion⟩
    next done =>
      have none' : e = 0 := by omega
      subst none'
      rw [pow_zero, Int.mul_one]
      exact .inl ⟨result.fits, result, rfl, rfl⟩

theorem pow_computes (base : T.Value) (exp : Nat) : Computes (pow base exp) (base.val ^ exp) := by
  have run := @powLoop_computes T (exp + 1) exp base one (Nat.lt_succ_self exp) ⟨nofun, nofun⟩
  have unit : (one : T.Value).val = 1 := rfl
  rw [unit, Int.one_mul] at run
  exact run

theorem le_tdiv_iff {n factor : Int} (nonneg : 0 ≤ n) (positive : 0 < factor) : factor ≤ n.tdiv factor ↔ factor * factor ≤ n := by
  rw [Int.tdiv_eq_ediv_of_nonneg nonneg]
  exact Int.le_ediv_iff_mul_le positive

/-- The root lies from `lo - 1` on and not above `hi`. -/
theorem isqrtLoop_ok {n lo hi ans : T.Value} {tries : Nat} (large : 2 ≤ n.val) (first : 1 ≤ lo.val) (last : hi.val ≤ n.val)
    (ordered : lo.val ≤ hi.val + 1) (below : ans.val = lo.val - 1 ∨ lo.val = 1 ∧ ans.val = 1)
    (square : (lo.val - 1) * (lo.val - 1) ≤ n.val) (beyond : n.val < (hi.val + 1) * (hi.val + 1))
    (enough : hi.val - lo.val + 1 < tries) :
    ∃ root, isqrtLoop n tries lo hi ans = .ok root ∧ root.val = Nat.sqrt n.val.toNat := by
  induction tries generalizing lo hi ans with
  | zero => omega
  | succ tries ih =>
    obtain ⟨low, high⟩ := T.low_cases
    have bounds := n.bounds
    have room : ∀ x : Int, 0 ≤ x → x ≤ n.val → T.Fits x := fun x nonneg small => by constructor <;> omega
    rw [isqrtLoop]
    split
    next within =>
      have width : T.Fits (hi.val - lo.val) := room _ (by omega) (by omega)
      have half : (hi.val - lo.val).tdiv 2 = (hi.val - lo.val) / 2 := Int.tdiv_eq_ediv_of_nonneg (by omega)
      rw [sub, make_ok width]
      simp only [ok_bind]
      have pair : (two : T.Value).val = 2 := rfl
      rw [div_ok (by omega) fun ⟨_, minus⟩ => by omega]
      simp only [ok_bind, add, two, half]
      obtain ⟨mid, middle⟩ : ∃ mid, mid = lo.val + (hi.val - lo.val) / 2 := ⟨_, rfl⟩
      rw [← middle, make_ok (room mid (by omega) (by omega))]
      simp only [ok_bind]
      rw [div_ok (by simp only; omega) fun ⟨_, same⟩ => by simp only at same; omega]
      simp only [ok_bind, le_tdiv_iff (by omega : 0 ≤ n.val) (by omega : 0 < mid)]
      split
      next small =>
        have inner : mid < n.val := by nlinarith
        rw [make_ok (by exact room _ (by simp only [one]; omega) (by simp only [one]; omega))]
        simp only [ok_bind, one]
        refine ih (by simp only; omega) last (by simp only; omega) (.inl (by simp only; omega)) ?_ beyond (by simp only; omega)
        simp only [Int.add_sub_cancel]
        exact small
      next big =>
        rw [sub, make_ok (by exact room _ (by simp only [one]; omega) (by simp only [one]; omega))]
        simp only [ok_bind, one]
        refine ih first (by simp only; omega) (by simp only; omega) below square ?_ (by simp only; omega)
        simp only [Int.sub_add_cancel]
        omega
    next crossed =>
      have meet : hi.val + 1 = lo.val := by omega
      rw [meet] at beyond
      have proper : ans.val = lo.val - 1 := by
        rcases below with same | ⟨start, -⟩
        · exact same
        · rw [start] at beyond
          omega
      refine ⟨ans, rfl, ?_⟩
      obtain ⟨number, value⟩ := Int.eq_ofNat_of_zero_le (by omega : 0 ≤ n.val)
      obtain ⟨root, value'⟩ := Int.eq_ofNat_of_zero_le (by omega : 0 ≤ lo.val - 1)
      have next : lo.val = ((root + 1 : Nat) : Int) := by omega
      rw [value, value'] at square
      rw [value, next] at beyond
      rw [proper, value', value, Int.toNat_natCast, Int.natCast_inj]
      exact Nat.eq_sqrt.mpr ⟨by exact_mod_cast square, by exact_mod_cast beyond⟩

theorem isqrt_ok {n : T.Value} (nonneg : 0 ≤ n.val) : ∃ root, isqrt n = .ok root ∧ root.val = Nat.sqrt n.val.toNat := by
  obtain ⟨low, high⟩ := T.low_cases
  rw [isqrt]
  split
  next small =>
    refine ⟨n, rfl, ?_⟩
    rcases (by omega : n.val = 0 ∨ n.val = 1) with none' | one'
    · rw [none']
      rfl
    · rw [one']
      rfl
  next large =>
    have unit : (one : T.Value).val = 1 := rfl
    refine isqrtLoop_ok (by omega) (by omega) (Int.le_refl _) (by omega) (.inr ⟨rfl, rfl⟩) ?_ ?_ (by omega)
    · rw [unit]
      omega
    · nlinarith

/-- The loop stops at the first divisor, or when the next square is larger. -/
theorem isPrimeLoop_ok {n i : T.Value} {tries : Nat} (large : 2 ≤ n.val) (first : 2 ≤ i.val)
    (tried : ∀ d : Nat, 2 ≤ d → (d : Int) < i.val → ¬d ∣ n.val.toNat) (enough : n.val < tries + i.val) (positive : 0 < tries) :
    ∃ answer, isPrimeLoop n tries i = .ok answer ∧ (answer = true ↔ n.val.toNat.Prime) := by
  induction tries generalizing i with
  | zero => omega
  | succ tries ih =>
    obtain ⟨low, high⟩ := T.low_cases
    have bounds := n.bounds
    obtain ⟨number, value⟩ := Int.eq_ofNat_of_zero_le (by omega : 0 ≤ n.val)
    obtain ⟨divisor, value'⟩ := Int.eq_ofNat_of_zero_le (by omega : 0 ≤ i.val)
    have toNat : n.val.toNat = number := by omega
    rw [isPrimeLoop, div_ok (by omega) fun ⟨_, minus⟩ => by omega]
    simp only [ok_bind, le_tdiv_iff (by omega : 0 ≤ n.val) (by omega : 0 < i.val)]
    split
    next within =>
      have inner : i.val < n.val := by nlinarith
      rw [rem_ok (by omega) fun ⟨_, minus⟩ => by omega]
      simp only [ok_bind]
      have remainder : n.val.tmod i.val = ((number % divisor : Nat) : Int) := by
        rw [value, value']
        rfl
      split
      next divides =>
        rw [remainder] at divides
        refine ⟨false, rfl, nofun, fun prime => ?_⟩
        rw [toNat] at prime
        rcases (Nat.dvd_prime prime).mp (Nat.dvd_of_mod_eq_zero (Int.natCast_eq_zero.mp divides)) with one' | same <;> omega
      next leaves =>
        rw [remainder] at leaves
        have room : T.Fits (i.val + 1) := by constructor <;> omega
        rw [add]
        have unit : (one : T.Value).val = 1 := rfl
        rw [unit, make_ok room]
        simp only [ok_bind]
        refine ih (by simp only; omega) (fun d least below => ?_) (by simp only; omega) (by omega)
        rcases lt_or_ge (d : Int) i.val with old | here
        · exact tried d least old
        · simp only at below
          obtain rfl : d = divisor := by omega
          rw [toNat]
          exact fun divides => leaves (Int.natCast_eq_zero.mpr (Nat.mod_eq_zero_of_dvd divides))
    next beyond =>
      refine ⟨true, rfl, fun _ => ?_, fun _ => rfl⟩
      rw [toNat]
      by_contra composite
      have square := Nat.minFac_sq_le_self (by omega) composite
      have least : 2 ≤ number.minFac := (Nat.minFac_prime (by omega)).two_le
      rcases lt_or_ge (number.minFac : Int) i.val with early | late
      · exact tried _ least early (toNat ▸ Nat.minFac_dvd number)
      · rw [sq] at square
        have square' : (number.minFac : Int) * number.minFac ≤ n.val := by
          rw [value]
          exact_mod_cast square
        exact beyond (by nlinarith)

theorem isPrime_ok (n : T.Value) : ∃ answer, isPrime n = .ok answer ∧ (answer = true ↔ n.val.toNat.Prime) := by
  rw [isPrime]
  split
  next small =>
    refine ⟨false, rfl, nofun, fun prime => absurd prime.two_le ?_⟩
    omega
  next large =>
    have pair : (two : T.Value).val = 2 := rfl
    refine isPrimeLoop_ok (by omega) (by omega) (fun d least below => ?_) (by omega) (by omega)
    omega

/-- Every function computes its mathematical result, and an operation on the way
traps only where that result is not a value of the type. -/
theorem math_exact (a b : T.Value) (exp : Nat) :
    Checks (checkedAdd a b) (a.val + b.val) ∧ Checks (checkedSub a b) (a.val - b.val) ∧
    Checks (checkedMul a b) (a.val * b.val) ∧ Computes (gcd a b) (Int.gcd a.val b.val) ∧
    (T.signed = true → Computes (lcm a b) (Int.lcm a.val b.val)) ∧ Computes (pow a exp) (a.val ^ exp) ∧
    (0 ≤ a.val → ∃ root, isqrt a = .ok root ∧ root.val = Nat.sqrt a.val.toNat) ∧
    ∃ answer, isPrime a = .ok answer ∧ (answer = true ↔ a.val.toNat.Prime) :=
  ⟨checkedAdd_checks a b, checkedSub_checks a b, checkedMul_checks a b, gcd_computes a b, fun signed => lcm_computes signed a b,
    pow_computes a exp, isqrt_ok, isPrime_ok a⟩

def i8 : TrappingInt := ⟨8, true, by decide⟩

def minusFour : i8.Value := ⟨-4, by decide⟩

def hundred : i8.Value := ⟨100, by decide⟩

theorem i8_math : Computes (lcm minusFour hundred) 100 ∧ (∃ root, isqrt hundred = .ok root ∧ root.val = 10) ∧
    Computes (pow minusFour 3) (-64) ∧ checkedMul minusFour hundred = .ok none := by
  obtain ⟨-, -, product, -, multiple, power, -⟩ := math_exact minusFour hundred 3
  obtain ⟨root, run, value⟩ := (math_exact hundred hundred 0).2.2.2.2.2.2.1 (by decide)
  obtain ⟨answer, run', value'⟩ := product
  have ten : Nat.sqrt 100 = 10 := Nat.sqrt_eq 10
  refine ⟨multiple rfl, ⟨root, run, value.trans (congrArg Nat.cast ten)⟩, power, ?_⟩
  rw [run']
  rw [if_neg (by decide), Option.map_eq_none_iff] at value'
  rw [value']

end Rue.Proofs.Runtime.Math
