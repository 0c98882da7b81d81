import Mathlib.Tactic.Ring
import Rue.Opt.Unroll
import Rue.Proofs.Air.IntegerSemantics

/-! A counted loop runs exactly as often as computed, and a count is computed for
every loop that ends without an overflow and faces the way it steps. -/

namespace Rue.Unroll

open Air Lib Lib.IntFormat

variable {type : IntegerType} {holds : Int → Prop} {value step : Int} {count : Nat}

/-- What the predicate of a loop says of the counter. -/
def Holds (cmp : Nat) (bound value : Int) : Prop :=
  match cmp with
  | 0 => value < bound
  | 1 => value ≤ bound
  | 2 => value > bound
  | _ => value ≥ bound

/-- The loop turns so often and then its test fails, and every update, the last
turn's included, is a number of the type. -/
inductive Turns (type : IntegerType) (holds : Int → Prop) (step : Int) : Int → Nat → Prop where
  | stop {value : Int} (fails : ¬holds value) : Turns type holds step value 0
  | turn {value : Int} {count : Nat} (test : holds value) (room : type.format.fits (value + step) = true)
      (rest : Turns type holds step (value + step) count) : Turns type holds step value (count + 1)

/-- A predicate that fails somewhere along the way the counter steps. -/
def Faces (cmp : Nat) (step : Int) : Prop := if 0 < step then cmp < 2 else 2 ≤ cmp

/-- How far the counter is from failing the test. -/
def distance (cmp : Nat) (initial bound : Int) : Int :=
  match cmp with
  | 0 => bound - initial
  | 1 => bound - initial + 1
  | 2 => initial - bound
  | _ => initial - bound + 1

theorem holds_iff_distance {cmp : Nat} {initial bound : Int} (faces : Faces cmp step) (nonzero : step ≠ 0) (known : cmp < 4)
    (turns : Nat) : Holds cmp bound (initial + turns * step) ↔ turns * |step| < distance cmp initial bound := by
  rw [Faces] at faces
  split at faces
  next up =>
    rw [abs_of_pos up]
    generalize (turns : Int) * step = change
    obtain rfl | rfl : cmp = 0 ∨ cmp = 1 := by omega
    · simp only [Holds, distance]
      omega
    · simp only [Holds, distance]
      omega
  next down =>
    rw [abs_of_neg (by omega), Int.mul_neg]
    generalize (turns : Int) * step = change
    obtain rfl | rfl : cmp = 2 ∨ cmp = 3 := by omega
    · simp only [Holds, distance]
      omega
    · simp only [Holds, distance]
      omega

theorem turns_iff : Turns type holds step value count ↔ (∀ turns : Nat, turns < count → holds (value + turns * step)) ∧
    ¬holds (value + count * step) ∧ ∀ turns : Nat, 0 < turns → turns ≤ count → type.format.fits (value + turns * step) = true := by
  have shifted : ∀ (value : Int) (turns : Nat), value + (turns + 1 : Nat) * step = value + step + turns * step := by
    intro value turns
    push_cast
    ring
  constructor
  · intro run
    induction run with
    | stop fails =>
      refine ⟨nofun, by simpa using fails, ?_⟩
      intro turns positive none'
      omega
    | @turn value count test room rest ih =>
      obtain ⟨before, after, fits⟩ := ih
      refine ⟨?_, ?_, ?_⟩
      · intro turns less
        cases turns with
        | zero => simpa using test
        | succ turns =>
          rw [shifted]
          exact before turns (by omega)
      · rw [shifted]
        exact after
      · intro turns positive few
        cases turns with
        | zero => omega
        | succ turns =>
          rw [shifted]
          cases turns with
          | zero => simpa using room
          | succ turns => exact fits (turns + 1) (by omega) (by omega)
  · intro ⟨before, after, fits⟩
    induction count generalizing value with
    | zero => exact .stop (by simpa using after)
    | succ count ih =>
      refine .turn (by simpa using before 0 (by omega)) (by simpa using fits 1 (by omega) (by omega)) (ih ?_ ?_ ?_)
      · intro turns less
        rw [← shifted]
        exact before (turns + 1) (by omega)
      · rw [← shifted]
        exact after
      · intro turns positive few
        rw [← shifted]
        exact fits (turns + 1) (by omega) (by omega)

/-- The distance in steps, rounded up. -/
def trips (stride distance : Int) : Nat := if distance ≤ 0 then 0 else ((distance + (stride - 1)) / stride).toNat

theorem eq_trips_iff {stride distance : Int} (positive : 0 < stride) :
    (∀ turns : Nat, turns < count → turns * stride < distance) ∧ ¬count * stride < distance ↔ count = trips stride distance := by
  rw [trips]
  split
  next past =>
    constructor
    · intro ⟨before, _⟩
      by_contra some'
      have first := before 0 (by omega)
      simp only [Int.natCast_zero, Int.zero_mul] at first
      omega
    · rintro rfl
      exact ⟨nofun, by simpa using past⟩
  next ahead =>
    have quotient := Int.mul_ediv_add_emod (distance + (stride - 1)) stride
    have rest := Int.emod_nonneg (distance + (stride - 1)) (Int.ne_of_gt positive)
    have small := Int.emod_lt_of_pos (distance + (stride - 1)) positive
    have above : 0 ≤ (distance + (stride - 1)) / stride := Int.ediv_nonneg (by omega) (by omega)
    obtain ⟨whole, same⟩ := Int.eq_ofNat_of_zero_le above
    rw [same] at quotient ⊢
    rw [Int.toNat_natCast]
    -- The last turn starts short of the distance, and ends at or past it.
    have scaled : ∀ {few many : Nat}, few ≤ many → (few : Int) * stride ≤ many * stride := fun less =>
      Int.mul_le_mul_of_nonneg_right (by omega) (Int.le_of_lt positive)
    have past : distance ≤ whole * stride := by
      rw [Int.mul_comm]
      omega
    have short : ∀ turns : Nat, turns < whole → turns * stride < distance := by
      intro turns less
      have later := scaled (Nat.succ_le_of_lt less)
      have step : ((turns + 1 : Nat) : Int) * stride = turns * stride + stride := by
        push_cast
        ring
      rw [Nat.succ_eq_add_one, step, Int.mul_comm (whole : Int)] at later
      omega
    constructor
    · intro ⟨before, after⟩
      rcases Nat.lt_trichotomy count whole with less | equal | more
      · exact absurd (short count less) after
      · exact equal
      · exact absurd (before whole more) (Int.not_lt_of_ge past)
    · rintro rfl
      exact ⟨short, Int.not_lt_of_ge past⟩

theorem toU64_eq_some {value : BitVec 128} : toU64 value = some count ↔ value.toInt = count ∧ count < 2 ^ 64 := by
  rw [toU64]
  split
  next inside =>
    rw [Option.some.injEq]
    omega
  next outside =>
    refine ⟨nofun, fun found => ?_⟩
    omega

theorem ofExact_of_room {value : Int} (low : -2 ^ 127 ≤ value) (high : value < 2 ^ 127) :
    ∃ made, I128.ofExact value = some made ∧ made.toInt = value :=
  ⟨_, if_pos ⟨low, high⟩, IntegerType.toInt_ofExact (if_pos ⟨low, high⟩)⟩

theorem toInt_sdiv {delta stride : BitVec 128} (natural : 0 ≤ delta.toInt) (positive : 0 < stride.toInt) :
    (delta.sdiv stride).toInt = delta.toInt / stride.toInt := by
  have below := BitVec.toInt_lt (x := delta)
  have less := Int.ediv_le_self stride.toInt natural
  have above := Int.ediv_nonneg natural (Int.le_of_lt positive)
  rw [BitVec.toInt_sdiv, Int.tdiv_eq_ediv_of_nonneg natural]
  apply Int.bmod_eq_of_le
  · omega
  · omega

/-- Rounded up, the distance of a test that admits the bound. -/
theorem ediv_add_one {delta stride : Int} (positive : 0 < stride) : delta / stride + 1 = (delta + 1 + (stride - 1)) / stride := by
  have arranged : delta + 1 + (stride - 1) = delta + 1 * stride := by ring
  rw [arranged, Int.add_mul_ediv_right _ _ (Int.ne_of_gt positive)]

theorem one_toInt : (1 : BitVec 128).toInt = 1 := by decide

theorem ne_zero_of_toInt {value : BitVec 128} (nonzero : value.toInt ≠ 0) : value ≠ 0 := by
  rintro rfl
  exact nonzero rfl

theorem trips_ahead {stride distance : Int} (positive : 0 < stride) (ahead : 0 < distance) :
    (trips stride distance : Int) = (distance + (stride - 1)) / stride := by
  rw [trips, if_neg (by omega), Int.toNat_of_nonneg (Int.ediv_nonneg (by omega) (by omega))]

section

variable {delta stride : BitVec 128} (positive : 0 < stride.toInt)

include positive

/-- The quotient and one more: the turns of a test that admits the bound. -/
theorem admits_of_some (natural : 0 ≤ delta.toInt) (made : (I128.checkedAdd (delta.sdiv stride) 1).bind toU64 = some count) :
    count = trips stride.toInt (delta.toInt + 1) ∧ count < 2 ^ 64 := by
  obtain ⟨next, exactNext, made⟩ := Option.bind_eq_some_iff.mp made
  have nextIs := IntegerType.toInt_ofExact exactNext
  obtain ⟨countIs, few⟩ := toU64_eq_some.mp made
  rw [toInt_sdiv natural positive, one_toInt, ediv_add_one positive] at nextIs
  refine ⟨?_, few⟩
  rw [trips, if_neg (by omega), ← nextIs, countIs, Int.toNat_natCast]

/-- The quotient rounded up: the turns of a test that refuses the bound. -/
theorem rounds_of_some {less raised n : BitVec 128} (ahead : 0 < delta.toInt) (lowers : I128.checkedSub stride 1 = some less)
    (raises : I128.checkedAdd delta less = some raised) (divides : I128.checkedDiv raised stride = some n)
    (made : toU64 n = some count) : count = trips stride.toInt delta.toInt ∧ count < 2 ^ 64 := by
  have lessIs := IntegerType.toInt_ofExact lowers
  have raisedIs := IntegerType.toInt_ofExact raises
  obtain ⟨countIs, few⟩ := toU64_eq_some.mp made
  rw [one_toInt] at lessIs
  rw [I128.checkedDiv, if_neg (ne_zero_of_toInt (Int.ne_of_gt positive))] at divides
  have nIs := IntegerType.toInt_ofExact divides
  rw [raisedIs, lessIs, Int.tdiv_eq_ediv_of_nonneg (by omega)] at nIs
  refine ⟨?_, few⟩
  rw [trips, if_neg (by omega), ← nIs, countIs, Int.toNat_natCast]

variable (near : delta.toInt ≤ 2 ^ 65) (slow : stride.toInt ≤ 2 ^ 65)

include near

theorem admits_of_near (natural : 0 ≤ delta.toInt) (few : trips stride.toInt (delta.toInt + 1) < 2 ^ 64) :
    (I128.checkedAdd (delta.sdiv stride) 1).bind toU64 = some (trips stride.toInt (delta.toInt + 1)) := by
  have quotient := toInt_sdiv natural positive
  have below := Int.ediv_le_self stride.toInt natural
  have above : 0 ≤ delta.toInt / stride.toInt := Int.ediv_nonneg natural (Int.le_of_lt positive)
  obtain ⟨next, exactNext, nextIs⟩ := @ofExact_of_room ((delta.sdiv stride).toInt + 1) (by omega) (by omega)
  have increments : I128.checkedAdd (delta.sdiv stride) 1 = some next := by
    rw [I128.checkedAdd, one_toInt, exactNext]
  rw [increments, Option.bind_some, toU64_eq_some, nextIs, quotient, ediv_add_one positive]
  exact ⟨(trips_ahead positive (by omega)).symm, few⟩

include slow

theorem rounds_of_near (natural : 0 ≤ delta.toInt) : ∃ less raised n, I128.checkedSub stride 1 = some less ∧
    I128.checkedAdd delta less = some raised ∧ I128.checkedDiv raised stride = some n ∧
    n.toInt = (delta.toInt + (stride.toInt - 1)) / stride.toInt := by
  obtain ⟨less, exactLess, lessIs⟩ := @ofExact_of_room (stride.toInt - 1) (by omega) (by omega)
  obtain ⟨raised, exactRaised, raisedIs⟩ := @ofExact_of_room (delta.toInt + less.toInt) (by omega) (by omega)
  have whole : 0 ≤ raised.toInt / stride.toInt := Int.ediv_nonneg (by omega) (by omega)
  have part := Int.ediv_le_self stride.toInt (by omega : 0 ≤ raised.toInt)
  obtain ⟨n, exactN, nIs⟩ := @ofExact_of_room (raised.toInt / stride.toInt) (by omega) (by omega)
  refine ⟨less, raised, n, exactLess, exactRaised, ?_, ?_⟩
  · rw [I128.checkedDiv, if_neg (ne_zero_of_toInt (Int.ne_of_gt positive)), Int.tdiv_eq_ediv_of_nonneg (by omega), exactN]
  · rw [nIs, raisedIs, lessIs]

end

theorem risingCount_of_some {initial bound step : BitVec 128} {cmp : Nat} (known : cmp < 4) (positive : 0 < step.toInt)
    (made : risingCount initial bound step cmp = some count) :
    cmp < 2 ∧ count = trips step.toInt (distance cmp initial.toInt bound.toInt) ∧ count < 2 ^ 64 := by
  simp only [risingCount, BitVec.sle_iff_toInt_le, BitVec.slt_iff_toInt_lt] at made
  split at made
  · cases made
  next faces =>
    refine ⟨by omega, ?_⟩
    split at made
    next past =>
      cases made
      refine ⟨?_, by decide⟩
      rw [trips, if_pos]
      rcases past with ⟨rfl, past⟩ | ⟨rfl, past⟩
      all_goals
        simp only [distance]
        omega
    next ahead =>
      simp only [Option.bind_eq_bind, Option.bind_eq_some_iff] at made
      obtain ⟨delta, exactDelta, less, lowers, raised, raises, n, divides, made⟩ := made
      have deltaIs := IntegerType.toInt_ofExact exactDelta
      split at made
      next equal =>
        subst equal
        have counted := admits_of_some positive (by omega) made
        rwa [deltaIs] at counted
      next different =>
        obtain rfl : cmp = 0 := by omega
        have counted := rounds_of_some positive (by omega) lowers raises divides made
        rwa [deltaIs] at counted

theorem fallingCount_of_some {initial bound step : BitVec 128} {cmp : Nat} (known : cmp < 4) (negative : step.toInt < 0)
    (made : fallingCount initial bound step cmp = some count) :
    2 ≤ cmp ∧ count = trips (-step.toInt) (distance cmp initial.toInt bound.toInt) ∧ count < 2 ^ 64 := by
  simp only [fallingCount, BitVec.sle_iff_toInt_le, BitVec.slt_iff_toInt_lt] at made
  split at made
  · cases made
  next faces =>
    refine ⟨by omega, ?_⟩
    split at made
    next past =>
      cases made
      refine ⟨?_, by decide⟩
      rw [trips, if_pos]
      rcases past with ⟨rfl, past⟩ | ⟨rfl, past⟩
      all_goals
        simp only [distance]
        omega
    next ahead =>
      simp only [Option.bind_eq_bind, Option.bind_eq_some_iff] at made
      obtain ⟨delta, exactDelta, magnitude, exactMagnitude, made⟩ := made
      have deltaIs := IntegerType.toInt_ofExact exactDelta
      have magnitudeIs := IntegerType.toInt_ofExact exactMagnitude
      split at made
      next equal =>
        subst equal
        have counted := admits_of_some (by omega) (by omega) made
        rwa [deltaIs, magnitudeIs] at counted
      next different =>
        obtain rfl : cmp = 2 := by omega
        simp only [Option.bind_eq_some_iff] at made
        obtain ⟨less, lowers, raised, raises, n, divides, made⟩ := made
        have counted := rounds_of_some (by omega) (by omega) lowers raises divides made
        rwa [deltaIs, magnitudeIs] at counted

/-- Nothing on the way to a count overflows, if the loop has a turn. -/
structure Roomy (stride distance : Int) : Prop where
  few : trips stride distance < 2 ^ 64
  near : 0 < distance → distance ≤ 2 ^ 64
  slow : 0 < distance → stride ≤ 2 ^ 64

theorem risingCount_of_roomy {initial bound step : BitVec 128} {cmp : Nat} (faces : cmp < 2) (positive : 0 < step.toInt)
    (roomy : Roomy step.toInt (distance cmp initial.toInt bound.toInt)) :
    risingCount initial bound step cmp = some (trips step.toInt (distance cmp initial.toInt bound.toInt)) := by
  simp only [risingCount, BitVec.sle_iff_toInt_le, BitVec.slt_iff_toInt_lt]
  rw [if_neg (by omega)]
  split
  next past =>
    rw [trips, if_pos]
    rcases past with ⟨rfl, past⟩ | ⟨rfl, past⟩
    all_goals
      simp only [distance]
      omega
  next ahead =>
    have facts : 0 < distance cmp initial.toInt bound.toInt ∧ 0 ≤ bound.toInt - initial.toInt ∧
        bound.toInt - initial.toInt ≤ distance cmp initial.toInt bound.toInt := by
      obtain rfl | rfl : cmp = 0 ∨ cmp = 1 := by omega
      all_goals
        simp only [distance]
        omega
    obtain ⟨forward, natural, short⟩ := facts
    have near := roomy.near forward
    have slow := roomy.slow forward
    have few := roomy.few
    obtain ⟨delta, exactDelta, deltaIs⟩ := @ofExact_of_room (bound.toInt - initial.toInt) (by omega) (by omega)
    obtain ⟨less, raised, n, lowers, raises, divides, nIs⟩ := @rounds_of_near delta step positive (by omega) (by omega) (by omega)
    have subtracts : I128.checkedSub bound initial = some delta := exactDelta
    rw [subtracts, lowers]
    simp only [Option.bind_eq_bind, Option.bind_some, raises, divides]
    obtain rfl | rfl : cmp = 0 ∨ cmp = 1 := by omega
    · rw [if_neg (by omega), toU64_eq_some, nIs, trips_ahead positive forward, deltaIs]
      exact ⟨rfl, few⟩
    · simp only [distance, ← deltaIs] at few ⊢
      rw [if_pos trivial]
      exact admits_of_near positive (by omega) (by omega) few

theorem fallingCount_of_roomy {initial bound step : BitVec 128} {cmp : Nat} (faces : 2 ≤ cmp) (known : cmp < 4)
    (negative : step.toInt < 0) (roomy : Roomy (-step.toInt) (distance cmp initial.toInt bound.toInt)) :
    fallingCount initial bound step cmp = some (trips (-step.toInt) (distance cmp initial.toInt bound.toInt)) := by
  simp only [fallingCount, BitVec.sle_iff_toInt_le, BitVec.slt_iff_toInt_lt]
  rw [if_neg (by omega)]
  split
  next past =>
    rw [trips, if_pos]
    rcases past with ⟨rfl, past⟩ | ⟨rfl, past⟩
    all_goals
      simp only [distance]
      omega
  next ahead =>
    have facts : 0 < distance cmp initial.toInt bound.toInt ∧ 0 ≤ initial.toInt - bound.toInt ∧
        initial.toInt - bound.toInt ≤ distance cmp initial.toInt bound.toInt := by
      obtain rfl | rfl : cmp = 2 ∨ cmp = 3 := by omega
      all_goals
        simp only [distance]
        omega
    obtain ⟨forward, natural, short⟩ := facts
    have near := roomy.near forward
    have slow := roomy.slow forward
    have few := roomy.few
    obtain ⟨delta, exactDelta, deltaIs⟩ := @ofExact_of_room (initial.toInt - bound.toInt) (by omega) (by omega)
    obtain ⟨magnitude, exactMagnitude, magnitudeIs⟩ := @ofExact_of_room (-step.toInt) (by omega) (by omega)
    obtain ⟨less, raised, n, lowers, raises, divides, nIs⟩ :=
      @rounds_of_near delta magnitude (by omega) (by omega) (by omega) (by omega)
    have subtracts : I128.checkedSub initial bound = some delta := exactDelta
    have negates : I128.checkedNeg step = some magnitude := exactMagnitude
    rw [subtracts, negates]
    simp only [Option.bind_eq_bind, Option.bind_some, lowers, raises, divides]
    rw [← magnitudeIs] at few ⊢
    obtain rfl | rfl : cmp = 2 ∨ cmp = 3 := by omega
    · rw [if_neg (by omega), toU64_eq_some, nIs, trips_ahead (by omega) forward, deltaIs]
      exact ⟨rfl, few⟩
    · simp only [distance, ← deltaIs] at few ⊢
      rw [if_pos trivial]
      exact admits_of_near (by omega) (by omega) (by omega) few

/-- Between two numbers of the type, every number on the way is one. -/
theorem fits_between {turns : Nat} (first : type.format.fits value = true)
    (last : type.format.fits (value + count * step) = true) (few : turns ≤ count) :
    type.format.fits (value + turns * step) = true := by
  simp only [fits, Bool.and_eq_true, decide_eq_true_eq] at first last ⊢
  have less : (turns : Int) ≤ count := by omega
  rcases Int.le_total 0 step with up | down
  · have above := Int.mul_nonneg (Int.natCast_nonneg turns) up
    have below := Int.mul_le_mul_of_nonneg_right less up
    omega
  · have below := Int.mul_nonpos_of_nonneg_of_nonpos (Int.natCast_nonneg turns) down
    have above := Int.mul_le_mul_of_nonpos_right less down
    omega

/-- A loop that faces its step turns as often as its distance says, if it starts and
ends at numbers of the type. -/
theorem turns_iff_trips {cmp : Nat} {initial bound : Int} (faces : Faces cmp step) (nonzero : step ≠ 0) (known : cmp < 4)
    (first : type.format.fits initial = true) : Turns type (Holds cmp bound) step initial count ↔
      count = trips |step| (distance cmp initial bound) ∧ type.format.fits (initial + count * step) = true := by
  rw [turns_iff]
  simp only [holds_iff_distance faces nonzero known]
  rw [← and_assoc, eq_trips_iff (abs_pos.mpr nonzero)]
  refine and_congr_right fun _ => ⟨?_, ?_⟩
  · intro fits
    cases count with
    | zero => simpa using first
    | succ count => exact fits (count + 1) (by omega) (Nat.le_refl _)
  · intro last turns _ few
    exact fits_between first last few

/-- A loop that stays within the type has room for its count. -/
theorem roomy_of_fits {distance : Int} (nonzero : step ≠ 0) (first : type.format.fits value = true)
    (last : type.format.fits (value + (trips |step| distance : Nat) * step) = true) : Roomy |step| distance := by
  have span := IntegerType.span type
  have positive : 0 < |step| := abs_pos.mpr nonzero
  have ends := (@eq_trips_iff (trips |step| distance) _ distance positive).mpr rfl
  simp only [fits, Bool.and_eq_true, decide_eq_true_eq] at first last
  have span : (trips |step| distance : Int) * |step| < 2 ^ 64 := by
    rcases abs_choice step with same | turned
    · rw [same] at last ⊢
      omega
    · rw [turned, Int.mul_neg]
      rw [turned] at last
      omega
  have small : (trips |step| distance : Int) ≤ trips |step| distance * |step| := by
    nlinarith [Int.natCast_nonneg (trips |step| distance)]
  refine ⟨by omega, fun _ => by omega, ?_⟩
  intro ahead
  have some' : 1 ≤ (trips |step| distance : Int) := by
    by_contra none'
    have zero : trips |step| distance = 0 := by omega
    rw [zero] at ends
    exact ends.2 (by simpa using ahead)
  nlinarith

theorem zero_slt {value : BitVec 128} : (0 : BitVec 128).slt value = true ↔ 0 < value.toInt := by
  rw [BitVec.slt_iff_toInt_lt]
  rfl

theorem turnCount_of_some {initial bound step : BitVec 128} {cmp : Nat} (known : cmp < 4) (moves : step.toInt ≠ 0)
    (made : turnCount initial bound step cmp = some count) :
    Faces cmp step.toInt ∧ count = trips |step.toInt| (distance cmp initial.toInt bound.toInt) ∧ count < 2 ^ 64 := by
  rw [turnCount] at made
  split at made
  next up =>
    have up : 0 < step.toInt := zero_slt.mp up
    rw [abs_of_pos up, Faces, if_pos up]
    exact risingCount_of_some known up made
  next down =>
    have down : ¬0 < step.toInt := fun up => down (zero_slt.mpr up)
    rw [abs_of_neg (by omega), Faces, if_neg down]
    exact fallingCount_of_some known (by omega) made

theorem turnCount_of_roomy {initial bound step : BitVec 128} {cmp : Nat} (faces : Faces cmp step.toInt) (moves : step.toInt ≠ 0)
    (known : cmp < 4) (roomy : Roomy |step.toInt| (distance cmp initial.toInt bound.toInt)) :
    turnCount initial bound step cmp = some (trips |step.toInt| (distance cmp initial.toInt bound.toInt)) := by
  rw [turnCount]
  rw [Faces] at faces
  split at faces
  next up =>
    rw [abs_of_pos up] at roomy ⊢
    rw [if_pos (zero_slt.mpr up)]
    exact risingCount_of_roomy faces up roomy
  next down =>
    rw [abs_of_neg (by omega)] at roomy ⊢
    rw [if_neg (fun up => down (zero_slt.mp up))]
    exact fallingCount_of_roomy faces known (by omega) roomy

theorem toInt_count (few : count < 2 ^ 64) : (BitVec.ofNat 128 count).toInt = count := by
  rw [BitVec.toInt_eq_toNat_of_lt]
  all_goals
    rw [BitVec.toNat_ofNat, Nat.mod_eq_of_lt (by omega)]
  omega

/-- A count is computed exactly for the loops that face the way they step, start at
a number of the type and end without an overflow; and it is how often they turn. -/
theorem trip_count_exact {initial bound step : BitVec 128} {cmp : Nat} {ty : Ty} (known : cmp < 4) (nonzero : step ≠ 0)
    (integer : ty.integerSemantics = some type) :
    checkedTripCount initial bound step cmp ty = some count ↔ Faces cmp step.toInt ∧
      type.format.fits initial.toInt = true ∧ Turns type (Holds cmp bound.toInt) step.toInt initial.toInt count := by
  have moves : step.toInt ≠ 0 := fun zero => nonzero (BitVec.eq_of_toInt_eq zero)
  rw [checkedTripCount, if_neg nonzero, integer]
  simp only [Option.bind_eq_bind, Option.bind_eq_some_iff, Option.some.injEq, exists_eq_left']
  constructor
  · intro ⟨turns, made, rest⟩
    obtain ⟨faces, counted, few⟩ := turnCount_of_some known moves made
    split at rest
    · cases rest
    next first =>
      simp only [Option.bind_eq_some_iff] at rest
      obtain ⟨change, exactChange, final, exactFinal, rest⟩ := rest
      split at rest
      · cases rest
      next last =>
        cases rest
        have changeIs := IntegerType.toInt_ofExact exactChange
        have finalIs := IntegerType.toInt_ofExact exactFinal
        rw [toInt_count few] at changeIs
        rw [changeIs, Int.mul_comm, Int.add_comm] at finalIs
        simp only [IntegerType.fitsI128_eq, Bool.not_eq_eq_eq_not, Bool.not_true, Bool.not_eq_false] at first last
        rw [finalIs] at last
        exact ⟨faces, first, (turns_iff_trips faces moves known first).mpr ⟨counted, last⟩⟩
  · intro ⟨faces, first, run⟩
    obtain ⟨rfl, last⟩ := (turns_iff_trips faces moves known first).mp run
    have roomy := roomy_of_fits moves first last
    have span := IntegerType.span type
    obtain ⟨lowest, highest, _⟩ := IntegerType.bounds type
    have inside := first
    have ends := last
    simp only [fits, Bool.and_eq_true, decide_eq_true_eq] at inside ends
    generalize counted : trips |step.toInt| (distance cmp initial.toInt bound.toInt) = count at *
    have few : count < 2 ^ 64 := counted ▸ roomy.few
    rw [← toInt_count few, Int.mul_comm] at ends
    obtain ⟨change, exactChange, changeIs⟩ := @ofExact_of_room (step.toInt * (BitVec.ofNat 128 count).toInt) (by omega) (by omega)
    obtain ⟨final, exactFinal, finalIs⟩ := @ofExact_of_room (change.toInt + initial.toInt) (by omega) (by omega)
    have multiplies : I128.checkedMul step (BitVec.ofNat 128 count) = some change := exactChange
    have adds : I128.checkedAdd change initial = some final := exactFinal
    rw [changeIs, toInt_count few, Int.mul_comm, Int.add_comm] at finalIs
    have accepted : type.fitsI128 initial = true ∧ type.fitsI128 final = true := by
      rw [IntegerType.fitsI128_eq, IntegerType.fitsI128_eq, finalIs]
      exact ⟨first, last⟩
    refine ⟨count, counted ▸ turnCount_of_roomy faces moves known roomy, ?_⟩
    simp only [accepted, Bool.not_true, Bool.false_eq_true, if_false, multiplies, adds, Option.bind_some]

/-- From 127 down to -127 by threes: the update after the last turn just fits. -/
theorem trip_count_i8 : checkedTripCount 127 (-127) (-3) 3 .i8 = some 85 ∧
    Turns ⟨8, true, by decide⟩ (Holds 3 (-127)) (-3) 127 85 := by
  have computed : checkedTripCount 127 (-127) (-3) 3 .i8 = some 85 := by decide
  refine ⟨computed, ?_⟩
  have turns := (@trip_count_exact ⟨8, true, by decide⟩ 85 127 (-127) (-3) 3 .i8 (by decide) (by decide) rfl).mp computed
  exact turns.2.2

end Rue.Unroll
