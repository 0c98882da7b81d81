import Rue.Runtime.Allocator
import Mathlib.Algebra.Order.Ring.Nat

/-! What the allocator's arithmetic computes, and what a layout is classified as. -/

namespace Rue.Proofs.Allocator
open Rue.Runtime.Allocator

theorem sizes : pageSize = 4096 ∧ arenaSize = 65536 ∧ maxSmallSize = 16384 ∧ minClassSize = 8 ∧ minClassShift = 3 ∧
    classCount = 12 ∧ arenaHeaderSize = 24 ∧ allocationHeaderSize = 48 ∧ usizeMax = 18446744073709551615 := by decide

section Arithmetic

theorem isPowerOfTwo_pow {value : Nat} (power : isPowerOfTwo value = true) : ∃ shift, value = 2 ^ shift := by
  obtain ⟨shift, _, equal⟩ := List.any_eq_true.mp power
  exact ⟨shift, of_decide_eq_true equal⟩

theorem checkedNextPowerOfTwo_pow {value power : Nat} (found : checkedNextPowerOfTwo value = some power) :
    ∃ shift < 64, power = 2 ^ shift ∧ value ≤ power := by
  obtain ⟨shift, first, rfl⟩ := Option.map_eq_some_iff.mp found
  obtain ⟨enough, member, _⟩ := List.find?_range_eq_some.mp first
  exact ⟨shift, List.mem_range.mp member, rfl, of_decide_eq_true enough⟩

theorem trailingZeros_pow {shift : Nat} (small : shift < 64) : trailingZeros (2 ^ shift) = shift := by
  unfold trailingZeros
  have found : (List.range 64).find? (Nat.testBit (2 ^ shift)) = some shift := by
    refine List.find?_range_eq_some.mpr ⟨Nat.testBit_two_pow_self, List.mem_range.mpr small, fun bit lower => ?_⟩
    rw [Nat.testBit_two_pow, decide_eq_false (by omega), Bool.not_false]
  rw [found, Option.getD_some]

theorem checkedAdd_eq_some {a b sum : Nat} (found : checkedAdd a b = some sum) : sum = a + b ∧ sum ≤ usizeMax := by
  unfold checkedAdd at found
  split at found
  next fits =>
    cases found
    exact ⟨rfl, fits⟩
  next => cases found

private theorem clear_low {value shift : Nat} (small : shift < 64) (fits : value ≤ usizeMax) :
    value &&& (usizeMax - (2 ^ shift - 1)) = value / 2 ^ shift * 2 ^ shift := by
  have positive := Nat.two_pow_pos shift
  have below : 2 ^ shift ≤ 2 ^ 63 := Nat.pow_le_pow_right Nat.two_pos (by omega)
  have constants := sizes
  have mask : usizeMax - (2 ^ shift - 1) = 2 ^ 64 - (2 ^ shift - 1 + 1) := by omega
  rw [mask, ← Nat.shiftRight_eq_div_pow, ← Nat.shiftLeft_eq]
  apply Nat.eq_of_testBit_eq
  intro bit
  rw [Nat.testBit_and, Nat.testBit_two_pow_sub_succ (by omega), Nat.testBit_two_pow_sub_one, Nat.testBit_shiftLeft,
    Nat.testBit_shiftRight]
  by_cases low : bit < shift
  · simp [low, Nat.not_le.mpr low]
  · by_cases inside : bit < 64
    · simp [low, inside, Nat.le_of_not_lt low]
    · have clear : value.testBit bit = false :=
        Nat.testBit_lt_two_pow (Nat.lt_of_lt_of_le (by omega : value < 2 ^ 64) (Nat.pow_le_pow_right Nat.two_pos (by omega)))
      simp [low, inside, Nat.le_of_not_lt low, clear]

theorem checkedAlignUp_spec {value shift aligned : Nat} (small : shift < 64) (found : checkedAlignUp value (2 ^ shift) = some aligned) :
    2 ^ shift ∣ aligned ∧ value ≤ aligned ∧ aligned < value + 2 ^ shift ∧ aligned ≤ usizeMax := by
  obtain ⟨added, sum, rfl⟩ := Option.map_eq_some_iff.mp found
  obtain ⟨rfl, fits⟩ := checkedAdd_eq_some sum
  have positive := Nat.two_pow_pos shift
  rw [clear_low small fits]
  have split := Nat.div_add_mod (value + (2 ^ shift - 1)) (2 ^ shift)
  have remainder := Nat.mod_lt (value + (2 ^ shift - 1)) positive
  rw [Nat.mul_comm] at split
  exact ⟨Nat.dvd_mul_left _ _, by omega, by omega, by omega⟩

theorem checkedAlignUp_isSome (value align : Nat) (fits : value + (align - 1) ≤ usizeMax) :
    ∃ aligned, checkedAlignUp value align = some aligned := by
  unfold checkedAlignUp checkedAdd
  rw [if_pos fits]
  exact ⟨_, rfl⟩

theorem checkedNextMultipleOf_spec {value step multiple : Nat} (positive : 0 < step) (bounded : value ≤ usizeMax)
    (found : checkedNextMultipleOf value step = some multiple) : step ∣ multiple ∧ value ≤ multiple ∧ multiple ≤ usizeMax := by
  unfold checkedNextMultipleOf at found
  split at found
  next exact' =>
    cases found
    exact ⟨Nat.dvd_of_mod_eq_zero exact', Nat.le_refl _, bounded⟩
  next =>
    obtain ⟨rfl, fits⟩ := checkedAdd_eq_some found
    have remainder := Nat.mod_lt value positive
    refine ⟨Nat.dvd_of_mod_eq_zero ?_, by omega, fits⟩
    have whole : value + (step - value % step) = (value / step + 1) * step := by
      have split := Nat.div_add_mod' value step
      rw [Nat.add_mul, Nat.one_mul]
      omega
    rw [whole, Nat.mul_mod_left]

end Arithmetic

section Classes

def classSize (index : Nat) : Nat := 2 ^ (index + minClassShift)

def classAlign (index : Nat) : Nat := min (classSize index) pageSize

structure SmallClass.Fits (smallClass : SmallClass) (size align : Nat) : Prop where
  index : smallClass.index < classCount
  blockSize : smallClass.blockSize = classSize smallClass.index
  blockAlign : smallClass.blockAlign = classAlign smallClass.index
  size : size ≤ smallClass.blockSize
  align : align ∣ smallClass.blockAlign

theorem classAlign_pow (index : Nat) : classAlign index = 2 ^ min (index + minClassShift) 12 := by
  unfold classAlign classSize
  rw [show pageSize = 2 ^ 12 from rfl]
  rcases Nat.le_total (index + minClassShift) 12 with low | high
  · rw [Nat.min_eq_left low, Nat.min_eq_left (Nat.pow_le_pow_right Nat.two_pos low)]
  · rw [Nat.min_eq_right high, Nat.min_eq_right (Nat.pow_le_pow_right Nat.two_pos high)]

theorem classSize_bounds {index : Nat} (small : index < classCount) : 8 ≤ classSize index ∧ classSize index ≤ maxSmallSize := by
  have constants := sizes
  exact ⟨Nat.pow_le_pow_right Nat.two_pos (by omega : 3 ≤ index + minClassShift),
    Nat.pow_le_pow_right Nat.two_pos (by omega : index + minClassShift ≤ 14)⟩

structure ValidLayout (size align : Nat) : Prop where
  positive : 0 < size
  bounded : size ≤ usizeMax
  power : ∃ shift ≤ 12, align = 2 ^ shift

theorem classify_valid {size align : Nat} {kind : AllocationKind} (classified : classify size align = some kind) :
    ValidLayout size align := by
  have constants := sizes
  unfold classify at classified
  split at classified
  next => cases classified
  next valid =>
    simp only [not_or, Bool.not_eq_true', Bool.not_eq_false, Nat.not_lt] at valid
    obtain ⟨positive, _, power, low, bounded⟩ := valid
    obtain ⟨shift, rfl⟩ := isPowerOfTwo_pow power
    exact ⟨Nat.pos_of_ne_zero positive, bounded, shift, (Nat.pow_le_pow_iff_right (Nat.lt_succ_self 1)).mp low, rfl⟩

private theorem classify_shape {size align : Nat} {kind : AllocationKind} (classified : classify size align = some kind) :
    (∃ shift, 3 ≤ shift ∧ shift ≤ 14 ∧ max size align ≤ 2 ^ shift ∧
      kind = .small ⟨shift - minClassShift, 2 ^ shift, min (2 ^ shift) pageSize⟩) ∨
    ∃ mappingSize, kind = .direct mappingSize ∧ checkedNextMultipleOf size pageSize = some mappingSize := by
  have constants := sizes
  unfold classify at classified
  split at classified
  next => cases classified
  next =>
    have direct : ∀ {kind}, (checkedNextMultipleOf size pageSize).map AllocationKind.direct = some kind →
        ∃ mappingSize, kind = .direct mappingSize ∧ checkedNextMultipleOf size pageSize = some mappingSize := by
      intro kind found
      obtain ⟨mappingSize, rounded, rfl⟩ := Option.map_eq_some_iff.mp found
      exact ⟨mappingSize, rfl, rounded⟩
    dsimp only at classified
    split at classified
    next =>
      split at classified
      next => cases classified
      next blockSize found =>
        split at classified
        next low =>
          cases classified
          obtain ⟨shift, inside, rfl, enough⟩ := checkedNextPowerOfTwo_pow found
          have lower : 3 ≤ shift := (Nat.pow_le_pow_iff_right (Nat.lt_succ_self 1)).mp (by omega : 2 ^ 3 ≤ 2 ^ shift)
          have upper : shift ≤ 14 := (Nat.pow_le_pow_iff_right (Nat.lt_succ_self 1)).mp (by omega : 2 ^ shift ≤ 2 ^ 14)
          rw [trailingZeros_pow inside]
          exact Or.inl ⟨shift, lower, upper, by omega, rfl⟩
        next => exact Or.inr (direct classified)
    next => exact Or.inr (direct classified)

theorem classify_small {size align : Nat} {smallClass : SmallClass} (classified : classify size align = some (.small smallClass)) :
    SmallClass.Fits smallClass size align := by
  have constants := sizes
  obtain ⟨low, limit, rfl⟩ := (classify_valid classified).power
  rcases classify_shape classified with ⟨shift, lower, upper, enough, same⟩ | ⟨mappingSize, same, _⟩
  · cases same
    have back : shift - minClassShift + minClassShift = shift := by omega
    have whole : classSize (shift - minClassShift) = 2 ^ shift := by rw [classSize, back]
    have aligned : min (2 ^ shift) pageSize = classAlign (shift - minClassShift) := by rw [classAlign, whole]
    refine ⟨by dsimp only; omega, whole.symm, aligned, Nat.le_trans (Nat.le_max_left _ _) enough, ?_⟩
    dsimp only
    rw [aligned, classAlign_pow, back]
    have covers : low ≤ shift := (Nat.pow_le_pow_iff_right (Nat.lt_succ_self 1)).mp (by omega : 2 ^ low ≤ 2 ^ shift)
    exact Nat.pow_dvd_pow 2 (by omega)
  · cases same

theorem classify_direct {size align mappingSize : Nat} (classified : classify size align = some (.direct mappingSize)) :
    pageSize ∣ mappingSize ∧ size ≤ mappingSize ∧ mappingSize ≤ usizeMax := by
  rcases classify_shape classified with ⟨shift, _, _, _, same⟩ | ⟨_, same, found⟩
  · cases same
  · cases same
    exact checkedNextMultipleOf_spec (by decide) (classify_valid classified).bounded found

end Classes

end Rue.Proofs.Allocator
