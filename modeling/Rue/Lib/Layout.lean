import Mathlib.Algebra.Order.Ring.Int
import Mathlib.Data.Nat.Log

/-! Alignment to powers of two, and members laid out one after the other so that
none covers another. -/

namespace Rue.Lib

universe u v w

/-- The least multiple of an alignment that is not below a value. -/
def roundUp (value align : Nat) : Nat := (value + (align - 1)) / align * align

theorem dvd_roundUp (value align : Nat) : align ∣ roundUp value align := Nat.dvd_mul_left align _

theorem le_roundUp (value : Nat) {align : Nat} (positive : 0 < align) : value ≤ roundUp value align := by
  have split := Nat.div_add_mod (value + (align - 1)) align
  have small := Nat.mod_lt (value + (align - 1)) positive
  rw [Nat.mul_comm] at split
  rw [roundUp]
  omega

theorem roundUp_lt (value : Nat) {align : Nat} (positive : 0 < align) : roundUp value align < value + align := by
  have split := Nat.div_mul_le_self (value + (align - 1)) align
  rw [roundUp]
  omega

theorem roundUp_of_dvd {value align : Nat} (positive : 0 < align) (aligned : align ∣ value) :
    roundUp value align = value := by
  obtain ⟨count, rfl⟩ := aligned
  rw [roundUp, Nat.mul_add_div positive, Nat.div_eq_of_lt (by omega), Nat.add_zero, Nat.mul_comm]

theorem dvd_of_isPowerOfTwo {small large : Nat} (first : small.isPowerOfTwo) (second : large.isPowerOfTwo)
    (ordered : small ≤ large) : small ∣ large := by
  obtain ⟨low, rfl⟩ := first
  obtain ⟨high, rfl⟩ := second
  exact Nat.pow_dvd_pow 2 ((Nat.pow_le_pow_iff_right (by omega)).mp ordered)

theorem isPowerOfTwo_max {first second : Nat} (one : first.isPowerOfTwo) (other : second.isPowerOfTwo) :
    (max first second).isPowerOfTwo := by
  rcases Nat.le_total first second with ordered | ordered
  · rw [Nat.max_eq_right ordered]
    exact other
  · rw [Nat.max_eq_left ordered]
    exact one

theorem dvd_max_left {first second : Nat} (one : first.isPowerOfTwo) (other : second.isPowerOfTwo) :
    first ∣ max first second :=
  dvd_of_isPowerOfTwo one (isPowerOfTwo_max one other) (Nat.le_max_left first second)

theorem and_high {value exponent : Nat} (small : value < 2 ^ 64) :
    value &&& (2 ^ 64 - 1 - (2 ^ exponent - 1)) = value / 2 ^ exponent * 2 ^ exponent := by
  apply Nat.eq_of_testBit_eq
  intro bit
  rw [Nat.testBit_and, Nat.testBit_mul_two_pow, Nat.testBit_div_two_pow]
  by_cases wide : bit < 64
  · by_cases fits : exponent ≤ 64
    · have masked : 2 ^ exponent - 1 < 2 ^ 64 := by
        have := Nat.pow_le_pow_right (n := 2) (by omega) fits
        have := Nat.two_pow_pos exponent
        omega
      rw [show 2 ^ 64 - 1 - (2 ^ exponent - 1) = 2 ^ 64 - ((2 ^ exponent - 1) + 1) by omega,
        Nat.testBit_two_pow_sub_succ masked, Nat.testBit_two_pow_sub_one]
      by_cases high : exponent ≤ bit
      · simp [wide, high, show ¬ bit < exponent by omega, Nat.sub_add_cancel high]
      · simp [high, show bit < exponent by omega]
    · have above : 2 ^ 64 ≤ 2 ^ exponent - 1 := by
        have := Nat.pow_lt_pow_right (a := 2) (by omega) (show 64 < exponent by omega)
        omega
      rw [show 2 ^ 64 - 1 - (2 ^ exponent - 1) = 0 by omega]
      simp [show ¬ exponent ≤ bit by omega]
  · have clear : value.testBit bit = false :=
      Nat.testBit_lt_two_pow (Nat.lt_of_lt_of_le small (Nat.pow_le_pow_right (by omega) (by omega)))
    by_cases high : exponent ≤ bit
    · simp [clear, Nat.sub_add_cancel high]
    · simp [clear, high]

section Strictest

variable {α : Type u} {step : Nat → α → Nat} {items : List α}

theorem foldl_keeps {good : Nat → Prop} (steps : ∀ entry ∈ items, ∀ align, good align → good (step align entry)) {first : Nat}
    (start : good first) : good (items.foldl step first) :=
  List.foldlRecOn items step start fun align kept entry inside => steps entry inside align kept

end Strictest

/-- Where a member starts, how long it is, and what its start is a multiple of. -/
structure Extent where
  start : Nat
  length : Nat
  align : Nat

/-- Members at aligned starts that end by some length, each apart from the others. -/
structure Row {ι : Type u} (member : ι → Extent → Prop) (length : Nat) : Prop where
  aligned : ∀ index extent, member index extent → extent.align ∣ extent.start
  inside : ∀ index extent, member index extent → extent.start + extent.length ≤ length
  apart : ∀ first second before after, first ≠ second → member first before → member second after →
    before.start + before.length ≤ after.start ∨ after.start + after.length ≤ before.start

namespace Row

variable {ι : Type u} {member next : ι → Extent → Prop} {length : Nat}

theorem empty (none : ∀ index extent, ¬ member index extent) : Row member length where
  aligned := fun index extent found => absurd found (none index extent)
  inside := fun index extent found => absurd found (none index extent)
  apart := fun first _ before _ _ found _ => absurd found (none first before)

theorem mono (row : Row member length) {longer : Nat} (fewer : ∀ index extent, next index extent → member index extent)
    (room : length ≤ longer) : Row next longer where
  aligned := fun index extent found => row.aligned index extent (fewer index extent found)
  inside := fun index extent found => Nat.le_trans (row.inside index extent (fewer index extent found)) room
  apart := fun first second before after distinct one other =>
    row.apart first second before after distinct (fewer first before one) (fewer second after other)

theorem push (row : Row member length) {index : ι} {extent : Extent} (aligned : extent.align ∣ extent.start)
    (behind : length ≤ extent.start)
    (members : ∀ other found, next other found → other = index ∧ found = extent ∨ member other found) :
    Row next (extent.start + extent.length) where
  aligned := by
    intro other found present
    rcases members other found present with ⟨rfl, rfl⟩ | old
    · exact aligned
    · exact row.aligned other found old
  inside := by
    intro other found present
    rcases members other found present with ⟨rfl, rfl⟩ | old
    · exact Nat.le_refl _
    · have := row.inside other found old
      omega
  apart := by
    intro first second before after distinct one other
    rcases members first before one with ⟨rfl, rfl⟩ | oldFirst
    · rcases members second after other with ⟨rfl, rfl⟩ | oldSecond
      · exact absurd rfl distinct
      · have := row.inside second after oldSecond
        omega
    · rcases members second after other with ⟨rfl, rfl⟩ | oldSecond
      · have := row.inside first before oldFirst
        omega
      · exact row.apart first second before after distinct oldFirst oldSecond

end Row

/-- A run that takes one step for each item of a list, in order. -/
inductive Chain {α : Type u} {β : Type v} (step : α → β → β → Prop) : List α → β → β → Prop
  | done (state : β) : Chain step [] state state
  | item {entry : α} {rest : List α} {before middle after : β} (first : step entry before middle)
      (later : Chain step rest middle after) : Chain step (entry :: rest) before after

namespace Chain

variable {α : Type u} {β : Type v} {step : α → β → β → Prop} {items : List α} {before after : β}

/-- What every step keeps, of the state and the items that are left, the run keeps. -/
theorem keeps (run : Chain step items before after) (kept : List α → β → Prop)
    (stepped : ∀ entry rest state next, kept (entry :: rest) state → step entry state next → kept rest next)
    (start : kept items before) : kept [] after := by
  induction run with
  | done => exact start
  | item first later ih => exact ih (stepped _ _ _ _ start first)

theorem append {first second : List α} {middle : β} (one : Chain step first before middle)
    (other : Chain step second middle after) : Chain step (first ++ second) before after := by
  induction one with
  | done => exact other
  | item stepped later ih => exact .item stepped (ih other)

theorem flatMap {γ : Type w} {parts : γ → List α} {outer : List γ}
    (run : Chain (fun entry => Chain step (parts entry)) outer before after) : Chain step (outer.flatMap parts) before after := by
  induction run with
  | done => exact .done _
  | item first later ih => exact first.append ih

variable {γ : Type w} {inputs : List γ} (label : γ → α)

end Chain

end Rue.Lib
