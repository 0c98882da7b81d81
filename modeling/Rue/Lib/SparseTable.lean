import Mathlib.Data.Finset.Lattice.Fold
import Mathlib.Order.Interval.Finset.Nat
import Mathlib.Order.Interval.Finset.Basic

/-! The join of the values in a range. Windows whose widths double are joined two
by two, any range is covered by two of them, and equal neighbours form runs. -/

namespace Rue.Lib.SparseTable

variable {α : Type*} [SemilatticeSup α] [OrderBot α]

/-- The join of `width` values from `start` on. -/
def window (value : Nat → α) (start width : Nat) : α := (Finset.Ico start (start + width)).sup value

@[simp] theorem window_one (value : Nat → α) (start : Nat) : window value start 1 = value start := by
  simp [window]

/-- Two windows that reach both ends and leave no gap cover the whole; they may overlap. -/
theorem window_cover (value : Nat → α) (start : Nat) {width first second offset : Nat} (inside : first ≤ width)
    (touching : offset ≤ first) (whole : offset + second = width) :
    window value start width = window value start first ⊔ window value (start + offset) second := by
  rw [window, window, window, ← Finset.sup_union]
  congr 1
  ext index
  simp only [Finset.mem_union, Finset.mem_Ico]
  omega

theorem window_double (value : Nat → α) (start half : Nat) :
    window value start (2 * half) = window value start half ⊔ window value (start + half) half :=
  window_cover value start (by omega) (Nat.le_refl half) (by omega)

theorem window_eq_Icc (value : Nat → α) {first last : Nat} (ordered : first ≤ last) :
    window value first (last - first + 1) = (Finset.Icc first last).sup value := by
  rw [window]
  congr 1
  ext index
  simp only [Finset.mem_Ico, Finset.mem_Icc]
  omega

/-- Values that only change from one run to the next have the join of the runs
they pass through. The induction is on the end of the range. -/
theorem sup_runs {value runValue : Nat → α} {runOf : Nat → Nat} {start stop : Nat} (ordered : start ≤ stop)
    (valued : ∀ index ≤ stop, value index = runValue (runOf index))
    (steps : ∀ index < stop, runOf (index + 1) = runOf index ∨ runOf (index + 1) = runOf index + 1) :
    runOf start ≤ runOf stop ∧
      (Finset.Icc start stop).sup value = (Finset.Icc (runOf start) (runOf stop)).sup runValue := by
  induction stop, ordered using Nat.le_induction with
  | base => simp [valued start (Nat.le_refl start)]
  | succ stop ordered ih =>
    obtain ⟨below, same⟩ := ih (fun index inside => valued index (by omega)) fun index inside => steps index (by omega)
    have grown : Finset.Icc start (stop + 1) = insert (stop + 1) (Finset.Icc start stop) := by
      ext index
      simp only [Finset.mem_insert, Finset.mem_Icc]
      omega
    rw [grown, Finset.sup_insert, same, valued (stop + 1) (Nat.le_refl _)]
    rcases steps stop (Nat.lt_succ_self stop) with stays | moves
    · rw [stays]
      refine ⟨below, sup_eq_right.mpr (Finset.le_sup ?_)⟩
      exact Finset.mem_Icc.mpr ⟨below, Nat.le_refl _⟩
    · rw [moves]
      refine ⟨by omega, ?_⟩
      have longer : Finset.Icc (runOf start) (runOf stop + 1) =
          insert (runOf stop + 1) (Finset.Icc (runOf start) (runOf stop)) := by
        ext run
        simp only [Finset.mem_insert, Finset.mem_Icc]
        omega
      rw [longer, Finset.sup_insert]

end Rue.Lib.SparseTable
