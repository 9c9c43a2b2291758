import Mathlib.Data.Int.Init

/-!
# `AiMidi.Lib.Grid`: rounding to a grid

`roundTo step t` is the multiple of `step` nearest to `t`, the upper one of two: half a step up,
and then down to the grid. Half a step is rounded down, which makes no difference: for an odd
step no integer lies in the middle between two multiples.

`roundTo_nearest` says that it is nearest, `roundTo_of_dvd` that the multiples stay where they
are, and `roundTo_mono` that the order is kept.
-/

set_option autoImplicit false

namespace AiMidi.Lib

/-- A multiple of `step` at most half a step away from `t`. -/
structure Nearest (step t x : Int) : Prop where
  multiple : step ∣ x
  close : 2 * (x - t).natAbs ≤ step

/-- The multiple of the step nearest to `t`, the upper one of two. -/
def roundTo (step t : Int) : Int := (t + step / 2) / step * step

section

variable {step : Int} (hstep : 0 < step)
include hstep

/-- What rounding takes away and adds. -/
theorem roundTo_bounds (t : Int) :
    t + step / 2 - step < roundTo step t ∧ roundTo step t ≤ t + step / 2 := by
  have hdiv := Int.ediv_mul_add_emod (t + step / 2) step
  have hlow := Int.emod_nonneg (t + step / 2) (show step ≠ 0 by omega)
  have hhigh := Int.emod_lt_of_pos (t + step / 2) hstep
  unfold roundTo
  omega

/-- `roundTo` yields the nearest multiple. -/
theorem roundTo_nearest (t : Int) : Nearest step t (roundTo step t) := by
  obtain ⟨hlow, hhigh⟩ := roundTo_bounds hstep t
  exact ⟨Int.dvd_mul_left _ step, by omega⟩

/-- A multiple of the step stays where it is. -/
theorem roundTo_of_dvd {t : Int} (h : step ∣ t) : roundTo step t = t := by
  obtain ⟨k, rfl⟩ := h
  have hhalf : step / 2 / step = 0 := Int.ediv_eq_zero_of_lt (by omega) (by omega)
  rw [roundTo, Int.add_comm, Int.add_mul_ediv_left _ _ (by omega), hhalf, Int.zero_add,
    Int.mul_comm]

/-- The order of two ticks is kept, though they may fall together. -/
theorem roundTo_mono {s t : Int} (h : s ≤ t) : roundTo step s ≤ roundTo step t :=
  Int.mul_le_mul_of_nonneg_right (Int.ediv_le_ediv hstep (by omega)) (by omega)

/-- The next integer is rounded to the same multiple or to the next one. -/
theorem roundTo_succ_le (t : Int) : roundTo step (t + 1) ≤ roundTo step t + step := by
  have hnext : roundTo step (t + step) = roundTo step t + step := by
    rw [roundTo, Int.add_right_comm, Int.add_ediv_of_dvd_right (Int.dvd_refl step),
      Int.ediv_self (by omega), Int.add_mul, Int.one_mul, roundTo]
  rw [← hnext]
  exact roundTo_mono hstep (by omega)

end

/-- Two multiples are a whole step apart. -/
theorem add_le_of_dvd {step x y : Int} (hx : step ∣ x) (hy : step ∣ y) (h : x < y) :
    x + step ≤ y := by
  have hsub : step ≤ y - x := Int.le_of_dvd (by omega) (Int.dvd_sub hy hx)
  omega

end AiMidi.Lib
