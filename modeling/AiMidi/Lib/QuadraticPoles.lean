import Mathlib.Analysis.Complex.Norm
import Mathlib.Tactic.Linarith

/-!
# `AiMidi.Lib.QuadraticPoles`: when the zeros of a real quadratic lie inside the unit circle

The criterion of Jury for degree two. A feedback of second order with the characteristic polynomial
`z² + a₁ z + a₂` dies away exactly when all zeros are inside.
-/

set_option autoImplicit false

namespace AiMidi.Lib

/-- The coefficients lie inside the triangle of stability. -/
structure Jury (a₁ a₂ : ℝ) : Prop where
  lt_one : a₂ < 1
  pos_at_one : 0 < 1 + a₁ + a₂
  pos_at_neg_one : 0 < 1 - a₁ + a₂

/-- The zeros on the real line. -/
theorem Jury.real_root {a₁ a₂ : ℝ} (h : Jury a₁ a₂) {r : ℝ} (hr : r ^ 2 + a₁ * r + a₂ = 0) :
    r ^ 2 < 1 := by
  obtain ⟨h2, hone, hneg⟩ := h
  by_contra hge
  have hge : 1 ≤ r ^ 2 := le_of_not_gt hge
  rcases le_total 0 r with hpos | hnonpos
  · -- On the right of 1 the polynomial has not come down again.
    have hr1 : 1 ≤ r := by nlinarith
    have hslope : 0 < r + 1 + a₁ := by linarith
    nlinarith [mul_nonneg (sub_nonneg.mpr hr1) hslope.le]
  · have hr1 : r ≤ -1 := by nlinarith
    have hslope : r - 1 + a₁ < 0 := by linarith
    nlinarith [mul_nonneg_of_nonpos_of_nonpos (by linarith : r + 1 ≤ 0) hslope.le]

/-- All zeros are inside the unit circle. -/
theorem Jury.norm_lt_one {a₁ a₂ : ℝ} (h : Jury a₁ a₂) {z : ℂ}
    (hz : z ^ 2 + a₁ * z + a₂ = 0) : ‖z‖ < 1 := by
  have hre := congrArg Complex.re hz
  have him := congrArg Complex.im hz
  simp only [sq, Complex.add_re, Complex.mul_re, Complex.ofReal_re, Complex.ofReal_im,
    Complex.zero_re, zero_mul, sub_zero] at hre
  simp only [sq, Complex.add_im, Complex.mul_im, Complex.ofReal_re, Complex.ofReal_im,
    Complex.zero_im, zero_mul, add_zero] at him
  have hsq : z.re * z.re + z.im * z.im < 1 := by
    -- A real zero is bounded by the values of the polynomial at 1 and -1.
    by_cases hreal : z.im = 0
    · rw [hreal] at hre ⊢
      have hroot : z.re ^ 2 + a₁ * z.re + a₂ = 0 := by linarith
      have := h.real_root hroot
      linarith
    · -- A zero off the real line comes with its conjugate, and their product is `a₂`.
      have ha₁ : 2 * z.re + a₁ = 0 := by
        have hfactor : (2 * z.re + a₁) * z.im = 0 := by linarith
        exact (mul_eq_zero.mp hfactor).resolve_right hreal
      have ha₁' : a₁ = -2 * z.re := by linarith
      have := h.lt_one
      rw [ha₁'] at hre
      linarith
  rw [Complex.norm_def, Real.sqrt_lt' one_pos, Complex.normSq_apply, one_pow]
  exact hsq

end AiMidi.Lib
