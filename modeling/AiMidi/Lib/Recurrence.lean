import Mathlib.Analysis.CStarAlgebra.Classes
import Mathlib.Analysis.SpecificLimits.Normed
import Mathlib.Analysis.Complex.Polynomial.Basic
import Mathlib.Tactic.LinearCombination

/-!
# `AiMidi.Lib.Recurrence`: a linear recurrence of second order dies away

When the zeros of the characteristic polynomial lie inside the unit circle, every solution of the
recurrence tends to zero. The recurrence is two of first order after each other, one for each zero:
the second one is fed with what the first leaves over (`norm_le_of_driven`).
-/

set_option autoImplicit false

namespace AiMidi.Lib

open Filter

/-- A recurrence of first order that is fed with a decaying sequence. -/
theorem norm_le_of_driven {r ρ K : ℝ} {e : ℕ → ℂ} {s : ℂ} (hs : ‖s‖ ≤ ρ) (hr : r ≤ ρ) (hr0 : 0 ≤ r)
    (hK : 0 ≤ K) (h : ∀ n, ‖e (n + 1) - s * e n‖ ≤ K * r ^ n) (n : ℕ) :
    ‖e (n + 1)‖ ≤ ‖e 0‖ * ρ ^ (n + 1) + K * ((n + 1) * ρ ^ n) := by
  have hρ : 0 ≤ ρ := hr0.trans hr
  have hstep (n : ℕ) : ‖e (n + 1)‖ ≤ ρ * ‖e n‖ + K * ρ ^ n := by
    calc ‖e (n + 1)‖ = ‖s * e n + (e (n + 1) - s * e n)‖ := by rw [add_sub_cancel]
      _ ≤ ‖s * e n‖ + ‖e (n + 1) - s * e n‖ := norm_add_le _ _
      _ ≤ ρ * ‖e n‖ + K * ρ ^ n := by
        rw [norm_mul]
        have hpow : K * r ^ n ≤ K * ρ ^ n :=
          mul_le_mul_of_nonneg_left (pow_le_pow_left₀ hr0 hr n) hK
        exact add_le_add (mul_le_mul_of_nonneg_right hs (norm_nonneg _)) ((h n).trans hpow)
  -- Each step adds one term of the geometric bound, so the factor grows with `n`.
  induction n with
  | zero =>
    have := hstep 0
    simp only [pow_zero, Nat.cast_zero, pow_one, zero_add] at this ⊢
    linarith
  | succ n ih =>
    calc ‖e (n + 1 + 1)‖ ≤ ρ * ‖e (n + 1)‖ + K * ρ ^ (n + 1) := hstep (n + 1)
      _ ≤ ρ * (‖e 0‖ * ρ ^ (n + 1) + K * ((n + 1) * ρ ^ n)) + K * ρ ^ (n + 1) :=
        add_le_add_left (mul_le_mul_of_nonneg_left ih hρ) _
      _ = ‖e 0‖ * ρ ^ (n + 1 + 1) + K * (((n + 1 : ℕ) + 1) * ρ ^ (n + 1)) := by
        push_cast
        ring

/-- Every solution tends to zero. -/
theorem tendsto_zero_of_recurrence {a₁ a₂ : ℂ} (h : ∀ z : ℂ, z ^ 2 + a₁ * z + a₂ = 0 → ‖z‖ < 1)
    {e : ℕ → ℂ} (he : ∀ n, e (n + 2) + a₁ * e (n + 1) + a₂ * e n = 0) :
    Tendsto e atTop (nhds 0) := by
  -- The zeros are those of the formula.
  obtain ⟨w, hw⟩ := IsAlgClosed.exists_pow_nat_eq (a₁ ^ 2 - 4 * a₂) (n := 2) (by decide)
  have hr : ‖(-a₁ + w) / 2‖ < 1 := h _ (by linear_combination hw / 4)
  have hs : ‖(-a₁ - w) / 2‖ < 1 := h _ (by linear_combination hw / 4)
  generalize hrdef : (-a₁ + w) / 2 = r at hr
  generalize hsdef : (-a₁ - w) / 2 = s at hs
  have hdriven (n : ℕ) : ‖e (n + 1) - s * e n‖ ≤ ‖e 1 - s * e 0‖ * ‖r‖ ^ n := by
    induction n with
    | zero => rw [pow_zero, mul_one]
    | succ n ih =>
      have hstep : e (n + 2) - s * e (n + 1) = r * (e (n + 1) - s * e n) := by
        rw [← hrdef, ← hsdef]
        linear_combination he n + (-e n / 4) * hw
      calc ‖e (n + 1 + 1) - s * e (n + 1)‖ = ‖r‖ * ‖e (n + 1) - s * e n‖ := by
            rw [hstep, norm_mul]
        _ ≤ ‖r‖ * (‖e 1 - s * e 0‖ * ‖r‖ ^ n) := mul_le_mul_of_nonneg_left ih (norm_nonneg r)
        _ = ‖e 1 - s * e 0‖ * ‖r‖ ^ (n + 1) := by ring
  have hbound := norm_le_of_driven (le_max_right ‖r‖ ‖s‖) (le_max_left ‖r‖ ‖s‖) (norm_nonneg r)
    (norm_nonneg _) hdriven
  have hρ0 : 0 ≤ max ‖r‖ ‖s‖ := (norm_nonneg r).trans (le_max_left _ _)
  have hρ1 : max ‖r‖ ‖s‖ < 1 := max_lt hr hs
  generalize max ‖r‖ ‖s‖ = ρ at hbound hρ0 hρ1
  have hlimit : Tendsto (fun n : ℕ => ‖e 0‖ * ρ ^ (n + 1) + ‖e 1 - s * e 0‖ * ((n + 1) * ρ ^ n))
      atTop (nhds 0) := by
    have hpow := tendsto_pow_atTop_nhds_zero_of_lt_one hρ0 hρ1
    have hmul := tendsto_self_mul_const_pow_of_lt_one hρ0 hρ1
    have hsum := ((hpow.comp (tendsto_add_atTop_nat 1)).const_mul ‖e 0‖).add
      ((hmul.add hpow).const_mul ‖e 1 - s * e 0‖)
    simp only [mul_zero, add_zero] at hsum
    refine hsum.congr fun n => ?_
    rw [Function.comp_apply]
    ring
  have htail : Tendsto (fun n => e (n + 1)) atTop (nhds 0) :=
    squeeze_zero_norm hbound hlimit
  exact (tendsto_add_atTop_iff_nat 1).mp htail

end AiMidi.Lib
