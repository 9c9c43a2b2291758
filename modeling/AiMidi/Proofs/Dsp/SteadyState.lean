import AiMidi.Lib.Recurrence
import AiMidi.Proofs.Dsp.BiquadFilter
import Mathlib.Analysis.Complex.Trigonometric

/-!
# `AiMidi.Proofs.Dsp.SteadyState`: what a stable filter does with a sinusoid

The output of a filter at rest is the response that the transfer function describes, plus a part
that satisfies the recurrence of the feedback alone. When the poles lie inside the unit circle, this
part dies away (`steady_state`).
-/

set_option autoImplicit false

namespace AiMidi.Proofs.Dsp

open AiMidi.Lib AiMidi.Dsp Filter

noncomputable section

/-- The transfer function, in the delay `d` of one sample: `exp (-i θ)` at the angle `θ`. -/
def transfer (f : BiquadFilter ℝ) (d : ℂ) : ℂ :=
  (f.b0 + f.b1 * d + f.b2 * d ^ 2) / (1 + f.a1 * d + f.a2 * d ^ 2)

/-- The poles lie inside the unit circle. -/
def Stable (f : BiquadFilter ℝ) : Prop := ∀ z : ℂ, z ^ 2 + f.a1 * z + f.a2 = 0 → ‖z‖ < 1

/-- A sinusoid that turns by `z` with each sample, from the phase of `c` on. -/
def wave (z c : ℂ) (n : ℕ) : ℝ := (c * z ^ n).re

section

variable {f : BiquadFilter ℝ} {z : ℂ}

/-- On the unit circle the transfer function has no pole. -/
theorem transfer_mul (h : Stable f) (hz : ‖z‖ = 1) :
    transfer f z⁻¹ * (z ^ 2 + f.a1 * z + f.a2) = f.b0 * z ^ 2 + f.b1 * z + f.b2 := by
  have hz0 : z ≠ 0 := by
    rintro rfl
    simp at hz
  -- A zero of the denominator would be a pole on the unit circle.
  have hden : 1 + f.a1 * z⁻¹ + f.a2 * z⁻¹ ^ 2 ≠ 0 := by
    intro hzero
    have hroot : z ^ 2 + f.a1 * z + f.a2 = 0 := by
      have := congrArg (z ^ 2 * ·) hzero
      simp only [mul_zero] at this
      rw [← this]
      field_simp
    exact absurd (h z hroot) (by rw [hz]; exact lt_irrefl 1)
  have hfactor : z ^ 2 + f.a1 * z + f.a2 = z ^ 2 * (1 + f.a1 * z⁻¹ + f.a2 * z⁻¹ ^ 2) := by
    field_simp
  rw [transfer, hfactor, div_mul_eq_mul_div, div_eq_iff hden]
  field_simp

/-- The response that the transfer function describes satisfies the difference equation. -/
theorem wave_response (h : Stable f) (hz : ‖z‖ = 1) (c : ℂ) (n : ℕ) :
    wave z (transfer f z⁻¹ * c) (n + 2) + f.a1 * wave z (transfer f z⁻¹ * c) (n + 1)
        + f.a2 * wave z (transfer f z⁻¹ * c) n
      = f.b0 * wave z c (n + 2) + f.b1 * wave z c (n + 1) + f.b2 * wave z c n := by
  have hcomplex : transfer f z⁻¹ * c * z ^ (n + 2) + f.a1 * (transfer f z⁻¹ * c * z ^ (n + 1))
        + f.a2 * (transfer f z⁻¹ * c * z ^ n)
      = f.b0 * (c * z ^ (n + 2)) + f.b1 * (c * z ^ (n + 1)) + f.b2 * (c * z ^ n) := by
    linear_combination c * z ^ n * transfer_mul h hz
  have hre := congrArg Complex.re hcomplex
  simp only [Complex.add_re, Complex.re_ofReal_mul] at hre
  exact hre

/-- What is left of the output dies away. -/
theorem steady_state (h : Stable f) (hs1 : f.s1 = 0) (hs2 : f.s2 = 0) (hz : ‖z‖ = 1) (c : ℂ) :
    Tendsto (fun n => (after f (wave z c) n).output (wave z c n) - wave z (transfer f z⁻¹ * c) n)
      atTop (nhds 0) := by
  -- The error meets the recurrence of the filter without input, and that dies out.
  have hrec (n : ℕ) :
      ((directForm f (wave z c) (n + 2) - wave z (transfer f z⁻¹ * c) (n + 2) : ℝ) : ℂ)
      + f.a1 * ((directForm f (wave z c) (n + 1) - wave z (transfer f z⁻¹ * c) (n + 1) : ℝ) : ℂ)
      + f.a2 * ((directForm f (wave z c) n - wave z (transfer f z⁻¹ * c) n : ℝ) : ℂ) = 0 := by
    have hresponse := wave_response h hz c n
    rw [directForm]
    norm_cast
    linarith
  have hlimit := tendsto_zero_of_recurrence h
    (e := fun n => ((directForm f (wave z c) n - wave z (transfer f z⁻¹ * c) n : ℝ) : ℂ)) hrec
  have hreal := (Complex.continuous_re.tendsto 0).comp hlimit
  refine hreal.congr fun n => ?_
  rw [output_eq_directForm hs1 hs2]
  rfl

end

end

end AiMidi.Proofs.Dsp
