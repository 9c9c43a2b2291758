import AiMidi.Dsp.BiquadFilter
import AiMidi.Lib.QuadraticPoles
import AiMidi.Proofs.Dsp.SteadyState
import Mathlib.Analysis.SpecialFunctions.Pow.Real
import Mathlib.Analysis.SpecialFunctions.Trigonometric.Basic

/-!
# `AiMidi.Proofs.Dsp.FilterDesigns`: the designs are stable and have the gains of their names

For a cutoff below half the sample rate and a positive quality, every design has its poles inside
the unit circle. At frequency zero, at half the sample rate and at the cutoff it has the gain that
its name promises: a low pass passes the first and stops the second, a peak raises the cutoff by
`A²` and leaves the ends, a shelf raises one end by `A²` and the cutoff by `A`.

The numbers are real. Every design is a `Prototype`: a fraction of two quadratics that are written
by the sum and the difference of their outer coefficients. The results are proved about these.

The coefficients that the code computes are those of the prototype (`apply_eq`). Stability follows
by the criterion of Jury (`Damped.stable`), and the gains by the transfer function at three points
of the unit circle (`Damped.transfer_one`, `Damped.transfer_neg_one`, `Damped.transfer_circle`).
`design_response` says what this means for the samples that a filter at rest returns.
-/

set_option autoImplicit false

namespace AiMidi.Proofs.Dsp

open AiMidi.Lib AiMidi.Dsp Filter

noncomputable section

/-- `<cmath>` on the real numbers. -/
def realElementary : Elementary ℝ where
  lit q := q
  pi := Real.pi
  sin := Real.sin
  cos := Real.cos
  sqrt := Real.sqrt
  pow := fun x y => x ^ y

/-- A call of one of the design functions. -/
inductive Design where
  | lowPass (sampleRate cutoff q : ℝ)
  | highPass (sampleRate cutoff q : ℝ)
  | bandPass (sampleRate cutoff q : ℝ)
  | notch (sampleRate cutoff q : ℝ)
  | peak (sampleRate cutoff gain q : ℝ)
  | lowShelf (sampleRate cutoff gain q : ℝ)
  | highShelf (sampleRate cutoff gain q : ℝ)

namespace Design

/-- The setter of a design, over the real numbers. -/
def apply (f : BiquadFilter ℝ) : Design → BiquadFilter ℝ
  | lowPass sampleRate cutoff q        => f.setLowPass realElementary sampleRate cutoff q
  | highPass sampleRate cutoff q       => f.setHighPass realElementary sampleRate cutoff q
  | bandPass sampleRate cutoff q       => f.setBandPass realElementary sampleRate cutoff q
  | notch sampleRate cutoff q          => f.setNotch realElementary sampleRate cutoff q
  | peak sampleRate cutoff gain q      => f.setPeak realElementary sampleRate cutoff gain q
  | lowShelf sampleRate cutoff gain q  => f.setLowShelf realElementary sampleRate cutoff gain q
  | highShelf sampleRate cutoff gain q => f.setHighShelf realElementary sampleRate cutoff gain q

/-- A cutoff between zero and half the sample rate, and a positive quality. -/
def InBand (sampleRate cutoff q : ℝ) : Prop := 0 < cutoff ∧ 2 * cutoff < sampleRate ∧ 0 < q

/-- The amplitude of a gain in decibels: its square is the gain of a shelf. -/
def amplitude (gain : ℝ) : ℝ := (10 : ℝ) ^ (gain / 40)

/-- The arguments of a design. A shelf needs a slope for which its root is defined. -/
def Valid : Design → Prop
  | lowPass sampleRate cutoff q  => InBand sampleRate cutoff q
  | highPass sampleRate cutoff q => InBand sampleRate cutoff q
  | bandPass sampleRate cutoff q => InBand sampleRate cutoff q
  | notch sampleRate cutoff q    => InBand sampleRate cutoff q
  | peak sampleRate cutoff _ q   => InBand sampleRate cutoff q
  | lowShelf sampleRate cutoff gain q | highShelf sampleRate cutoff gain q =>
      InBand sampleRate cutoff q ∧
        0 < (amplitude gain + 1 / amplitude gain) * (1 / q - 1) + 2

/-- The gain for a constant input. -/
def lowGain : Design → ℝ
  | lowPass ..            => 1
  | highPass ..           => 0
  | bandPass ..           => 0
  | notch ..              => 1
  | peak ..               => 1
  | lowShelf _ _ gain _   => amplitude gain ^ 2
  | highShelf ..          => 1

/-- The gain at half the sample rate. -/
def highGain : Design → ℝ
  | lowPass ..            => 0
  | highPass ..           => 1
  | bandPass ..           => 0
  | notch ..              => 1
  | peak ..               => 1
  | lowShelf ..           => 1
  | highShelf _ _ gain _  => amplitude gain ^ 2

/-- The gain at the cutoff. -/
def cutoffGain : Design → ℝ
  | lowPass _ _ q | highPass _ _ q                  => q
  | bandPass ..                                     => 1
  | notch ..                                        => 0
  | peak _ _ gain _                                 => amplitude gain ^ 2
  | lowShelf _ _ gain _ | highShelf _ _ gain _      => amplitude gain

/-- The angle of the cutoff on the unit circle. -/
def angle : Design → ℝ
  | lowPass sampleRate cutoff _ | highPass sampleRate cutoff _ | bandPass sampleRate cutoff _
  | notch sampleRate cutoff _ | peak sampleRate cutoff _ _ | lowShelf sampleRate cutoff _ _
  | highShelf sampleRate cutoff _ _ => 2 * Real.pi * cutoff / sampleRate

end Design

/-! ### Prototypes

A prototype has fewer parameters than a filter has coefficients. At the three frequencies of
interest its transfer is a fraction of simple sums. -/

/-- The fraction of `u + v`, `w`, `u - v` over `p + β`, `m`, `p - β`. -/
structure Prototype where
  u : ℝ
  v : ℝ
  w : ℝ
  p : ℝ
  β : ℝ
  m : ℝ

namespace Prototype

/-- The filter of a prototype: all coefficients are divided by the first one below the line. -/
def filter (P : Prototype) (f : BiquadFilter ℝ) : BiquadFilter ℝ :=
  f.setCoefficients ((P.u + P.v) / (P.p + P.β)) (P.w / (P.p + P.β)) ((P.u - P.v) / (P.p + P.β))
    (P.m / (P.p + P.β)) ((P.p - P.β) / (P.p + P.β))

/-- A positive damping, and a middle coefficient below the sum of the outer ones. -/
structure Damped (P : Prototype) : Prop where
  β_pos : 0 < P.β
  pos_at_one : 0 < 2 * P.p + P.m
  pos_at_neg_one : 0 < 2 * P.p - P.m

section

variable {P : Prototype} (h : P.Damped) (f : BiquadFilter ℝ)
include h

/-- The common divisor of the coefficients is positive. -/
theorem Damped.pos : 0 < P.p + P.β := by
  have := h.β_pos
  have := h.pos_at_one
  have := h.pos_at_neg_one
  linarith

/-- A damped prototype is stable: its coefficients meet the criterion of Jury, and so the poles lie
inside the unit circle. -/
theorem Damped.stable : Stable (P.filter f) := by
  have hpos := h.pos
  have hjury : Jury (P.m / (P.p + P.β)) ((P.p - P.β) / (P.p + P.β)) := by
    -- The criterion asks for three signs: of the last coefficient and of the values at `1` and
    -- `-1`.
    refine ⟨?_, ?_, ?_⟩
    · rw [div_lt_one hpos]
      linarith [h.β_pos]
    · have heq : 1 + P.m / (P.p + P.β) + (P.p - P.β) / (P.p + P.β)
          = (2 * P.p + P.m) / (P.p + P.β) := by
        field_simp
        ring
      rw [heq]
      exact div_pos h.pos_at_one hpos
    · have heq : 1 - P.m / (P.p + P.β) + (P.p - P.β) / (P.p + P.β)
          = (2 * P.p - P.m) / (P.p + P.β) := by
        field_simp
        ring
      rw [heq]
      exact div_pos h.pos_at_neg_one hpos
  intro z hz
  exact hjury.norm_lt_one hz

/-- The common divisor cancels. -/
theorem Damped.transfer_eq (d : ℂ) :
    transfer (P.filter f) d = (P.u + P.v + P.w * d + (P.u - P.v) * d ^ 2)
      / (P.p + P.β + P.m * d + (P.p - P.β) * d ^ 2) := by
  have hne : (P.p + P.β : ℂ) ≠ 0 := by
    have := h.pos.ne'
    exact_mod_cast this
  show (((P.u + P.v) / (P.p + P.β) : ℝ) + ((P.w / (P.p + P.β) : ℝ) : ℂ) * d
      + (((P.u - P.v) / (P.p + P.β) : ℝ) : ℂ) * d ^ 2)
    / (1 + ((P.m / (P.p + P.β) : ℝ) : ℂ) * d + (((P.p - P.β) / (P.p + P.β) : ℝ) : ℂ) * d ^ 2) = _
  push_cast
  rw [← mul_div_mul_left _ _ hne]
  congr 1
  · field_simp
  · field_simp

/-- The transfer at frequency zero: the sums of the coefficients. -/
theorem Damped.transfer_one :
    transfer (P.filter f) 1 = ((2 * P.u + P.w) / (2 * P.p + P.m) : ℝ) := by
  rw [h.transfer_eq f]
  push_cast
  congr 1
  · ring
  · ring

/-- The transfer at half the sample rate: the sums with alternating signs. -/
theorem Damped.transfer_neg_one :
    transfer (P.filter f) (-1) = ((2 * P.u - P.w) / (2 * P.p - P.m) : ℝ) := by
  rw [h.transfer_eq f]
  push_cast
  congr 1
  · ring
  · ring

/-- At a point of the unit circle, half a turn back: the outer coefficients give a real part by
their sum and an imaginary part by their difference. -/
theorem Damped.transfer_circle (θ : ℝ) :
    transfer (P.filter f) (Complex.exp (-θ * Complex.I))
      = (2 * P.u * Real.cos θ + P.w + 2 * P.v * Real.sin θ * Complex.I)
        / (2 * P.p * Real.cos θ + P.m + 2 * P.β * Real.sin θ * Complex.I) := by
  have hexp : Complex.exp (-θ * Complex.I) = Real.cos θ - Real.sin θ * Complex.I := by
    rw [Complex.exp_mul_I, Complex.cos_neg, Complex.sin_neg]
    push_cast
    ring
  have hinv : Complex.exp (θ * Complex.I) = Real.cos θ + Real.sin θ * Complex.I := by
    rw [Complex.exp_mul_I]
    push_cast
    ring
  have hne : Complex.exp (θ * Complex.I) ≠ 0 := Complex.exp_ne_zero _
  have hmul : Complex.exp (θ * Complex.I) * Complex.exp (-θ * Complex.I) = 1 := by
    rw [← Complex.exp_add]
    simp
  -- Multiplied by the point, each polynomial splits into a real and an imaginary part.
  rw [h.transfer_eq f, ← mul_div_mul_left _ _ hne]
  congr 1
  · calc Complex.exp (θ * Complex.I) * (P.u + P.v + P.w * Complex.exp (-θ * Complex.I)
          + (P.u - P.v) * Complex.exp (-θ * Complex.I) ^ 2)
        = (P.u + P.v) * Complex.exp (θ * Complex.I)
          + (Complex.exp (θ * Complex.I) * Complex.exp (-θ * Complex.I))
            * (P.w + (P.u - P.v) * Complex.exp (-θ * Complex.I)) := by ring
      _ = _ := by
        rw [hmul, hexp, hinv]
        ring
  · calc Complex.exp (θ * Complex.I) * (P.p + P.β + P.m * Complex.exp (-θ * Complex.I)
          + (P.p - P.β) * Complex.exp (-θ * Complex.I) ^ 2)
        = (P.p + P.β) * Complex.exp (θ * Complex.I)
          + (Complex.exp (θ * Complex.I) * Complex.exp (-θ * Complex.I))
            * (P.m + (P.p - P.β) * Complex.exp (-θ * Complex.I)) := by ring
      _ = _ := by
        rw [hmul, hexp, hinv]
        ring

/-- The gain at an angle, from the squares of the two parts. -/
theorem Damped.norm_transfer_circle {θ g : ℝ} (hθ : 0 < Real.sin θ) (hg : 0 ≤ g)
    (hsq : (2 * P.u * Real.cos θ + P.w) ^ 2 + (2 * P.v * Real.sin θ) ^ 2
      = g ^ 2 * ((2 * P.p * Real.cos θ + P.m) ^ 2 + (2 * P.β * Real.sin θ) ^ 2)) :
    ‖transfer (P.filter f) (Complex.exp (-θ * Complex.I))‖ = g := by
  have hnorm (a b : ℝ) : ‖(a + b * Complex.I : ℂ)‖ = Real.sqrt (a ^ 2 + b ^ 2) := by
    rw [Complex.norm_add_mul_I]
  have hpos : 0 < (2 * P.p * Real.cos θ + P.m) ^ 2 + (2 * P.β * Real.sin θ) ^ 2 := by
    have := h.β_pos
    positivity
  rw [h.transfer_circle f, norm_div]
  -- Numerator and denominator are given by their real and imaginary parts.
  have hnum : ‖(2 * P.u * Real.cos θ + P.w + 2 * P.v * Real.sin θ * Complex.I : ℂ)‖
      = Real.sqrt ((2 * P.u * Real.cos θ + P.w) ^ 2 + (2 * P.v * Real.sin θ) ^ 2) := by
    rw [← hnorm]
    push_cast
    rfl
  have hden : ‖(2 * P.p * Real.cos θ + P.m + 2 * P.β * Real.sin θ * Complex.I : ℂ)‖
      = Real.sqrt ((2 * P.p * Real.cos θ + P.m) ^ 2 + (2 * P.β * Real.sin θ) ^ 2) := by
    rw [← hnorm]
    push_cast
    rfl
  rw [hnum, hden, hsq, Real.sqrt_mul (sq_nonneg g), Real.sqrt_sq hg]
  exact mul_div_cancel_right₀ g (Real.sqrt_pos.mpr hpos).ne'

end

end Prototype

/-! ### The prototypes of the designs

Each design divides its coefficients by the first one of the denominator. The prototype is the
design before this division, and five of the designs share one denominator. -/

namespace Design

/-- Of a cutoff with the cosine `c` and the damping `α`. -/
def resonant (c α : ℝ) (u v w : ℝ) : Prototype := ⟨u, v, w, 1, α, -2 * c⟩

/-- The low shelf, with its coefficients not yet divided. -/
def lowShelfPrototype (c A β : ℝ) : Prototype where
  u := A * ((A + 1) - (A - 1) * c)
  v := A * β
  w := 2 * A * ((A - 1) - (A + 1) * c)
  p := (A + 1) + (A - 1) * c
  β := β
  m := -2 * ((A - 1) + (A + 1) * c)

/-- The high shelf, likewise. -/
def highShelfPrototype (c A β : ℝ) : Prototype where
  u := A * ((A + 1) + (A - 1) * c)
  v := A * β
  w := -2 * A * ((A - 1) + (A + 1) * c)
  p := (A + 1) - (A - 1) * c
  β := β
  m := 2 * ((A - 1) - (A + 1) * c)

/-- The damping of a shelf. -/
def shelfDamping (s A q : ℝ) : ℝ :=
  2 * Real.sqrt A * (s / 2 * Real.sqrt ((A + 1 / A) * (1 / q - 1) + 2))

/-- The prototype of a design. Five of them share the resonant denominator. -/
def prototype (d : Design) : Prototype :=
  let c := Real.cos d.angle
  let s := Real.sin d.angle
  match d with
  | lowPass _ _ q            => resonant c (s / (2 * q)) ((1 - c) / 2) 0 (1 - c)
  | highPass _ _ q           => resonant c (s / (2 * q)) ((1 + c) / 2) 0 (-(1 + c))
  | bandPass _ _ q           => resonant c (s / (2 * q)) 0 (s / (2 * q)) 0
  | notch _ _ q              => resonant c (s / (2 * q)) 1 0 (-2 * c)
  | peak _ _ gain q          =>
      resonant c (s / (2 * q) / amplitude gain) 1 (s / (2 * q) * amplitude gain) (-2 * c)
  | lowShelf _ _ gain q      =>
      lowShelfPrototype c (amplitude gain) (shelfDamping s (amplitude gain) q)
  | highShelf _ _ gain q     =>
      highShelfPrototype c (amplitude gain) (shelfDamping s (amplitude gain) q)

/-- The coefficients that the code computes are those of the prototype. -/
theorem apply_eq (f : BiquadFilter ℝ) (d : Design) : d.apply f = d.prototype.filter f := by
  cases d <;>
    simp only [apply, prototype, Prototype.filter, resonant, lowShelfPrototype, highShelfPrototype,
      shelfDamping, angle, amplitude, BiquadFilter.setLowPass, BiquadFilter.setHighPass,
      BiquadFilter.setBandPass, BiquadFilter.setNotch, BiquadFilter.setPeak,
      BiquadFilter.setLowShelf, BiquadFilter.setHighShelf, BiquadFilter.setCoefficients,
      realElementary, BiquadFilter.mk.injEq, and_true] <;>
    push_cast <;>
    refine ⟨?_, ?_, ?_, ?_, ?_⟩ <;>
    ring

end Design

/-! ### The results for every design

The cutoff is an angle strictly between zero and half a turn, so its sine is positive. From this the
damping is positive, and the gains follow by computing with the prototype. -/

section

variable {sampleRate cutoff q : ℝ}

/-- The cutoff lies in the upper half of the circle. -/
theorem inBand_sin_pos (h : Design.InBand sampleRate cutoff q) :
    0 < Real.sin (2 * Real.pi * cutoff / sampleRate) := by
  obtain ⟨hcutoff, hrate, -⟩ := h
  have hpos : 0 < sampleRate := by linarith
  have hlt : 2 * Real.pi * cutoff / sampleRate < Real.pi := by
    rw [div_lt_iff₀ hpos]
    nlinarith [Real.pi_pos]
  exact Real.sin_pos_of_pos_of_lt_pi (by positivity) hlt

end

namespace Design

/-- Every gain in decibels is a positive amplitude. -/
theorem amplitude_pos (gain : ℝ) : 0 < amplitude gain := Real.rpow_pos_of_pos (by norm_num) _

/-- A cutoff below half the sample rate has a positive sine. -/
theorem Valid.sin_pos {d : Design} (h : d.Valid) : 0 < Real.sin d.angle := by
  cases d with
  | lowPass | highPass | bandPass | notch | peak => exact inBand_sin_pos h
  | lowShelf | highShelf                         => exact inBand_sin_pos h.1

/-- Its cosine lies strictly between `-1` and `1`. -/
theorem Valid.cos_bounds {d : Design} (h : d.Valid) :
    0 < 1 - Real.cos d.angle ∧ 0 < 1 + Real.cos d.angle := by
  have hsin := h.sin_pos
  have hsq := Real.sin_sq_add_cos_sq d.angle
  exact ⟨by nlinarith, by nlinarith⟩

/-- The resonant denominator is damped by a positive `α`. -/
theorem resonant_damped {c α u v w : ℝ} (hc : 0 < 1 - c ∧ 0 < 1 + c) (hα : 0 < α) :
    (resonant c α u v w).Damped where
  β_pos := hα
  pos_at_one := by
    show 0 < 2 * 1 + -2 * c
    linarith [hc.1]
  pos_at_neg_one := by
    show 0 < 2 * 1 - -2 * c
    linarith [hc.2]

/-- The low shelf is damped. -/
theorem lowShelf_damped {c A β : ℝ} (hc : 0 < 1 - c ∧ 0 < 1 + c) (hA : 0 < A) (hβ : 0 < β) :
    (lowShelfPrototype c A β).Damped where
  β_pos := hβ
  pos_at_one := by
    show 0 < 2 * ((A + 1) + (A - 1) * c) + -2 * ((A - 1) + (A + 1) * c)
    linarith [hc.1]
  pos_at_neg_one := by
    show 0 < 2 * ((A + 1) + (A - 1) * c) - -2 * ((A - 1) + (A + 1) * c)
    nlinarith [mul_pos hA hc.2]

/-- The high shelf is, by the same bounds. -/
theorem highShelf_damped {c A β : ℝ} (hc : 0 < 1 - c ∧ 0 < 1 + c) (hA : 0 < A) (hβ : 0 < β) :
    (highShelfPrototype c A β).Damped where
  β_pos := hβ
  pos_at_one := by
    show 0 < 2 * ((A + 1) - (A - 1) * c) + 2 * ((A - 1) - (A + 1) * c)
    nlinarith [mul_pos hA hc.1]
  pos_at_neg_one := by
    show 0 < 2 * ((A + 1) - (A - 1) * c) - 2 * ((A - 1) - (A + 1) * c)
    linarith [hc.2]

/-- The root of a shelf is defined, so its damping is positive. -/
theorem shelfDamping_pos {s A q : ℝ} (hs : 0 < s) (hA : 0 < A)
    (hroot : 0 < (A + 1 / A) * (1 / q - 1) + 2) : 0 < shelfDamping s A q := by
  have := Real.sqrt_pos.mpr hA
  have := Real.sqrt_pos.mpr hroot
  unfold shelfDamping
  positivity

/-- The prototype of every valid design is damped. -/
theorem Valid.damped {d : Design} (h : d.Valid) : d.prototype.Damped := by
  have hs := h.sin_pos
  have hc := h.cos_bounds
  cases d with
  | lowPass sampleRate cutoff q | highPass sampleRate cutoff q | bandPass sampleRate cutoff q
  | notch sampleRate cutoff q =>
    have hq : 0 < q := h.2.2
    exact resonant_damped hc (div_pos hs (by linarith))
  | peak sampleRate cutoff gain q =>
    have hq : 0 < q := h.2.2
    exact resonant_damped hc (div_pos (div_pos hs (by linarith)) (amplitude_pos gain))
  | lowShelf sampleRate cutoff gain q =>
    exact lowShelf_damped hc (amplitude_pos gain) (shelfDamping_pos hs (amplitude_pos gain) h.2)
  | highShelf sampleRate cutoff gain q =>
    exact highShelf_damped hc (amplitude_pos gain) (shelfDamping_pos hs (amplitude_pos gain) h.2)

/-- The gain at frequency zero. -/
theorem Valid.gain_low {d : Design} (h : d.Valid) :
    (2 * d.prototype.u + d.prototype.w) / (2 * d.prototype.p + d.prototype.m) = d.lowGain := by
  have hc := h.cos_bounds
  rw [div_eq_iff h.damped.pos_at_one.ne']
  cases d <;>
    simp only [prototype, resonant, lowShelfPrototype, highShelfPrototype, lowGain] <;>
    ring

/-- The gain at half the sample rate. -/
theorem Valid.gain_high {d : Design} (h : d.Valid) :
    (2 * d.prototype.u - d.prototype.w) / (2 * d.prototype.p - d.prototype.m) = d.highGain := by
  have hc := h.cos_bounds
  rw [div_eq_iff h.damped.pos_at_neg_one.ne']
  cases d <;>
    simp only [prototype, resonant, lowShelfPrototype, highShelfPrototype, highGain] <;>
    ring

/-- No design turns the signal round at its cutoff. -/
theorem Valid.cutoffGain_nonneg {d : Design} (h : d.Valid) : 0 ≤ d.cutoffGain := by
  cases d with
  | lowPass | highPass => exact h.2.2.le
  | bandPass => exact zero_le_one
  | notch => exact le_rfl
  | peak => exact sq_nonneg _
  | lowShelf sampleRate cutoff gain q => exact (amplitude_pos gain).le
  | highShelf sampleRate cutoff gain q => exact (amplitude_pos gain).le

/-- At the cutoff the real part of the denominator is zero, but for a shelf, where the two parts of
the numerator are `A` times those of the denominator up to the sign. -/
theorem Valid.gain_cutoff {d : Design} (h : d.Valid) :
    (2 * d.prototype.u * Real.cos d.angle + d.prototype.w) ^ 2
        + (2 * d.prototype.v * Real.sin d.angle) ^ 2
      = d.cutoffGain ^ 2 * ((2 * d.prototype.p * Real.cos d.angle + d.prototype.m) ^ 2
        + (2 * d.prototype.β * Real.sin d.angle) ^ 2) := by
  have hsq := Real.sin_sq d.angle
  have hdamp (t : ℝ) (ht : 0 < t) : 2 * (Real.sin d.angle / (2 * t)) * Real.sin d.angle
      = (1 - Real.cos d.angle ^ 2) / t := by
    rw [← hsq]
    field_simp
  -- Each design has its own numerator; the damping term is rewritten by the sine of the angle.
  cases d with
  | lowPass sampleRate cutoff q =>
    have hq : 0 < q := h.2.2
    simp only [prototype, resonant, cutoffGain, hdamp q hq]
    field_simp
    ring
  | highPass sampleRate cutoff q =>
    have hq : 0 < q := h.2.2
    simp only [prototype, resonant, cutoffGain, hdamp q hq]
    field_simp
    ring
  | bandPass sampleRate cutoff q =>
    simp only [prototype, resonant, cutoffGain]
    ring
  | notch sampleRate cutoff q =>
    simp only [prototype, resonant, cutoffGain]
    ring
  | peak sampleRate cutoff gain q =>
    have hA := (amplitude_pos gain).ne'
    simp only [prototype, resonant, cutoffGain]
    field_simp
    ring
  | lowShelf sampleRate cutoff gain q =>
    simp only [prototype, lowShelfPrototype, cutoffGain, mul_pow, hsq]
    ring
  | highShelf sampleRate cutoff gain q =>
    simp only [prototype, highShelfPrototype, cutoffGain, mul_pow, hsq]
    ring

end Design

/-- Every design whose cutoff lies below half the sample rate is stable, whatever the filter was
before, and its transfer function has the three gains. -/
theorem design_transfer (f : BiquadFilter ℝ) {d : Design} (h : d.Valid) :
    Stable (d.apply f)
      ∧ transfer (d.apply f) 1 = d.lowGain
      ∧ transfer (d.apply f) (-1) = d.highGain
      ∧ ‖transfer (d.apply f) (Complex.exp (-d.angle * Complex.I))‖ = d.cutoffGain := by
  rw [d.apply_eq f]
  refine ⟨h.damped.stable f, ?_, ?_, ?_⟩
  · rw [h.damped.transfer_one f, h.gain_low]
  · rw [h.damped.transfer_neg_one f, h.gain_high]
  · exact h.damped.norm_transfer_circle f h.sin_pos h.cutoffGain_nonneg h.gain_cutoff

/-- A design changes the coefficients only. -/
theorem apply_state (f : BiquadFilter ℝ) (d : Design) :
    (d.apply f).s1 = f.s1 ∧ (d.apply f).s2 = f.s2 := by
  rw [d.apply_eq f]
  exact ⟨rfl, rfl⟩

/-! ### Sinusoids

The response to a sinusoid tends to that sinusoid, multiplied by the transfer at its frequency. The
filter starts at rest, so there is a transient, and it dies out by stability. -/

/-- At frequency zero a wave is constant. -/
theorem wave_one (c : ℝ) (n : ℕ) : wave 1 c n = c := by
  rw [wave, one_pow, mul_one, Complex.ofReal_re]

/-- At half the sample rate it changes its sign with every sample. -/
theorem wave_neg_one (c : ℝ) (n : ℕ) : wave (-1) c n = c * (-1) ^ n := by
  rw [wave, Complex.re_ofReal_mul]
  norm_cast

/-- At any other frequency it is a cosine with the phase of its factor. -/
theorem wave_exp (θ : ℝ) (c : ℂ) (n : ℕ) :
    wave (Complex.exp (θ * Complex.I)) c n = ‖c‖ * Real.cos (θ * n + c.arg) := by
  have hpolar : c * Complex.exp (θ * Complex.I) ^ n
      = (‖c‖ : ℂ) * Complex.exp ((θ * n + c.arg : ℝ) * Complex.I) := by
    nth_rewrite 1 [← Complex.norm_mul_exp_arg_mul_I c]
    rw [← Complex.exp_nat_mul, mul_assoc, ← Complex.exp_add]
    congr 2
    push_cast
    ring
  rw [wave, hpolar, Complex.re_ofReal_mul, Complex.exp_ofReal_mul_I_re]

/-- The `n`-th sample that `process` returns. -/
def response (f : BiquadFilter ℝ) (x : ℕ → ℝ) (n : ℕ) : ℝ := ((after f x n).process id id (x n)).1

/-- A filter at rest that is given a design passes a constant with the low gain, the fastest
oscillation with the high gain, and a sinusoid at the cutoff with the gain of the cutoff and a
change of phase, up to what dies away. -/
theorem design_response (f : BiquadFilter ℝ) (hs1 : f.s1 = 0) (hs2 : f.s2 = 0) (d : Design)
    (h : d.Valid) :
    Tendsto (response (d.apply f) fun _ => 1) atTop (nhds d.lowGain)
      ∧ Tendsto (fun n => response (d.apply f) (fun n => (-1) ^ n) n - d.highGain * (-1) ^ n) atTop
          (nhds 0)
      ∧ ∃ φ, Tendsto (fun n => response (d.apply f) (fun n => Real.cos (d.angle * n)) n
          - d.cutoffGain * Real.cos (d.angle * n + φ)) atTop (nhds 0) := by
  obtain ⟨hstable, hlow, hhigh, hcutoff⟩ := design_transfer f h
  obtain ⟨hrest1, hrest2⟩ := apply_state f d
  -- From rest the output tends to the steady state, which the transfer function scales.
  have hsteady (z : ℂ) (hz : ‖z‖ = 1) :=
    steady_state hstable (hrest1.trans hs1) (hrest2.trans hs2) hz 1
  refine ⟨?_, ?_, ?_⟩
  -- At zero frequency the input is constant.
  · have hinput : wave 1 1 = fun _ => 1 := funext fun n => by exact_mod_cast wave_one 1 n
    have hlimit := hsteady 1 norm_one
    rw [inv_one, hlow, mul_one, hinput] at hlimit
    simp only [wave_one] at hlimit
    exact tendsto_sub_nhds_zero_iff.mp hlimit
  -- At half the sample rate the input alternates.
  · have hinput : wave (-1) 1 = fun n => (-1) ^ n := funext fun n => by
      have := wave_neg_one 1 n
      rwa [Complex.ofReal_one, one_mul] at this
    have hlimit := hsteady (-1) (by rw [norm_neg, norm_one])
    rw [inv_neg, inv_one, hhigh, mul_one, hinput] at hlimit
    simp only [wave_neg_one] at hlimit
    exact hlimit
  -- At the cutoff the input is a cosine, and the response may be shifted.
  · have hinput :
        wave (Complex.exp (d.angle * Complex.I)) 1 = fun n : ℕ => Real.cos (d.angle * n) :=
      funext fun n => by rw [wave_exp, norm_one, Complex.arg_one, one_mul, add_zero]
    have hlimit := hsteady (Complex.exp (d.angle * Complex.I)) (Complex.norm_exp_ofReal_mul_I _)
    rw [← Complex.exp_neg, ← neg_mul, mul_one, hinput] at hlimit
    simp only [wave_exp, hcutoff] at hlimit
    exact ⟨_, hlimit⟩

/-- A low pass at one kilohertz, on a new filter. -/
theorem design_response_lowPass : Tendsto (response ((Design.lowPass 48000 1000 (1 / 2)).apply
    (BiquadFilter.construct realElementary)) fun _ => 1) atTop (nhds 1) := by
  have hvalid : (Design.lowPass 48000 1000 (1 / 2)).Valid := by
    show (0 : ℝ) < 1000 ∧ (2 : ℝ) * 1000 < 48000 ∧ (0 : ℝ) < 1 / 2
    norm_num
  have hzero : realElementary.lit 0 = 0 := Rat.cast_zero
  exact (design_response (BiquadFilter.construct realElementary) hzero hzero _ hvalid).1

end

end AiMidi.Proofs.Dsp
