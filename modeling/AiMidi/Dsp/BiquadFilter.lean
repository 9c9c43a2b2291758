import Mathlib.Data.Rat.Defs

/-!
# `AiMidi.Dsp.BiquadFilter`: a filter of second order, and its designs

`process` is one step of the transposed direct form II: two state variables carry what the past
contributes to the next sample. The samples `F` are `float` and the arithmetic is on `double`, here
any type `D` with the operations. `widen` and `narrow` are the casts between the two.

The designs compute the five coefficients from a cutoff frequency, a quality and a gain.
-/

set_option autoImplicit false

namespace AiMidi.Dsp

/-- The functions of `<cmath>`, and the literals. -/
structure Elementary (D : Type) where
  lit : Rat → D
  pi : D
  sin : D → D
  cos : D → D
  sqrt : D → D
  pow : D → D → D

/-- The five coefficients, with `a0` divided out, and the two state variables. -/
structure BiquadFilter (D : Type) where
  b0 : D
  b1 : D
  b2 : D
  a1 : D
  a2 : D
  s1 : D
  s2 : D

namespace BiquadFilter

section

variable {D : Type}

/-- `BiquadFilter()`: it lets every sample through. -/
def construct (e : Elementary D) : BiquadFilter D :=
  ⟨e.lit 1, e.lit 0, e.lit 0, e.lit 0, e.lit 0, e.lit 0, e.lit 0⟩

/-- `setCoefficients`. The state variables stay as they are. -/
def setCoefficients (f : BiquadFilter D) (b0 b1 b2 a1 a2 : D) : BiquadFilter D :=
  { f with b0, b1, b2, a1, a2 }

/-- `reset`: a filter at rest. -/
def reset (e : Elementary D) (f : BiquadFilter D) : BiquadFilter D :=
  { f with s1 := e.lit 0, s2 := e.lit 0 }

variable [Add D] [Sub D] [Mul D]

/-! ### Processing -/

/-- The output before it is narrowed. -/
def output (f : BiquadFilter D) (x : D) : D := f.b0 * x + f.s1

/-- The state for the next sample. It is computed from the output that is not narrowed. -/
def advance (f : BiquadFilter D) (x : D) : BiquadFilter D :=
  let y := f.output x
  { f with s1 := f.b1 * x - f.a1 * y + f.s2, s2 := f.b2 * x - f.a2 * y }

section

variable {F : Type} (widen : F → D) (narrow : D → F)

/-- `process` for one sample, which is widened to `double` and narrowed again. -/
def process (f : BiquadFilter D) (sample : F) : F × BiquadFilter D :=
  (narrow (f.output (widen sample)), f.advance (widen sample))

/-- `processBlock`: the samples that replace those of the block. -/
def processBlock (f : BiquadFilter D) : List F → List F × BiquadFilter D
  | []                => ([], f)
  | sample :: samples =>
      let (y, f) := f.process widen narrow sample
      let (ys, f) := f.processBlock samples
      (y :: ys, f)

end

/-! ### Designs

The formulas are those of the source, from the cosine and the sine of the cutoff on. Every design
ends in `setCoefficients`, which divides by `a0`. -/

variable [Div D] [Neg D] (e : Elementary D)

/-- `setLowPass`. -/
def setLowPass (f : BiquadFilter D) (sampleRate cutoff q : D) : BiquadFilter D :=
  let w0 := e.lit 2 * e.pi * cutoff / sampleRate
  let cosW := e.cos w0
  let sinW := e.sin w0
  let alpha := sinW / (e.lit 2 * q)
  let norm := e.lit 1 / (e.lit 1 + alpha)
  f.setCoefficients
    ((e.lit 1 - cosW) * e.lit 0.5 * norm)
    ((e.lit 1 - cosW) * norm)
    ((e.lit 1 - cosW) * e.lit 0.5 * norm)
    (-e.lit 2 * cosW * norm)
    ((e.lit 1 - alpha) * norm)

/-- `setHighPass`, with `1 + cosW` where the low pass has `1 - cosW`. -/
def setHighPass (f : BiquadFilter D) (sampleRate cutoff q : D) : BiquadFilter D :=
  let w0 := e.lit 2 * e.pi * cutoff / sampleRate
  let cosW := e.cos w0
  let sinW := e.sin w0
  let alpha := sinW / (e.lit 2 * q)
  let norm := e.lit 1 / (e.lit 1 + alpha)
  f.setCoefficients
    ((e.lit 1 + cosW) * e.lit 0.5 * norm)
    (-(e.lit 1 + cosW) * norm)
    ((e.lit 1 + cosW) * e.lit 0.5 * norm)
    (-e.lit 2 * cosW * norm)
    ((e.lit 1 - alpha) * norm)

/-- `setBandPass`, whose middle coefficient is zero. -/
def setBandPass (f : BiquadFilter D) (sampleRate cutoff q : D) : BiquadFilter D :=
  let w0 := e.lit 2 * e.pi * cutoff / sampleRate
  let cosW := e.cos w0
  let sinW := e.sin w0
  let alpha := sinW / (e.lit 2 * q)
  let norm := e.lit 1 / (e.lit 1 + alpha)
  f.setCoefficients
    (alpha * norm)
    (e.lit 0)
    (-alpha * norm)
    (-e.lit 2 * cosW * norm)
    ((e.lit 1 - alpha) * norm)

/-- `setNotch`, whose outer coefficients are equal. -/
def setNotch (f : BiquadFilter D) (sampleRate cutoff q : D) : BiquadFilter D :=
  let w0 := e.lit 2 * e.pi * cutoff / sampleRate
  let cosW := e.cos w0
  let sinW := e.sin w0
  let alpha := sinW / (e.lit 2 * q)
  let norm := e.lit 1 / (e.lit 1 + alpha)
  f.setCoefficients
    norm
    (-e.lit 2 * cosW * norm)
    norm
    (-e.lit 2 * cosW * norm)
    ((e.lit 1 - alpha) * norm)

/-- `setPeak`: the gain is in decibels, and `A` is its square root as an amplitude. -/
def setPeak (f : BiquadFilter D) (sampleRate cutoff gain q : D) : BiquadFilter D :=
  let w0 := e.lit 2 * e.pi * cutoff / sampleRate
  let cosW := e.cos w0
  let sinW := e.sin w0
  let alpha := sinW / (e.lit 2 * q)
  let A := e.pow (e.lit 10) (gain / e.lit 40)
  let norm := e.lit 1 / (e.lit 1 + alpha / A)
  f.setCoefficients
    ((e.lit 1 + alpha * A) * norm)
    (-e.lit 2 * cosW * norm)
    ((e.lit 1 - alpha * A) * norm)
    (-e.lit 2 * cosW * norm)
    ((e.lit 1 - alpha / A) * norm)

/-- `setLowShelf`. The steepness is `q`, under the root in `alpha`. -/
def setLowShelf (f : BiquadFilter D) (sampleRate cutoff gain q : D) : BiquadFilter D :=
  let w0 := e.lit 2 * e.pi * cutoff / sampleRate
  let cosW := e.cos w0
  let sinW := e.sin w0
  let A := e.pow (e.lit 10) (gain / e.lit 40)
  let alpha := sinW / e.lit 2 * e.sqrt ((A + e.lit 1 / A) * (e.lit 1 / q - e.lit 1) + e.lit 2)
  let beta := e.lit 2 * e.sqrt A * alpha
  let norm := e.lit 1 / ((A + e.lit 1) + (A - e.lit 1) * cosW + beta)
  f.setCoefficients
    (A * ((A + e.lit 1) - (A - e.lit 1) * cosW + beta) * norm)
    (e.lit 2 * A * ((A - e.lit 1) - (A + e.lit 1) * cosW) * norm)
    (A * ((A + e.lit 1) - (A - e.lit 1) * cosW - beta) * norm)
    (-e.lit 2 * ((A - e.lit 1) + (A + e.lit 1) * cosW) * norm)
    (((A + e.lit 1) + (A - e.lit 1) * cosW - beta) * norm)

/-- `setHighShelf`: the low shelf with the signs of `cosW` turned. -/
def setHighShelf (f : BiquadFilter D) (sampleRate cutoff gain q : D) : BiquadFilter D :=
  let w0 := e.lit 2 * e.pi * cutoff / sampleRate
  let cosW := e.cos w0
  let sinW := e.sin w0
  let A := e.pow (e.lit 10) (gain / e.lit 40)
  let alpha := sinW / e.lit 2 * e.sqrt ((A + e.lit 1 / A) * (e.lit 1 / q - e.lit 1) + e.lit 2)
  let beta := e.lit 2 * e.sqrt A * alpha
  let norm := e.lit 1 / ((A + e.lit 1) - (A - e.lit 1) * cosW + beta)
  f.setCoefficients
    (A * ((A + e.lit 1) + (A - e.lit 1) * cosW + beta) * norm)
    (-e.lit 2 * A * ((A - e.lit 1) + (A + e.lit 1) * cosW) * norm)
    (A * ((A + e.lit 1) + (A - e.lit 1) * cosW - beta) * norm)
    (e.lit 2 * ((A - e.lit 1) - (A + e.lit 1) * cosW) * norm)
    (((A + e.lit 1) - (A - e.lit 1) * cosW - beta) * norm)

end

end BiquadFilter

end AiMidi.Dsp
