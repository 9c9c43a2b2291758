import AiMidi.Dsp.FFT
import AiMidi.Dsp.FloatOps

/-!
# `AiMidi.Dsp.Spectrum`: the frames of an analysis and their magnitudes

The three detectors cut the audio into frames of the transform size, one every hop. They copy a
frame into a buffer, apply a window to it, transform it and take the absolute values of the lower
half of the spectrum. `chromaOf` is the step that two of them share: the magnitudes between 65 and
2100 Hz are spread over the pitch classes.

The audio is what the pointer of the caller leads to. It can be read at any index, so that a result
can say which samples an analysis depends on. The coefficients of the window are a parameter.
-/

set_option autoImplicit false

namespace AiMidi.Dsp

/-- Twelve bins, one for each pitch class. -/
abbrev Chroma (F : Type) := Fin 12 → F

/-- What a detector is constructed with. -/
structure Detector (F C : Type) where
  fftSize : Nat
  hopSize : Nat
  sampleRate : Int
  fft : FFT C
  ops : ComplexOps F C
  /-- `std::abs`. -/
  abs : C → F
  /-- `coeffs_` of the window. -/
  coeffs : Nat → F

namespace Detector

section

variable {F C : Type} (d : Detector F C)

/-- The number of frames of `numSamples` samples. -/
def nFrames (numSamples : Nat) : Nat :=
  if numSamples < d.fftSize then 0 else (numSamples - d.fftSize) / d.hopSize + 1

/-- `bin_count`. -/
def binCount : Nat := d.fftSize / 2 + 1

variable [FloatOps F]

/-- The copy of a frame, with the window applied. -/
def windowed (audio : Nat → F) (frame : Nat) : Nat → F := fun i =>
  if i < d.fftSize then audio (frame * d.hopSize + i) * d.coeffs i else lit 0

variable [Add C] [Sub C] [Mul C]

/-- The magnitudes of a frame. -/
def magnitudes (audio : Nat → F) (frame : Nat) : List F :=
  let spectrum := d.fft.forward d.ops (d.windowed audio frame) fun _ => d.ops.ofReal (lit 0)
  (List.range d.binCount).map fun b => d.abs (spectrum b)

end

section

variable {F : Type} [FloatOps F]

/-- The bin of a pitch, given in semitones. -/
def pitchBin (semitones : Nat) : Fin 12 := ⟨semitones % 12, Nat.mod_lt semitones (by decide)⟩

/-- A value added to a bin. -/
def addTo (chroma : Chroma F) (bin : Fin 12) (value : F) : Chroma F :=
  Function.update chroma bin (chroma bin + value)

/-- The loop body over the bins of the spectrum. The pitch of a frequency from 65 Hz on is positive,
and its pitch class below 12. -/
def addBin (binFreq : F) (chroma : Chroma F) (b : Nat) (magnitude : F) : Chroma F :=
  let freq := lit b * binFreq
  if FloatOps.lt freq (lit 65) || FloatOps.lt (lit 2100) freq then chroma
  else
    let midiNote := lit 12 * FloatOps.log2 (freq / lit 440) + lit 69
    let pitchClass := FloatOps.fmod midiNote (lit 12)
    let pitchClass := if FloatOps.lt pitchClass (lit 0) then pitchClass + lit 12 else pitchClass
    let binLow := FloatOps.toInt pitchClass
    let frac := pitchClass - lit binLow
    let chroma := addTo chroma (pitchBin binLow.toNat) (magnitude * (lit 1 - frac))
    addTo chroma (pitchBin (binLow.toNat + 1)) (magnitude * frac)

/-- The magnitudes of a frame added to the bins. -/
def chromaOf (binFreq : F) (mag : List F) (chroma : Chroma F) : Chroma F :=
  mag.zipIdx.foldl (fun chroma m => addBin binFreq chroma m.2 m.1) chroma

end

end Detector

/-- The sum of the bins, in their order. -/
def Chroma.total {F : Type} [FloatOps F] (chroma : Chroma F) : F :=
  accumulate ((List.finRange 12).map chroma)

end AiMidi.Dsp
