import AiMidi.Dsp.Spectrum
import AiMidi.Lib.Bytes
import AiMidi.Lib.StrictBest

/-!
# `AiMidi.Dsp.KeyDetection`: the key of a piece of audio

`process` adds the spectrum of each frame to the twelve bins. `estimateKey` compares the bins with
the profile of each of the 24 keys and returns the first key with the best correlation.
-/

set_option autoImplicit false

namespace AiMidi.Dsp

open AiMidi.Lib

/-- The detected key, how well it fits, and the chroma it was found in. -/
structure KeyResult (F : Type) where
  key : Bytes
  scale : Bytes
  confidence : F
  chroma : Chroma F

/-- The state between two calls of `process`. -/
structure KeyState (F : Type) where
  chroma : Chroma F
  frameCount : Nat

namespace KeyDetection

/-! ### Tables -/

/-- Krumhansl-Schmuckler key profiles, from the root on. -/
def majorProfile : List Rat :=
  [6.35, 2.23, 3.48, 2.33, 4.38, 4.09, 2.52, 5.19, 2.39, 3.66, 2.29, 2.88]

/-- The key profile of the minor scale. -/
def minorProfile : List Rat :=
  [6.33, 2.68, 3.52, 5.38, 2.60, 3.53, 2.54, 4.75, 3.98, 2.69, 3.34, 3.17]

/-- The names of the roots, all with sharps. -/
def keyNames : List Bytes :=
  ["C", "C#", "D", "D#", "E", "F", "F#", "G", "G#", "A", "A#", "B"].map bytes

/-- The name of a root. -/
def keyName (root : Fin 12) : Bytes := keyNames.getD root []

/-- A root, and whether the key is major. -/
abbrev Key := Fin 12 × Bool

/-- The name of a mode. -/
def scaleName (isMajor : Bool) : Bytes := if isMajor then bytes "major" else bytes "minor"

/-- The profile of a mode. -/
def profile (isMajor : Bool) : List Rat := if isMajor then majorProfile else minorProfile

/-- The order of the loop: each root in major and then in minor. -/
def keys : List Key := (List.finRange 12).flatMap fun root => [(root, true), (root, false)]

section

variable {F : Type} [FloatOps F]

/-! ### The correlation -/

/-- The correlation of the bins, from the root on, with a profile. -/
def correlate (normChroma : Chroma F) (root : Fin 12) (profile : List Rat) : F :=
  let x : Nat → F := fun i => normChroma (root + Detector.pitchBin i)
  let y : Nat → F := fun i => lit (profile.getD i 0)
  let sum (f : Nat → F) : F := accumulate ((List.range 12).map f)
  let meanX := sum x / lit 12
  let meanY := sum y / lit 12
  let num := sum fun i => (x i - meanX) * (y i - meanY)
  let denA := sum fun i => (x i - meanX) * (x i - meanX)
  let denB := sum fun i => (y i - meanY) * (y i - meanY)
  let den := FloatOps.sqrt (denA * denB)
  if FloatOps.lt (lit 1e-10) den then num / den else lit 0

/-- How well a chroma fits a key: its correlation with the profile turned to the root. -/
def score (normChroma : Chroma F) (key : Key) : F := correlate normChroma key.1 (profile key.2)

/-- The bins divided by their sum, or zeros. -/
def normalized (chroma : Chroma F) : Chroma F :=
  let sum := Chroma.total chroma
  if FloatOps.lt (lit 1e-10) sum then fun i => chroma i / sum else fun _ => lit 0

/-- The best correlation and its key. -/
def bestKey (normChroma : Chroma F) : F × Key :=
  scanBest FloatOps.lt (score normChroma) keys (lit (-1), (Detector.pitchBin 0, true))

/-- `estimateKey`: the best of the 24 keys, with its score cut to `0` and `1`. Before the first
frame it is C major without any confidence. -/
def estimateKey (s : KeyState F) : KeyResult F :=
  if s.frameCount = 0 then ⟨bytes "C", bytes "major", lit 0, s.chroma⟩
  else
    let best := bestKey (normalized s.chroma)
    ⟨keyName best.2.1, scaleName best.2.2, fmax (lit 0) (fmin (lit 1) best.1), s.chroma⟩

/-! ### Processing -/

variable {C : Type} [Add C] [Sub C] [Mul C]

/-- One round of the loop over the frames. -/
def addFrame (d : Detector F C) (audio : Nat → F) (s : KeyState F) (frame : Nat) : KeyState F where
  chroma := Detector.chromaOf (lit d.sampleRate / lit d.fftSize) (d.magnitudes audio frame) s.chroma
  frameCount := s.frameCount + 1

/-- The state after a call of `process`. -/
def processed (d : Detector F C) (audio : Nat → F) (numSamples : Nat) (s : KeyState F) :
    KeyState F :=
  (List.range (d.nFrames numSamples)).foldl (addFrame d audio) s

/-- `process`: the frames are added to the chroma, and the key is estimated anew. -/
def process (d : Detector F C) (audio : Nat → F) (numSamples : Nat) (s : KeyState F) :
    KeyResult F × KeyState F :=
  let s := processed d audio numSamples s
  (estimateKey s, s)

/-- `reset`, and the state of a new detector. -/
def initial : KeyState F := ⟨fun _ => lit 0, 0⟩

end

end KeyDetection

end AiMidi.Dsp
