import AiMidi.Dsp.Spectrum
import AiMidi.Lib.Bytes
import AiMidi.Lib.StrictBest

/-!
# `AiMidi.Dsp.ChordDetection`: the chords of a piece of audio

About four times a second the bins of one frame are compared with the templates of eight chord types
on all twelve roots. The first chord with the best correlation is reported.
-/

set_option autoImplicit false

namespace AiMidi.Dsp

open AiMidi.Lib

/-- A chord, how well it fits, and the time of its frame. -/
structure ChordResult (F : Type) where
  chord : Bytes
  confidence : F
  timeSec : F

/-- The tones of a chord type, from the root on. -/
structure ChordTemplate where
  suffix : Bytes
  profile : List Rat

namespace ChordDetection

/-! ### Tables -/

/-- The names of the pitch classes, all with sharps. -/
def noteNames : List Bytes :=
  ["C", "C#", "D", "D#", "E", "F", "F#", "G", "G#", "A", "A#", "B"].map bytes

/-- The chord types that are tried, each with the pitch classes of the chord on C. -/
def chordTemplates : List ChordTemplate :=
  [⟨bytes "", [1, 0, 0, 0, 1, 0, 0, 1, 0, 0, 0, 0]⟩,
   ⟨bytes "m", [1, 0, 0, 1, 0, 0, 0, 1, 0, 0, 0, 0]⟩,
   ⟨bytes "dim", [1, 0, 0, 1, 0, 0, 1, 0, 0, 0, 0, 0]⟩,
   ⟨bytes "aug", [1, 0, 0, 0, 1, 0, 0, 0, 1, 0, 0, 0]⟩,
   ⟨bytes "sus4", [1, 0, 0, 0, 0, 1, 0, 1, 0, 0, 0, 0]⟩,
   ⟨bytes "7", [1, 0, 0, 0, 1, 0, 0, 1, 0, 0, 1, 0]⟩,
   ⟨bytes "maj7", [1, 0, 0, 0, 1, 0, 0, 1, 0, 0, 0, 1]⟩,
   ⟨bytes "m7", [1, 0, 0, 1, 0, 0, 0, 1, 0, 0, 1, 0]⟩]

/-- A root and the index of a template. -/
abbrev Chord := Fin 12 × Fin 8

/-- The name of a chord: root and suffix. -/
def chordName (c : Chord) : Bytes :=
  noteNames.getD c.1 [] ++ (chordTemplates.get c.2).suffix

/-- The order of the loop: all templates on each root. -/
def chords : List Chord :=
  (List.finRange 12).flatMap fun root => (List.finRange 8).map fun t => (root, t)

section

variable {F : Type} [FloatOps F]

/-! ### One frame -/

/-- The correlation of the bins, from the root on, with a template. -/
def score (chroma : Chroma F) (c : Chord) : F :=
  let x : Nat → F := fun i => chroma (c.1 + Detector.pitchBin i)
  let y : Nat → F := fun i => lit ((chordTemplates.get c.2).profile.getD i 0)
  let sum (f : Nat → F) : F := accumulate ((List.range 12).map f)
  let num := sum fun i => x i * y i
  let denA := sum fun i => x i * x i
  let denB := sum fun i => y i * y i
  let den := FloatOps.sqrt (denA * denB)
  if FloatOps.lt (lit 1e-10) den then num / den else lit 0

/-- The best correlation and its chord. -/
def bestChord (chroma : Chroma F) : F × Chord :=
  scanBest FloatOps.lt (score chroma) chords (lit (-1), (Detector.pitchBin 0, 0))

/-- What a frame with the given bins adds to the results: nothing when it is silent. -/
def classify (timeSec : F) (chroma : Chroma F) : List (ChordResult F) :=
  let sum := Chroma.total chroma
  if FloatOps.lt sum (lit 1e-4) then []
  else
    let best := bestChord fun i => chroma i / sum
    [⟨chordName best.2, fmax (lit 0) (fmin (lit 1) best.1), timeSec⟩]

/-! ### Processing -/

variable {C : Type} [Add C] [Sub C] [Mul C]

/-- `std::max<std::size_t>(1, sampleRate_ / hopSize_ / 4)`. -/
def analysisInterval (d : Detector F C) : Nat :=
  max 1 ((d.sampleRate % 2 ^ 64).toNat / d.hopSize / 4)

/-- What a round of the loop over the frames appends. -/
def frameResults (d : Detector F C) (audio : Nat → F) (frame : Nat) : List (ChordResult F) :=
  if frame % analysisInterval d = 0 then
    classify (lit (frame * d.hopSize : Nat) / lit d.sampleRate)
      (Detector.chromaOf (lit d.sampleRate / lit d.fftSize) (d.magnitudes audio frame)
        fun _ => lit 0)
  else []

/-- `process`: the results of all frames, one after the other. -/
def process (d : Detector F C) (audio : Nat → F) (numSamples : Nat) : List (ChordResult F) :=
  (List.range (d.nFrames numSamples)).flatMap (frameResults d audio)

end

end ChordDetection

end AiMidi.Dsp
