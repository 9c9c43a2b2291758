import AiMidi.Lib.Seeded
import AiMidi.Theory.Types

/-!
# `AiMidi.Theory.ChordEngine`: chord symbols to voiced notes

`voicing` spells each chord of a request from its root and quality, inverts it and gives it a
velocity. Inversion and velocity are drawn from one generator for all chords.

`%` on a C++ `int` truncates toward zero, so it is `Int.tmod`.
-/

set_option autoImplicit false

namespace AiMidi.Theory

open AiMidi.Lib AiMidi.Lib.Sanitized AiMidi.Lib.Seeded

/-- A chord in ticks, pitch class and quality. -/
structure ChordSpec where
  startTick : UInt32
  durationTicks : UInt32
  rootPc : Int
  quality : Bytes
  channel : UInt8
  deriving DecidableEq, Repr

/-- Chords and reproduction seed. -/
structure ChordRequest where
  chords : List ChordSpec
  seed : Seed := 0
  ppq : UInt32 := 480
  deriving DecidableEq, Repr

/-- The semitone offsets of the chord qualities from the root. -/
def qualityTable : List (Bytes × List Int) :=
  [(bytes "maj", [0, 4, 7]), (bytes "min", [0, 3, 7]), (bytes "7", [0, 4, 7, 10]),
   (bytes "m7", [0, 3, 7, 10]), (bytes "maj7", [0, 4, 7, 11]), (bytes "m7b5", [0, 3, 6, 10]),
   (bytes "dim", [0, 3, 6]), (bytes "dim7", [0, 3, 6, 9])]

/-- The offsets of a quality, those of a major triad when it is unknown. -/
def offsetsFor (quality : Bytes) : List Int := (qualityTable.lookup quality).getD [0, 4, 7]

namespace ChordEngine

/-- The root sits at C3. -/
def baseOctaveMidi : Int := 48

/-- Inversion: the list is rotated left, and the notes that pass from the front to the back
drop an octave. -/
def applyInversion (notes : List Int) (inv : Int) : List Int :=
  if notes = [] then []
  else
    let count : Int := notes.length
    -- A negative inversion counts from the end.
    let k := (Int.tmod (Int.tmod inv count + count) count).toNat
    notes.drop k ++ (notes.take k).map (· - 12)

/-- The notes of a chord in root position. -/
def rootPosition (cs : ChordSpec) : List Int :=
  (offsetsFor cs.quality).map fun off =>
    baseOctaveMidi + Int.tmod (Int.tmod cs.rootPc 12 + 12) 12 + off

/-- One note of a chord. A note outside the MIDI range is left out. -/
def chordNote (cs : ChordSpec) (velocity : UInt8) (n : Int) : Sanitized (List MidiEvent) :=
  if n < 0 ∨ n > 127 then pure []
  else do
    let tickOff ← u32 (cs.startTick.toNat + cs.durationTicks.toNat)
    pure [⟨cs.startTick, tickOff, cs.channel, u8cast n, velocity, 0⟩]

/-- One chord. -/
def voiceChord (cs : ChordSpec) : Seeded (List MidiEvent) := do
  let inv ← draw 3
  let vel ← draw 51
  Sanitized.forEach (chordNote cs (u8cast (50 + vel))) (applyInversion (rootPosition cs) inv)

/-- The voiced events of a request. -/
def voicing (req : ChordRequest) : Sanitized (List MidiEvent) :=
  run req.seed (Seeded.forEach voiceChord req.chords)

end ChordEngine

end AiMidi.Theory
