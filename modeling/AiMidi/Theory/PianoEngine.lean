import AiMidi.Theory.ChordEngine

/-!
# `AiMidi.Theory.PianoEngine`: two-hand piano voicings

Left hand and right hand under each chord in one of three styles. The velocities of the hands
are drawn from a generator that is seeded with the request seed and the index of the chord.
Notes outside the range of a piano are left out.
-/

set_option autoImplicit false

namespace AiMidi.Theory

open AiMidi.Lib AiMidi.Lib.Sanitized AiMidi.Lib.Seeded

/-- The styles of the piano engine. -/
inductive PianoStyle where
  | blockChords
  | arpeggio
  | comping
  deriving DecidableEq, Repr

/-- A piano request: the chords, the style and the octaves of the two hands. -/
structure PianoRequest where
  chordReq : ChordRequest
  style : PianoStyle := .blockChords
  bassOctave : Int := 3
  trebleOctave : Int := 4

namespace PianoEngine

/-- Piano range A0 to C8. -/
def inPianoRange (note : Int) : Bool := 21 ≤ note && note ≤ 108

/-- A note between two ticks, left out when it is not on the piano. -/
def pianoNote (tickOn tickOff : Sanitized UInt32) (note : Int) (velocity : UInt8) :
    Sanitized (List MidiEvent) :=
  if inPianoRange note then do
    -- The ticks are arguments of the note, so they are computed for a note that is kept.
    let on ← tickOn
    let off ← tickOff
    pure [⟨on, off, 0, u8cast note, velocity, 0⟩]
  else pure []

/-- The notes of the chord in the treble. -/
def trebleNotes (cs : ChordSpec) (trebleBase : Int) (tickOn tickOff : Sanitized UInt32)
    (velocity : UInt8) : Sanitized (List MidiEvent) :=
  Sanitized.forEach (fun off =>
    pianoNote tickOn tickOff (trebleBase + Int.tmod cs.rootPc 12 + off) velocity)
    (offsetsFor cs.quality)

/-- A draw for each hand: the left hand between 60 and 80, the right one between 50 and 75. -/
def drawLeft : Seeded UInt8 := do
  let k ← draw 21
  pure (u8cast (60 + k))

/-- A velocity of the right hand, from 50 to 75. -/
def drawRight : Seeded UInt8 := do
  let k ← draw 26
  pure (u8cast (50 + k))

/-- Root and fifth in the bass, the full chord in the treble, for the whole chord. -/
def blockChord (bassBase trebleBase : Int) (cs : ChordSpec) (chordOff : UInt32) :
    Seeded (List MidiEvent) := do
  let root := bassBase + Int.tmod cs.rootPc 12
  let lv ← drawLeft
  let n0 ← pianoNote (pure cs.startTick) (subTick chordOff 10) root lv
  let n1 ← pianoNote (pure cs.startTick) (subTick chordOff 10) (root + 7) lv
  let rv ← drawRight
  let right ← trebleNotes cs trebleBase (pure cs.startTick) (subTick chordOff 10) rv
  pure (n0 ++ n1 ++ right)

/-- The note `j` of the chord, spread over its duration. -/
def spreadNote (cs : ChordSpec) (trebleBase chordDur nNotes : Int) (velocity : UInt8)
    (off : Int) (j : Nat) : Sanitized (List MidiEvent) := do
  -- `j * chord_dur / n_notes`: the product comes first and is an `int`.
  let scaled ← i32 (j * chordDur)
  let chordOn ← i32 cs.startTick.toNat
  let onTick ← i32 (chordOn + Int.tdiv scaled nNotes)
  let offTick ← i32 (onTick + Int.tdiv chordDur nNotes - 5)
  pianoNote (u32 onTick) (u32 offTick) (trebleBase + Int.tmod cs.rootPc 12 + off) velocity

/-- Root then fifth in the bass, the notes of the chord one after the other in the treble. -/
def arpeggio (bassBase trebleBase : Int) (cs : ChordSpec) (chordOff : UInt32)
    (chordDur : Int) : Seeded (List MidiEvent) := do
  let root := bassBase + Int.tmod cs.rootPc 12
  let halfDur := Int.tdiv chordDur 2
  let lv ← drawLeft
  let n0 ← pianoNote (pure cs.startTick) (do
    let mid ← addTick cs.startTick halfDur
    subTick mid 5) root lv
  let n1 ← pianoNote (addTick cs.startTick halfDur) (subTick chordOff 5) (root + 7) lv
  let rv ← drawRight
  let right ← Sanitized.forEach
    (fun (off, j) => spreadNote cs trebleBase chordDur (offsetsFor cs.quality).length rv off j)
    (offsetsFor cs.quality).zipIdx
  pure (n0 ++ n1 ++ right)

/-- The tick of a beat. -/
def beatTick (cs : ChordSpec) (ppq beat : Int) : Sanitized UInt32 := do
  let offset ← i32 (beat * ppq)
  addTick cs.startTick offset

/-- The end of a quarter note that starts at the tick. -/
def quarterEnd (ppq : Int) (tick : UInt32) : Sanitized UInt32 := do
  let next ← addTick tick ppq
  subTick next 10

/-- The chord on beats 1 and 3, the root on beats 2 and 4. -/
def comping (ppq bassBase trebleBase : Int) (cs : ChordSpec) : Seeded (List MidiEvent) := do
  -- The right hand is drawn first in this style.
  let rv ← drawRight
  let right ← Sanitized.forEach (fun beat : Int => do
    let bt ← beatTick cs ppq beat
    trebleNotes cs trebleBase (pure bt) (quarterEnd ppq bt) rv) [0, 2]
  let lv ← drawLeft
  let left ← Sanitized.forEach (fun beat : Int => do
    let bt ← beatTick cs ppq beat
    pianoNote (pure bt) (quarterEnd ppq bt) (bassBase + Int.tmod cs.rootPc 12) lv) [1, 3]
  pure (right ++ left)

/-- The piano part under one chord. -/
def chordNotes (style : PianoStyle) (ppq bassBase trebleBase : Int) (cs : ChordSpec) :
    Seeded (List MidiEvent) := do
  -- Both are computed before the style is looked at.
  let chordOff ← u32 (cs.startTick.toNat + cs.durationTicks.toNat)
  let chordDur ← i32 cs.durationTicks.toNat
  match style with
  | .blockChords => blockChord bassBase trebleBase cs chordOff
  | .arpeggio    => arpeggio bassBase trebleBase cs chordOff chordDur
  | .comping     => comping ppq bassBase trebleBase cs

/-- The piano part of a request. -/
def generate (req : PianoRequest) : Sanitized (List MidiEvent) :=
  let ppq := i32cast req.chordReq.ppq.toNat
  let bassBase := (req.bassOctave + 1) * 12
  let trebleBase := (req.trebleOctave + 1) * 12
  Sanitized.forEach (fun (cs, i) =>
    run (req.chordReq.seed ^^^ UInt64.ofNat i) (chordNotes req.style ppq bassBase trebleBase cs))
    req.chordReq.chords.zipIdx

end PianoEngine

end AiMidi.Theory
