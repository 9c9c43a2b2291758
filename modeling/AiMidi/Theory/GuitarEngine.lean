import AiMidi.Lib.Seeded
import AiMidi.Theory.Types
import Mathlib.Data.List.Sort

/-!
# `AiMidi.Theory.GuitarEngine`: chords on a guitar

Each bar plays the chord of a progression, strummed, as an arpeggio, as a power chord or as
funk chops. Three builders turn a chord into MIDI notes: `buildGuitarVoicing`,
`buildPowerVoicing` and `buildFunkVoicing`. The chord symbols are parsed here, with a table of
qualities of this engine's own.

One generator serves all the bars of a call. `generateBars` keeps the bar of each event, and
the three operations of the engine forget it.

The loops that move a note or an octave are functions of their own (`dropOctaves`, `liftNote`,
`lowerForNext`), with the loop of the source in their docstrings. `placeNotes` carries the octave
that one offset leaves to the next one.
-/

set_option autoImplicit false

namespace AiMidi.Theory

open AiMidi.Lib AiMidi.Lib.Sanitized AiMidi.Lib.Seeded

/-- The styles of the guitar engine. -/
inductive GuitarStyle where
  | strumming
  | arpeggio
  | powerChord
  | fingerpicking
  | riff
  | funkChop
  deriving DecidableEq, Repr

namespace GuitarEngine

/-! ### Chord symbols -/

/-- The pitch classes of the keys, sharps and flats. -/
def keyTable : List (Bytes × Int) :=
  [(bytes "C", 0), (bytes "C#", 1), (bytes "Db", 1), (bytes "D", 2), (bytes "D#", 3),
   (bytes "Eb", 3), (bytes "E", 4), (bytes "F", 5), (bytes "F#", 6), (bytes "Gb", 6),
   (bytes "G", 7), (bytes "G#", 8), (bytes "Ab", 8), (bytes "A", 9), (bytes "A#", 10),
   (bytes "Bb", 10), (bytes "B", 11)]

/-- A parsed symbol: `F#m` is `⟨6, "min"⟩`. -/
structure ParsedChord where
  rootPc : Int
  quality : Bytes
  deriving DecidableEq, Repr

/-- The spellings of major and minor. Every other quality stands for itself. -/
def parseQuality (qual : Bytes) : Bytes :=
  if qual = [] ∨ qual = bytes "M" then bytes "maj"
  else if qual = bytes "m" ∨ qual = bytes "min" then bytes "min"
  else qual

/-- A letter, an optional accidental, and the quality. An unknown root is C. -/
def parseChord : Bytes → ParsedChord
  | [] => ⟨0, bytes "maj"⟩
  | letter :: [] => ⟨(keyTable.lookup [letter]).getD 0, parseQuality []⟩
  | letter :: accidental :: rest =>
    if [accidental] = bytes "#" ∨ [accidental] = bytes "b" then
      ⟨(keyTable.lookup [letter, accidental]).getD 0, parseQuality rest⟩
    else ⟨(keyTable.lookup [letter]).getD 0, parseQuality (accidental :: rest)⟩

/-- The chord tones of the qualities. -/
def qualityOffsets : List (Bytes × List Int) :=
  [(bytes "maj", [0, 4, 7]), (bytes "min", [0, 3, 7]), (bytes "7", [0, 4, 7, 10]),
   (bytes "m7", [0, 3, 7, 10]), (bytes "maj7", [0, 4, 7, 11]), (bytes "m7b5", [0, 3, 6, 10]),
   (bytes "dim", [0, 3, 6]), (bytes "dim7", [0, 3, 6, 9]), (bytes "5", [0, 7]),
   (bytes "sus4", [0, 5, 7]), (bytes "aug", [0, 4, 8])]

/-- The offsets of a quality, those of a major triad when it is unknown. -/
def offsetsFor (quality : Bytes) : List Int := (qualityOffsets.lookup quality).getD [0, 4, 7]

/-! ### Voicings -/

/-- The register of the guitar. -/
def kGuitarLow : Int := 40
def kGuitarHigh : Int := 84

/-- Whether a note lies in the register of the guitar. -/
def inGuitarRange (note : Int) : Bool := note ≥ kGuitarLow && note ≤ kGuitarHigh

/-- `while (n > kGuitarHigh && octave > -2) --octave`. -/
def dropOctaves (base off octave : Int) : Int :=
  if base + off + octave * 12 > kGuitarHigh ∧ octave > -2 then dropOctaves base off (octave - 1)
  else octave
termination_by (octave + 2).toNat

/-- `while (n < kGuitarLow) n += 12`. -/
def liftNote (n : Int) : Int := if n < kGuitarLow then liftNote (n + 12) else n
termination_by (kGuitarLow - n).toNat

/-- `while (next > kGuitarHigh + 12 && octave > -2) octave -= 1`. The loop does not compute
`next` again. -/
def lowerForNext (next octave : Int) : Int :=
  if next > kGuitarHigh + 12 ∧ octave > -2 then lowerForNext next (octave - 1) else octave
termination_by (octave + 2).toNat

/-- A note in range that is not there yet. -/
def addNote (notes : List Int) (keep : Bool) (n : Int) : List Int :=
  if keep && !notes.contains n then notes ++ [n] else notes

/-- The octave that is kept for the next note, if there is one. -/
def keepOctave (base octave : Int) : List Int → Int
  | []        => octave
  | next :: _ => lowerForNext (base + next + octave * 12) octave

/-- The loop over the offsets. It carries the octave from one note to the next. -/
def placeNotes (base : Int) : Int → List Int → List Int → List Int
  | _, notes, [] => notes
  | octave, notes, off :: offsets =>
    let octave := dropOctaves base off octave
    let n := liftNote (base + off + octave * 12)
    placeNotes base (keepOctave base octave offsets) (addNote notes (inGuitarRange n) n) offsets

/-- Chord tones in guitar range, low to high. -/
def buildGuitarVoicing (chord : ParsedChord) : List Int :=
  let offsets := offsetsFor chord.quality
  if offsets = [] then []
  else
    let root := Int.tmod chord.rootPc 12
    let notes := placeNotes (kGuitarLow + root) 0 [] offsets
    -- Without a note in range: the root and its fifth.
    let notes := if notes = [] then
        let rootNote := if kGuitarLow + root + 12 > kGuitarHigh then kGuitarLow + root
          else kGuitarLow + root + 12
        let fifth := if rootNote + 7 > kGuitarHigh then rootNote + 7 - 12 else rootNote + 7
        [rootNote, fifth].filter inGuitarRange
      else notes
    notes.insertionSort (· ≤ ·)

/-- Root and fifth. -/
def buildPowerVoicing (chord : ParsedChord) : List Int :=
  let rootNote := 40 + Int.tmod chord.rootPc 12 + 12
  let rootNote := if rootNote > 57 then rootNote - 12 else rootNote
  let rootNote := if rootNote < 40 then rootNote + 12 else rootNote
  let fifth := rootNote + 7
  let (rootNote, fifth) := if fifth > 64 then (rootNote - 12, fifth - 12) else (rootNote, fifth)
  let rootNote := if !inGuitarRange rootNote then 45 else rootNote
  let fifth := if !inGuitarRange fifth then rootNote + 7 else fifth
  [rootNote, fifth]

/-- A tight voicing on the top strings. -/
def buildFunkVoicing (chord : ParsedChord) : List Int :=
  let offsets := offsetsFor chord.quality
  let offsets := if offsets = [] then [0, 4, 7] else offsets
  let base := 55 + Int.tmod chord.rootPc 12
  let base := if base > 72 then base - 12 else base
  let base := if base < 52 then base + 12 else base
  let notes := offsets.foldl (fun notes off =>
    let n := if base + off > 84 then base + off - 12 else base + off
    addNote notes (n ≥ 52 && n ≤ 84) n) []
  let notes := if notes = [] then [base, base + 4, base + 7] else notes
  notes.insertionSort (· ≤ ·)

/-! ### One bar -/

/-- A note event on channel 0, the note cut to a byte. -/
def makeNote (tickOn tickOff : UInt32) (note : Int) (velocity : UInt8) : MidiEvent :=
  ⟨tickOn, tickOff, 0, u8cast note, velocity, 0⟩

/-- The tick of a beat or of a slot in the bar. -/
def tickAt (barStart : UInt32) (index step : Int) : Sanitized UInt32 := do
  let offset ← u32 (index * step)
  u32 (barStart.toNat + offset.toNat)

/-- The chord on all four beats, its notes a few ticks apart. -/
def strumBar (chord : ParsedChord) (barStart : UInt32) : Seeded (List MidiEvent) :=
  let notes := buildGuitarVoicing chord
  if notes = [] then pure []
  else
    Seeded.forEach (fun beat : Nat => do
      let beatTick ← tickAt barStart beat kPpq
      -- Beats 1 and 3 are louder.
      let accent ← draw (if beat % 2 = 0 then 26 else 21)
      let baseVel := (u8cast ((if beat % 2 = 0 then 85 else 70) + accent)).toNat
      let spread ← draw 4
      Seeded.forEach (fun (note, s) => do
        let onTick ← u32 (beatTick.toNat + (u32cast (s * (2 + spread))).toNat)
        let off ← addTick onTick kPpq
        let offTick ← subTick off 20
        let k ← draw 11
        pure [makeNote onTick offTick note (u8cast (min 127 ((baseVel : Int) + k - 5)))])
        notes.zipIdx) (List.range 4)

/-- The order of an arpeggio, as indices into its notes. -/
def arpeggioOrder (pattern size : Nat) : List Nat :=
  match pattern with
  | 0 => List.range size
  | 1 => [0] ++ (if size > 2 then [2] else []) ++ (if size > 1 then [1] else []) ++
      (List.range size).drop 3
  | _ => (List.range size).reverse

/-- The notes of the chord one after the other, over the whole bar. -/
def arpeggioBar (chord : ParsedChord) (barStart : UInt32) : Seeded (List MidiEvent) :=
  let notes := buildGuitarVoicing chord
  if notes = [] then pure []
  else do
    let pattern ← draw 3
    let order := arpeggioOrder pattern notes.length
    let noteDur : Int := (1920 / max 1 order.length : Nat)
    Seeded.forEach (fun (j, i) => do
      let onTick ← tickAt barStart i noteDur
      let off ← addTick onTick noteDur
      let offTick ← subTick off 10
      let k ← draw 21
      pure [makeNote onTick offTick (notes.getD j 0) (u8cast ((if i = 0 then 85 else 70) + k))])
      order.zipIdx

/-- Root and fifth on all four beats. -/
def powerBar (chord : ParsedChord) (barStart : UInt32) : Seeded (List MidiEvent) :=
  let notes := buildPowerVoicing chord
  if notes.length < 2 then pure []
  else do
    let palmMute ← draw 2
    let dur := if palmMute = 0 then kPpq / 2 else kPpq - 10
    Seeded.forEach (fun beat : Nat => do
      let beatTick ← tickAt barStart beat kPpq
      let k ← draw 31
      Seeded.forEach (fun n => do
        let offTick ← addTick beatTick dur
        pure [makeNote beatTick offTick n (u8cast (75 + k))]) notes) (List.range 4)

/-- Short chops on some of the odd sixteenths. Which ones, one draw decides for the bar. -/
def funkBar (chord : ParsedChord) (barStart : UInt32) : Seeded (List MidiEvent) :=
  let notes := buildFunkVoicing chord
  if notes = [] then pure []
  else do
    let r ← next
    Seeded.forEach (fun slot : Nat =>
      if slot % 2 = 0 then pure []
      else do
        let sum ← i32 (slot + i32cast r.toNat)
        if Int.tmod sum 3 = 0 then pure []
        else do
          let tick ← tickAt barStart slot (kPpq / 4)
          let k ← draw 31
          Seeded.forEach (fun n => do
            let offTick ← addTick tick 1
            pure [makeNote tick offTick n (u8cast (60 + k))]) notes) (List.range 16)

/-! ### The engine -/

/-- The chord of a bar: the progression repeats. -/
def chordOf (progression : List Bytes) (bar : Nat) : ParsedChord :=
  parseChord (progression.getD (bar % progression.length) [])

/-- The loop over the bars: every event with its bar. -/
def generateBars (body : ParsedChord → UInt32 → Seeded (List MidiEvent))
    (progression : List Bytes) (bars : Int) (seed : Seed) : Sanitized (List (Nat × MidiEvent)) :=
  if bars < 1 ∨ progression = [] then pure []
  else
    run seed (Seeded.forEach (fun bar : Nat => do
      let barStart ← u32 ((u32cast bar).toNat * 1920)
      let out ← body (chordOf progression bar) barStart
      pure (out.map fun e => (bar, e))) (List.range bars.toNat))

/-- The bar of a style. A style without a bar of its own is strummed. -/
def styleBar : GuitarStyle → ParsedChord → UInt32 → Seeded (List MidiEvent)
  | .arpeggio   => arpeggioBar
  | .powerChord => powerBar
  | .funkChop   => funkBar
  | _           => strumBar

/-- The chords of a progression in a style, over the bars. -/
def generateChords (progression : List Bytes) (bars : Int) (style : GuitarStyle) (seed : Seed) :
    Sanitized (List MidiEvent) := do
  let out ← generateBars (styleBar style) progression bars seed
  pure (out.map Prod.snd)

/-- Power chords over the bars. -/
def generatePowerChords (progression : List Bytes) (bars : Int) (seed : Seed) :
    Sanitized (List MidiEvent) := do
  let out ← generateBars powerBar progression bars seed
  pure (out.map Prod.snd)

/-- Funk chops over the bars. -/
def generateFunkChops (progression : List Bytes) (bars : Int) (seed : Seed) :
    Sanitized (List MidiEvent) := do
  let out ← generateBars funkBar progression bars seed
  pure (out.map Prod.snd)

end GuitarEngine

end AiMidi.Theory
