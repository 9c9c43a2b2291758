import AiMidi.Lib.Octaves
import AiMidi.Lib.PushNew
import AiMidi.Theory.ChordEngine
import AiMidi.Theory.GuitarEngine
import AiMidi.Theory.Scales

/-!
# `AiMidi.Theory.StringsEngine`: pads and countermelodies for strings

A pad holds the chord of each bar. A single section plays one voicing in its range. The full
ensemble plays four, each on a channel of its own.

A countermelody walks over the notes of a scale, one note on each beat. The engine without a scale
provider, which is not modelled, plays the notes that it plays for an unknown scale.
-/

set_option autoImplicit false

namespace AiMidi.Theory

open AiMidi.Lib AiMidi.Lib.Sanitized AiMidi.Lib.Seeded

/-- The string sections. -/
inductive StringsSection where
  | violin
  | viola
  | cello
  | contrabass
  | fullEnsemble
  deriving DecidableEq, Repr

namespace StringsEngine

/-! ### Chord symbols -/

/-- A chord as the guitar engine parses it. -/
abbrev ParsedChord := GuitarEngine.ParsedChord

/-- The same parser as in the guitar engine. -/
def parseChord (sym : Bytes) : ParsedChord := GuitarEngine.parseChord sym

/-- The eight qualities of the chord engine. -/
def offsetsFor (quality : Bytes) : List Int := Theory.offsetsFor quality

/-! ### Voicings -/

/-- The register of a section and its channel. -/
structure SectionRange where
  min : Int
  max : Int
  channel : UInt8
  deriving DecidableEq, Repr

/-- The register of each section. -/
def rangeFor : StringsSection → SectionRange
  | .violin       => ⟨55, 84, 0⟩
  | .viola        => ⟨48, 76, 1⟩
  | .cello        => ⟨36, 60, 2⟩
  | .contrabass   => ⟨28, 48, 3⟩
  | .fullEnsemble => ⟨28, 84, 0⟩

/-- Whether a note lies in a register. -/
def inRange (note : Int) (r : SectionRange) : Bool := note ≥ r.min && note ≤ r.max

/-- A note event without articulation. -/
def makeNote (tickOn tickOff : UInt32) (note velocity channel : UInt8) : MidiEvent :=
  ⟨tickOn, tickOff, channel, note, velocity, 0⟩

/-- A close voicing near the lower third of a range, low to high. -/
def voiceInRange (rootPc : Int) (quality : Bytes) (range : SectionRange) : List Int :=
  let offsets := offsetsFor quality
  let offsets := if offsets = [] then [0, 4, 7] else offsets
  let rootNote := Int.tdiv range.min 12 * 12 + Int.tmod rootPc 12
  let rootNote := lowerTo (range.min + 18) (raiseTo (range.min + 6) rootNote)
  let notes := offsets.foldl (fun notes off =>
    let n := if rootNote + off < range.min then rootNote + off + 12 else rootNote + off
    let n := if n > range.max then n - 12 else n
    if inRange n range && !notes.contains n then notes ++ [n] else notes) []
  let notes := if notes = [] then
      [rootNote, rootNote + 4, rootNote + 7].filter (inRange · range)
    else notes
  notes.insertionSort (· ≤ ·)

/-! ### Pads -/

/-- `emit`: the notes of one section, together and equally loud. -/
def emit (barStart : UInt32) (notes : List Int) (ch vel : UInt8) : Sanitized (List MidiEvent) :=
  Sanitized.forEach (fun n => do
    let tickOff ← addTick barStart 1900
    pure [makeNote barStart tickOff (u8cast n) vel ch]) notes

/-- The bar of the full ensemble. All velocities are drawn before the first note. -/
def ensembleBar (parsed : ParsedChord) (barStart : UInt32) : Seeded (List MidiEvent) := do
  let vln ← draw 16
  let vla ← draw 16
  let cel ← draw 16
  let cb ← draw 16
  let voice := voiceInRange parsed.rootPc parsed.quality
  let out0 ← emit barStart (voice ⟨55, 84, 0⟩) 0 (u8cast (60 + vln))
  let out1 ← emit barStart (voice ⟨48, 76, 1⟩) 1 (u8cast (60 + vla))
  let out2 ← emit barStart (voice ⟨36, 60, 2⟩) 2 (u8cast (65 + cel))
  let out3 ← emit barStart (voice ⟨28, 48, 3⟩) 3 (u8cast (70 + cb))
  pure (out0 ++ out1 ++ out2 ++ out3)

/-- The bar of a single section. Each note has a velocity near that of the bar. -/
def sectionBar (range : SectionRange) (parsed : ParsedChord) (barStart : UInt32) :
    Seeded (List MidiEvent) := do
  let base ← draw 21
  let velBase := u8cast (60 + base)
  Seeded.forEach (fun n => do
    let k ← draw 11
    let tickOff ← addTick barStart 1900
    pure [makeNote barStart tickOff (u8cast n) (u8cast (min 127 ((velBase.toNat : Int) + k - 5)))
      range.channel]) (voiceInRange parsed.rootPc parsed.quality range)

/-- The chord of a bar: the progression repeats. -/
def chordOf (progression : List Bytes) (bar : Nat) : ParsedChord :=
  parseChord (progression.getD (bar % progression.length) [])

/-- Pads: one chord for each bar, in the registers of the section. -/
def generatePad (progression : List Bytes) (bars : Int) (stringsSection : StringsSection)
    (seed : Seed) : Sanitized (List MidiEvent) :=
  if bars < 1 ∨ progression = [] then pure []
  else
    run seed (Seeded.forEach (fun bar : Nat => do
      let barStart ← u32 ((u32cast bar).toNat * 1920)
      if stringsSection = .fullEnsemble then ensembleBar (chordOf progression bar) barStart
      else sectionBar (rangeFor stringsSection) (chordOf progression bar) barStart)
      (List.range bars.toNat))

/-! ### Countermelodies -/

/-- The pitch class of a key, C for an unknown one. -/
def parseRootPc (key : Bytes) : Int := (GuitarEngine.keyTable.lookup key).getD 0

/-- The pitch classes of the scale on the key. An unknown scale is major. -/
def scalePcs (scaleName : Bytes) (keyPc : Int) : List Int :=
  let pcs := intervalsFor scaleName keyPc
  if pcs = [] then kMajor.map fun interval => Int.tmod (keyPc + interval) 12 else pcs

/-- The notes of the scale in the upper part of a range, low to high. -/
def scaleNotes (pcs : List Int) (range : SectionRange) : List Int :=
  let firstOct := Int.tdiv range.min 12
  let lastOct := Int.tdiv range.max 12 + 1
  let octaves := (List.range (lastOct - firstOct + 1).toNat).map fun i : Nat => firstOct + i
  let notes := pushNew (fun n => n ≥ range.min + 6 && n ≤ range.max)
    (octaves.flatMap fun oct => pcs.map fun pc => oct * 12 + Int.tmod pc 12)
  let notes := if notes = [] then [60, 62, 64, 65, 67, 69, 71, 72] else notes
  notes.insertionSort (· ≤ ·)

/-- The place of the next note: one step away, cut off at the ends of the pool. -/
def nextIdx (pool : List Int) (current direction : Int) : Int :=
  let currentIdx : Int := match pool.idxOf? current with
    | some i => i
    | none   => -1
  max 0 (min (pool.length - 1) (currentIdx + direction))

/-- The note of the pool that the walk goes to. -/
def nextNote (pool : List Int) (current direction : Int) : Int :=
  pool.getD (nextIdx pool current direction).toNat 0

/-- The loop over the beats of the bars. -/
def walk (pool : List Int) (channel : UInt8) : Int → List (Nat × Nat) → Seeded (List MidiEvent)
  | _, [] => pure []
  | current, (bar, beat) :: beats => do
    let barStart ← u32 ((u32cast bar).toNat * 1920)
    let beatTick ← addTick barStart (beat * kPpq)
    -- A half note on the even beats, a quarter note on the odd ones.
    let duration := if beat % 2 = 0 then kPpq * 2 - 10 else kPpq - 10
    let k ← draw 21
    let tickOff ← addTick beatTick duration
    let e := makeNote beatTick tickOff (u8cast current) (u8cast (65 + k)) channel
    let up ← draw 2
    let turn ← draw 3
    let step : Int := if up = 0 then 1 else -1
    let direction := if turn = 0 then -step else step
    let rest ← walk pool channel (nextNote pool current direction) beats
    pure (e :: rest)

/-- A countermelody: a walk over the notes of the scale, from a drawn one. -/
def generateCountermelody (key scaleName : Bytes) (progression : List Bytes) (bars : Int)
    (stringsSection : StringsSection) (seed : Seed) : Sanitized (List MidiEvent) :=
  if bars < 1 ∨ progression = [] then pure []
  else
    let range := rangeFor stringsSection
    let pool := scaleNotes (scalePcs scaleName (parseRootPc key)) range
    run seed (do
      let k ← draw (UInt64.ofNat pool.length)
      walk pool range.channel (pool.getD k 0)
        ((List.range bars.toNat).flatMap fun bar => (List.range 4).map fun beat => (bar, beat)))

end StringsEngine

end AiMidi.Theory
