import AiMidi.Theory.ChordEngine
import AiMidi.Theory.GuitarEngine
import AiMidi.Theory.Scales

/-!
# `AiMidi.Theory.ReharmonizeEngine`: a new harmony under a given melody

`reharmonize` turns a progression of chord symbols into another one, in one of five styles:
it parses a symbol, chooses a quality, and prints root and quality as a symbol again.
`generateVoicings` parses the new symbols and has the chord engine voice them.

Of the melody only its presence is read. In the modal style the drawn mode decides nothing: the
qualities follow the scale of the request.

A style is a function of the chords that may draw. The functions of one chord have definitions of
their own, so that a proof about a style goes chord by chord. `jazzReharm` alone makes a second pass
over what it has printed.
-/

set_option autoImplicit false

namespace AiMidi.Theory

open AiMidi.Lib AiMidi.Lib.Sanitized AiMidi.Lib.Seeded

/-- The styles of reharmonisation. -/
inductive ReharmStyle where
  | simple
  | jazz
  | modal
  | chromatic
  | pedal
  deriving DecidableEq, Repr

/-- A request to reharmonise the chords under a melody. -/
structure ReharmonizeRequest where
  melody : List MidiEvent
  key : Bytes
  scale : Bytes
  originalChords : List Bytes
  bars : Int
  bpm : Int
  style : ReharmStyle := .simple
  seed : Seed := 0

namespace ReharmonizeEngine

/-! ### Chord symbols -/

/-- The same table as the guitar engine's. -/
def keyTable : List (Bytes × Int) := GuitarEngine.keyTable

/-- The pitch class of a key, C for an unknown one. -/
def parseRootPc (key : Bytes) : Int := (keyTable.lookup key).getD 0

/-- The names of the pitch classes, in sharps. -/
def sharpNames : List Bytes :=
  [bytes "C", bytes "C#", bytes "D", bytes "D#", bytes "E", bytes "F", bytes "F#", bytes "G",
   bytes "G#", bytes "A", bytes "A#", bytes "B"]

/-- The sharp name of a pitch class, after it is brought into an octave. -/
def pcNameSharp (pc : Int) : Bytes := sharpNames.getD (Int.tmod (Int.tmod pc 12 + 12) 12).toNat []

/-- The suffixes of the qualities. -/
def qualitySuffixes : List (Bytes × Bytes) :=
  [(bytes "maj", []), (bytes "min", bytes "m"), (bytes "7", bytes "7"), (bytes "m7", bytes "m7"),
   (bytes "maj7", bytes "maj7"), (bytes "dim", bytes "dim"), (bytes "dim7", bytes "dim7"),
   (bytes "aug", bytes "aug"), (bytes "m7b5", bytes "m7b5")]

/-- The suffix of a quality. Any other quality would be its own suffix, through a pointer into
a destroyed string. -/
def qualitySuffix (quality : Bytes) : Bytes := (qualitySuffixes.lookup quality).getD quality

/-- The printed name of a chord: its sharp root and the suffix of its quality. -/
def chordName (rootPc : Int) (quality : Bytes) : Bytes :=
  pcNameSharp rootPc ++ qualitySuffix quality

/-- The spellings of major and minor. -/
def parseQuality (qual : Bytes) : Bytes :=
  if qual = [] then bytes "maj" else if qual = bytes "m" then bytes "min" else qual

/-- Root and quality of a symbol. -/
def parseChordName : Bytes → Int × Bytes
  | [] => (0, bytes "maj")
  | letter :: [] => (parseRootPc [letter], parseQuality [])
  | letter :: accidental :: rest =>
    if [accidental] = bytes "#" ∨ [accidental] = bytes "b" then
      (parseRootPc [letter, accidental], parseQuality rest)
    else (parseRootPc [letter], parseQuality (accidental :: rest))

/-! ### Diatonic chords -/

/-- A chord on a degree of the scale. -/
structure DiatonicChord where
  rootPc : Int
  quality : Bytes
  deriving DecidableEq, Repr

/-- The qualities of the degrees of a major scale. -/
def kMajorQualities : List Bytes :=
  [bytes "maj", bytes "min", bytes "min", bytes "maj", bytes "maj", bytes "min", bytes "dim"]

/-- The qualities of the degrees of a natural minor scale. -/
def kNaturalMinorQualities : List Bytes :=
  [bytes "min", bytes "dim", bytes "maj", bytes "min", bytes "min", bytes "maj", bytes "maj"]

/-- The qualities of the degrees of a harmonic minor scale. -/
def kHarmonicMinorQualities : List Bytes :=
  [bytes "min", bytes "dim", bytes "aug", bytes "min", bytes "maj", bytes "maj", bytes "dim"]

/-- The qualities of the degrees of a melodic minor scale. -/
def kMelodicMinorQualities : List Bytes :=
  [bytes "min", bytes "min", bytes "aug", bytes "maj", bytes "maj", bytes "dim", bytes "dim"]

/-- The qualities of a scale, those of major unless it is a minor one. -/
def qualitiesForScale (scale : Bytes) : List Bytes :=
  if scale = bytes "minor" ∨ scale = bytes "natural_minor" then kNaturalMinorQualities
  else if scale = bytes "harmonic_minor" then kHarmonicMinorQualities
  else if scale = bytes "melodic_minor" then kMelodicMinorQualities
  else kMajorQualities

/-- The intervals of the scale, those of major when it is unknown. -/
def scaleIntervals (scale : Bytes) : List Int :=
  if intervalsOf scale = [] then intervalsOf (bytes "major") else intervalsOf scale

/-- The chords on the degrees of the scale. -/
def diatonicChords (key scale : Bytes) : List DiatonicChord :=
  (scaleIntervals scale).zipIdx.map fun (interval, i) =>
    ⟨Int.tmod (parseRootPc key + interval) 12,
      if i < 7 then (qualitiesForScale scale).getD i [] else bytes "maj"⟩

/-- The root of a diatonic chord. The callers stay inside the list. -/
def diatonicRoot (key scale : Bytes) (degree : Nat) : Int :=
  ((diatonicChords key scale)[degree]?.map DiatonicChord.rootPc).getD 0

/-- The degree of a root in the key, `none` when it is not diatonic. -/
def findDegree (rootPc : Int) (key scale : Bytes) : Option Nat :=
  (diatonicChords key scale).findIdx? fun dc => dc.rootPc = rootPc

/-- `opts[rng() % size]`. -/
def choose (opts : List Bytes) : Seeded Bytes := do
  let k ← draw (UInt64.ofNat opts.length)
  pure (opts.getD k [])

/-! ### Simple -/

/-- The options for the degrees of the scale. -/
def simpleOptions : List (List Bytes) :=
  [[bytes "maj", bytes "maj7"], [bytes "min", bytes "m7"], [bytes "min", bytes "m7"],
   [bytes "maj", bytes "maj7"], [bytes "7", bytes "maj7"], [bytes "min", bytes "m7"],
   [bytes "dim", bytes "m7b5"]]

/-- A diatonic chord gets a quality of its degree, any other keeps its own. -/
def simpleQuality (degree : Option Nat) (quality : Bytes) : Seeded Bytes :=
  match degree.bind fun d => simpleOptions[d]? with
  | some opts => choose opts
  | none      => pure quality

/-- One chord in the simple style: its root stays and its quality may change. -/
def simpleChord (key scale chord : Bytes) : Seeded (List Bytes) := do
  let (rootPc, quality) := parseChordName chord
  let newQuality ← simpleQuality (findDegree rootPc key scale) quality
  pure [chordName rootPc newQuality]

/-- The simple style, chord by chord. -/
def simpleReharm (chords : List Bytes) (key scale : Bytes) : Seeded (List Bytes) :=
  Seeded.forEach (simpleChord key scale) chords

/-! ### Jazz -/

/-- The next chord is I or vi. -/
def nextIsTarget (key scale : Bytes) (next : Option Bytes) : Bool :=
  match next with
  | none      => false
  | some next => (diatonicChords key scale).zipIdx.any fun (dc, d) =>
      dc.rootPc == (parseChordName next).1 && (d == 0 || d == 5)

/-- A V that resolves gets its ii in front. -/
def resolvesV (key scale chord : Bytes) (next : Option Bytes) : Bool :=
  findDegree (parseChordName chord).1 key scale == some 4 && nextIsTarget key scale next
    && (diatonicChords key scale).length ≥ 2

/-- The seventh chord that the jazz style puts for a quality. -/
def jazzQuality (degree : Option Nat) (quality : Bytes) : Bytes :=
  if quality = bytes "maj" ∨ quality = [] then
    if degree = some 4 then bytes "7" else bytes "maj7"
  else if quality = bytes "min" ∨ quality = bytes "m" then bytes "m7"
  else if quality = bytes "dim" then bytes "m7b5"
  else quality

/-- One chord, with the one behind it. -/
def jazzChord (key scale : Bytes) : Bytes × Option Bytes → Seeded (List Bytes)
  | (chord, next) =>
    let (rootPc, quality) := parseChordName chord
    if resolvesV key scale chord next then do
      let tritone ← draw 3
      -- The V, or its tritone substitute.
      let v := if tritone = 0 then chordName (Int.tmod (parseRootPc key + 1) 12) (bytes "7")
        else chordName rootPc (bytes "7")
      pure [chordName (diatonicRoot key scale (1 % (diatonicChords key scale).length)) (bytes "m7"),
        v]
    else pure [chordName rootPc (jazzQuality (findDegree rootPc key scale) quality)]

/-- The progression with the chord behind each. -/
def withNext (chords : List Bytes) : List (Bytes × Option Bytes) :=
  chords.zip (chords.tail.map some ++ [none])

/-- The four chords are I-vi-ii-V. -/
def isTurnaround (key scale c1 c2 c3 c4 : Bytes) : Bool :=
  (parseChordName c1).1 == parseRootPc key && (parseChordName c2).1 == diatonicRoot key scale 5
    && (parseChordName c3).1 == diatonicRoot key scale 1
    && (parseChordName c4).1 == diatonicRoot key scale 4

/-- The turnaround pass from the chord `c1` on: where four chords are I-vi-ii-V, the second one
becomes VI7. It is then the first of the next four. -/
def turnaroundFrom (key scale : Bytes) : Bytes → List Bytes → List Bytes
  | c1, c2 :: c3 :: c4 :: rest =>
    let c2 := if isTurnaround key scale c1 c2 c3 c4 then
        chordName (Int.tmod (diatonicRoot key scale 1 + 7) 12) (bytes "7")
      else c2
    c1 :: turnaroundFrom key scale c2 (c3 :: c4 :: rest)
  | c1, chords => c1 :: chords

/-- The turnaround pass over the whole progression. -/
def turnaround (key scale : Bytes) : List Bytes → List Bytes
  | []          => []
  | c :: chords => turnaroundFrom key scale c chords

/-- The jazz style, with a turnaround if the scale has six degrees. -/
def jazzReharm (chords : List Bytes) (key scale : Bytes) : Seeded (List Bytes) := do
  let result ← Seeded.forEach (jazzChord key scale) (withNext chords)
  pure (if (diatonicChords key scale).length ≥ 6 then turnaround key scale result else result)

/-! ### Modal -/

/-- The names of the modes. -/
def kModes : List Bytes :=
  [bytes "ionian", bytes "dorian", bytes "phrygian", bytes "lydian", bytes "mixolydian",
   bytes "aeolian", bytes "locrian"]

/-- The qualities of the degrees of each mode. -/
def kModeQualities : List (List Bytes) :=
  [[bytes "maj", bytes "min", bytes "min", bytes "maj", bytes "maj", bytes "min", bytes "dim"],
   [bytes "min", bytes "min", bytes "maj", bytes "maj", bytes "min", bytes "dim", bytes "maj"],
   [bytes "min", bytes "maj", bytes "maj", bytes "min", bytes "dim", bytes "maj", bytes "min"],
   [bytes "maj", bytes "maj", bytes "min", bytes "dim", bytes "maj", bytes "min", bytes "min"],
   [bytes "maj", bytes "min", bytes "dim", bytes "maj", bytes "min", bytes "min", bytes "maj"],
   [bytes "min", bytes "dim", bytes "maj", bytes "min", bytes "min", bytes "maj", bytes "maj"],
   [bytes "dim", bytes "maj", bytes "min", bytes "min", bytes "maj", bytes "maj", bytes "min"]]

/-- The mode that the scale names, ionian for any other scale. -/
def modeIndex (scale : Bytes) : Nat := (kModes.findIdx? (· = scale)).getD 0

/-- A diatonic chord gets the quality of its degree in the mode, any other keeps its own. -/
def modalQuality (scale : Bytes) (degree : Option Nat) (quality : Bytes) : Bytes :=
  match degree.bind fun d => (kModeQualities.getD (modeIndex scale) [])[d]? with
  | some q => q
  | none   => if quality = [] then bytes "maj" else quality

/-- One chord in the modal style. -/
def modalChord (key scale chord : Bytes) : Bytes :=
  let (rootPc, quality) := parseChordName chord
  chordName rootPc (modalQuality scale (findDegree rootPc key scale) quality)

/-- The modal style; the drawn mode is not used, as in the code. -/
def modalReharm (chords : List Bytes) (key scale : Bytes) : Seeded (List Bytes) := do
  let _mode ← draw 7
  pure (chords.map (modalChord key scale))

/-! ### Chromatic -/

/-- A passing chord a half-step above or below, in front of half of the chords but the
first. -/
def passingChord (rootPc : Int) (i : Nat) : Seeded (List Bytes) :=
  if i > 0 then do
    let skip ← draw 2
    if skip = 0 then do
      let down ← draw 2
      let passPc := Int.tmod (Int.tmod (rootPc + (if down = 0 then 1 else -1)) 12 + 12) 12
      let dominant ← draw 2
      pure [chordName passPc (if dominant = 0 then bytes "dim" else bytes "7")]
    else pure []
  else pure []

/-- A V is altered, any other chord gets a substitute of its quality. -/
def chromaticQuality (degree : Option Nat) (i : Nat) (quality : Bytes) : Seeded Bytes :=
  if degree = some 4 ∧ i > 0 then choose [bytes "7", bytes "dim7", bytes "7"]
  else if quality = bytes "maj" ∨ quality = [] then
    choose [bytes "maj", bytes "maj7", bytes "aug"]
  else if quality = bytes "min" then choose [bytes "min", bytes "m7", bytes "dim"]
  else if quality = bytes "dim" then choose [bytes "dim", bytes "dim7"]
  else pure quality

/-- One chord in the chromatic style, with the passing chord before it. -/
def chromaticChord (key scale : Bytes) : Bytes × Nat → Seeded (List Bytes)
  | (chord, i) => do
    let (rootPc, quality) := parseChordName chord
    let passing ← passingChord rootPc i
    let newQuality ← chromaticQuality (findDegree rootPc key scale) i quality
    pure (passing ++ [chordName rootPc newQuality])

/-- The chromatic style, chord by chord. -/
def chromaticReharm (chords : List Bytes) (key scale : Bytes) : Seeded (List Bytes) :=
  Seeded.forEach (chromaticChord key scale) chords.zipIdx

/-! ### Pedal -/

/-- Some diatonic chord, now and then with another colour. The original chord is not read. -/
def pedalChord (key scale : Bytes) : Seeded (List Bytes) := do
  let diatonics := diatonicChords key scale
  let idx ← draw (UInt64.ofNat diatonics.length)
  let dc := diatonics.getD idx ⟨0, []⟩
  let plain ← draw 4
  if plain = 0 then do
    let quality ← choose [bytes "7", bytes "maj7", bytes "m7"]
    pure [chordName dc.rootPc quality]
  else pure [chordName dc.rootPc dc.quality]

/-- The pedal style, which redraws each chord. -/
def pedalReharm (chords : List Bytes) (key scale : Bytes) : Seeded (List Bytes) :=
  Seeded.forEach (fun _ => pedalChord key scale) chords

/-! ### The engine -/

/-- The function of each style. -/
def styleReharm : ReharmStyle → List Bytes → Bytes → Bytes → Seeded (List Bytes)
  | .simple    => simpleReharm
  | .jazz      => jazzReharm
  | .modal     => modalReharm
  | .chromatic => chromaticReharm
  | .pedal     => pedalReharm

/-- The new progression. -/
def reharmonize (req : ReharmonizeRequest) : List Bytes :=
  if req.bars < 1 ∨ req.melody = [] then req.originalChords
  else (run req.seed (styleReharm req.style req.originalChords req.key req.scale)).val

/-- The specification of the chord `i`. -/
def chordSpec (ticksPerChord : UInt32) (symbol : Bytes) (i : Nat) : Sanitized ChordSpec := do
  let start ← u32 ((u32cast i).toNat * ticksPerChord.toNat)
  let (rootPc, quality) := parseChordName symbol
  pure ⟨start, ticksPerChord, rootPc, quality, 0⟩

/-- All chords have the same number of bars, and at least one. -/
def barsPerChord (numChords bars : Int) : Int :=
  if numChords > 0 then max 1 (Int.tdiv bars numChords) else 1

/-- The specifications of a progression. -/
def chordSpecs (chords : List Bytes) (bars : Int) : Sanitized (List ChordSpec) := do
  let ticksPerChord ← u32 (1920 * (u32cast (barsPerChord (i32cast chords.length) bars)).toNat)
  Sanitized.forEach (fun (symbol, i) => do
    let cs ← chordSpec ticksPerChord symbol i
    pure [cs]) chords.zipIdx

/-- The voiced chords of a progression. The tempo is not read. -/
def generateVoicings (chords : List Bytes) (bars : Int) (seed : Seed) :
    Sanitized (List MidiEvent) :=
  if chords = [] then pure []
  else do
    let specs ← chordSpecs chords bars
    ChordEngine.voicing ⟨specs, seed, UInt32.ofNat kPpq.toNat⟩

end ReharmonizeEngine

end AiMidi.Theory
