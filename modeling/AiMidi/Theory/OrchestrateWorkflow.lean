import AiMidi.Lib.FirstMax
import AiMidi.Theory.BassEngine
import AiMidi.Theory.DrumEngine
import AiMidi.Theory.OrchestrationEngine
import AiMidi.Theory.StringsEngine
import Mathlib.Algebra.Ring.Int.Defs

/-!
# `AiMidi.Theory.OrchestrateWorkflow`: a piano idea for an orchestra

`orchestrate` splits the piano input into a melody and its harmony, reads a chord for each bar
from the harmony, and asks five engines for tracks. The chords travel as symbols. The bass and
the drums get them as a `ChordRequest`, which `buildChordRequest` makes with a parser of its own.

A pitch class is a `Nat` below 12. The set that `pitchClasses` returns is only asked for its
members.

The engines are called in the order of the source, each with a seed of its own next to that of the
request, so none of them sees the draws of another. The map of the tracks is a list with
`setTrack`, and `orderTracks` is the final reordering by the fixed names.
-/

set_option autoImplicit false

namespace AiMidi.Theory

open AiMidi.Lib AiMidi.Lib.Sanitized

/-- Orchestration density. -/
inductive OrchestrateDensity where
  | sparse
  | medium
  | full
  deriving DecidableEq, Repr

/-- Piano idea to orchestral arrangement. Its key, scale and tempo go to engines that do not
read them. -/
structure OrchestrateRequest where
  pianoInput : List MidiEvent
  bars : Int := 4
  density : OrchestrateDensity := .medium
  seed : Seed := 0

namespace OrchestrateWorkflow

/-! ### Chord detection -/

/-- The pitch class of a key, C for an unknown one. -/
def rootPcFromKey (key : Bytes) : Int := (GuitarEngine.keyTable.lookup key).getD 0

/-- The names of the pitch classes, in sharps. -/
def kPcNames : List Bytes :=
  [bytes "C", bytes "C#", bytes "D", bytes "D#", bytes "E", bytes "F", bytes "F#", bytes "G",
   bytes "G#", bytes "A", bytes "A#", bytes "B"]

/-- Qualities and their semitones from the root. -/
def kTemplates : List (Bytes × List Nat) :=
  [(bytes "maj", [0, 4, 7]), (bytes "min", [0, 3, 7]), (bytes "7", [0, 4, 7, 10]),
   (bytes "m7", [0, 3, 7, 10]), (bytes "maj7", [0, 4, 7, 11]), (bytes "dim", [0, 3, 6]),
   (bytes "dim7", [0, 3, 6, 9]), (bytes "m7b5", [0, 3, 6, 10])]

/-- The pitch classes of the events, each once. -/
def pitchClasses (events : List MidiEvent) : List Nat :=
  Lib.setOf (events.map fun ev => ev.note.toNat % 12)

/-- Whether a transposed template has a pitch class. -/
def inChord (root : Nat) (intervals : List Nat) (i : Nat) : Bool :=
  intervals.any fun interv => (root + interv) % 12 = i

/-- A match counts 2, a missing and an extra note count -1. -/
def scoreAt (inPcs inChord : Bool) : Int :=
  match inPcs, inChord with
  | true, true   => 2
  | false, true  => -1
  | true, false  => -1
  | false, false => 0

/-- How well the pitch classes fit a chord, summed over the octave. -/
def score (pcs : List Nat) (root : Nat) (intervals : List Nat) : Int :=
  ((List.range 12).map fun i => scoreAt (i ∈ pcs) (inChord root intervals i)).sum

/-- A root with a quality, and its score. -/
structure Match where
  score : Int
  root : Nat
  quality : Bytes

/-- The root and template pairs in the order of the search. -/
def chordMatches (pcs : List Nat) : List Match :=
  (List.range 12).flatMap fun root =>
    kTemplates.map fun tmpl => ⟨score pcs root tmpl.2, root, tmpl.1⟩

/-- Root name and quality. Major has no suffix. -/
def symbolOf (root : Nat) (quality : Bytes) : Bytes :=
  kPcNames.getD root [] ++ if quality = bytes "maj" then [] else quality

/-- The symbol of the best match. The first one wins a tie. -/
def detectChord (pcs : List Nat) : Bytes :=
  if pcs = [] then bytes "C"
  else
    let best := firstMax Match.score ⟨-999, 0, bytes "maj"⟩ (chordMatches pcs)
    symbolOf best.root best.quality

/-- The events that start in a bar, whose bounds are 32-bit ticks. -/
def barHarmony (harmony : List MidiEvent) (barStart barEnd : UInt32) : List MidiEvent :=
  harmony.filter fun ev => ev.tickOn ≥ barStart && ev.tickOn < barEnd

/-- A symbol for each bar. Without harmony there is one symbol in all. -/
def buildChordProgression (harmony : List MidiEvent) (bars : Int) : Sanitized (List Bytes) :=
  if harmony = [] ∨ bars < 1 then pure [bytes "C"]
  else Sanitized.forEach (fun bar : Nat => do
    let barStart ← u32 ((u32cast bar).toNat * 1920)
    let barEnd ← addTick barStart 1920
    pure [detectChord (pitchClasses (barHarmony harmony barStart barEnd))])
    (List.range bars.toNat)

/-! ### Melody and harmony -/

/-- The events of one tick: the first of the highest, and the others. -/
def splitGroup (events : List MidiEvent) : List MidiEvent × List MidiEvent :=
  match events.zipIdx with
  | [] => ([], [])
  | first :: others =>
    let highest := firstMax (fun p => p.1.note.toNat) first others
    ([highest.1], events.eraseIdx highest.2)

/-- Melody and harmony, in the order of the ticks. -/
def separateMelodyHarmony (piano : List MidiEvent) : List MidiEvent × List MidiEvent :=
  let groups := (groupBy (fun ev : MidiEvent => ev.tickOn.toNat) piano).map Prod.snd
  (groups.flatMap fun events => (splitGroup events).1,
   groups.flatMap fun events => (splitGroup events).2)

/-! ### Chord requests -/

/-- The root and the rest of a symbol. An empty symbol makes `substr` throw, but `detectChord`
returns none. -/
def splitSymbol : Bytes → Bytes × Bytes
  | [] => ([], [])
  | [letter] => ([letter], [])
  | letter :: accidental :: rest =>
    if [accidental] = bytes "#" ∨ [accidental] = bytes "b" then ([letter, accidental], rest)
    else ([letter], accidental :: rest)

/-- The chord of the bar `i`. -/
def chordSpec (sym : Bytes) (startTick : UInt32) : ChordSpec :=
  let (root, qual) := splitSymbol sym
  { startTick := startTick
    durationTicks := 1900
    rootPc := rootPcFromKey root
    quality := if qual = [] ∨ qual = bytes "M" then bytes "maj" else qual
    channel := 0 }

/-- The request that voices a progression, one chord for each bar. -/
def buildChordRequest (progression : List Bytes) (seed : Seed) : Sanitized ChordRequest := do
  let chords ← Sanitized.forEach (fun (sym, i) => do
    let startTick ← u32 ((u32cast (i : Nat)).toNat * 1920)
    pure [chordSpec sym startTick]) progression.zipIdx
  pure { chords := chords, seed := seed, ppq := 480 }

/-! ### The ensemble -/

/-- The ensemble of a density. -/
def buildEnsemble : OrchestrateDensity → List OrchestralSection
  | .sparse =>
    [⟨bytes "Strings",
      [⟨bytes "Violin I", 40, 0, 55, 84, .melody, 0⟩,
       ⟨bytes "Violin II", 40, 1, 55, 84, .harmony, 2⟩,
       ⟨bytes "Viola", 41, 2, 48, 76, .harmony, 3⟩,
       ⟨bytes "Cello", 42, 3, 36, 60, .bass, 4⟩]⟩,
     ⟨bytes "Rhythm", []⟩]
  | .medium =>
    [⟨bytes "Strings",
      [⟨bytes "Violin I", 40, 0, 55, 84, .melody, 0⟩,
       ⟨bytes "Violin II", 40, 1, 55, 84, .harmony, 2⟩,
       ⟨bytes "Viola", 41, 2, 48, 76, .harmony, 3⟩,
       ⟨bytes "Cello", 42, 3, 36, 60, .bass, 4⟩]⟩,
     ⟨bytes "Rhythm",
      [⟨bytes "Contrabass", 44, 4, 28, 48, .bass, 5⟩,
       ⟨bytes "Guitar", 27, 5, 40, 76, .harmony, 3⟩,
       ⟨bytes "Drums", 1, 9, 35, 81, .rhythm, 6⟩]⟩]
  | .full =>
    [⟨bytes "Strings",
      [⟨bytes "Violin I", 40, 0, 55, 84, .melody, 0⟩,
       ⟨bytes "Violin II", 40, 1, 55, 84, .countermelody, 1⟩,
       ⟨bytes "Viola", 41, 2, 48, 76, .harmony, 3⟩,
       ⟨bytes "Cello", 42, 3, 36, 60, .harmony, 4⟩,
       ⟨bytes "Contrabass", 44, 4, 28, 48, .bass, 5⟩]⟩,
     ⟨bytes "Woodwinds",
      [⟨bytes "Flute", 73, 5, 60, 96, .countermelody, 2⟩,
       ⟨bytes "Oboe", 68, 6, 58, 87, .fill, 6⟩,
       ⟨bytes "Clarinet", 71, 7, 50, 84, .fill, 7⟩]⟩,
     ⟨bytes "Brass",
      [⟨bytes "Horn", 60, 8, 41, 77, .harmony, 4⟩,
       ⟨bytes "Trumpet", 56, 9, 58, 84, .harmony, 5⟩]⟩,
     ⟨bytes "Rhythm",
      [⟨bytes "Guitar", 27, 10, 40, 76, .harmony, 3⟩,
       ⟨bytes "Drums", 1, 9, 35, 81, .rhythm, 6⟩]⟩]

/-! ### Tracks -/

/-- A track with its name. -/
abbrev Track := Bytes × List MidiEvent

/-- `track_map[name] = events`. -/
def setTrack (tracks : List Track) (name : Bytes) (events : List MidiEvent) : List Track :=
  tracks.filter (·.1 ≠ name) ++ [(name, events)]

/-- A track that an engine has left empty is not entered. -/
def addTrack (tracks : List Track) (name : Bytes) (events : List MidiEvent) : List Track :=
  if events = [] then tracks else setTrack tracks name events

/-- The names in the order of the result. -/
def trackOrder : List Bytes :=
  [bytes "Violin I", bytes "Violin II", bytes "Flute", bytes "Viola", bytes "Cello",
   bytes "Contrabass", bytes "Strings Pad", bytes "Guitar", bytes "Bass", bytes "Drums",
   bytes "Horn", bytes "Trumpet", bytes "Oboe", bytes "Clarinet", bytes "Piano"]

/-- The tracks of the map in the order of their names, the others behind them. -/
def orderTracks (tracks : List Track) : List Track :=
  (trackOrder.flatMap fun name => tracks.filter fun t => t.1 = name ∧ t.2 ≠ []) ++
    tracks.filter fun t => !trackOrder.contains t.1 && t.2 ≠ []

/-! ### The workflow -/

/-- The strings pad, without which a sparse arrangement does. -/
def padEvents (req : OrchestrateRequest) (progression : List Bytes) :
    Sanitized (List MidiEvent) :=
  if req.density = .sparse then pure []
  else StringsEngine.generatePad progression req.bars .fullEnsemble (req.seed + 1)

/-- The guitar of a full arrangement. -/
def guitarEvents (req : OrchestrateRequest) (progression : List Bytes) :
    Sanitized (List MidiEvent) :=
  if req.density = .full then
    GuitarEngine.generateChords progression req.bars .arpeggio (req.seed + 2)
  else pure []

/-- The bass line. The bass engine does not read its style. -/
def bassEvents (req : OrchestrateRequest) (progression : List Bytes) :
    Sanitized (List MidiEvent) := do
  let bassReq ← buildChordRequest progression (req.seed + 3)
  BassEngine.generate bassReq

/-- The drums, without which a sparse arrangement does. -/
def drumEvents (req : OrchestrateRequest) (progression : List Bytes) :
    Sanitized (List MidiEvent) :=
  if req.density = .sparse then pure []
  else do
    let drumReq ← buildChordRequest progression (req.seed + 4)
    DrumEngine.generate drumReq
      { seed := i32cast (req.seed + 4).toNat
        useGhosts := true
        useOpenHh := req.density = .full }

/-- The tracks of the orchestration engine and of the four other engines, all of which are
there. -/
def orchestrateTracks (req : OrchestrateRequest) (melody : List MidiEvent)
    (progression : List Bytes) : Sanitized (List Track) := do
  let orchTracks ← OrchestrationEngine.orchestrateFull melody progression
    (buildEnsemble req.density) req.bars req.seed
  let pad ← padEvents req progression
  let guitar ← guitarEvents req progression
  let bass ← bassEvents req progression
  let drums ← drumEvents req progression
  let tracks := orchTracks.foldl (fun tracks t => setTrack tracks t.1 t.2) []
  let tracks := addTrack tracks (bytes "Strings Pad") pad
  let tracks := addTrack tracks (bytes "Guitar") guitar
  let tracks := addTrack tracks (bytes "Bass") bass
  pure (addTrack tracks (bytes "Drums") drums)

/-- The whole workflow: melody and harmony apart, chords from the harmony, then the tracks. -/
def orchestrate (req : OrchestrateRequest) : Sanitized (List Track) :=
  if req.pianoInput = [] ∨ req.bars < 1 then pure []
  else
    let (melody, harmony) := separateMelodyHarmony req.pianoInput
    if melody = [] ∧ harmony = [] then pure []
    else do
      let progression ← buildChordProgression harmony req.bars
      let tracks ← orchestrateTracks req melody progression
      pure (orderTracks tracks)

end OrchestrateWorkflow

end AiMidi.Theory
