import AiMidi.Lib.StdMap
import AiMidi.Lib.StdSort
import AiMidi.Theory.ArrangementPlanner
import AiMidi.Theory.BassEngine
import AiMidi.Theory.BlueprintGenerator
import AiMidi.Theory.DrumEngine
import AiMidi.Theory.HarmonyEngine
import AiMidi.Theory.HumanizationEngine
import AiMidi.Theory.MidiRenderer
import AiMidi.Theory.PianoEngine
import AiMidi.Theory.PromptInterpreter
import AiMidi.Theory.RhythmEngine
import AiMidi.Theory.Scales
import AiMidi.Tools.MteArgs

/-!
# `AiMidi.Tools.MteCli`: from the command line to a composition

`composition` is `main` of `mte_cli` up to the renderer. The parameters come from the command
line, or with `--prompt` from the musical intelligence pipeline (`resolve`). The harmony is
generated first, its chords are detected again from the notes, and the engines play on the
detected chords (`generateEvents`). `legacyTracks` and `arrangedTracks` place the events in
tracks. `mteCli` is the whole run up to the write of the file. Verbose output is left out.

The map from ticks to chord notes is keyed by the tick as a number.
-/

set_option autoImplicit false

namespace AiMidi.Tools

open AiMidi.Lib AiMidi.Lib.Sanitized AiMidi.Theory

/-! ### Chord detection -/

/-- The chord found in a set of notes, if there is one. -/
structure ChordDetection where
  valid : Bool := false
  rootPc : Int := 0
  quality : Bytes := bytes "maj"
  deriving DecidableEq, Repr

/-- The intervals above the root that make up a quality. -/
def kTemplates : List (Bytes × List Int) :=
  [(bytes "maj", [4, 7]), (bytes "min", [3, 7]), (bytes "7", [4, 7, 10]),
   (bytes "m7", [3, 7, 10]), (bytes "maj7", [4, 7, 11])]

/-- The best reading so far. -/
structure BestChord where
  root : Int
  quality : Bytes
  score : Int

/-- The intervals of the other pitch classes above a root. -/
def intervalsAbove (root : Int) (pcs : List Int) : List Int :=
  setOf ((pcs.filter (· ≠ root)).map fun pc => Int.tmod (pc - root + 12) 12)

/-- A template that is contained in the intervals replaces a reading with a lower score. -/
def tryTemplate (root : Int) (intervals : List Int) (best : BestChord)
    (tmpl : Bytes × List Int) : BestChord :=
  if tmpl.2.all (· ∈ intervals) ∧ (tmpl.2.length : Int) > best.score then
    ⟨root, tmpl.1, tmpl.2.length⟩
  else best

/-- All templates on one root. -/
def tryRoot (pcs : List Int) (best : BestChord) (root : Int) : BestChord :=
  kTemplates.foldl (tryTemplate root (intervalsAbove root pcs)) best

/-- The chord that a group of notes spells. -/
def detectChord (events : List MidiEvent) : ChordDetection :=
  match setOf (events.map fun e => (e.note.toNat % 12 : Int)) with
  | [] => {}
  | pc :: pcs =>
    -- Roots in ascending order. An equal score does not replace the reading so far.
    let best := (pc :: pcs).foldl (tryRoot (pc :: pcs)) ⟨pc, bytes "maj", -1⟩
    ⟨best.score ≥ 0, best.root, best.quality⟩

/-! ### Event generation -/

/-- A group of notes that begin together, as a chord. A group that spells none falls back to
C major. -/
def chordSpec (tick : Nat) (duration : UInt32) (events : List MidiEvent) : ChordSpec :=
  let detection := detectChord events
  let detection := if detection.valid then detection else ⟨true, 0, bytes "maj"⟩
  ⟨UInt32.ofNat tick, duration, detection.rootPc, detection.quality, 0⟩

/-- The chords of the groups. Each lasts until the next one, the last one for a bar. -/
def chordSpecs : List (Nat × List MidiEvent) → Sanitized (List ChordSpec)
  | [] => pure []
  | [(tick, events)] => pure [chordSpec tick (u32cast (kPpq * 4)) events]
  | (tick, events) :: (next, events') :: rest => do
    let duration ← u32 ((next : Int) - tick)
    let specs ← chordSpecs ((next, events') :: rest)
    pure (chordSpec tick duration events :: specs)

/-- The order of the sort that merges the drum events. -/
def drumEventLt (a b : MidiEvent) : Bool := a.tickOn < b.tickOn

/-- The event lists of the three parts. -/
structure Parts where
  piano : List MidiEvent
  bass : List MidiEvent
  drums : List MidiEvent

/-- The humanization of piano and bass. -/
def humanParams (seed : Seed) : HumanizationParams := ⟨seed, 3, 5, 0, false, 120⟩

/-- Harmony, chord detection, and the engines on the detected chords. -/
def generateEvents (std : StdSort drumEventLt) (key scale : Bytes) (bars : Int) (seed : Seed) :
    Sanitized Parts := do
  let harmony ← HarmonyEngine.generate ⟨key, scale, bars, seed⟩
  let chords ← chordSpecs (groupBy (fun ev => ev.tickOn.toNat) harmony)
  let chordReq : ChordRequest := ⟨chords, seed, u32cast kPpq⟩
  let bass ← BassEngine.generate chordReq
  let rhythm ← RhythmEngine.generate chordReq ⟨.eighth, 0, seed⟩ ⟨-1, 1⟩
  -- The style seed is an `int`, so the seed is narrowed.
  let drums ← DrumEngine.generate chordReq ⟨i32cast seed.toNat, true, false⟩
  let piano ← PianoEngine.generate ⟨chordReq, .blockChords, 3, 4⟩
  let piano ← HumanizationEngine.apply piano (humanParams seed)
  let bass ← HumanizationEngine.apply bass (humanParams seed)
  pure ⟨piano, bass, std.sort (rhythm ++ drums)⟩

/-! ### Tracks -/

/-- The tracks of a run without a prompt. -/
def legacyTracks (parts : Parts) : List MidiTrack :=
  [⟨bytes "Piano", parts.piano⟩, ⟨bytes "Bass", parts.bass⟩, ⟨bytes "Drums", parts.drums⟩]

/-- A track, when it has events. -/
def trackUnlessEmpty (name : Bytes) (events : List MidiEvent) : List MidiTrack :=
  if events = [] then [] else [⟨name, events⟩]

/-- Which parts have been given to an instrument. -/
structure Assigned where
  piano : Bool := false
  bass : Bool := false
  drums : Bool := false

/-- The tracks of the arrangement instruments, by role, and then of the parts that no
instrument took. A part that is taken is moved out of its list. -/
def arrangedTracks (parts : Parts) (assigned : Assigned) :
    List BlueprintInstrument → List MidiTrack
  | [] =>
    (if assigned.piano then [] else trackUnlessEmpty (bytes "Piano") parts.piano)
      ++ (if assigned.bass then [] else trackUnlessEmpty (bytes "Bass") parts.bass)
      ++ if assigned.drums then [] else trackUnlessEmpty (bytes "Drums") parts.drums
  | inst :: insts =>
    if !assigned.piano
        && [bytes "piano", bytes "chords", bytes "harmony", bytes "rhythm"].contains inst.role then
      trackUnlessEmpty inst.name parts.piano
        ++ arrangedTracks { parts with piano := [] } { assigned with piano := true } insts
    else if !assigned.bass && inst.role == bytes "bass" then
      trackUnlessEmpty inst.name parts.bass
        ++ arrangedTracks { parts with bass := [] } { assigned with bass := true } insts
    else if !assigned.drums && [bytes "drums", bytes "percussion"].contains inst.role then
      trackUnlessEmpty inst.name parts.drums
        ++ arrangedTracks { parts with drums := [] } { assigned with drums := true } insts
    else arrangedTracks parts assigned insts

/-! ### Parameters -/

/-- The parameters that the engines run with, and with a prompt the arrangement. -/
structure Resolved where
  key : Bytes
  scale : Bytes
  bpm : Int
  bars : Int
  seed : Seed
  arrangement : Option Arrangement

/-- The parameters of a run. A prompt goes through interpreter, generator and planners, and
options that differ from their defaults override it. -/
def resolve (args : Args) : Resolved :=
  if args.prompt ≠ [] then
    let blueprint := PromptInterpreter.interpret args.prompt args.seed
    let seed := if args.seed = 0 then blueprint.seed else args.seed
    let blueprint := BlueprintGenerator.generate blueprint
    let timeline := TimelinePlanner.plan blueprint
    let arrangement := ArrangementPlanner.plan blueprint timeline
    { key := if args.key ≠ [] then args.key else blueprint.rootKey
      scale := if args.scale ≠ [] then args.scale else blueprint.scale
      -- An option that repeats the default cannot be told from one that is absent.
      bpm := if args.bpm ≠ 120 then args.bpm else blueprint.bpm
      bars := if args.bars ≠ 4 then args.bars else timeline.totalBars
      seed := seed
      arrangement := some arrangement }
  else
    { key := args.key
      scale := args.scale
      bpm := args.bpm
      bars := args.bars
      seed := args.seed
      arrangement := none }

/-- Why `main` returns 1 before it composes. -/
inductive CliError where
  | usage
  | unknownKey (key : Bytes)
  | unknownScale (scale : Bytes)
  deriving DecidableEq, Repr

/-- The composition of resolved parameters. -/
def compose (std : StdSort drumEventLt) (r : Resolved) : Sanitized SmfComposition := do
  let parts ← generateEvents std r.key r.scale r.bars r.seed
  pure {
    ppq := kPpq
    bpm := r.bpm
    key := r.key
    scale := r.scale
    timeSigNum := 4
    timeSigDen := 4
    tracks := match r.arrangement with
      | none     => legacyTracks parts
      -- Only the instruments of the arrangement are read, not its sections.
      | some arr => arrangedTracks parts {} arr.allInstruments }

/-- `main` up to the renderer, on the arguments behind the program name. -/
def composition (std : StdSort drumEventLt) (argv : List Bytes) :
    Except CliError (Sanitized SmfComposition) :=
  match parseArgs argv with
  | none => .error .usage
  | some args =>
    let r := resolve args
    if keyToRootPc r.key < 0 then .error (.unknownKey r.key)
    else if knows r.scale = false then .error (.unknownScale r.scale)
    else .ok (compose std r)

/-- A whole run: the file that it writes, with its contents. -/
def mteCli (std : StdSort drumEventLt) (wire : StdSort wireEventLt) (argv : List Bytes) :
    Except CliError (Bytes × Bytes) :=
  match parseArgs argv with
  | none => .error .usage
  | some args => (composition std argv).map fun comp => (args.output, render wire comp.val)

end AiMidi.Tools
