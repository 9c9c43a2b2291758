import AiMidi.Lib.Octaves
import AiMidi.Lib.StdMap
import AiMidi.Theory.ChordEngine
import AiMidi.Theory.GuitarEngine

/-!
# `AiMidi.Theory.OrchestrationEngine`: chords and a melody for an ensemble

`orchestrateChords` and `orchestrateFull` hand out a progression, and in the second case a
melody, to the instruments of an ensemble. What an instrument plays depends on its role. All
notes are moved into the range of the instrument, each role in a way of its own.

The source collects the events in a map from names to tracks. Here a role returns its
`push_back` calls in order, each with the name it is made for. `trackOf` reads the track of a
name from the calls, and `collect` is the final loop over the instruments.

A role is a function of the instruments that have it, of the chord and of the tick of the bar. The
random numbers are drawn in the order of the source, role after role, so the bar threads one
generator through all of them. Ticks are computed with the casts of the source.
-/

set_option autoImplicit false

namespace AiMidi.Theory

open AiMidi.Lib AiMidi.Lib.Sanitized AiMidi.Lib.Seeded

/-- The roles in an ensemble. -/
inductive OrchestralRole where
  | melody
  | harmony
  | bass
  | pad
  | rhythm
  | countermelody
  | fill
  deriving DecidableEq, Repr

/-- An orchestral instrument with its register, role and priority. -/
structure OrchestralInstrument where
  name : Bytes
  gmProgram : Int
  channel : Int
  minNote : Int
  maxNote : Int
  role : OrchestralRole
  priority : Int
  deriving DecidableEq, Repr

/-- A named group of instruments. -/
structure OrchestralSection where
  name : Bytes
  instruments : List OrchestralInstrument
  deriving DecidableEq, Repr

namespace OrchestrationEngine

/-! ### Chord symbols -/

/-- A chord as the guitar engine parses it. -/
abbrev ParsedChord := GuitarEngine.ParsedChord

/-- The same parser as in the guitar engine. -/
def parseChord (sym : Bytes) : ParsedChord := GuitarEngine.parseChord sym

/-- The eight qualities of the chord engine. -/
def offsetsFor (quality : Bytes) : List Int := Theory.offsetsFor quality

/-! ### The ensemble -/

/-- Lower is more important. -/
def rolePriority : OrchestralRole → Int
  | .melody        => 0
  | .countermelody => 1
  | .harmony       => 2
  | .bass          => 3
  | .pad           => 4
  | .rhythm        => 5
  | .fill          => 6

/-- By role, then by name. -/
def instrumentLt (a b : OrchestralInstrument) : Bool :=
  if rolePriority a.role ≠ rolePriority b.role then rolePriority a.role < rolePriority b.role
  else a.name < b.name

/-- A stable sort. -/
def sortInstruments (insts : List OrchestralInstrument) : List OrchestralInstrument :=
  insts.insertionSort fun a b => instrumentLt b a = false

/-- All instruments of the ensemble, sorted as in the code. -/
def flattenEnsemble (ensemble : List OrchestralSection) : List OrchestralInstrument :=
  sortInstruments (ensemble.flatMap OrchestralSection.instruments)

/-- The instruments by role. -/
structure Groups where
  melody : List OrchestralInstrument
  countermelody : List OrchestralInstrument
  harmony : List OrchestralInstrument
  bass : List OrchestralInstrument
  pad : List OrchestralInstrument
  rhythm : List OrchestralInstrument
  fill : List OrchestralInstrument

/-- The instruments of each role, in the order of the ensemble. -/
def groupByRole (insts : List OrchestralInstrument) : Groups where
  melody := insts.filter (·.role = .melody)
  countermelody := insts.filter (·.role = .countermelody)
  harmony := insts.filter (·.role = .harmony)
  bass := insts.filter (·.role = .bass)
  pad := insts.filter (·.role = .pad)
  rhythm := insts.filter (·.role = .rhythm)
  fill := insts.filter (·.role = .fill)

/-- The second sort, within a role. -/
def sortByName (insts : List OrchestralInstrument) : List OrchestralInstrument :=
  insts.insertionSort fun a b => ¬ b.name < a.name

/-! ### Registers -/

/-- The middle of an instrument's range. -/
def center (inst : OrchestralInstrument) : Int := Int.tdiv (inst.minNote + inst.maxNote) 2

/-- Whether a note lies in the register of an instrument. -/
def inRange (inst : OrchestralInstrument) (n : Int) : Bool :=
  inst.minNote ≤ n && n ≤ inst.maxNote

/-- A note of a melody in the range of an instrument, six semitones away from its ends where
that is possible. -/
def transpose (inst : OrchestralInstrument) (n : Int) : Int :=
  let n := lowerTo (inst.maxNote - 6) (raiseTo (inst.minNote + 6) n)
  if inRange inst n then n else center inst

/-- One octave up from below the range, one octave down from above it. -/
def shiftOnce (inst : OrchestralInstrument) (n : Int) : Int :=
  let n := if n < inst.minNote then n + 12 else n
  if n > inst.maxNote then n - 12 else n

/-- A chord tone in the middle octave of the range, moved by an octave at most. -/
def chordTone (inst : OrchestralInstrument) (rootPc off : Int) : Int :=
  shiftOnce inst (Int.tdiv (center inst) 12 * 12 + Int.tmod (rootPc + off) 12)

/-- A note of the pool in the range, by the index of the chord, or a fallback. -/
def pickNoteInRange (pool : List Int) (minNote maxNote : Int) (chordIndex : Nat) : Int :=
  let candidates := pool.filter fun n => n ≥ minNote && n ≤ maxNote
  if candidates = [] then
    -- The first note of the pool, moved by octaves, or the middle of the range.
    let fallback := lowerTo maxNote (raiseTo minNote (pool.headD 60))
    if fallback < minNote ∨ fallback > maxNote then Int.tdiv (minNote + maxNote) 2 else fallback
  else candidates.getD (chordIndex % candidates.length) 0

/-! ### Tracks -/

/-- A note event without articulation. -/
def makeNote (tickOn tickOff : UInt32) (note velocity channel : UInt8) : MidiEvent :=
  ⟨tickOn, tickOff, channel, note, velocity, 0⟩

/-- A call `output[name].push_back(e)`. -/
abbrev Push := Bytes × MidiEvent

/-- A note for an instrument, on its channel. -/
def pushNote (inst : OrchestralInstrument) (tickOn tickOff : UInt32) (note : Int)
    (velocity : UInt8) : Push :=
  (inst.name, makeNote tickOn tickOff (u8cast note) velocity (u8cast inst.channel))

/-- The track of a name. -/
def trackOf (pushes : List Push) (name : Bytes) : List MidiEvent :=
  (pushes.filter (·.1 = name)).map Prod.snd

/-- The tracks in the order of the instruments. A track is moved out of the map, so a second
instrument of the same name finds an empty one. -/
def collect : List Push → List OrchestralInstrument → List (Bytes × List MidiEvent)
  | _, [] => []
  | pushes, inst :: insts =>
    let events := trackOf pushes inst.name
    let rest := collect (pushes.filter (·.1 ≠ inst.name)) insts
    if events = [] then rest else (inst.name, events) :: rest

/-! ### One bar of a role -/

/-- The lowest and the highest note of the instruments. -/
def registers (targets : List OrchestralInstrument) : Int × Int :=
  targets.foldl (fun (low, high) inst => (min low inst.minNote, max high inst.maxNote)) (127, 0)

/-- The chord tones in four octaves around the middle of the registers. -/
def chordPool (chord : ParsedChord) (targets : List OrchestralInstrument) : List Int :=
  let (minRegister, maxRegister) := registers targets
  let center := Int.tdiv (minRegister + maxRegister) 2
  let pc := Int.tmod chord.rootPc 12
  let pool := setOf (([-1, 0, 1, 2].flatMap fun oct =>
    (offsetsFor chord.quality).map fun off =>
      (Int.tdiv center 12 + oct) * 12 + Int.tmod (pc + off) 12).filter fun n => n ≥ 0 && n ≤ 127)
  if pool = [] then [60, 64, 67] else pool

/-- The loop over the harmony instruments. A note that is given out leaves the pool. -/
def giveNotes (barStart : UInt32) (duration baseVel : Int) :
    List OrchestralInstrument → Nat → List Int → Seeded (List Push)
  | [], _, _ => pure []
  | inst :: targets, instIdx, pool => do
    let note := pickNoteInRange pool inst.minNote inst.maxNote instIdx
    let tickOff ← addTick barStart duration
    let k ← draw 21
    let rest ← giveNotes barStart duration baseVel targets (instIdx + 1) (pool.erase note)
    pure (pushNote inst barStart tickOff note (u8cast (min 127 (baseVel + k - 10))) :: rest)

/-- One chord tone for each harmony instrument. -/
def assignChordToHarmony (chord : ParsedChord) (targets : List OrchestralInstrument)
    (barStart : UInt32) (duration baseVel : Int) : Seeded (List Push) :=
  if targets = [] then pure []
  else giveNotes barStart duration baseVel targets 0 (chordPool chord targets)

/-- The root of a bass instrument, in its lower part. -/
def bassRoot (inst : OrchestralInstrument) (chord : ParsedChord) : Int :=
  let root := Int.tdiv inst.minNote 12 * 12 + Int.tmod chord.rootPc 12
  let root := lowerTo (inst.minNote + 18) (raiseTo (inst.minNote + 6) root)
  let root := if root < inst.minNote then root + 12 else root
  if root > inst.maxNote then root - 12 else root

/-- The fifth to a root. -/
def bassFifth (inst : OrchestralInstrument) (root : Int) : Int :=
  let fifth := if root + 7 > inst.maxNote then root + 7 - 12 else root + 7
  if fifth < inst.minNote then fifth + 12 else fifth

/-- Root on beat 1, fifth on beat 3. -/
def assignBass (chord : ParsedChord) (bassInsts : List OrchestralInstrument)
    (barStart : UInt32) (beatTicks : Int) : Seeded (List Push) :=
  Seeded.forEach (fun inst => do
    let root := bassRoot inst chord
    let k ← draw 21
    let vel := u8cast (70 + k)
    let off1 ← addTick barStart (beatTicks * 2)
    let off1 ← subTick off1 10
    let on2 ← addTick barStart (beatTicks * 2)
    let off2 ← addTick barStart (beatTicks * 4)
    let off2 ← subTick off2 10
    pure [pushNote inst barStart off1 root vel,
      pushNote inst on2 off2 (bassFifth inst root) (u8cast ((vel.toNat : Int) - 5))]) bassInsts

/-- The chord, held. A tone that does not fit into the range is left out. -/
def assignPad (chord : ParsedChord) (padInsts : List OrchestralInstrument)
    (barStart : UInt32) (duration : Int) : Seeded (List Push) :=
  Seeded.forEach (fun inst => do
    let k ← draw 16
    let tickOff ← addTick barStart duration
    Seeded.forEach (fun off =>
      let n := chordTone inst (Int.tmod chord.rootPc 12) off
      if inRange inst n then pure [pushNote inst barStart tickOff n (u8cast (50 + k))]
      else pure []) (offsetsFor chord.quality)) padInsts

/-- One note of a chord `beat` beats into the bar, shortened by `gap` from a length of `dur`.
A tone that does not fit into the range is not drawn for either. -/
def beatTone (chord : ParsedChord) (barStart : UInt32) (dur gap baseVel : Int) (m : UInt64)
    (inst : OrchestralInstrument) (beat : Nat) (off : Int) : Seeded (List Push) :=
  let n := chordTone inst chord.rootPc off
  if inRange inst n then do
    let bt ← addTick barStart (beat * kPpq)
    let k ← draw m
    let tickOff ← addTick bt dur
    let tickOff ← subTick tickOff gap
    pure [pushNote inst bt tickOff n (u8cast (baseVel + k))]
  else pure []

/-- Short chords on beats 2 and 4. The two operations draw the velocities from different
spans. -/
def chordStabs (m : UInt64) (chord : ParsedChord) (both : List OrchestralInstrument)
    (barStart : UInt32) : Seeded (List Push) :=
  Seeded.forEach (fun inst =>
    Seeded.forEach (fun beat =>
      Seeded.forEach (beatTone chord barStart (kPpq / 2) 5 55 m inst beat)
        (offsetsFor chord.quality)) [1, 3]) both

/-- The root of the chord, for a melody instrument without a melody. -/
def rootMelody (chord : ParsedChord) (melodyInsts : List OrchestralInstrument)
    (barStart : UInt32) : Seeded (List Push) :=
  Seeded.forEach (fun inst => do
    let note := transpose inst (Int.tdiv (center inst) 12 * 12 + Int.tmod chord.rootPc 12)
    let k ← draw 31
    let tickOff ← addTick barStart kPpq
    let tickOff ← subTick tickOff 5
    pure [pushNote inst barStart tickOff note (u8cast (70 + k))]) melodyInsts

/-- One chord tone on each beat. -/
def chordCountermelody (chord : ParsedChord) (insts : List OrchestralInstrument)
    (barStart : UInt32) : Seeded (List Push) :=
  let offsets := offsetsFor chord.quality
  Seeded.forEach (fun inst =>
    Seeded.forEach (fun beat : Nat =>
      beatTone chord barStart kPpq 10 60 21 inst beat (offsets.getD (beat % offsets.length) 0))
      (List.range 4)) insts

/-! ### The operations -/

/-- The chord of a bar: the progression repeats. -/
def chordOf (progression : List Bytes) (bar : Nat) : ParsedChord :=
  parseChord (progression.getD (bar % progression.length) [])

/-- `bar * ticks_per_bar` in 32 bits. -/
def barTick (bar : Nat) : Sanitized UInt32 := u32 ((u32cast bar).toNat * 1920)

/-- The roots as a melody of the whole progression. Nothing reads it, but its velocities are
drawn before the first bar. -/
def melodyFromChords (melodyInsts : List OrchestralInstrument) (progression : List Bytes) :
    Seeded (List MidiEvent) :=
  if melodyInsts = [] then pure []
  else Seeded.forEach (fun (sym, i) => do
    let tick ← barTick i
    let tickOff ← addTick tick kPpq
    let tickOff ← subTick tickOff 5
    let k ← draw 21
    pure [makeNote tick tickOff (u8cast (60 + Int.tmod (parseChord sym).rootPc 12))
      (u8cast (75 + k)) 0]) progression.zipIdx

/-- One bar of `orchestrate_chords`. -/
def chordsBar (groups : Groups) (progression : List Bytes) (bar : Nat) : Seeded (List Push) := do
  let parsed := chordOf progression bar
  let barStart ← barTick bar
  let melody ← rootMelody parsed groups.melody barStart
  let countermelody ← chordCountermelody parsed groups.countermelody barStart
  let harmony ← assignChordToHarmony parsed groups.harmony barStart 1900 60
  let bass ← assignBass parsed groups.bass barStart kPpq
  let pad ← assignPad parsed groups.pad barStart 1900
  let stabs ← chordStabs 26 parsed (groups.rhythm ++ groups.fill) barStart
  pure (melody ++ countermelody ++ harmony ++ bass ++ pad ++ stabs)

/-- The `push_back` calls of `orchestrate_chords`. -/
def chordsPushes (groups : Groups) (progression : List Bytes) (bars : Int) :
    Seeded (List Push) := do
  let _ ← melodyFromChords groups.melody progression
  Seeded.forEach (chordsBar groups progression) (List.range bars.toNat)

/-- The tracks of the chords alone, without a melody. -/
def orchestrateChords (progression : List Bytes) (ensemble : List OrchestralSection) (bars : Int)
    (seed : Seed) : Sanitized (List (Bytes × List MidiEvent)) :=
  if bars < 1 ∨ progression = [] ∨ ensemble = [] then pure []
  else
    let allInsts := flattenEnsemble ensemble
    if allInsts = [] then pure []
    else do
      let pushes ← run seed (chordsPushes (groupByRole allInsts) progression bars)
      pure (collect pushes allInsts)

/-- The melody in the range of each melody instrument. -/
def assignMelody (melody : List MidiEvent) (insts : List OrchestralInstrument) : List Push :=
  insts.flatMap fun inst => melody.map fun note =>
    (inst.name,
      { note with channel := u8cast inst.channel, note := u8cast (transpose inst note.note.toNat) })

/-- The melody a minor third lower, and softer. -/
def assignCountermelody (melody : List MidiEvent) (insts : List OrchestralInstrument) :
    List Push :=
  insts.flatMap fun inst => melody.map fun note =>
    (inst.name,
      { note with
        channel := u8cast inst.channel
        note := u8cast (transpose inst (note.note.toNat - 3))
        velocity := u8cast (min 127 (note.velocity.toNat - 10)) })

/-- One bar of `orchestrate_full`. -/
def fullBar (groups : Groups) (progression : List Bytes) (bar : Nat) : Seeded (List Push) := do
  let parsed := chordOf progression bar
  let barStart ← barTick bar
  let harmony ← assignChordToHarmony parsed (sortByName groups.harmony) barStart 1900 55
  let bass ← assignBass parsed groups.bass barStart kPpq
  let pad ← assignPad parsed groups.pad barStart 1900
  let stabs ← chordStabs 21 parsed (groups.rhythm ++ groups.fill) barStart
  pure (harmony ++ bass ++ pad ++ stabs)

/-- The `push_back` calls of `orchestrate_full`. -/
def fullPushes (melody : List MidiEvent) (groups : Groups) (progression : List Bytes)
    (bars : Int) : Seeded (List Push) := do
  let backing ← Seeded.forEach (fullBar groups progression) (List.range bars.toNat)
  pure (assignMelody melody (sortByName groups.melody) ++
    assignCountermelody melody (sortByName groups.countermelody) ++ backing)

/-- The tracks of a melody with its chords. -/
def orchestrateFull (melody : List MidiEvent) (progression : List Bytes)
    (ensemble : List OrchestralSection) (bars : Int) (seed : Seed) :
    Sanitized (List (Bytes × List MidiEvent)) :=
  if melody = [] ∨ progression = [] ∨ ensemble = [] ∨ bars < 1 then pure []
  else
    let allInsts := flattenEnsemble ensemble
    if allInsts = [] then pure []
    else do
      let pushes ← run seed (fullPushes melody (groupByRole allInsts) progression bars)
      pure (collect pushes allInsts)

end OrchestrationEngine

end AiMidi.Theory
