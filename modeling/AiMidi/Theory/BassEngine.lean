import AiMidi.Theory.ChordEngine

/-!
# `AiMidi.Theory.BassEngine`: bass lines

Each chord gets one of four patterns, drawn from a generator that is seeded with the request
seed and the index of the chord. The style of the request is not read.
-/

set_option autoImplicit false

namespace AiMidi.Theory

open AiMidi.Lib AiMidi.Lib.Sanitized AiMidi.Lib.Seeded

namespace BassEngine

/-- The bounds of the bass register. -/
def kBassRootMidi : Int := 24
def kBassMaxMidi : Int := 60

/-- The four bass patterns, one of which is drawn for each chord. -/
inductive Pattern where
  | A
  | B
  | C
  | D
  deriving DecidableEq, Repr

/-- The pattern of `rng() % 4`. -/
def Pattern.ofDraw : Nat → Pattern
  | 0 => .A
  | 1 => .B
  | 2 => .C
  | _ => .D

/-- A note event without articulation. -/
def makeNote (tickOn tickOff : UInt32) (note velocity channel : UInt8) : MidiEvent :=
  ⟨tickOn, tickOff, channel, note, velocity, 0⟩

/-- The root of the chord in the lowest octave of the register. -/
def rootMidi (rootPc : Int) : Int := kBassRootMidi + Int.tmod rootPc 12

/-- The fifth above the root, cut at the top of the register. -/
def fifthMidi (rootPc : Int) : Int := min (kBassRootMidi + rootPc + 7) kBassMaxMidi

/-- A walking note above the root, by the drawn choice. -/
def walkingNote (rootPc : Int) (choice : Nat) : Int :=
  let base := kBassRootMidi + Int.tmod rootPc 12
  let note := match choice with
    | 0 => base
    | 1 => base + 2
    | 2 => base + 3
    | _ => base + 7
  -- Only a negative root can take this branch.
  let note := if note < kBassRootMidi then note + 12 else note
  min note kBassMaxMidi

/-- A note of pattern A, whose tick passes through an `int`. -/
def beatNote (cs : ChordSpec) (ppq rootDur : Int) (rootVel : UInt8) (beat : Int) :
    Sanitized (List MidiEvent) := do
  let offset ← i32 (beat * ppq)
  let start ← addTick cs.startTick offset
  let tick ← i32 start.toNat
  let tickOff ← i32 (tick + rootDur)
  let on ← u32 tick
  let off ← u32 tickOff
  pure [makeNote on off (u8cast (rootMidi cs.rootPc)) rootVel 0]

/-- A note that starts `beat` quarters into the chord and lasts `dur`. -/
def noteAt (cs : ChordSpec) (ppq beat dur note : Int) (vel : UInt8) :
    Sanitized (List MidiEvent) := do
  let offset ← i32 (ppq * beat)
  let on ← addTick cs.startTick offset
  let off ← addTick on dur
  pure [makeNote on off (u8cast note) vel 0]

/-- The notes of a pattern. -/
def patternNotes (cs : ChordSpec) (ppq rootDur fifthDur : Int) (rootVel fifthVel : UInt8) :
    Pattern → Seeded (List MidiEvent)
  | .A => Sanitized.forEach (beatNote cs ppq rootDur rootVel) [0, 1, 2, 3]
  | .B => do
    let n0 ← noteAt cs ppq 0 rootDur (rootMidi cs.rootPc) rootVel
    let n1 ← noteAt cs ppq 1 fifthDur (fifthMidi cs.rootPc) fifthVel
    let n2 ← noteAt cs ppq 2 rootDur (rootMidi cs.rootPc) rootVel
    let n3 ← noteAt cs ppq 3 rootDur (rootMidi cs.rootPc) rootVel
    pure (n0 ++ n1 ++ n2 ++ n3)
  | .C => do
    -- Both walking notes are drawn before the first note is pushed.
    let c1 ← draw 4
    let c3 ← draw 4
    let n0 ← noteAt cs ppq 0 rootDur (rootMidi cs.rootPc) rootVel
    let n1 ← noteAt cs ppq 1 rootDur (walkingNote cs.rootPc c1) rootVel
    let n2 ← noteAt cs ppq 2 rootDur (rootMidi cs.rootPc) rootVel
    let n3 ← noteAt cs ppq 3 rootDur (walkingNote cs.rootPc c3) rootVel
    pure (n0 ++ n1 ++ n2 ++ n3)
  | .D => do
    let n0 ← noteAt cs ppq 0 rootDur (rootMidi cs.rootPc) rootVel
    let n1 ← noteAt cs ppq 1 fifthDur (fifthMidi cs.rootPc) fifthVel
    let n2 ← noteAt cs ppq 2 rootDur (rootMidi cs.rootPc) rootVel
    pure (n0 ++ n1 ++ n2)

/-- The bass line under one chord. -/
def chordNotes (ppq : Int) (cs : ChordSpec) : Seeded (List MidiEvent) := do
  let pat ← draw 4
  -- Both velocities are drawn for every pattern, also where no fifth is played.
  let rootDur ← i32 (ppq - 10)
  let fifthDur ← i32 (Int.tdiv ppq 2 - 5)
  let root ← draw 51
  let fifth ← draw 26
  patternNotes cs ppq rootDur fifthDur (u8cast (50 + root)) (u8cast (50 + fifth))
    (Pattern.ofDraw pat)

/-- The bass line of a request. -/
def generate (req : ChordRequest) : Sanitized (List MidiEvent) :=
  let ppq := i32cast req.ppq.toNat
  Sanitized.forEach (fun (cs, i) => run (req.seed ^^^ UInt64.ofNat i) (chordNotes ppq cs))
    req.chords.zipIdx

end BassEngine

end AiMidi.Theory
