import AiMidi.Lib.Seeded
import AiMidi.Theory.Types

/-!
# `AiMidi.Theory.CounterpointEngine`: a second voice to a bass

`generate` puts one note over each bass note (first species) or two (second species). The note on
the downbeat is drawn from the consonances to the bass. Its first and its last one are octaves,
and the others are filtered against parallels and against the direction of the cantus firmus.

Ticks are `int` here and sanitized. Notes are exact integers: in the source they are of type `int`,
and no sum overflows unless a bass note is within 84 of the ends of that type. The scale provider
of the engine is not used.
-/

set_option autoImplicit false

namespace AiMidi.Theory

open AiMidi.Lib AiMidi.Lib.Sanitized AiMidi.Lib.Seeded

/-- The two species of counterpoint that the engine writes. -/
inductive CounterpointSpecies where
  | first
  | second
  deriving DecidableEq, Repr

/-- A request for a counterpoint, with its melody and its bass. -/
structure CounterpointRequest where
  cantusFirmus : List Int
  bassNotes : List Int
  bars : Int
  seed : Seed := 0
  species : CounterpointSpecies := .first
  ppq : Int := 480

namespace CounterpointEngine

/-! ### Intervals -/

/-- The register of the counterpoint, and the intervals above the bass that it may sound. -/
def kMinMidi : Int := 60
def kMaxMidi : Int := 84
def kConsonantIntervals : List Int := [0, 3, 4, 7, 8, 9]

/-- `(n % 12 + 12) % 12`. -/
def mod12 (n : Int) : Int := Int.tmod (Int.tmod n 12 + 12) 12

/-- Whether an interval class is consonant; a negative one is first brought into an octave. -/
def isConsonant (intervalClass : Int) : Bool :=
  let ic := Int.tmod intervalClass 12
  let ic := if ic < 0 then ic + 12 else ic
  kConsonantIntervals.contains ic

/-- The notes of a range that are consonant to a bass note. -/
def validMidiNotes (bassPc minMidi maxMidi : Int) : List Int :=
  let validPcs := kConsonantIntervals.map fun interval => mod12 (bassPc + interval)
  ((List.range (maxMidi - minMidi + 1).toNat).map fun i : Nat => minMidi + i).filter
    fun midi => validPcs.contains (mod12 midi)

/-- The interval class between the counterpoint and the bass. -/
def intervalClass (counterMidi bassPc : Int) : Int := mod12 (counterMidi - bassPc)

/-- The direction in which the melody moves, as a sign. -/
def cfDirection (prev curr : Int) : Int :=
  if curr > prev then 1
  else if curr < prev then -1
  else 0

/-! ### The choice of a note -/

/-- The note before, with its interval class. -/
structure Previous where
  note : Int := -1
  ic : Int := -1
  deriving DecidableEq, Repr

/-- The direction of the cantus firmus into its note `i`. -/
def cfDirectionAt (cf : List Int) (i : Nat) : Int :=
  if i < cf.length ∧ i > 0 then cfDirection (cf.getD (i - 1) 0) (cf.getD i 0) else 0

/-- No parallel to the note before, and contrary motion when the cantus firmus moves. -/
def keepsCandidate (bassPc cfDir : Int) (prev : Previous) (c : Int) : Bool :=
  let ic := intervalClass c bassPc
  if (prev.ic = 7 ∧ ic = 7) ∨ (prev.ic = 0 ∧ ic = 0) then false
  else if cfDir ≠ 0 then cfDirection prev.note c = -cfDir
  else true

/-- A filter that would leave nothing is not applied. -/
def filterFirstSpecies (candidates : List Int) (bassPc : Int) (i n : Nat) (prev : Previous)
    (cf : List Int) : List Int :=
  if candidates = [] then candidates
  else if i = 0 ∨ i = n - 1 then
    let perfect := candidates.filter fun c =>
      intervalClass c bassPc = 0 || intervalClass c bassPc = 12
    if perfect = [] then candidates else perfect
  else if prev.note ≥ 0 then
    let filtered := candidates.filter (keepsCandidate bassPc (cfDirectionAt cf i) prev)
    if filtered = [] then candidates else filtered
  else candidates

/-- An octave of the bass note, for want of a candidate. -/
def fallbackOctave (bassPc : Int) : Int :=
  let octave := kMinMidi + Int.tmod (bassPc - Int.tmod kMinMidi 12 + 12) 12
  let octave := if octave < kMinMidi then octave + 12 else octave
  if octave > kMaxMidi then octave - 12 else octave

/-- One of the candidates at random, or the octave above the bass if there is none. -/
def choose (candidates : List Int) (bassPc : Int) : Seeded Int :=
  if candidates = [] then pure (fallbackOctave bassPc)
  else do
    let k ← draw (UInt64.ofNat candidates.length)
    pure (candidates.getD k 0)

/-- The note of a downbeat. -/
def chooseDownbeat (cf : List Int) (n i : Nat) (prev : Previous) (bassPc : Int) : Seeded Int :=
  choose (filterFirstSpecies (validMidiNotes bassPc kMinMidi kMaxMidi) bassPc i n prev cf) bassPc

/-- Up to three semitones from the note before: consonances, seconds and fourths. -/
def passingNotes (prevNote direction bassPc : Int) : List Int :=
  ([1, 2, 3].map fun step => prevNote + direction * step).filter fun pt =>
    let diff := Int.tmod (mod12 pt - mod12 bassPc + 12) 12
    pt ≥ kMinMidi && pt ≤ kMaxMidi &&
      (isConsonant (intervalClass pt bassPc) || diff = 1 || diff = 2 || diff = 5)

/-- The second note to a bass note. Without a passing note it is any consonance. -/
def choosePassing (prevNote bassPc : Int) : Seeded Int := do
  let k ← draw 2
  let passing := passingNotes prevNote (if k = 0 then 1 else -1) bassPc
  if passing = [] then choose (validMidiNotes bassPc kMinMidi kMaxMidi) bassPc
  else choose passing bassPc

/-! ### Events -/

/-- A note event without articulation. -/
def makeNote (tickOn tickOff : UInt32) (note velocity channel : UInt8) : MidiEvent :=
  ⟨tickOn, tickOff, channel, note, velocity, 0⟩

/-- A velocity from 60 to 100. -/
def chooseVelocity : Seeded Int := do
  let k ← draw 41
  pure (60 + k)

/-- A chosen note. -/
def emit (tick dur chosen : Int) : Seeded MidiEvent := do
  let tickOn ← u32 tick
  let last ← i32 (tick + dur)
  let tickOff ← u32 last
  let velocity ← chooseVelocity
  pure (makeNote tickOn tickOff (u8cast chosen) (u8cast velocity) 0)

/-- The loop over the bass notes. A round returns its events and the note that it leaves. -/
def overBass (round : Nat → Previous → Int → Seeded (List MidiEvent × Previous)) :
    Nat → Previous → List Int → Seeded (List MidiEvent)
  | _, _, [] => pure []
  | i, prev, bassPc :: bass => do
    let (out, prev) ← round i prev bassPc
    let rest ← overBass round (i + 1) prev bass
    pure (out ++ rest)

/-- A round of the first species: one consonance that lasts the slot. -/
def firstRound (cf : List Int) (n : Nat) (slotTicks : Int) (i : Nat) (prev : Previous)
    (bassPc : Int) : Seeded (List MidiEvent × Previous) := do
  let tick ← i32 (i32cast i * slotTicks)
  let dur ← i32 (slotTicks - 5)
  let chosen ← chooseDownbeat cf n i prev bassPc
  let e ← emit tick dur chosen
  pure ([e], ⟨chosen, intervalClass chosen bassPc⟩)

/-- The first species over all bass notes. -/
def generateFirstSpecies (req : CounterpointRequest) (slotTicks : Int) :
    Seeded (List MidiEvent) :=
  overBass (firstRound req.cantusFirmus req.bassNotes.length slotTicks) 0 {} req.bassNotes

/-- A note on the downbeat and one half a slot behind it. -/
def secondRound (cf : List Int) (n : Nat) (slotTicks : Int) (i : Nat) (prev : Previous)
    (bassPc : Int) : Seeded (List MidiEvent × Previous) := do
  let subSlot := Int.tdiv slotTicks 2
  let dur ← i32 (subSlot - 5)
  let baseTick ← i32 (i32cast i * slotTicks)
  let chosen ← chooseDownbeat cf n i prev bassPc
  let down ← emit baseTick dur chosen
  let tick ← i32 (baseTick + subSlot)
  let passing ← choosePassing chosen bassPc
  let up ← emit tick dur passing
  pure ([down, up], ⟨passing, intervalClass passing bassPc⟩)

/-- The second species over all bass notes. -/
def generateSecondSpecies (req : CounterpointRequest) (slotTicks : Int) :
    Seeded (List MidiEvent) :=
  overBass (secondRound req.cantusFirmus req.bassNotes.length slotTicks) 0 {} req.bassNotes

/-! ### The operation -/

/-- `a / b`. A division by zero counts as a wrap. -/
def divide (a b : Int) : Sanitized Int :=
  if b = 0 then ⟨0, true⟩ else i32 (Int.tdiv a b)

/-- The ticks of one bass note. -/
def slotTicks (req : CounterpointRequest) : Sanitized Int := do
  let beats ← i32 (req.bars * req.ppq)
  let totalTicks ← i32 (beats * 4)
  divide totalTicks (i32cast req.bassNotes.length)

/-- The counterpoint of a request, empty unless both voices are given. -/
def generate (req : CounterpointRequest) : Sanitized (List MidiEvent) :=
  if req.bassNotes = [] ∨ req.cantusFirmus = [] then pure []
  else do
    let slot ← slotTicks req
    match req.species with
    | .first  => run req.seed (generateFirstSpecies req slot)
    | .second => run req.seed (generateSecondSpecies req slot)

end CounterpointEngine

end AiMidi.Theory
