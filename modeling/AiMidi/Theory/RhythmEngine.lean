import AiMidi.Theory.BassEngine

/-!
# `AiMidi.Theory.RhythmEngine`: drum patterns bar by bar

Each chord gets the pattern of the bar it starts in: a hi-hat on every grid position, a kick
on the even ones and a snare on the odd ones, with an optional fill on the last beats. The
generator of a bar is seeded with the request seed, the bar and the resolution.

The `float` swing is a rational number.
-/

set_option autoImplicit false

namespace AiMidi.Theory

open AiMidi.Lib AiMidi.Lib.Sanitized AiMidi.Lib.Seeded

/-- The grid of a rhythm. -/
inductive RhythmResolution where
  | eighth
  | sixteenth
  deriving DecidableEq, Repr

/-- The style of a rhythm, with the defaults of the code. -/
structure RhythmStyle where
  resolution : RhythmResolution := .eighth
  swing : Rat := 0
  seed : Seed := 0

/-- Where a fill starts and how strong it is; a negative bar means no fill. -/
structure FillSpec where
  startBar : Int := -1
  strength : Int := 1

namespace RhythmEngine

/-- The General MIDI drums of the patterns and their channel. -/
def kKick : UInt8 := 36
def kSnare : UInt8 := 38
def kClosedHH : UInt8 := 42
def kOpenHH : UInt8 := 46
def kDrumChannel : UInt8 := 9

/-- Bar length at `kPpq`. -/
def kBarTicks : Nat := 1920

/-- Truncation of a `float` to an `int`. -/
def truncate (q : Rat) : Int := Int.tdiv q.num q.den

/-- A velocity between `lo` and `hi`. -/
def humanizedVelocity (lo hi : Int) : Seeded UInt8 := do
  let k ← draw (u64cast (hi - lo + 1))
  pure (u8cast (max lo (min (lo + i32cast k) hi)))

/-- The grid of a bar: the offsets of one beat, four times. -/
def barTicks (beatOffsets : List Int) : Sanitized (List UInt32) :=
  Sanitized.forEach (fun beat : Int =>
    Sanitized.forEach (fun off => do
      let tick ← u32 (beat * kPpq + off)
      pure [tick]) beatOffsets) [0, 1, 2, 3]

/-- The ticks of a bar of eighths. -/
def eighthBarTicksStraight : Sanitized (List UInt32) := barTicks [0, kPpq / 2]

/-- The ticks of a bar of sixteenths. -/
def sixteenthBarTicks : Sanitized (List UInt32) :=
  barTicks [0, kPpq / 4, kPpq / 2, 3 * kPpq / 4]

/-- Swing: the odd grid positions are delayed. The product that the source takes in `float` is exact
here, and the delay can be a tick shorter for it: 83 and not 84 for `0.7f`. -/
def applySwing (base : List UInt32) (swing : Rat) : Sanitized (List UInt32) :=
  if swing ≤ 0 then pure base
  else
    let swingDelta := truncate (swing * kPpq / 4)
    Sanitized.forEach (fun (tick, i) => do
      -- The index runs over the whole bar, so these are the odd positions of either grid.
      if i % 4 = 1 ∨ i % 4 = 3 then
        let delayed ← addTick tick swingDelta
        pure [delayed]
      else pure [tick]) base.zipIdx

/-- One drum hit of length 1 with a drawn velocity. -/
def drumEvent (tick : UInt32) (note : UInt8) (lo hi : Int) : Seeded (List MidiEvent) := do
  let off ← addTick tick 1
  let velocity ← humanizedVelocity lo hi
  pure [⟨tick, off, kDrumChannel, note, velocity, 0⟩]

/-- One grid position: the hi-hat, then kick or snare. -/
def gridHits (barStart tick : UInt32) (beatNote : UInt8) : Seeded (List MidiEvent) := do
  let t ← u32 (barStart.toNat + tick.toNat)
  let hat ← drumEvent t kClosedHH 60 85
  let beat ← drumEvent t beatNote 80 100
  pure (hat ++ beat)

/-- A bar of eighth notes. -/
def fillEighthPattern (barStart : UInt32) (ticks : List UInt32) : Seeded (List MidiEvent) :=
  Seeded.forEach (fun (tick, i) =>
    gridHits barStart tick (if i % 2 = 0 then kKick else kSnare)) ticks.zipIdx

/-- A bar of sixteenth notes. -/
def fillSixteenthPattern (barStart : UInt32) (ticks : List UInt32) : Seeded (List MidiEvent) :=
  Seeded.forEach (fun (tick, i) =>
    gridHits barStart tick (if i % 4 = 0 ∨ i % 4 = 2 then kKick else kSnare)) ticks.zipIdx

/-- The fill at the end of a bar. -/
def fillBarFill (barStart : UInt32) (strength : Int) : Seeded (List MidiEvent) := do
  let beat4 ← addTick barStart (3 * kPpq)
  if strength = 1 then
    let kick ← drumEvent beat4 kKick 85 100
    let snare ← drumEvent beat4 kSnare 85 100
    pure (kick ++ snare)
  else if strength = 2 then
    let beat3 ← addTick barStart (2 * kPpq)
    let kick ← drumEvent beat3 kKick 90 105
    let snare ← drumEvent beat4 kSnare 90 105
    let hat ← drumEvent beat4 kOpenHH 75 90
    pure (kick ++ snare ++ hat)
  else if strength ≥ 3 then
    let beat3 ← addTick barStart (2 * kPpq)
    let kick3 ← drumEvent beat3 kKick 95 110
    let kick4 ← drumEvent beat4 kKick 95 110
    let snare ← drumEvent beat4 kSnare 95 110
    let hat ← drumEvent beat4 kOpenHH 85 100
    pure (kick3 ++ kick4 ++ snare ++ hat)
  else pure []

/-- The seed of a bar. -/
def barSeed (seed : Seed) (barIndex : Nat) (resolution : RhythmResolution) : Seed :=
  seed ^^^ UInt64.ofNat barIndex ^^^
    match resolution with
    | .sixteenth => 0xDEADBEEF
    | .eighth    => 0xCAFEBABE

/-- The pattern of a bar. -/
def barPattern (style : RhythmStyle) (fill : FillSpec) (ticks : List UInt32)
    (barIndex : Nat) (barStart : UInt32) : Seeded (List MidiEvent) := do
  let pattern ← match style.resolution with
    | .sixteenth => fillSixteenthPattern barStart ticks
    | .eighth    => fillEighthPattern barStart ticks
  -- The default -1 selects no bar.
  if fill.startBar ≥ 0 ∧ (u32cast fill.startBar).toNat = barIndex then
    let extra ← fillBarFill barStart fill.strength
    pure (pattern ++ extra)
  else pure pattern

/-- The pattern of the bar that a chord starts in. -/
def chordPattern (seed : Seed) (style : RhythmStyle) (fill : FillSpec) (ticks : List UInt32)
    (cs : ChordSpec) : Sanitized (List MidiEvent) := do
  let barIndex := cs.startTick.toNat / kBarTicks
  let barStart ← u32 (barIndex * kBarTicks)
  run (barSeed seed barIndex style.resolution) (barPattern style fill ticks barIndex barStart)

/-- The drum pattern of a request. -/
def generate (req : ChordRequest) (style : RhythmStyle) (fill : FillSpec) :
    Sanitized (List MidiEvent) := do
  let base ← match style.resolution with
    | .sixteenth => sixteenthBarTicks
    | .eighth    => eighthBarTicksStraight
  -- One grid for all chords.
  let ticks ← applySwing base style.swing
  Sanitized.forEach (chordPattern req.seed style fill ticks) req.chords

end RhythmEngine

end AiMidi.Theory
