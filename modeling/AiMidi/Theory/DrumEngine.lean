import AiMidi.Theory.ChordEngine

/-!
# `AiMidi.Theory.DrumEngine`: drum grooves with ghost notes and fills

Every fourth chord gets a fill, every other one of four variations, drawn from a generator
that is seeded with the style seed and the index of the chord. A variation is a list of hits
at offsets in the bar. Velocities and ghost notes are drawn hit by hit.
-/

set_option autoImplicit false

namespace AiMidi.Theory

open AiMidi.Lib AiMidi.Lib.Sanitized AiMidi.Lib.Seeded

/-- The options of a drum pattern. -/
structure DrumStyle where
  seed : Int := 0
  useGhosts : Bool := true
  useOpenHh : Bool := false

namespace DrumEngine

/-- The General MIDI drums of the patterns, their channel and their length. -/
def kKick : UInt8 := 36
def kSnare : UInt8 := 38
def kClosedHH : UInt8 := 42
def kOpenHH : UInt8 := 46
def kDrumChannel : UInt8 := 9
def kNoteDuration : Int := 60

/-- A drum hit of the fixed length. -/
def makeDrum (tick : UInt32) (note velocity : UInt8) : Sanitized (List MidiEvent) := do
  let tickOff ← addTick tick kNoteDuration
  pure [⟨tick, tickOff, kDrumChannel, note, velocity, 0⟩]

/-- A hit of a variation, at an offset in the bar. -/
inductive Hit where
  | kick (pos : Int) (vel : UInt8)
  | hh (pos : Int) (isOpen : Bool)
  | snare (pos : Int) (vel : UInt8)
  | ghostSnare (pos : Int)

/-- One hit. A ghost note is drawn: half of them stay silent. -/
def playHit (style : DrumStyle) (barStart : UInt32) : Hit → Seeded (List MidiEvent)
  | .kick pos vel => do
    let tick ← addTick barStart pos
    makeDrum tick kKick vel
  | .hh pos isOpen => do
    let tick ← addTick barStart pos
    let vel ← draw 20
    makeDrum tick (if isOpen then kOpenHH else kClosedHH) (u8cast (60 + vel))
  | .snare pos vel => do
    let tick ← addTick barStart pos
    makeDrum tick kSnare vel
  | .ghostSnare pos => do
    let tick ← addTick barStart pos
    if style.useGhosts then
      -- Without ghost notes the generator is not asked, so later draws differ as well.
      let coin ← draw 2
      if coin = 0 then
        let vel ← draw 11
        makeDrum tick kSnare (u8cast (25 + vel))
      else pure []
    else pure []

/-- The hits of a variation. -/
def variationHits (style : DrumStyle) : Nat → List Hit
  | 0 =>
    [.kick 0 100, .hh 0 false, .snare 480 90, .hh 480 false, .ghostSnare 600,
     .kick 960 95, .hh 960 false, .snare 1440 90, .hh 1440 false, .ghostSnare 1560]
  | 1 =>
    [.kick 0 100, .hh 0 false, .snare 480 90, .hh 480 false, .ghostSnare 600,
     .kick 960 95, .hh 960 false, .kick 1200 80, .snare 1440 90, .hh 1440 false,
     .ghostSnare 1560]
  | 2 =>
    [.kick 0 100, .hh 0 false, .snare 480 90, .hh 480 false, .ghostSnare 600,
     .kick 960 95, .snare 720 70, .hh 960 false, .snare 1440 90, .hh 1440 false,
     .ghostSnare 1560]
  | _ =>
    [.kick 0 100, .hh 0 false, .snare 480 90, .hh 480 false, .ghostSnare 600,
     .kick 960 95, .hh 960 false, .snare 1440 90, .hh 1440 style.useOpenHh, .ghostSnare 1560]

/-- The hits of a fill bar. -/
def fillHits : List Hit := [.kick 1440 80, .snare 1560 75, .kick 1680 80, .snare 1800 75]

/-- The groove of one chord. -/
def chordGroove (style : DrumStyle) (cs : ChordSpec) (barIdx : Nat) :
    Seeded (List MidiEvent) := do
  let variation ← draw 4
  -- A fill bar has drawn its variation too.
  let hits := if barIdx % 4 = 3 then fillHits else variationHits style variation
  Seeded.forEach (playHit style cs.startTick) hits

/-- The drum part of a request. -/
def generate (req : ChordRequest) (style : DrumStyle) : Sanitized (List MidiEvent) :=
  Sanitized.forEach (fun (cs, i) =>
    run (u64cast style.seed ^^^ UInt64.ofNat i) (chordGroove style cs i)) req.chords.zipIdx

end DrumEngine

end AiMidi.Theory
