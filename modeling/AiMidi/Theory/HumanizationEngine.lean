import AiMidi.Lib.Seeded
import AiMidi.Theory.Types

/-!
# `AiMidi.Theory.HumanizationEngine`: micro-timing, velocity variation, swing and grid

`apply` changes the ticks and the velocity of each event: swing, then a drawn jitter, then a
drawn velocity change, then, when asked, a snap to the grid. One generator serves all events.

Ticks pass through `int` here. Every conversion of a tick between `int` and `uint32_t` is
sanitized like the arithmetic. The `float` swing is a rational number.
-/

set_option autoImplicit false

namespace AiMidi.Theory

open AiMidi.Lib AiMidi.Lib.Sanitized AiMidi.Lib.Seeded

/-- The styles of the humanisation. -/
inductive HumanizationStyle where
  | standard
  | swing
  | laidBack
  | pushed
  | snapToGrid
  deriving DecidableEq, Repr

/-- The parameters of the humanisation, with the defaults of the code. -/
structure HumanizationParams where
  seed : Seed := 0
  timingJitterTicks : Int := 5
  velocityVariation : Int := 10
  grooveSwing : Rat := 0
  snapToGrid : Bool := false
  gridResolution : Int := 120

namespace HumanizationEngine

/-- The value, brought between two bounds. -/
def clamp (v lo hi : Int) : Int := max lo (min v hi)

/-- A tick as an `int`. -/
def toInt (tick : UInt32) : Sanitized Int := i32 tick.toNat

/-- The delay of an off-beat eighth note. The source multiplies in `float`. Here the product is
exact, so a delay can be a tick shorter: of `0.7f`, which is below 7/10, the source makes 84 ticks
and this 83. The styles have no swing or `0.30f`, where both are 36. -/
def swingDelay (swing : Rat) : Int :=
  if swing > 0 then Int.tdiv (swing * kPpq / 4).num (swing * kPpq / 4).den else 0

/-- A drawn value between `-n` and `n`. -/
def drawAround (n : Int) : Seeded Int := do
  let k ← draw (u32cast (2 * n + 1)).toUInt64
  pure (i32cast k - n)

/-- 1. Groove swing. -/
def swingEvent (delay : Int) (ev : MidiEvent) : Sanitized MidiEvent :=
  if delay > 0 ∧ (ev.tickOn.toNat : Int) % kPpq = kPpq / 2 then do
    let on ← addTick ev.tickOn delay
    let off ← addTick ev.tickOff delay
    pure { ev with tickOn := on, tickOff := off }
  else pure ev

/-- 2. Timing jitter. -/
def jitterEvent (jitter : Int) (ev : MidiEvent) : Sanitized MidiEvent :=
  if jitter ≠ 0 then do
    let on ← toInt ev.tickOn
    let off ← toInt ev.tickOff
    let newOn ← i32 (on + jitter)
    let newOff ← i32 (off + jitter)
    -- The end is kept behind the start as it was before the cut at tick 0.
    let afterOn ← i32 (newOn + 1)
    let tickOn ← u32 (max 0 newOn)
    let tickOff ← u32 (max afterOn newOff)
    pure { ev with tickOn := tickOn, tickOff := tickOff }
  else pure ev

/-- 3. Velocity variation. -/
def varyVelocity (delta : Int) (ev : MidiEvent) : MidiEvent :=
  { ev with velocity := u8cast (clamp (ev.velocity.toNat + delta) 1 127) }

/-- Invariant: an event ends after it begins. -/
def endAfterStart (ev : MidiEvent) : Sanitized MidiEvent :=
  if ev.tickOff ≤ ev.tickOn then do
    let off ← u32 (ev.tickOn.toNat + 1)
    pure { ev with tickOff := off }
  else pure ev

/-- Steps 1 to 3 for one event. -/
def humanizeEvent (params : HumanizationParams) (ev : MidiEvent) : Seeded MidiEvent := do
  -- The swing looks at the position before the jitter.
  let ev ← swingEvent (swingDelay params.grooveSwing) ev
  -- The generator is asked twice for each event, also when a range is 0.
  let jitter ← drawAround params.timingJitterTicks
  let ev ← jitterEvent jitter ev
  let delta ← drawAround params.velocityVariation
  endAfterStart (varyVelocity delta ev)

/-- Round a tick to the nearest multiple of the resolution. -/
def snapTick (tick : UInt32) (resolution : Int) : Sanitized UInt32 :=
  if resolution ≤ 0 then pure tick
  else do
    let t ← toInt tick
    -- Half a step up and then down to the grid.
    let moved ← i32 (t + Int.tdiv resolution 2)
    let snapped ← i32 (Int.tdiv moved resolution * resolution)
    u32 snapped

/-- 4. Snap to grid. -/
def snapEvent (resolution : Int) (ev : MidiEvent) : Sanitized MidiEvent := do
  let on ← snapTick ev.tickOn resolution
  let off ← snapTick ev.tickOff resolution
  if off ≤ on then
    let off ← addTick on resolution
    pure { ev with tickOn := on, tickOff := off }
  else pure { ev with tickOn := on, tickOff := off }

/-- Humanization of a list of events. -/
def apply (events : List MidiEvent) (params : HumanizationParams) :
    Sanitized (List MidiEvent) := do
  let out ← run params.seed (Seeded.forEach (fun ev => do
    let ev ← humanizeEvent params ev
    pure [ev]) events)
  if params.snapToGrid ∧ params.gridResolution > 0 then
    Sanitized.forEach (fun ev => do
      let ev ← snapEvent params.gridResolution ev
      pure [ev]) out
  else pure out

/-- The parameters of a style. -/
def styleParams (style : HumanizationStyle) (seed : Seed) : HumanizationParams :=
  match style with
  | .standard   => ⟨seed, 5, 10, 0, false, 120⟩
  | .swing      => ⟨seed, 3, 8, 3 / 10, false, 120⟩
  | .laidBack   => ⟨seed, 5, 8, 0, false, 120⟩
  | .pushed     => ⟨seed, 5, 8, 0, false, 120⟩
  | .snapToGrid => ⟨seed, 0, 0, 0, true, 120⟩

/-- The shift of a style after the base pass, with its change of velocity. -/
def shiftEvent (delay : Int) (velocity : Int → Int) (ev : MidiEvent) : Sanitized MidiEvent := do
  let on ← toInt ev.tickOn
  let off ← toInt ev.tickOff
  let newOn ← i32 (on + delay)
  let newOff ← i32 (off + delay)
  let tickOn ← u32 (max 0 newOn)
  -- Here the end is kept behind the start after the cut.
  let onAgain ← toInt tickOn
  let afterOn ← i32 (onAgain + 1)
  let tickOff ← u32 (max afterOn newOff)
  pure { ev with
    tickOn := tickOn
    tickOff := tickOff
    velocity := u8cast (velocity ev.velocity.toNat) }

/-- Laid-back playing is 10 ticks late and softer, pushed playing 5 ticks early and louder. -/
def postProcess (style : HumanizationStyle) (out : List MidiEvent) :
    Sanitized (List MidiEvent) :=
  match style with
  | .laidBack => Sanitized.forEach (fun ev => do
      let ev ← shiftEvent 10 (fun v => max 1 (Int.tdiv (v * 9) 10)) ev
      pure [ev]) out
  | .pushed => Sanitized.forEach (fun ev => do
      let ev ← shiftEvent (-5) (fun v => min 127 (Int.tdiv (v * 11) 10)) ev
      pure [ev]) out
  | _ => pure out

/-- Humanization in a style. -/
def humanizeByStyle (input : List MidiEvent) (style : HumanizationStyle) (seed : Seed) :
    Sanitized (List MidiEvent) := do
  let out ← apply input (styleParams style seed)
  postProcess style out

end HumanizationEngine

end AiMidi.Theory
