import AiMidi.Theory.HumanizationEngine

/-!
# `AiMidi.Proofs.Humanization.EventStages`: humanization, event by event

Every event asks the generator twice, so event `i` starts behind `2 * i` outputs whatever the
events in front are (`apply_eq`). What happens to one event is a chain of stages, and each stage
has its lemma here: what it does to the ticks, and that it keeps channel, note and articulation
(`SameVoice`).

A stage is given as a function of the event and of what was drawn (`swung`, `jittered`, `ended`,
`snapped`), and `apply_eq` puts them together for the event with a number. A property of each event
and what becomes of it then is a property of these functions (`forall₂_apply_iff`).
-/

set_option autoImplicit false

namespace AiMidi.Proofs.Humanization

open AiMidi.Lib AiMidi.Lib.Seeded AiMidi.Theory AiMidi.Theory.HumanizationEngine

/-! ### The run

The draws of an event are two, whether its stages use them or not. The generator in front of an
event is thus known, and no stage has to be followed through the events before. -/

/-- The value between `-n` and `n` that the generator leads to. -/
def drawnAround (n : Int) (rng : Mt19937_64) : Int :=
  i32cast (rng.draw (u32cast (2 * n + 1)).toUInt64) - n

/-- The value that is drawn around zero. -/
theorem value_drawAround (n : Int) (rng : Mt19937_64) :
    value (drawAround n) rng = drawnAround n rng := by
  rw [drawAround, value_bind, value_draw, value_pure, drawnAround]

/-- One draw is used up, also when the range is empty. -/
theorem after_drawAround (n : Int) (rng : Mt19937_64) :
    after (drawAround n) rng = rng.next.2 := by
  rw [drawAround, after_bind, after_draw, after_pure]

/-- The modulus of a draw between `-n` and `n`. -/
theorem drawSpan_toNat {n : Int} (h0 : 0 ≤ n) (h1 : n ≤ 2 ^ 20) :
    ((u32cast (2 * n + 1)).toUInt64.toNat : Int) = 2 * n + 1 := by
  rw [UInt32.toNat_toUInt64, u32cast_toNat (by omega) (by omega)]
  omega

/-- The value lies in the range. -/
theorem drawnAround_range {n : Int} (h0 : 0 ≤ n) (h1 : n ≤ 2 ^ 20) (rng : Mt19937_64) :
    -n ≤ drawnAround n rng ∧ drawnAround n rng ≤ n := by
  have hn := drawSpan_toNat h0 h1
  have hlt := rng.draw_lt (n := (u32cast (2 * n + 1)).toUInt64) (by omega)
  rw [drawnAround, i32cast_of_range (by omega) (by omega)]
  omega

/-- In the empty range it is zero. -/
theorem drawnAround_zero (rng : Mt19937_64) : drawnAround 0 rng = 0 := by
  have h := drawnAround_range (n := 0) (by decide) (by decide) rng
  omega

/-- The stages as functions of events. -/
def swung (delay : Int) (ev : MidiEvent) : MidiEvent := (swingEvent delay ev).val

/-- The event behind the jitter. -/
def jittered (jitter : Int) (ev : MidiEvent) : MidiEvent := (jitterEvent jitter ev).val

/-- The event with its end behind its start. -/
def ended (ev : MidiEvent) : MidiEvent := (endAfterStart ev).val

/-- One event with the draws behind `rng`. -/
def humanized (params : HumanizationParams) (ev : MidiEvent) (rng : Mt19937_64) : MidiEvent :=
  ended (varyVelocity (drawnAround params.velocityVariation rng.next.2)
    (jittered (drawnAround params.timingJitterTicks rng)
      (swung (swingDelay params.grooveSwing) ev)))

/-! The events stay variables in the next lemmas. With the draws in their place, the kernel would
run the generator to compare the two sides. -/

/-- The value of the swing stage: it draws nothing. -/
theorem value_swingEvent (delay : Int) (ev : MidiEvent) (rng : Mt19937_64) :
    value (liftM (swingEvent delay ev)) rng = swung delay ev := rfl

/-- The value of the jitter stage, once the jitter is drawn. -/
theorem value_jitterEvent (jitter : Int) (ev : MidiEvent) (rng : Mt19937_64) :
    value (liftM (jitterEvent jitter ev)) rng = jittered jitter ev := rfl

/-- The value of the last stage. -/
theorem value_endAfterStart (ev : MidiEvent) (rng : Mt19937_64) :
    value (liftM (endAfterStart ev)) rng = ended ev := rfl

/-- A stage without a draw leaves the generator. -/
theorem after_lift {α : Type} (x : Sanitized α) (rng : Mt19937_64) :
    after (liftM x : Seeded α) rng = rng := rfl

/-- An event is humanized as the composition of its stages. -/
theorem value_humanizeEvent (params : HumanizationParams) (ev : MidiEvent) (rng : Mt19937_64) :
    value (humanizeEvent params ev) rng = humanized params ev rng := by
  rw [humanizeEvent, value_bind, value_swingEvent, after_lift, value_bind, value_drawAround,
    after_drawAround, value_bind, value_jitterEvent, after_lift, value_bind, value_drawAround,
    value_endAfterStart, humanized]

/-- Two draws are used up for it. -/
theorem after_humanizeEvent (params : HumanizationParams) (ev : MidiEvent) (rng : Mt19937_64) :
    after (humanizeEvent params ev) rng = rng.skip 2 := by
  rw [humanizeEvent, after_bind, after_lift, after_bind, after_drawAround, after_bind, after_lift,
    after_bind, after_drawAround, after_lift]
  rfl

/-- The event on the grid. -/
def snapped (resolution : Int) (ev : MidiEvent) : MidiEvent := (snapEvent resolution ev).val

/-- The value of the grid stage. -/
theorem val_snapEvent (resolution : Int) (ev : MidiEvent) :
    (snapEvent resolution ev).val = snapped resolution ev := rfl

/-- The last stage, with or without the grid. -/
def gridded (params : HumanizationParams) (ev : MidiEvent) : MidiEvent :=
  if params.snapToGrid = true ∧ params.gridResolution > 0 then
    snapped params.gridResolution ev
  else ev

/-- Event `i` is humanized with the outputs `2 * i` and `2 * i + 1` of the generator. -/
theorem apply_eq (events : List MidiEvent) (params : HumanizationParams) :
    (apply events params).val = events.zipIdx.map fun p =>
      gridded params (humanized params p.1 ((Mt19937_64.ofSeed params.seed).skip (2 * p.2))) := by
  have hrun : (run params.seed (Seeded.forEach (fun ev => do
      let ev ← humanizeEvent params ev
      pure [ev]) events)).val = events.zipIdx.map fun p =>
        humanized params p.1 ((Mt19937_64.ofSeed params.seed).skip (2 * p.2)) := by
    rw [val_run, List.map_eq_flatMap]
    generalize Mt19937_64.ofSeed params.seed = rng
    -- Each event takes two draws, whatever becomes of it.
    refine (value_forEach_of_skip (k := 2) (fun ev rng => ?_) events rng 0).trans ?_
    · rw [after_bind, after_pure, after_humanizeEvent]
    · refine List.flatMap_congr fun p _ => ?_
      rw [value_bind, value_pure, value_humanizeEvent]
  rw [apply, Sanitized.val_bind, hrun]
  unfold gridded
  generalize Mt19937_64.ofSeed params.seed = rng
  -- The grid draws nothing.
  split
  case isTrue =>
    rw [Sanitized.val_forEach, List.flatMap_map, List.map_eq_flatMap]
    refine List.flatMap_congr fun p _ => ?_
    rw [Sanitized.val_bind, Sanitized.val_pure, val_snapEvent]
  case isFalse => rfl

/-- A property of each event and what becomes of it. -/
theorem forall₂_apply_iff {R : MidiEvent → MidiEvent → Prop} (events : List MidiEvent)
    (params : HumanizationParams) :
    List.Forall₂ R events (apply events params).val ↔ ∀ p ∈ events.zipIdx, R p.1
      (gridded params (humanized params p.1
        ((Mt19937_64.ofSeed params.seed).skip (2 * p.2)))) := by
  rw [apply_eq]
  -- The events are the first components of their entries.
  conv_lhs => arg 2; rw [← List.zipIdx_map_fst 0 events]
  rw [List.forall₂_map_left_iff, List.forall₂_map_right_iff, List.forall₂_same]

/-! ### What is kept

No stage writes the channel, the note or the articulation. This is said of each stage and then of
all of them together. -/

/-- Channel, note and articulation are the same. -/
structure SameVoice (ev ev' : MidiEvent) : Prop where
  channel : ev'.channel = ev.channel
  note : ev'.note = ev.note
  articulation : ev'.articulation = ev.articulation

/-- An event has its own voice. -/
theorem SameVoice.refl (ev : MidiEvent) : SameVoice ev ev := ⟨rfl, rfl, rfl⟩

/-- Stages that keep the voice do so together. -/
theorem SameVoice.trans {ev ev' ev'' : MidiEvent} (h : SameVoice ev ev')
    (h' : SameVoice ev' ev'') : SameVoice ev ev'' :=
  ⟨h'.channel.trans h.channel, h'.note.trans h.note, h'.articulation.trans h.articulation⟩

/-- Ticks and velocity are free to change. -/
theorem SameVoice.of_eq {ev ev' : MidiEvent} (on off : UInt32) (velocity : UInt8)
    (h : ev' = { ev with tickOn := on, tickOff := off, velocity := velocity }) :
    SameVoice ev ev' := by
  subst h
  exact ⟨rfl, rfl, rfl⟩

/-- The swing moves ticks only. -/
theorem swung_sameVoice (delay : Int) (ev : MidiEvent) : SameVoice ev (swung delay ev) := by
  unfold swung swingEvent
  split
  · exact .of_eq _ _ _ rfl
  · exact .refl ev

/-- So does the jitter. -/
theorem jittered_sameVoice (jitter : Int) (ev : MidiEvent) :
    SameVoice ev (jittered jitter ev) := by
  unfold jittered jitterEvent
  split
  · exact .of_eq _ _ _ rfl
  · exact .refl ev

/-- Varying the velocity leaves channel, note and articulation. -/
theorem varyVelocity_sameVoice (delta : Int) (ev : MidiEvent) :
    SameVoice ev (varyVelocity delta ev) := .of_eq _ _ _ rfl

/-- The end moves a tick. -/
theorem ended_sameVoice (ev : MidiEvent) : SameVoice ev (ended ev) := by
  unfold ended endAfterStart
  split
  · exact .of_eq _ _ _ rfl
  · exact .refl ev

/-- The grid moves ticks. -/
theorem snapped_sameVoice (resolution : Int) (ev : MidiEvent) :
    SameVoice ev (snapped resolution ev) := by
  unfold snapped snapEvent
  rw [Sanitized.val_bind, Sanitized.val_bind]
  split
  · exact .of_eq _ _ _ rfl
  · exact .of_eq _ _ _ rfl

/-- Humanization changes ticks and velocity only. -/
theorem humanized_sameVoice (params : HumanizationParams) (ev : MidiEvent) (rng : Mt19937_64) :
    SameVoice ev (humanized params ev rng) :=
  (swung_sameVoice _ ev).trans ((jittered_sameVoice _ _).trans
    ((varyVelocity_sameVoice _ _).trans (ended_sameVoice _)))

/-- So all events of a request keep their voices. -/
theorem gridded_sameVoice (params : HumanizationParams) (ev : MidiEvent) :
    SameVoice ev (gridded params ev) := by
  unfold gridded
  split
  · exact snapped_sameVoice _ ev
  · exact .refl ev

/-! ### Ticks

The ticks are followed through the stages as numbers. The one that may wrap is the end of an event
whose start is cut off at zero. -/

/-- Without a delay there is no swing. -/
theorem swung_of_nonpos {delay : Int} (h : delay ≤ 0) (ev : MidiEvent) : swung delay ev = ev := by
  rw [swung, swingEvent, if_neg fun hand => absurd hand.1 (by omega)]
  rfl

/-- Without a groove there is no swing. -/
theorem swingDelay_of_nonpos {swing : Rat} (h : swing ≤ 0) : swingDelay swing = 0 :=
  if_neg (Rat.not_lt.mpr h)

/-- Without a jitter nothing moves. -/
theorem jittered_zero (ev : MidiEvent) : jittered 0 ev = ev := by
  rw [jittered, jitterEvent, if_neg (by simp)]
  rfl

/-- Jitter cuts the start at tick 0. The end is kept behind the start before the cut, so it can
be negative, and then it wraps. -/
theorem jittered_ticks {jitter : Int} (hne : jitter ≠ 0)
    (hjitter : -2 ^ 20 ≤ jitter ∧ jitter ≤ 2 ^ 20) (ev : MidiEvent)
    (hon : ev.tickOn.toNat < 2 ^ 30 + 2 ^ 20) (hoff : ev.tickOff.toNat < 2 ^ 30 + 2 ^ 20) :
    ((jittered jitter ev).tickOn.toNat : Int) = max 0 (ev.tickOn.toNat + jitter) ∧
      ((jittered jitter ev).tickOff.toNat : Int) =
        max (ev.tickOn.toNat + jitter + 1) (ev.tickOff.toNat + jitter) % 2 ^ 32 := by
  have hvalue : jittered jitter ev =
      { ev with
        tickOn := u32cast (max 0 (ev.tickOn.toNat + jitter))
        tickOff := u32cast
          (max (ev.tickOn.toNat + jitter + 1) (ev.tickOff.toNat + jitter)) } := by
    -- The `int` results fit.
    rw [jittered, jitterEvent, if_pos hne, toInt, toInt,
      Sanitized.val_bind_i32 (by omega) (by omega), Sanitized.val_bind_i32 (by omega) (by omega),
      Sanitized.val_bind_i32 (by omega) (by omega), Sanitized.val_bind_i32 (by omega) (by omega),
      Sanitized.val_bind_i32 (by omega) (by omega), Sanitized.val_bind_u32,
      Sanitized.val_bind_u32, Sanitized.val_pure]
  rw [hvalue]
  dsimp only
  rw [u32cast_emod, u32cast_emod]
  omega

/-- The end of an event, moved behind its start. -/
def endBehind (ev : MidiEvent) : Nat :=
  if ev.tickOff.toNat ≤ ev.tickOn.toNat then ev.tickOn.toNat + 1 else ev.tickOff.toNat

/-- The start stays, and the end is one tick behind it or where it was. -/
theorem ended_ticks (ev : MidiEvent) (hon : ev.tickOn.toNat < 2 ^ 31) :
    (ended ev).tickOn = ev.tickOn ∧ (ended ev).tickOff.toNat = endBehind ev := by
  unfold ended endAfterStart endBehind
  by_cases h : ev.tickOff ≤ ev.tickOn
  · rw [if_pos h, if_pos (UInt32.le_iff_toNat_le.mp h)]
    refine ⟨rfl, ?_⟩
    show (u32cast ((ev.tickOn.toNat : Int) + 1)).toNat = _
    rw [u32cast_toNat (by omega) (by omega)]
    omega
  · rw [if_neg h, if_neg fun hle => h (UInt32.le_iff_toNat_le.mpr hle)]
    exact ⟨rfl, rfl⟩

/-- The velocity stage leaves the ticks alone. -/
theorem varyVelocity_ticks (delta : Int) (ev : MidiEvent) :
    (varyVelocity delta ev).tickOn = ev.tickOn ∧ (varyVelocity delta ev).tickOff = ev.tickOff := by
  unfold varyVelocity
  exact ⟨rfl, rfl⟩

/-- The ticks are those behind the jitter, kept apart. -/
theorem humanized_ticks (params : HumanizationParams) (ev : MidiEvent) (rng : Mt19937_64)
    {moved : MidiEvent} (hmoved : jittered (drawnAround params.timingJitterTicks rng)
      (swung (swingDelay params.grooveSwing) ev) = moved) (hon : moved.tickOn.toNat < 2 ^ 31) :
    (humanized params ev rng).tickOn = moved.tickOn ∧
      (humanized params ev rng).tickOff.toNat = endBehind moved := by
  rw [humanized, hmoved]
  generalize drawnAround params.velocityVariation rng.next.2 = delta
  obtain ⟨htickOn, htickOff⟩ := varyVelocity_ticks delta moved
  have h := ended_ticks (varyVelocity delta moved) (by rw [htickOn]; exact hon)
  rw [endBehind, htickOn, htickOff] at h
  exact h

end AiMidi.Proofs.Humanization
