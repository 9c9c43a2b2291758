import AiMidi.Proofs.Humanization.Snap

/-!
# `AiMidi.Proofs.Humanization.Styles`: the styles keep events valid and in place

A style is a base pass and, for two of them, a shift behind it. The base pass ends every event
behind its start (`humanized_valid`), whatever the event was before. Its end may have wrapped to
the top of the ticks, but the shift reads such an end as the negative number that it was, and
keeps the event one tick long (`shifted_valid`).
-/

set_option autoImplicit false

namespace AiMidi.Proofs.Humanization

open AiMidi.Lib AiMidi.Theory AiMidi.Theory.HumanizationEngine

/-- The event ends after it begins and has a velocity that sounds. -/
structure ValidNote (ev : MidiEvent) : Prop where
  lt : ev.tickOn.toNat < ev.tickOff.toNat
  velocity : 1 ≤ ev.velocity.toNat ∧ ev.velocity.toNat ≤ 127

/-- Channel, note and articulation are the same, and the new event is valid. -/
structure KeepsPlace (ev ev' : MidiEvent) : Prop where
  voice : SameVoice ev ev'
  valid : ValidNote ev'

/-! ### The base pass

The moves of a style are small against the bound on the ticks, so no sum overflows. An end may still
be negative where a jitter has cut its start at zero, and it wraps then. -/

/-- The swing stays far below overflow. -/
theorem swung_tickOn {delay : Int} (hdelay : delay ≤ 2 ^ 19) {ev : MidiEvent}
    (hon : ev.tickOn.toNat < 2 ^ 30) (hoff : ev.tickOff.toNat < 2 ^ 30) :
    (swung delay ev).tickOn.toNat < 2 ^ 30 + 2 ^ 19 ∧
      (swung delay ev).tickOff.toNat < 2 ^ 30 + 2 ^ 19 := by
  by_cases hpos : delay ≤ 0
  · rw [swung_of_nonpos hpos]
    omega
  -- A delay moves a tick by less than `2 ^ 19`, which does not wrap.
  · have hadd : ∀ tick : UInt32, tick.toNat < 2 ^ 30 →
        (addTick tick delay).val.toNat < 2 ^ 30 + 2 ^ 19 := by
      intro tick htick
      rw [addTick, Sanitized.val_u32, u32cast_toNat (z := delay) (by omega) (by omega),
        u32cast_toNat (by omega) (by omega)]
      omega
    unfold swung swingEvent
    split
    · rw [Sanitized.val_bind, Sanitized.val_bind, Sanitized.val_pure]
      exact ⟨hadd _ hon, hadd _ hoff⟩
    · rw [Sanitized.val_pure]
      omega

/-- The last stage leaves the velocity. -/
theorem ended_velocity (ev : MidiEvent) : (ended ev).velocity = ev.velocity := by
  unfold ended endAfterStart
  split
  · rfl
  · rfl

/-- A velocity is cut to the range of MIDI, whatever is added to it. -/
theorem varyVelocity_velocity (delta : Int) (ev : MidiEvent) :
    1 ≤ (varyVelocity delta ev).velocity.toNat ∧ (varyVelocity delta ev).velocity.toNat ≤ 127 := by
  have hclamp : 1 ≤ clamp (ev.velocity.toNat + delta) 1 127 ∧
      clamp (ev.velocity.toNat + delta) 1 127 ≤ 127 := by
    unfold clamp
    omega
  unfold varyVelocity
  generalize clamp (ev.velocity.toNat + delta) 1 127 = v at hclamp ⊢
  show 1 ≤ (u8cast v).toNat ∧ (u8cast v).toNat ≤ 127
  rw [u8cast_toNat (by omega) (by omega)]
  omega

/-- Small swing and jitter. -/
structure SmallMoves (params : HumanizationParams) : Prop where
  swing : swingDelay params.grooveSwing ≤ 2 ^ 19
  jitter : 0 ≤ params.timingJitterTicks ∧ params.timingJitterTicks ≤ 2 ^ 19

/-- Behind the base pass every event is valid, and its start is still small. -/
theorem humanized_valid {params : HumanizationParams} (hparams : SmallMoves params)
    {ev : MidiEvent} (hon : ev.tickOn.toNat < 2 ^ 30) (hoff : ev.tickOff.toNat < 2 ^ 30)
    (rng : Mt19937_64) :
    ValidNote (humanized params ev rng) ∧
      (humanized params ev rng).tickOn.toNat < 2 ^ 30 + 2 ^ 20 := by
  obtain ⟨hJ0, hJ1⟩ := hparams.jitter
  have hrange := drawnAround_range hJ0 (by omega) rng
  have hswung := swung_tickOn hparams.swing hon hoff
  have hticks := humanized_ticks params ev rng rfl
  have hvelocity : 1 ≤ (humanized params ev rng).velocity.toNat ∧
      (humanized params ev rng).velocity.toNat ≤ 127 := by
    rw [humanized, ended_velocity]
    exact varyVelocity_velocity _ _
  generalize humanized params ev rng = ev' at hticks hvelocity ⊢
  generalize swung (swingDelay params.grooveSwing) ev = swung at hswung hticks
  generalize drawnAround params.timingJitterTicks rng = j at hrange hticks
  -- The jitter moves the start within the bound, whatever is drawn.
  have hmoved : (jittered j swung).tickOn.toNat < 2 ^ 30 + 2 ^ 20 := by
    by_cases hj : j = 0
    · rw [hj, jittered_zero]
      omega
    · have hjittered := (jittered_ticks hj (by omega) swung (by omega) (by omega)).1
      omega
  obtain ⟨hon', hoff'⟩ := hticks (by omega)
  rw [endBehind, ← hon'] at hoff'
  rw [← hon'] at hmoved
  refine ⟨⟨?_, hvelocity⟩, hmoved⟩
  split at hoff' <;> omega

/-! ### The shift

The shift reads both ticks as signed numbers. An end below zero is moved like any other, and then it
is put behind the start. -/

/-- The event behind the shift of a style. -/
def shifted (delay : Int) (velocity : Int → Int) (ev : MidiEvent) : MidiEvent :=
  (shiftEvent delay velocity ev).val

/-- The value of the shift, which draws nothing. -/
theorem val_shiftEvent (delay : Int) (velocity : Int → Int) (ev : MidiEvent) :
    (shiftEvent delay velocity ev).val = shifted delay velocity ev := rfl

/-- The shift leaves channel, note and articulation. -/
theorem shifted_sameVoice (delay : Int) (velocity : Int → Int) (ev : MidiEvent) :
    SameVoice ev (shifted delay velocity ev) := by
  unfold shifted shiftEvent
  exact .of_eq _ _ _ rfl

/-- The shift keeps the end behind the start that it stores, wherever the old end was. -/
theorem shifted_valid {delay : Int} (hdelay : -2 ^ 20 ≤ delay ∧ delay ≤ 2 ^ 20)
    {velocity : Int → Int} {ev : MidiEvent} (hon : ev.tickOn.toNat < 2 ^ 30 + 2 ^ 20)
    (hvelocity : 1 ≤ velocity ev.velocity.toNat ∧ velocity ev.velocity.toNat ≤ 127) :
    ValidNote (shifted delay velocity ev) := by
  have htickOn : (u32cast (max 0 (ev.tickOn.toNat + delay))).toNat =
      (max 0 (ev.tickOn.toNat + delay)).toNat := u32cast_toNat (by omega) (by omega)
  have hvalue : shifted delay velocity ev =
      { ev with
        tickOn := u32cast (max 0 (ev.tickOn.toNat + delay))
        tickOff := u32cast (max (max 0 (ev.tickOn.toNat + delay) + 1)
          (i32cast (i32cast ev.tickOff.toNat + delay)))
        velocity := u8cast (velocity ev.velocity.toNat) } := by
    rw [shifted, shiftEvent, toInt, toInt, Sanitized.val_bind_i32 (by omega) (by omega),
      Sanitized.val_bind, Sanitized.val_i32, Sanitized.val_bind_i32 (by omega) (by omega),
      Sanitized.val_bind, Sanitized.val_i32, Sanitized.val_bind_u32, toInt, htickOn,
      Int.toNat_of_nonneg (by omega), Sanitized.val_bind_i32 (by omega) (by omega),
      Sanitized.val_bind_i32 (by omega) (by omega), Sanitized.val_bind_u32, Sanitized.val_pure]
  have hrange := i32cast_range (i32cast ev.tickOff.toNat + delay)
  rw [hvalue]
  generalize i32cast (i32cast ev.tickOff.toNat + delay) = newOff at hrange ⊢
  -- The end is raised behind the start, and the velocity fits a byte.
  constructor
  · show (u32cast (max 0 (ev.tickOn.toNat + delay))).toNat < (u32cast _).toNat
    rw [htickOn, u32cast_toNat (by omega) (by omega)]
    omega
  · show 1 ≤ (u8cast _).toNat ∧ (u8cast _).toNat ≤ 127
    rw [u8cast_toNat (by omega) (by omega)]
    omega

/-! ### Styles

Two of the styles shift their events, and one has a grid. The bounds on the moves hold for all of
them, so the stages are composed once. -/

/-- What a style does behind the base pass. -/
def posted (style : HumanizationStyle) (ev : MidiEvent) : MidiEvent :=
  match style with
  | .laidBack => shifted 10 (fun v => max 1 (Int.tdiv (v * 9) 10)) ev
  | .pushed => shifted (-5) (fun v => min 127 (Int.tdiv (v * 11) 10)) ev
  | _ => ev

/-- What a style does behind the humanization, event by event. -/
theorem val_postProcess (style : HumanizationStyle) (out : List MidiEvent) :
    (postProcess style out).val = out.map (posted style) := by
  have hshift : ∀ delay velocity, (Sanitized.forEach (fun ev => do
      let ev ← shiftEvent delay velocity ev
      pure [ev]) out).val = out.map (shifted delay velocity) := by
    intro delay velocity
    rw [Sanitized.val_forEach, List.map_eq_flatMap]
    refine List.flatMap_congr fun ev _ => ?_
    rw [Sanitized.val_bind, Sanitized.val_pure, val_shiftEvent]
  cases style with
  | laidBack => exact hshift _ _
  | pushed => exact hshift _ _
  | standard => exact (List.map_id out).symm
  | swing => exact (List.map_id out).symm
  | snapToGrid => exact (List.map_id out).symm

/-- It leaves channel, note and articulation of each event. -/
theorem posted_sameVoice (style : HumanizationStyle) (ev : MidiEvent) :
    SameVoice ev (posted style ev) := by
  cases style with
  | laidBack => exact shifted_sameVoice _ _ ev
  | pushed => exact shifted_sameVoice _ _ ev
  | standard => exact .refl ev
  | swing => exact .refl ev
  | snapToGrid => exact .refl ev

/-- A valid note stays valid behind it. -/
theorem posted_valid (style : HumanizationStyle) {ev : MidiEvent} (h : ValidNote ev)
    (hon : ev.tickOn.toNat < 2 ^ 30 + 2 ^ 20) : ValidNote (posted style ev) := by
  obtain ⟨hlow, hhigh⟩ := h.velocity
  cases style with
  | laidBack =>
    refine shifted_valid (by decide) hon ?_
    rw [Int.tdiv_eq_ediv_of_nonneg (by omega)]
    omega
  | pushed =>
    refine shifted_valid (by decide) hon ?_
    rw [Int.tdiv_eq_ediv_of_nonneg (by omega)]
    omega
  | standard => exact h
  | swing => exact h
  | snapToGrid => exact h

/-- The swing style delays by 36 ticks. -/
theorem swingDelay_swing : swingDelay (3 / 10) = 36 := by decide +kernel

/-- The moves of all styles are small against the bound of the ticks. -/
theorem styleParams_small (style : HumanizationStyle) (seed : Seed) :
    SmallMoves (styleParams style seed) := by
  have hjitter : ∀ J ∈ [(0 : Int), 3, 5], 0 ≤ J ∧ J ≤ 2 ^ 19 := by decide
  have hstraight : swingDelay 0 ≤ 2 ^ 19 := by decide
  cases style with
  | standard => exact ⟨hstraight, hjitter 5 (by decide)⟩
  | swing =>
    refine ⟨?_, hjitter 3 (by decide)⟩
    show swingDelay (3 / 10) ≤ 2 ^ 19
    rw [swingDelay_swing]
    decide
  | laidBack => exact ⟨hstraight, hjitter 5 (by decide)⟩
  | pushed => exact ⟨hstraight, hjitter 5 (by decide)⟩
  | snapToGrid => exact ⟨hstraight, hjitter 0 (by decide)⟩

/-- The grid leaves the velocity. -/
theorem snapped_velocity (resolution : Int) (ev : MidiEvent) :
    (snapped resolution ev).velocity = ev.velocity := by
  unfold snapped snapEvent
  rw [Sanitized.val_bind, Sanitized.val_bind]
  split
  · rfl
  · rfl

/-- So does the grid of a request, whether there is one or not. -/
theorem gridded_velocity (params : HumanizationParams) (ev : MidiEvent) :
    (gridded params ev).velocity = ev.velocity := by
  unfold gridded
  split
  · exact snapped_velocity _ ev
  · rfl

/-- One of the styles has a grid. -/
theorem styleParams_grid (seed : Seed) : GridOnly (styleParams .snapToGrid seed) :=
  ⟨rfl, by show (0 : Rat) ≤ 0; decide, rfl, by show GridStep 120; exact ⟨by decide, by decide⟩⟩

section

variable {ev : MidiEvent} (hon : ev.tickOn.toNat < 2 ^ 30) (hoff : ev.tickOff.toNat < 2 ^ 30)
include hon hoff

/-- Grid and shift keep the event valid. -/
theorem styled_valid (style : HumanizationStyle) (seed : Seed) (rng : Mt19937_64) :
    ValidNote (posted style
      (gridded (styleParams style seed) (humanized (styleParams style seed) ev rng))) := by
  obtain ⟨hvalid, hsmall⟩ := humanized_valid (styleParams_small style seed) hon hoff rng
  by_cases hstyle : style = .snapToGrid
  · subst hstyle
    have hquantised := gridOnly_quantised (styleParams_grid seed) hon hoff rng
    show ValidNote (gridded (styleParams .snapToGrid seed) _)
    refine ⟨hquantised.lt, ?_⟩
    rw [gridded_velocity]
    exact hvalid.velocity
  · have hgrid : gridded (styleParams style seed) (humanized (styleParams style seed) ev rng) =
        humanized (styleParams style seed) ev rng := by
      refine if_neg fun hand => ?_
      cases style with
      | snapToGrid => exact hstyle rfl
      | _ => exact absurd hand.1 Bool.false_ne_true
    rw [hgrid]
    exact posted_valid style hvalid hsmall

/-- An event of a style keeps its channel, note and articulation and becomes a valid note. -/
theorem styled_keepsPlace (style : HumanizationStyle) (seed : Seed) (rng : Mt19937_64) :
    KeepsPlace ev (posted style
      (gridded (styleParams style seed) (humanized (styleParams style seed) ev rng))) :=
  ⟨(humanized_sameVoice _ ev rng).trans
      ((gridded_sameVoice _ _).trans (posted_sameVoice style _)),
    styled_valid hon hoff style seed rng⟩

end

/-- A style keeps number and order of the events, and makes each of them a valid event with the
same channel, note and articulation. -/
theorem humanizeByStyle_keepsPlace (input : List MidiEvent) (style : HumanizationStyle)
    (seed : Seed)
    (hinput : ∀ ev ∈ input, ev.tickOn.toNat < 2 ^ 30 ∧ ev.tickOff.toNat < 2 ^ 30) :
    List.Forall₂ KeepsPlace input (humanizeByStyle input style seed).val := by
  rw [humanizeByStyle, Sanitized.val_bind, val_postProcess, List.forall₂_map_right_iff,
    forall₂_apply_iff]
  intro p hp
  obtain ⟨hon, hoff⟩ := hinput p.1 (List.fst_mem_of_mem_zipIdx hp)
  exact styled_keepsPlace hon hoff style seed _

/-- A note that ends before it begins, pushed. -/
theorem humanizeByStyle_keepsPlace_reversed :
    List.Forall₂ KeepsPlace [⟨480, 0, 3, 60, 127, 1⟩]
      (humanizeByStyle [⟨480, 0, 3, 60, 127, 1⟩] .pushed 7).val :=
  humanizeByStyle_keepsPlace [⟨480, 0, 3, 60, 127, 1⟩] .pushed 7 (by decide)

end AiMidi.Proofs.Humanization
