import AiMidi.Lib.Grid
import AiMidi.Proofs.Humanization.EventStages

/-!
# `AiMidi.Proofs.Humanization.Snap`: quantisation

With the grid alone, every start goes to the nearest multiple of the resolution and every end to
the nearest one behind its start (`apply_quantised`). Before the grid, a note that ends at its
start or earlier is given the length of one tick. Its end is then rounded from there, and lands
where the repair of a collapsed note would put it.

An event on the grid is left alone by both repairs, so a second pass changes no tick.
-/

set_option autoImplicit false

namespace AiMidi.Proofs.Humanization

open AiMidi.Lib AiMidi.Theory AiMidi.Theory.HumanizationEngine

/-! ### The grid

A tick is rounded to the nearest position, and upwards in the middle between two of them. A note
whose ends are rounded to one position is given a step of the grid. -/

/-- A resolution, with room above the ticks. -/
def GridStep (res : Int) : Prop := 1 ≤ res ∧ res ≤ 2 ^ 20

/-- The tick arithmetic does not overflow, so a tick goes to its nearest grid position. -/
theorem snapTick_toNat {res : Int} (hres : GridStep res) {tick : UInt32}
    (htick : tick.toNat < 2 ^ 30 + 2 ^ 21) :
    ((snapTick tick res).val.toNat : Int) = roundTo res tick.toNat := by
  obtain ⟨hpos, hmax⟩ := hres
  have hbounds := roundTo_bounds (show 0 < res by omega) tick.toNat
  have hnonneg : 0 ≤ roundTo res tick.toNat := by
    rw [← roundTo_of_dvd (show 0 < res by omega) (Int.dvd_zero res)]
    exact roundTo_mono (by omega) (by omega)
  have hhalf : Int.tdiv res 2 = res / 2 := Int.tdiv_eq_ediv_of_nonneg (by omega)
  have hdown : Int.tdiv (tick.toNat + res / 2) res * res = roundTo res tick.toNat := by
    rw [Int.tdiv_eq_ediv_of_nonneg (by omega), roundTo]
  -- No `int` on the way overflows, and the result is not negative.
  rw [snapTick, if_neg (by omega), toInt, Sanitized.val_bind_i32 (by omega) (by omega), hhalf,
    Sanitized.val_bind_i32 (by omega) (by omega), hdown,
    Sanitized.val_bind_i32 (by omega) (by omega), Sanitized.val_u32,
    u32cast_toNat (by omega) (by omega)]
  omega

/-- Both ticks are rounded, and a note that has no length left gets one step. -/
theorem snapped_ticks {res : Int} (hres : GridStep res) {ev : MidiEvent}
    (hon : ev.tickOn.toNat < 2 ^ 30 + 2 ^ 21) (hoff : ev.tickOff.toNat < 2 ^ 30 + 2 ^ 21) :
    ((snapped res ev).tickOn.toNat : Int) = roundTo res ev.tickOn.toNat ∧
      ((snapped res ev).tickOff.toNat : Int) =
        if roundTo res ev.tickOff.toNat ≤ roundTo res ev.tickOn.toNat then
          roundTo res ev.tickOn.toNat + res
        else roundTo res ev.tickOff.toNat := by
  have hon' := snapTick_toNat hres hon
  have hoff' := snapTick_toNat hres hoff
  obtain ⟨hpos, hmax⟩ := hres
  have hbounds := roundTo_bounds (show 0 < res by omega) ev.tickOn.toNat
  rw [snapped, snapEvent, Sanitized.val_bind, Sanitized.val_bind, ← hon', ← hoff']
  rw [← hon'] at hbounds
  -- Only the snapped ticks matter, and whether the end is behind the start.
  generalize (snapTick ev.tickOn res).val = on at hbounds ⊢
  generalize (snapTick ev.tickOff res).val = off
  by_cases h : off ≤ on
  · rw [if_pos h, if_pos (by have := UInt32.le_iff_toNat_le.mp h; omega), addTick,
      Sanitized.val_bind_u32, Sanitized.val_pure]
    refine ⟨rfl, ?_⟩
    show ((u32cast ((on.toNat : Int) + (u32cast res).toNat)).toNat : Int) = on.toNat + res
    rw [u32cast_toNat (z := res) (by omega) (by omega), u32cast_toNat (by omega) (by omega)]
    omega
  · rw [if_neg h, if_neg fun hle => h (UInt32.le_iff_toNat_le.mpr (by omega))]
    exact ⟨rfl, rfl⟩

/-! ### Quantisation

Without swing and jitter the start of an event is only rounded. The end is moved behind the start
before it is rounded, so both repairs have to agree. -/

/-- The grid alone. The velocities are free to vary. -/
structure GridOnly (params : HumanizationParams) : Prop where
  no_jitter : params.timingJitterTicks = 0
  no_swing : params.grooveSwing ≤ 0
  snap : params.snapToGrid = true
  step : GridStep params.gridResolution

/-- The start is the nearest multiple of the resolution. The end is a later multiple, the nearest
one unless that leaves the note no length, and then the next one behind the start. -/
structure Quantised (res : Int) (ev ev' : MidiEvent) : Prop where
  tickOn : Nearest res ev.tickOn.toNat ev'.tickOn.toNat
  lt : ev'.tickOn.toNat < ev'.tickOff.toNat
  multiple : res ∣ ev'.tickOff.toNat
  tickOff : Nearest res ev.tickOff.toNat ev'.tickOff.toNat ∨
    (∃ x, Nearest res ev.tickOff.toNat x ∧ x ≤ ev'.tickOn.toNat) ∧
      (ev'.tickOff.toNat : Int) = ev'.tickOn.toNat + res

/-- The ticks are the same. -/
structure SameTicks (ev ev' : MidiEvent) : Prop where
  tickOn : ev'.tickOn = ev.tickOn
  tickOff : ev'.tickOff = ev.tickOff

section

variable {params : HumanizationParams} (hparams : GridOnly params)
include hparams

/-- What one event becomes: its end is moved behind its start, and then both are rounded. -/
theorem gridOnly_ticks (ev : MidiEvent) (hon : ev.tickOn.toNat < 2 ^ 30 + 2 ^ 20)
    (hoff : ev.tickOff.toNat < 2 ^ 30 + 2 ^ 21) (rng : Mt19937_64) :
    ((gridded params (humanized params ev rng)).tickOn.toNat : Int) =
        roundTo params.gridResolution ev.tickOn.toNat ∧
      ((gridded params (humanized params ev rng)).tickOff.toNat : Int) =
        if roundTo params.gridResolution (endBehind ev) ≤
            roundTo params.gridResolution ev.tickOn.toNat then
          roundTo params.gridResolution ev.tickOn.toNat + params.gridResolution
        else roundTo params.gridResolution (endBehind ev) := by
  -- Without swing and jitter the event arrives at the last stage as it was.
  have hmoved : jittered (drawnAround params.timingJitterTicks rng)
      (swung (swingDelay params.grooveSwing) ev) = ev := by
    rw [hparams.no_jitter, drawnAround_zero, swingDelay_of_nonpos hparams.no_swing,
      swung_of_nonpos (Int.le_refl 0), jittered_zero]
  obtain ⟨hon', hoff'⟩ := humanized_ticks params ev rng hmoved (by omega)
  have hpos := hparams.step.1
  rw [gridded, if_pos ⟨hparams.snap, show params.gridResolution > 0 by omega⟩]
  generalize humanized params ev rng = moved at hon' hoff' ⊢
  rw [← hon', ← hoff']
  refine snapped_ticks hparams.step (by rw [hon']; omega) ?_
  rw [hoff', endBehind]
  split <;> omega

/-- Without a jitter an event goes to the grid: its start to the nearest position, and its end to
the nearest one behind the start. -/
theorem gridOnly_quantised {ev : MidiEvent} (hon : ev.tickOn.toNat < 2 ^ 30)
    (hoff : ev.tickOff.toNat < 2 ^ 30) (rng : Mt19937_64) :
    Quantised params.gridResolution ev (gridded params (humanized params ev rng)) := by
  have hpos : 0 < params.gridResolution := by have := hparams.step.1; omega
  obtain ⟨hon', hoff'⟩ := gridOnly_ticks hparams ev (by omega) (by omega) rng
  generalize gridded params (humanized params ev rng) = ev' at hon' hoff' ⊢
  generalize params.gridResolution = res at hpos hon' hoff' ⊢
  have hnearest := roundTo_nearest hpos ev.tickOn.toNat
  rw [← hon'] at hnearest hoff'
  rw [endBehind] at hoff'
  by_cases hle : ev.tickOff.toNat ≤ ev.tickOn.toNat
  · -- The nearest multiple of the end is not behind the start either.
    rw [if_pos hle, Int.natCast_add, Int.natCast_one] at hoff'
    have hcollapsed : roundTo res ev.tickOff.toNat ≤ ev'.tickOn.toNat := by
      rw [hon']
      exact roundTo_mono hpos (by omega)
    have hend : (ev'.tickOff.toNat : Int) = ev'.tickOn.toNat + res := by
      have hsucc := roundTo_succ_le hpos ev.tickOn.toNat
      rw [← hon'] at hsucc
      split at hoff'
      case isTrue => exact hoff'
      case isFalse hlt =>
        have hstep := add_le_of_dvd hnearest.multiple
          (roundTo_nearest hpos (ev.tickOn.toNat + 1)).multiple (by omega)
        omega
    refine ⟨hnearest, by omega, ?_, .inr ⟨⟨_, roundTo_nearest hpos _, hcollapsed⟩, hend⟩⟩
    rw [hend]
    exact Int.dvd_add hnearest.multiple (Int.dvd_refl res)
  · rw [if_neg hle] at hoff'
    have hoffNearest := roundTo_nearest hpos ev.tickOff.toNat
    -- A note that collapses ends one step behind its start.
    split at hoff'
    case isTrue hcollapsed =>
      refine ⟨hnearest, by omega, ?_, .inr ⟨⟨_, hoffNearest, hcollapsed⟩, hoff'⟩⟩
      rw [hoff']
      exact Int.dvd_add hnearest.multiple (Int.dvd_refl res)
    case isFalse hlt =>
      rw [← hoff'] at hoffNearest hlt
      exact ⟨hnearest, by omega, hoffNearest.multiple, .inl hoffNearest⟩

/-- An event on the grid stays where it is. -/
theorem gridOnly_stable {ev : MidiEvent} (hon : ev.tickOn.toNat < 2 ^ 30 + 2 ^ 20)
    (hoff : ev.tickOff.toNat < 2 ^ 30 + 2 ^ 21) (hlt : ev.tickOn.toNat < ev.tickOff.toNat)
    (hdvdOn : params.gridResolution ∣ ev.tickOn.toNat)
    (hdvdOff : params.gridResolution ∣ ev.tickOff.toNat) (rng : Mt19937_64) :
    SameTicks ev (gridded params (humanized params ev rng)) := by
  have hpos : 0 < params.gridResolution := by have := hparams.step.1; omega
  obtain ⟨hon', hoff'⟩ := gridOnly_ticks hparams ev hon hoff rng
  have hbehind : endBehind ev = ev.tickOff.toNat := if_neg (by omega)
  rw [hbehind, roundTo_of_dvd hpos hdvdOn, roundTo_of_dvd hpos hdvdOff, if_neg (by omega)] at hoff'
  rw [roundTo_of_dvd hpos hdvdOn] at hon'
  exact ⟨UInt32.toNat_inj.mp (by omega), UInt32.toNat_inj.mp (by omega)⟩

end

/-- Quantisation puts every event on the grid, and a second pass moves no tick. -/
theorem apply_quantised (events : List MidiEvent) (params : HumanizationParams)
    (hevents : ∀ ev ∈ events, ev.tickOn.toNat < 2 ^ 30 ∧ ev.tickOff.toNat < 2 ^ 30)
    (hparams : GridOnly params) :
    List.Forall₂ (Quantised params.gridResolution) events (apply events params).val ∧
      List.Forall₂ SameTicks (apply events params).val
        (apply (apply events params).val params).val := by
  constructor
  · rw [forall₂_apply_iff]
    intro p hp
    obtain ⟨hon, hoff⟩ := hevents p.1 (List.fst_mem_of_mem_zipIdx hp)
    exact gridOnly_quantised hparams hon hoff _
  · rw [forall₂_apply_iff]
    intro p hp
    -- The second pass sees snapped ticks, which it leaves where they are.
    have hmem := List.fst_mem_of_mem_zipIdx hp
    rw [apply_eq] at hmem
    obtain ⟨source, hsource, heq⟩ := List.mem_map.mp hmem
    obtain ⟨hon, hoff⟩ := hevents source.1 (List.fst_mem_of_mem_zipIdx hsource)
    have hq := gridOnly_quantised hparams hon hoff
      ((Mt19937_64.ofSeed params.seed).skip (2 * source.2))
    rw [heq] at hq
    obtain ⟨hpos, hmax⟩ := hparams.step
    have hclose := hq.tickOn.close
    have hend : p.1.tickOff.toNat < 2 ^ 30 + 2 ^ 21 := by
      obtain hnear | ⟨-, hnext⟩ := hq.tickOff
      · have := hnear.close
        omega
      · omega
    exact gridOnly_stable hparams (by omega) hend hq.lt hq.tickOn.multiple hq.multiple _

/-- A grid of sixteenth notes at 480 ticks a quarter. -/
def sixteenthGrid : HumanizationParams := ⟨0, 0, 0, 0, true, 120⟩

/-- The parameters have a grid and nothing else. -/
theorem sixteenthGrid_gridOnly : GridOnly sixteenthGrid := by
  constructor
  · rfl
  · decide
  · rfl
  · exact ⟨by decide, by decide⟩

/-- Two notes, the second one of no length. -/
theorem apply_quantised_two :
    List.Forall₂ (Quantised 120) [⟨10, 130, 0, 60, 100, 0⟩, ⟨200, 200, 0, 64, 100, 0⟩]
        (apply [⟨10, 130, 0, 60, 100, 0⟩, ⟨200, 200, 0, 64, 100, 0⟩] sixteenthGrid).val ∧
      List.Forall₂ SameTicks
        (apply [⟨10, 130, 0, 60, 100, 0⟩, ⟨200, 200, 0, 64, 100, 0⟩] sixteenthGrid).val
        (apply (apply [⟨10, 130, 0, 60, 100, 0⟩, ⟨200, 200, 0, 64, 100, 0⟩] sixteenthGrid).val
          sixteenthGrid).val :=
  apply_quantised [⟨10, 130, 0, 60, 100, 0⟩, ⟨200, 200, 0, 64, 100, 0⟩] sixteenthGrid
    (by decide) sixteenthGrid_gridOnly

end AiMidi.Proofs.Humanization
