import AiMidi.Proofs.Humanization.EventStages

/-!
# `AiMidi.Proofs.Humanization.Jitter`: how far jitter moves a note

Without swing and grid an event is to move by its jitter only. The start is cut at tick 0. The
end is not: it is kept behind the start as it was before the cut. Where the jitter moves the end
of a note below tick 0 as well, the negative end wraps to a tick just below `2 ^ 32`, and the
note lasts almost to the last tick (`shortNote_not_moved`).

`apply_movedBy_iff` says when this does not happen: no event may end earlier than its own jitter
takes it back.
-/

set_option autoImplicit false

namespace AiMidi.Proofs.Humanization

open AiMidi.Lib AiMidi.Theory AiMidi.Theory.HumanizationEngine

/-- The event has moved by at most `J` ticks, or lasts one tick, and it ends after it begins. -/
structure MovedBy (J : Int) (ev ev' : MidiEvent) : Prop where
  tickOn : ((ev'.tickOn.toNat : Int) - ev.tickOn.toNat).natAbs ≤ J
  tickOff : ((ev'.tickOff.toNat : Int) - ev.tickOff.toNat).natAbs ≤ J ∨
    ev'.tickOff.toNat = ev'.tickOn.toNat + 1
  lt : ev'.tickOn.toNat < ev'.tickOff.toNat

/-- The jitter that the seed has for event `i`: output `2 * i` of its generator. -/
def jitterAt (params : HumanizationParams) (i : Nat) : Int :=
  drawnAround params.timingJitterTicks ((Mt19937_64.ofSeed params.seed).skip (2 * i))

/-- Neither swing nor grid. -/
structure JitterOnly (params : HumanizationParams) : Prop where
  no_swing : params.grooveSwing ≤ 0
  no_snap : ¬ (params.snapToGrid = true ∧ params.gridResolution > 0)
  jitter : 0 ≤ params.timingJitterTicks ∧ params.timingJitterTicks ≤ 2 ^ 20

/-- One event is moved as a whole exactly when the drawn jitter does not carry its end below tick
zero. -/
theorem movedBy_iff {params : HumanizationParams} (hparams : JitterOnly params) {ev : MidiEvent}
    (hlt : ev.tickOn.toNat < ev.tickOff.toNat) (hoff : ev.tickOff.toNat < 2 ^ 30)
    (rng : Mt19937_64) :
    MovedBy params.timingJitterTicks ev (gridded params (humanized params ev rng)) ↔
      0 ≤ (ev.tickOff.toNat : Int) + drawnAround params.timingJitterTicks rng := by
  obtain ⟨hJ0, hJ1⟩ := hparams.jitter
  have hrange := drawnAround_range hJ0 hJ1 rng
  have hticks := humanized_ticks params ev rng rfl
  rw [swingDelay_of_nonpos hparams.no_swing, swung_of_nonpos (Int.le_refl 0)] at hticks
  rw [gridded, if_neg hparams.no_snap]
  generalize humanized params ev rng = ev' at hticks ⊢
  generalize drawnAround params.timingJitterTicks rng = j at hrange hticks ⊢
  by_cases hj : j = 0
  · -- Nothing has moved.
    rw [hj, jittered_zero] at hticks
    obtain ⟨hon', hoff'⟩ := hticks (by omega)
    rw [endBehind, if_neg (by omega)] at hoff'
    rw [← hon'] at hlt
    exact iff_of_true ⟨by rw [hon']; omega, .inl (by omega), by omega⟩ (by omega)
  · have hmoved := jittered_ticks hj (by omega) ev (by omega) (by omega)
    generalize jittered j ev = moved at hticks hmoved
    obtain ⟨hon', hoff'⟩ := hticks (by omega)
    rw [endBehind, ← hon'] at hoff'
    rw [← hon'] at hmoved
    constructor
    · intro h
      by_contra hneg
      -- The end has wrapped, and neither alternative is left for it.
      have hclose := h.tickOff
      split at hoff' <;> omega
    · intro hend
      split at hoff'
      · exact ⟨by omega, .inr hoff', by omega⟩
      · exact ⟨by omega, .inl (by omega), by omega⟩

/-- Jitter moves every event by at most `J` ticks exactly when it takes no end below tick 0. -/
theorem apply_movedBy_iff (events : List MidiEvent) (params : HumanizationParams)
    (hevents : ∀ ev ∈ events, ev.tickOn < ev.tickOff ∧ ev.tickOff.toNat < 2 ^ 30)
    (hparams : JitterOnly params) :
    List.Forall₂ (MovedBy params.timingJitterTicks) events (apply events params).val ↔
      ∀ p ∈ events.zipIdx, 0 ≤ (p.1.tickOff.toNat : Int) + jitterAt params p.2 := by
  rw [forall₂_apply_iff]
  refine forall₂_congr fun p hp => ?_
  obtain ⟨hlt, hoff⟩ := hevents p.1 (List.fst_mem_of_mem_zipIdx hp)
  exact movedBy_iff hparams (UInt32.lt_iff_toNat_lt.mp hlt) hoff _

/-- A short note at the start of a piece. -/
def shortNote : MidiEvent := ⟨0, 1, 0, 60, 100, 0⟩

/-- Five ticks of jitter, with a seed that begins with -3. -/
def earlyParams : HumanizationParams := ⟨1, 5, 0, 0, false, 120⟩

/-- The parameters have a jitter and nothing else. -/
theorem earlyParams_jitterOnly : JitterOnly earlyParams := by
  constructor
  · decide
  · decide
  · decide

/-- The condition for a note near the beginning of the piece. -/
theorem apply_movedBy_iff_short :
    List.Forall₂ (MovedBy 5) [shortNote] (apply [shortNote] earlyParams).val ↔
      ∀ p ∈ [shortNote].zipIdx, 0 ≤ (p.1.tickOff.toNat : Int) + jitterAt earlyParams p.2 :=
  apply_movedBy_iff [shortNote] earlyParams (by decide) earlyParams_jitterOnly

/-- The first draw of the seed goes three ticks back. -/
theorem drawnAround_early : drawnAround 5 (.ofSeed 1) = -3 := by
  rw [drawnAround, Mt19937_64.draw, Mt19937_64.next_ofSeed]
  decide +kernel

/-- The note ends two ticks below `2 ^ 32`. -/
theorem shortNote_not_moved :
    (apply [shortNote] earlyParams).val = [⟨0, 4294967294, 0, 60, 100, 0⟩] ∧
      ¬ List.Forall₂ (MovedBy 5) [shortNote] (apply [shortNote] earlyParams).val := by
  have hvalue : (apply [shortNote] earlyParams).val = [⟨0, 4294967294, 0, 60, 100, 0⟩] := by
    rw [apply_eq]
    show [gridded earlyParams (humanized earlyParams shortNote (.ofSeed 1))] = _
    rw [humanized, show earlyParams.timingJitterTicks = 5 from rfl, drawnAround_early,
      show earlyParams.velocityVariation = 0 from rfl, drawnAround_zero]
    decide
  refine ⟨hvalue, fun h => ?_⟩
  rw [hvalue] at h
  have hoff := (List.forall₂_cons.mp h).1.tickOff
  revert hoff
  decide

end AiMidi.Proofs.Humanization
