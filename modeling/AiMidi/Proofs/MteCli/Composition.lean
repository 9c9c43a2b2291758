import AiMidi.Proofs.Humanization.EventStages
import AiMidi.Proofs.MteCli.EveryBar

/-!
# `AiMidi.Proofs.MteCli.Composition`: the renderer receives valid MIDI

`composition_valid` is the result about `mte_cli`: a run without a prompt whose key and scale
are accepted hands the renderer a composition in which every event of every track is valid MIDI
and ends at most three ticks after the last bar, and no 32-bit operation on the way wraps. The
chords fill whole bars (`Harmony`), the engines stay inside the chords (`Engines`), and the
humanization moves an event by at most three ticks (`humanized_valid`). Since bass and piano
notes last at least four ticks, a note never ends before it starts, not even when its start is
moved below tick 0.
-/

set_option autoImplicit false

namespace AiMidi.Proofs.MteCli

open AiMidi.Lib AiMidi.Theory AiMidi.Tools

section

variable {limit : Nat}

/-! ### Humanization

The jitter moves start and end by the same number of ticks. A note of four ticks is thus still one
when its start has been cut off at zero. -/

/-- The draw around zero is safe and stays in its range. -/
theorem drawAround_range {n : Int} (h0 : 0 ≤ n) (h1 : n ≤ 1000) :
    Seeded.Safe (HumanizationEngine.drawAround n) fun d => -n ≤ d ∧ d ≤ n := by
  have hn := Humanization.drawSpan_toNat h0 (by omega)
  refine Seeded.safe_bind (Seeded.safe_draw (by omega)) fun k hk => ?_
  rw [i32cast_of_range (by omega) (by omega)]
  exact Seeded.safe_pure (by omega)

/-- Jitter up to three ticks keeps a note of four ticks valid. -/
theorem jitterEvent_valid {ev : MidiEvent} (hev : ValidEvent 4 limit ev)
    (hlimit : limit + 3 < 2 ^ 31) {jitter : Int} (hjitter : -3 ≤ jitter ∧ jitter ≤ 3) :
    Sanitized.Safe (HumanizationEngine.jitterEvent jitter ev) (ValidEvent 1 (limit + 3)) := by
  have hlength := hev.length_le
  have hoff := hev.off_le
  unfold HumanizationEngine.jitterEvent HumanizationEngine.toInt
  split
  case isTrue =>
    refine Sanitized.safe_bind (Sanitized.safe_i32 (by omega) (by omega)) fun on hon => ?_
    refine Sanitized.safe_bind (Sanitized.safe_i32 (by omega) (by omega)) fun off hoff => ?_
    -- The start is cut at tick 0, and the end moves at most three ticks back.
    refine Sanitized.safe_bind (Sanitized.safe_i32 (by omega) (by omega)) fun newOn hnewOn => ?_
    refine Sanitized.safe_bind (Sanitized.safe_i32 (by omega) (by omega)) fun newOff hnewOff => ?_
    refine Sanitized.safe_bind (Sanitized.safe_i32 (by omega) (by omega)) fun after hafter => ?_
    refine Sanitized.safe_bind (Sanitized.safe_u32 (by omega) (by omega)) fun tickOn hOn => ?_
    refine Sanitized.safe_bind (Sanitized.safe_u32 (by omega) (by omega)) fun tickOff hOff => ?_
    exact Sanitized.safe_pure ⟨by dsimp only; omega, by dsimp only; omega, hev.note_le,
      hev.velocity_pos, hev.velocity_le, hev.channel_le⟩
  case isFalse =>
    exact Sanitized.safe_pure ⟨by omega, by omega, hev.note_le, hev.velocity_pos,
      hev.velocity_le, hev.channel_le⟩

/-- The velocity stays in the range of a sounding note, whatever the change. -/
theorem varyVelocity_valid {ev : MidiEvent} (hev : ValidEvent 1 limit ev) (delta : Int) :
    ValidEvent 1 limit (HumanizationEngine.varyVelocity delta ev) := by
  have hvel : VelocityOk (HumanizationEngine.varyVelocity delta ev).velocity :=
    velocityOk_u8cast (by rw [HumanizationEngine.clamp]; omega)
      (by rw [HumanizationEngine.clamp]; omega)
  exact ⟨hev.length_le, hev.off_le, hev.note_le, hvel.1, hvel.2, hev.channel_le⟩

/-- The stages together. Notes of four ticks keep one tick at least. -/
theorem humanizeEvent_valid {ev : MidiEvent} (hev : ValidEvent 4 limit ev)
    (hlimit : limit + 3 < 2 ^ 31) (seed : Seed) :
    Seeded.Safe (HumanizationEngine.humanizeEvent (humanParams seed) ev)
      (ValidEvent 1 (limit + 3)) := by
  -- The groove of `mte_cli` has no swing, so the first stage returns the event.
  have hswing : Sanitized.Safe (HumanizationEngine.swingEvent
      (HumanizationEngine.swingDelay (humanParams seed).grooveSwing) ev) (ValidEvent 4 limit) :=
    Sanitized.safe_pure hev
  refine Seeded.safe_bind (Seeded.safe_lift hswing) fun swung hswung => ?_
  refine Seeded.safe_bind (drawAround_range (n := 3) (by decide) (by decide))
    fun jitter hjitter => ?_
  refine Seeded.safe_bind (Seeded.safe_lift (jitterEvent_valid hswung hlimit hjitter))
    fun moved hmoved => ?_
  refine Seeded.safe_bind (drawAround_range (n := 5) (by decide) (by decide)) fun delta _ => ?_
  have hvaried := varyVelocity_valid hmoved delta
  have hlength := hvaried.length_le
  -- The note still ends after its start, so the last stage leaves it alone.
  unfold HumanizationEngine.endAfterStart
  rw [if_neg (by rw [UInt32.le_iff_toNat_le]; omega)]
  exact Seeded.safe_lift (Sanitized.safe_pure hvaried)

/-- Humanization moves the events by at most three ticks. -/
theorem humanized_valid {events : List MidiEvent} (hevents : ValidEvents 4 limit events)
    (hlimit : limit + 3 < 2 ^ 31) (seed : Seed) :
    Sanitized.Safe (HumanizationEngine.apply events (humanParams seed))
      (ValidEvents 1 (limit + 3)) := by
  refine Sanitized.safe_bind (Seeded.safe_run (Seeded.safe_forEach fun ev hev => ?_) _)
    fun out hout => Sanitized.safe_pure hout
  refine Seeded.safe_bind (humanizeEvent_valid (hevents ev hev) hlimit seed) fun ev' hev' => ?_
  exact Seeded.safe_pure (ValidEvents.singleton hev')

end

/-! ### The composition

The parts come out of the engines and go through the humanization into the tracks. The bounds of the
engines hold with room for the three ticks of the jitter. -/

/-- The parts of a piece: all events are valid, and the drums play on every bar line. -/
structure ValidParts (bars : Nat) (parts : Parts) : Prop where
  piano : ValidEvents 1 (bars * 1920 + 3) parts.piano
  bass : ValidEvents 1 (bars * 1920 + 3) parts.bass
  drums : ValidEvents 1 (bars * 1920) parts.drums
  everyBar : ∀ bar < bars, ∃ ev ∈ parts.drums, ev.tickOn.toNat = bar * 1920

/-- All engines together, from one run of the harmony on. -/
theorem generateEvents_valid (std : StdSort drumEventLt) (key scale : Bytes) {bars : Nat}
    (hbars : bars ≤ 1000000) (seed : Seed) :
    Sanitized.Safe (generateEvents std key scale bars seed) (ValidParts bars) := by
  -- Two facts about one run of the harmony: where its notes are, and that no bar lacks one.
  have hharmony := (harmony_onGrid hbars key scale seed).and_forall
    fun bar (hbar : bar < bars) => harmony_everyBar hbars hbar key scale seed
  refine Sanitized.safe_bind hharmony fun harmony hnotes => ?_
  obtain ⟨hgrid, hlines⟩ := hnotes
  refine Sanitized.safe_bind (detected_fits hbars hgrid) fun chords hdetected => ?_
  obtain ⟨hstarts, hchords⟩ := hdetected
  have hlimit' : bars * 1920 + 3 < 2 ^ 31 := by omega
  have hlimit : bars * 1920 < 2 ^ 31 := Nat.lt_of_le_of_lt (Nat.le_add_right _ 3) hlimit'
  have hppq : u32cast kPpq = 480 := by decide
  have hbass : Sanitized.Safe (BassEngine.generate ⟨chords, seed, u32cast kPpq⟩)
      (ValidEvents 4 (bars * 1920)) := bass_valid hchords hppq hlimit
  have hrhythm : Sanitized.Safe
      (RhythmEngine.generate ⟨chords, seed, u32cast kPpq⟩ ⟨.eighth, 0, seed⟩ ⟨-1, 1⟩)
      (ValidEvents 1 (bars * 1920)) := rhythm_valid hchords hlimit seed
  have hrhythm := hrhythm.and_forall fun bar (hbar : bar < bars) => by
    obtain ⟨note, hnote, hline⟩ := hlines bar hbar
    obtain ⟨cs, hcs, hstart⟩ := hstarts note hnote
    exact rhythm_everyBar hchords hlimit seed hcs (hstart ▸ hline)
  refine Sanitized.safe_bind hbass fun bass hbass => ?_
  refine Sanitized.safe_bind hrhythm fun rhythm hrhythm => ?_
  refine Sanitized.safe_bind (drums_valid hchords hlimit _) fun drums hdrums => ?_
  refine Sanitized.safe_bind (piano_valid hchords hlimit _ _) fun piano hpiano => ?_
  refine Sanitized.safe_bind (humanized_valid hpiano hlimit' seed) fun piano hpiano => ?_
  refine Sanitized.safe_bind (humanized_valid hbass hlimit' seed) fun bass hbass => ?_
  -- The drums are rhythm and drum engine merged by a sort, and they are not humanized.
  refine Sanitized.safe_pure ⟨hpiano, hbass, fun ev hev => ?_, fun bar hbar => ?_⟩
  · exact (hrhythm.1.append hdrums) ev ((std.mem_sort _ ev).mp hev)
  · obtain ⟨ev, hev, htick⟩ := hrhythm.2 bar hbar
    exact ⟨ev, (std.mem_sort _ ev).mpr (List.mem_append_left _ hev), htick⟩

/-- The tracks of the old layout have the events of the parts. -/
theorem legacyTracks_valid {bars : Nat} {parts : Parts} (h : ValidParts bars parts) :
    ∀ track ∈ legacyTracks parts, ValidEvents 1 (bars * 1920 + 3) track.events := by
  intro track htrack
  simp only [legacyTracks, List.mem_cons, List.not_mem_nil, or_false] at htrack
  obtain rfl | rfl | rfl := htrack
  · exact h.piano
  · exact h.bass
  · exact h.drums.mono (le_refl 1) (Nat.le_add_right _ 3)

/-- A run with a known key and a known scale is composed. -/
theorem composition_ok (std : StdSort drumEventLt) {argv : List Bytes} {args : Args}
    (hargs : parseArgs argv = some args) (hkey : 0 ≤ keyToRootPc (resolve args).key)
    (hscale : knows (resolve args).scale = true) :
    composition std argv = .ok (compose std (resolve args)) := by
  rw [composition, hargs]
  dsimp only
  rw [if_neg (by omega), if_neg (by simp [hscale])]

/-- Without a prompt the parameters are those of the command line. -/
theorem resolve_of_no_prompt {args : Args} (h : args.prompt = []) :
    resolve args = ⟨args.key, args.scale, args.bpm, args.bars, args.seed, none⟩ := by
  rw [resolve, if_neg (by simp [h])]

/-- Every event that a run without a prompt hands to the renderer is valid MIDI and ends at most
three ticks after the last bar, and no 32-bit operation on the way wraps. -/
theorem composition_valid (std : StdSort drumEventLt) (argv : List Bytes) (args : Args)
    (hargs : parseArgs argv = some args) (hprompt : args.prompt = [])
    (hkey : 0 ≤ keyToRootPc args.key) (hscale : knows args.scale = true)
    (hbars : 1 ≤ args.bars ∧ args.bars ≤ 1000000) :
    ∃ comp, composition std argv = .ok comp ∧
      Sanitized.Safe comp fun c => ∀ track ∈ c.tracks, ∀ ev ∈ track.events,
        ev.tickOn < ev.tickOff ∧ (ev.tickOff.toNat : Int) ≤ args.bars * 1920 + 3 ∧
          ev.note ≤ 127 ∧ 1 ≤ ev.velocity ∧ ev.velocity ≤ 127 ∧ ev.channel ≤ 15 := by
  obtain ⟨bars, hbars'⟩ := Int.eq_ofNat_of_zero_le (show 0 ≤ args.bars by omega)
  have hresolve := resolve_of_no_prompt hprompt
  refine ⟨compose std (resolve args), ?_, ?_⟩
  · exact composition_ok std hargs (by rw [hresolve]; exact hkey) (by rw [hresolve]; exact hscale)
  · rw [hresolve]
    unfold compose
    simp only [hbars']
    -- Every part keeps its events within the bars, and the tracks only collect them.
    refine Sanitized.safe_bind (generateEvents_valid std _ _ (by omega) _) fun parts hparts => ?_
    refine Sanitized.safe_pure fun track htrack ev hev => ?_
    have h := legacyTracks_valid hparts track htrack ev hev
    have hlength := h.length_le
    have hoff := h.off_le
    refine ⟨UInt32.lt_iff_toNat_lt.mpr (by omega), by omega, ?_, ?_, ?_, ?_⟩
    · exact UInt8.le_iff_toNat_le.mpr h.note_le
    · exact UInt8.le_iff_toNat_le.mpr h.velocity_pos
    · exact UInt8.le_iff_toNat_le.mpr h.velocity_le
    · exact UInt8.le_iff_toNat_le.mpr h.channel_le

/-- An implementation of the sort that merges the drum events. -/
def drumSort : StdSort drumEventLt :=
  StdSort.ofInsertionSort drumEventLt
    (by
      simp only [drumEventLt, decide_eq_false_iff_not, UInt32.not_lt]
      exact fun _ _ _ hab hbc => UInt32.le_trans hab hbc)
    (by
      simp only [drumEventLt, decide_eq_false_iff_not, UInt32.not_lt]
      exact fun a b => UInt32.le_total a.tickOn b.tickOn)

/-- A run of two bars in C major. -/
def twoBarsArgs : Args :=
  { seed := 42, key := bytes "C", scale := bytes "major", bars := 2, output := bytes "o.mid" }

/-- Two bars without a prompt. -/
theorem composition_valid_twoBars :
    ∃ comp, composition drumSort [bytes "--seed", bytes "42", bytes "--key", bytes "C",
        bytes "--scale", bytes "major", bytes "--bars", bytes "2", bytes "--output",
        bytes "o.mid"] = .ok comp ∧
      Sanitized.Safe comp fun c => ∀ track ∈ c.tracks, ∀ ev ∈ track.events,
        ev.tickOn < ev.tickOff ∧ (ev.tickOff.toNat : Int) ≤ twoBarsArgs.bars * 1920 + 3 ∧
          ev.note ≤ 127 ∧ 1 ≤ ev.velocity ∧ ev.velocity ≤ 127 ∧ ev.channel ≤ 15 :=
  composition_valid drumSort _ twoBarsArgs (by decide +kernel) rfl (by decide)
    (by decide) (by decide)

end AiMidi.Proofs.MteCli
