import AiMidi.Proofs.ChordVoicing
import AiMidi.Proofs.MteCli.Harmony

/-!
# `AiMidi.Proofs.MteCli.EveryBar`: every bar is played

No bar of the piece stays empty. The voicing of a chord always keeps a note, so every bar line
has a note of the harmony (`harmony_everyBar`), hence a detected chord, and the rhythm plays on
the start of every chord that starts on a bar line (`rhythm_everyBar`).
-/

set_option autoImplicit false

namespace AiMidi.Proofs.MteCli

open AiMidi.Lib AiMidi.Theory AiMidi.Tools
open AiMidi.Proofs.ChordVoicing

/-! ### Chords have notes

The pitch of a chord tone is in the range of MIDI, so no tone is left out and the chord has a
note. -/

/-- A note of the chord begins with the chord. -/
theorem chordNote_exists {cs : ChordSpec}
    (hend : cs.startTick.toNat + cs.durationTicks.toNat < 2 ^ 32) (velocity : UInt8) {n : Int}
    (hn : 0 ≤ n ∧ n ≤ 127) :
    Sanitized.Safe (ChordEngine.chordNote cs velocity n) fun events =>
      ∃ ev ∈ events, ev.tickOn = cs.startTick := by
  unfold ChordEngine.chordNote
  rw [if_neg (by omega)]
  refine Sanitized.safe_bind (Sanitized.safe_u32 (by omega) (by omega)) fun off _ => ?_
  exact Sanitized.safe_pure ⟨_, List.mem_cons_self, rfl⟩

/-- Every chord has a note, and it begins with the chord. -/
theorem voiceChord_exists {cs : ChordSpec}
    (hend : cs.startTick.toNat + cs.durationTicks.toNat < 2 ^ 32) :
    Seeded.Safe (ChordEngine.voiceChord cs) fun events =>
      ∃ ev ∈ events, ev.tickOn = cs.startTick := by
  refine Seeded.safe_bind (Seeded.safe_draw (by decide)) fun inv _ => ?_
  refine Seeded.safe_bind (Seeded.safe_draw (by decide)) fun vel _ => Seeded.safe_lift ?_
  obtain ⟨n, hmem, hn⟩ := exists_note_of_voicing cs inv
  exact Sanitized.safe_forEach_exists
    (Sanitized.safe_forEach fun n _ => chordNote_tickOn hend _ n) hmem (chordNote_exists hend _ hn)

/-! ### Harmony -/

section

variable {bars bar : Nat}

/-- The harmony has a note on every bar line. -/
theorem harmony_everyBar (hbars : bars ≤ 1000000) (hbar : bar < bars) (key scale : Bytes)
    (seed : Seed) :
    Sanitized.Safe (HarmonyEngine.generate ⟨key, scale, bars, seed⟩) fun events =>
      ∃ ev ∈ events, ev.tickOn.toNat = bar * 1920 := by
  have hchord : Sanitized.Safe (HarmonyEngine.chordOfBar bar) fun specs =>
      ∃ cs ∈ specs, cs.startTick.toNat = bar * 1920 :=
    (chordOfBar_spec hbars hbar).mono fun specs h => by
      obtain ⟨cs, rfl, hstart, -⟩ := h
      exact ⟨cs, List.mem_cons_self, hstart⟩
  -- The loop over the bars reaches this one.
  have hchords := (chordsOfBars_onGrid hbars).and (Sanitized.safe_forEach_exists
    (chordsOfBars_onGrid hbars) (List.mem_range.mpr hbar) hchord)
  unfold HarmonyEngine.generate
  rw [if_neg (by show ¬ (bars : Int) < 1; omega)]
  refine Sanitized.safe_bind hchords fun specs hspecs => Seeded.safe_run ?_ _
  obtain ⟨hgrid, cs, hcs, hstart⟩ := hspecs
  refine (Seeded.safe_forEach_exists (voicing_onGrid hbars hgrid) hcs
    (voiceChord_exists (end_lt_of_onGrid hbars (hgrid cs hcs)))).mono fun events h => ?_
  obtain ⟨ev, hev, htick⟩ := h
  exact ⟨ev, hev, htick ▸ hstart⟩

/-! ### Rhythm

The first position of the pattern is the start of the bar, and on each position there is at least
one hit. -/

/-- A drum event begins on its tick. -/
theorem drumEvent_exists {tick : UInt32} {note : UInt8} {lo hi : Int}
    (htick : tick.toNat + 1 < 2 ^ 31) (h0 : 1 ≤ lo) (h1 : lo ≤ hi) (h2 : hi ≤ 127) :
    Seeded.Safe (RhythmEngine.drumEvent tick note lo hi) fun events =>
      ∃ ev ∈ events, ev.tickOn = tick := by
  refine Seeded.safe_bind (Seeded.safe_lift (safe_addTick (by omega) (by omega))) fun off _ => ?_
  refine Seeded.safe_bind (humanizedVelocity_ok h0 h1 h2) fun velocity _ => ?_
  exact Seeded.safe_pure ⟨_, List.mem_cons_self, rfl⟩

/-- A position of the grid is always played. -/
theorem gridHits_exists {barStart tick : UInt32} {beatNote : UInt8}
    (htick : barStart.toNat + tick.toNat + 1 < 2 ^ 31) :
    Seeded.Safe (RhythmEngine.gridHits barStart tick beatNote) fun events =>
      ∃ ev ∈ events, ev.tickOn.toNat = barStart.toNat + tick.toNat := by
  refine Seeded.safe_bind (Seeded.safe_lift (Sanitized.safe_u32 (by omega) (by omega)))
    fun t ht => ?_
  refine Seeded.safe_bind (drumEvent_exists (by omega) (by decide) (by decide) (by decide))
    fun hat hhat => ?_
  refine Seeded.safe_bind (drumEvent_exists (by omega) (by decide) (by decide) (by decide))
    fun beat _ => Seeded.safe_pure ?_
  obtain ⟨ev, hev, htick⟩ := hhat
  exact ⟨ev, List.mem_append_left _ hev, by rw [htick]; omega⟩

/-- The pattern of a chord that starts on a bar line plays on the line. -/
theorem chordPattern_exists {limit : Nat} {cs : ChordSpec} (hcs : ChordFits limit cs)
    (hlimit : limit < 2 ^ 31) (hstart : cs.startTick.toNat = bar * 1920) {ticks : List UInt32}
    (hticks : ∀ tick ∈ ticks, tick.toNat ≤ 1680) (hzero : (0, 0) ∈ ticks.zipIdx)
    (seed seed' : Seed) :
    Sanitized.Safe (RhythmEngine.chordPattern seed ⟨.eighth, 0, seed'⟩ ⟨-1, 1⟩ ticks cs)
      fun events => ∃ ev ∈ events, ev.tickOn.toNat = bar * 1920 := by
  refine Sanitized.safe_bind (safe_barStart hcs hlimit) fun barStart hbarStart => ?_
  obtain ⟨hline, hroom⟩ := hbarStart
  rw [hstart, Nat.mul_div_cancel _ (by decide)] at hline
  -- Position 0 of the grid is the bar line itself.
  have hbeat : Seeded.Safe (RhythmEngine.gridHits barStart 0 RhythmEngine.kKick) fun events =>
      ∃ ev ∈ events, ev.tickOn.toNat = barStart.toNat + 0 :=
    gridHits_exists (by show barStart.toNat + 0 + 1 < 2 ^ 31; omega)
  have hpattern := Seeded.safe_forEach_exists (fillEighthPattern_valid hticks hroom hlimit) hzero
    hbeat
  refine Seeded.safe_run (Seeded.safe_bind hpattern fun pattern hplayed => ?_) _
  -- no fill: its bar is -1
  dsimp only
  rw [if_neg fun h => absurd h.1 (by decide)]
  refine Seeded.safe_pure ?_
  obtain ⟨ev, hev, htick⟩ := hplayed
  exact ⟨ev, hev, htick.trans hline⟩

/-- The rhythm plays on the start of a chord that starts on a bar line. -/
theorem rhythm_everyBar {limit : Nat} {req : ChordRequest}
    (hchords : ∀ cs ∈ req.chords, ChordFits limit cs) (hlimit : limit < 2 ^ 31) (seed : Seed)
    {cs : ChordSpec} (hcs : cs ∈ req.chords) (hstart : cs.startTick.toNat = bar * 1920) :
    Sanitized.Safe (RhythmEngine.generate req ⟨.eighth, 0, seed⟩ ⟨-1, 1⟩) fun events =>
      ∃ ev ∈ events, ev.tickOn.toNat = bar * 1920 := by
  refine Sanitized.safe_bind eighthBarTicksStraight_spec fun base hbase => ?_
  have hswing : Sanitized.Safe (RhythmEngine.applySwing base 0) fun ticks =>
      (∀ tick ∈ ticks, tick.toNat ≤ 1680) ∧ (0, 0) ∈ ticks.zipIdx := Sanitized.safe_pure hbase
  refine Sanitized.safe_bind hswing fun ticks hticks => ?_
  obtain ⟨hle, hzero⟩ := hticks
  exact Sanitized.safe_forEach_exists
    (Sanitized.safe_forEach fun cs hcs =>
      chordPattern_valid (hchords cs hcs) hlimit hle req.seed seed) hcs
    (chordPattern_exists (hchords cs hcs) hlimit hstart hle hzero req.seed seed)

end

end AiMidi.Proofs.MteCli
