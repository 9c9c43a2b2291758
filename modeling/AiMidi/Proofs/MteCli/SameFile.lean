import AiMidi.Lib.Tables
import AiMidi.Proofs.MidiRenderer.Injective
import AiMidi.Proofs.MteCli.Composition

/-!
# `AiMidi.Proofs.MteCli.SameFile`: when two runs write the same file

Two runs of `mte_cli` with one seed write the same bytes exactly when their tempo, their number
of bars, their key signature and their mode agree (`render_compose_eq_iff`). The harmony does
not depend on key and scale, so these only show in the key signature. Different tempos differ in
the tempo event. A longer piece has a drum note on the bar line where the shorter one has ended,
and the file shows it (`Injective`).

The parts of the file are compared one after the other: the tempo track by the values that its three
events write, and the instrument tracks by their notes, since equal bytes have equal notes. With one
seed the drums of two pieces agree as far as the shorter one goes (`bars_le_of_drums_perm`).
-/

set_option autoImplicit false

namespace AiMidi.Proofs.MteCli

open AiMidi.Lib AiMidi.Lib.Smf AiMidi.Theory AiMidi.Tools AiMidi.Proofs.MidiRenderer

/-! ### Tempo

The tempo event has three bytes of a quotient. Different tempos have different quotients, and for
the tempos in question the quotients have 24 bits. -/

/-- The tempo of a beat in microseconds determines the tempo in beats per minute. -/
theorem div_sixtyMillion_injective {a b : Nat} (ha : 0 < a) (hb : 0 < b) (ha' : a ≤ 300)
    (hb' : b ≤ 300) (h : 60000000 / a = 60000000 / b) : a = b := by
  have hlt : ∀ {a b : Nat}, 0 < a → a ≤ 300 → b ≤ 300 → 60000000 / a = 60000000 / b →
      ¬ a < b := by
    intro a b ha ha' hb' h hab
    have hle : b * (60000000 / b) ≤ 60000000 := Nat.mul_div_le _ _
    have hlt : 60000000 < a * (60000000 / a + 1) := Nat.lt_mul_div_succ _ ha
    -- A quotient of at least 200000 is more than the rounding loses.
    have hbig : 60000000 / 300 ≤ 60000000 / a := Nat.div_le_div_left ha' ha
    have hmul : (a + 1) * (60000000 / a) ≤ b * (60000000 / a) := Nat.mul_le_mul_right _ hab
    rw [← h] at hle
    rw [Nat.mul_add] at hlt
    rw [Nat.add_mul] at hmul
    omega
  exact Nat.le_antisymm (Nat.not_lt.mp (hlt hb hb' ha' h.symm)) (Nat.not_lt.mp (hlt ha ha' hb' h))

/-- The three bytes of a tempo are those of a 32-bit number below `2^24`. -/
theorem tempoEvent_injective {bpm bpm' : Int} (h : 40 ≤ bpm ∧ bpm ≤ 300)
    (h' : 40 ≤ bpm' ∧ bpm' ≤ 300) (heq : tempoEvent bpm = tempoEvent bpm') : bpm = bpm' := by
  have hus : ∀ {b : Int}, 40 ≤ b ∧ b ≤ 300 →
      (60000000 / u32cast b : UInt32).toNat = 60000000 / b.toNat := by
    intro b hb
    rw [UInt32.toNat_div, u32cast_toNat (by omega) (by omega)]
    rfl
  have hhead : ∀ {b : Int}, 40 ≤ b ∧ b ≤ 300 →
      writeBe32 (60000000 / u32cast b) = 0 :: (tempoEvent b).drop 4 := by
    intro b hb
    have hsmall : 60000000 / b.toNat < 2 ^ 24 :=
      Nat.lt_of_le_of_lt (Nat.div_le_div_left (by omega : 40 ≤ b.toNat) (by decide)) (by decide)
    -- The event drops the top byte, which is zero from 40 beats per minute on.
    have hzero : (((60000000 / u32cast b) >>> 24 : UInt32) &&& 0xFF).toUInt8 = 0 := by
      have hshift : ((60000000 / u32cast b) >>> 24 : UInt32) = 0 := by
        rw [← UInt32.toNat_inj, UInt32.toNat_shiftRight, hus hb, Nat.shiftRight_eq_div_pow]
        exact Nat.div_eq_of_lt hsmall
      rw [hshift]
      rfl
    rw [writeBe32, hzero]
    rfl
  have hbytes := congrArg beNat ((hhead h).trans (heq ▸ (hhead h').symm))
  rw [beNat_writeBe32, beNat_writeBe32, hus h, hus h'] at hbytes
  have := div_sixtyMillion_injective (by omega) (by omega) (by omega) (by omega) hbytes
  omega

/-! ### Key signature

The key signature event has a number of accidentals and a mode. Different keys can share both, and
the file does not tell them apart then. -/

/-- A key signature has seven accidentals at most. -/
theorem keySharps_range (key : Bytes) : -7 ≤ keySharps key ∧ keySharps key ≤ 7 := by
  have htable : ∀ entry ∈ kKeyMap, -7 ≤ entry.2 ∧ entry.2 ≤ 7 := by decide
  rw [keySharps]
  exact getD_lookup (P := fun sharps => -7 ≤ sharps ∧ sharps ≤ 7) htable (by decide) key

/-- The test of the renderer for a minor key signature. -/
def MinorMode (scale : Bytes) : Prop := scale = bytes "minor" ∨ scale = bytes "min"

/-- Two key signatures are the same bytes exactly when they have the same accidentals and the same
mode. -/
theorem keySignatureEvent_eq_iff {key key' scale scale' : Bytes} :
    keySignatureEvent key scale = keySignatureEvent key' scale' ↔
      keySharps key = keySharps key' ∧ (MinorMode scale ↔ MinorMode scale') := by
  have hrange := keySharps_range key
  have hrange' := keySharps_range key'
  have hsharps : u8cast (keySharps key) = u8cast (keySharps key') ↔
      keySharps key = keySharps key' := by
    refine ⟨fun h => ?_, fun h => by rw [h]⟩
    -- A byte distinguishes the fifteen values from -7 to 7.
    have hnat := congrArg UInt8.toNat h
    simp only [u8cast, UInt8.ofInt, UInt8.toNat_ofNat'] at hnat
    omega
  have hmode : (if scale = bytes "minor" ∨ scale = bytes "min" then (1 : UInt8) else 0)
      = (if scale' = bytes "minor" ∨ scale' = bytes "min" then (1 : UInt8) else 0) ↔
      (MinorMode scale ↔ MinorMode scale') := by
    unfold MinorMode
    split <;> split <;> simp_all
  simp only [keySignatureEvent, List.cons.injEq, and_true, true_and]
  rw [hsharps, hmode]

/-! ### Length

The drums play on every bar line, and the longer piece has a bar line where the shorter one is over.
One note is enough to tell them apart. -/

/-- A note on in the events of a track is the start of a note. -/
theorem tickOn_of_mem_noteEvents {events : List MidiEvent} {tick : Nat} {ch key vel : UInt8}
    (h : (⟨tick, .noteOn ch key vel⟩ : TrackEvent) ∈ events.flatMap noteEvents) :
    ∃ ev ∈ events, ev.tickOn.toNat = tick := by
  obtain ⟨ev, hev, hmem⟩ := List.mem_flatMap.mp h
  refine ⟨ev, hev, ?_⟩
  unfold noteEvents at hmem
  split at hmem
  · exact absurd hmem (by simp)
  · simp only [List.mem_cons, TrackEvent.mk.injEq, reduceCtorEq, and_false, List.not_mem_nil,
      or_false] at hmem
    exact hmem.1.symm

/-- With the same drum notes a piece is not longer than another. -/
theorem bars_le_of_drums_perm {bars bars' : Nat} {parts parts' : Parts}
    (h : ValidParts bars parts) (h' : ValidParts bars' parts')
    (hperm : (parts'.drums.flatMap noteEvents).Perm (parts.drums.flatMap noteEvents)) :
    bars' ≤ bars := by
  refine Nat.not_lt.mp fun hlt => ?_
  -- the longer piece plays on the line where the shorter one has ended
  obtain ⟨ev, hev, htick⟩ := h'.everyBar bars hlt
  have hnote : (⟨bars * 1920, .noteOn (ev.channel &&& 0x0F) ev.note ev.velocity⟩ : TrackEvent)
      ∈ parts'.drums.flatMap noteEvents := by
    refine List.mem_flatMap.mpr ⟨ev, hev, ?_⟩
    have hrange : ¬ ev.note > 127 := by
      rw [gt_iff_lt, UInt8.not_lt]
      exact UInt8.le_iff_toNat_le.mpr (h'.drums ev hev).note_le
    rw [noteEvents, if_neg hrange, htick]
    exact List.mem_cons_self
  obtain ⟨short, hshort, hline⟩ := tickOn_of_mem_noteEvents (hperm.mem_iff.mp hnote)
  have hlength := (h.drums short hshort).length_le
  have hend := (h.drums short hshort).off_le
  omega

/-- A track of valid events can be read back, if its name is short. -/
theorem readableTrack_of_valid {wire : StdSort wireEventLt} {limit : Nat} {track : MidiTrack}
    (hname : track.name.length ≤ 127) (h : ValidEvents 1 limit track.events)
    (hlimit : limit < 2 ^ 28) : ReadableTrack wire track where
  name_le := hname
  velocity_le ev hev := UInt8.le_iff_toNat_le.mpr (h ev hev).velocity_le
  delta_lt d hd := by
    refine Nat.lt_of_le_of_lt (tickDeltas_le _ 0 (fun we hwe => ?_) d hd) hlimit
    obtain ⟨ev, hev, hmem⟩ := (mem_wireOrder wire track).mp hwe
    have hon := (h ev hev).length_le
    have hoff := (h ev hev).off_le
    rw [(mem_wirePair hmem).2.2]
    split <;> omega

/-- So can all tracks of the old layout. -/
theorem legacyTracks_readable {wire : StdSort wireEventLt} {bars : Nat} {parts : Parts}
    (h : ValidParts bars parts) (hbars : bars ≤ 100000) :
    ∀ track ∈ legacyTracks parts, ReadableTrack wire track := by
  intro track htrack
  have hname : track.name.length ≤ 127 := by
    simp only [legacyTracks, List.mem_cons, List.not_mem_nil, or_false] at htrack
    obtain rfl | rfl | rfl := htrack
    · exact (by decide : (bytes "Piano").length ≤ 127)
    · exact (by decide : (bytes "Bass").length ≤ 127)
    · exact (by decide : (bytes "Drums").length ≤ 127)
  exact readableTrack_of_valid hname (legacyTracks_valid h track htrack) (by omega)

/-- Pieces of one seed with the same tracks have the same length. -/
theorem bars_eq_of_tracks {wire : StdSort wireEventLt} {bars bars' : Nat} {parts parts' : Parts}
    (h : ValidParts bars parts) (h' : ValidParts bars' parts') (hbars : bars ≤ 100000)
    (hbars' : bars' ≤ 100000)
    (heq : (legacyTracks parts).flatMap (buildInstrumentTrack wire)
      = (legacyTracks parts').flatMap (buildInstrumentTrack wire)) : bars = bars' := by
  have hsame := instrumentTracks_unique (legacyTracks_readable h hbars)
    (legacyTracks_readable h' hbars') heq
  -- Piano and bass say nothing about the length. The drums do.
  cases hsame with
  | cons _ hsame =>
    cases hsame with
    | cons _ hsame =>
      cases hsame with
      | cons hdrums _ =>
        exact Nat.le_antisymm (bars_le_of_drums_perm h' h hdrums.2)
          (bars_le_of_drums_perm h h' hdrums.2.symm)

/-! ### The file

What two runs of one seed have in common are all tracks of the engines. Key and scale reach the file
through its metadata only. -/

/-- The tempo track of two pieces in the same metre: tempo and key signature decide. -/
theorem tempoEvents_eq_iff {comp comp' : SmfComposition}
    (hnum : comp.timeSigNum = comp'.timeSigNum) (hden : comp.timeSigDen = comp'.timeSigDen) :
    tempoEvents comp = tempoEvents comp' ↔ tempoEvent comp.bpm = tempoEvent comp'.bpm ∧
      keySignatureEvent comp.key comp.scale = keySignatureEvent comp'.key comp'.scale := by
  simp only [tempoEvents, hnum, hden, List.append_cancel_right_eq]
  constructor
  · intro h
    obtain ⟨hhead, hkey⟩ := List.append_inj' h rfl
    exact ⟨List.append_cancel_right hhead, hkey⟩
  · rintro ⟨htempo, hkey⟩
    rw [htempo, hkey]

/-- Key and scale only show in the metadata of a composition. -/
theorem val_compose (std : StdSort drumEventLt) (key scale : Bytes) (bpm bars : Int)
    (seed : Seed) :
    (compose std ⟨key, scale, bpm, bars, seed, none⟩).val =
      { ppq := kPpq
        bpm := bpm
        key := key
        scale := scale
        tracks := legacyTracks (generateEvents std [] [] bars seed).val } := rfl

/-- With one seed, two runs write the same bytes exactly when tempo, length, key signature and
mode agree. -/
theorem render_compose_eq_iff (std : StdSort drumEventLt) (wire : StdSort wireEventLt)
    (seed : Seed) {key key' scale scale' : Bytes} {bpm bpm' : Int} {bars bars' : Nat}
    (hbpm : 40 ≤ bpm ∧ bpm ≤ 300) (hbpm' : 40 ≤ bpm' ∧ bpm' ≤ 300) (hbars : bars ≤ 100000)
    (hbars' : bars' ≤ 100000) :
    render wire (compose std ⟨key, scale, bpm, bars, seed, none⟩).val
        = render wire (compose std ⟨key', scale', bpm', bars', seed, none⟩).val ↔
      bpm = bpm' ∧ bars = bars' ∧ keySharps key = keySharps key' ∧
        (MinorMode scale ↔ MinorMode scale') := by
  -- The files split into tempo track and instrument tracks, and these do not see the key.
  rw [val_compose, val_compose, render_eq_iff (by rfl) (by simp [legacyTracks]),
    tempoEvents_eq_iff (by rfl) (by rfl)]
  constructor
  · rintro ⟨⟨htempo, hkey⟩, htracks⟩
    exact ⟨tempoEvent_injective hbpm hbpm' htempo,
      bars_eq_of_tracks (generateEvents_valid std [] [] (by omega) seed).2
        (generateEvents_valid std [] [] (by omega) seed).2 hbars hbars' htracks,
      keySignatureEvent_eq_iff.mp hkey⟩
  · rintro ⟨rfl, rfl, hkey⟩
    exact ⟨⟨rfl, keySignatureEvent_eq_iff.mpr hkey⟩, rfl⟩

end AiMidi.Proofs.MteCli
