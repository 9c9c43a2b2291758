import AiMidi.Proofs.BassPatterns
import AiMidi.Proofs.ChordVoicing
import AiMidi.Proofs.Humanization.EventStages
import AiMidi.Proofs.MteCli.Harmony

/-!
# `AiMidi.Proofs.MteCli.PartNotes`: the parts are played in registers of their own

Of a piece with at least one bar no part is empty, the piano plays from C3 on and the bass below
it (`generateEvents_played`). Neither depends on the ticks, so it also holds of a piece that is
too long for them, where the bounds of `Engines` do not apply.

The registers follow from the note numbers alone: a block chord starts its bass at C3, and the notes
of the bass stay below (`pianoNote_part`, `bassPart_singleton`). The humanization moves ticks and
velocities, so what the engines emit is what is played (`exists_note_humanized`).
-/

set_option autoImplicit false

namespace AiMidi.Proofs.MteCli

open AiMidi.Lib AiMidi.Theory AiMidi.Tools
open AiMidi.Proofs.ChordVoicing

/-- The parts of a piece with at least one bar. -/
structure PlayedParts (parts : Parts) : Prop where
  piano_ne_nil : parts.piano ≠ []
  piano_note : ∀ ev ∈ parts.piano, 48 ≤ ev.note.toNat
  bass_note : ∀ ev ∈ parts.bass, ev.note.toNat < 48
  drums_ne_nil : parts.drums ≠ []

/-! ### Chords

A group of notes gives a chord even when no candidate fits. So the engines have a chord to play in
every bar. -/

/-- A piece of one bar or more has a harmony. -/
theorem harmony_ne_nil (key scale : Bytes) {bars : Int} (h : 1 ≤ bars) (seed : Seed) :
    (HarmonyEngine.generate ⟨key, scale, bars, seed⟩).val ≠ [] := by
  obtain ⟨n, hn⟩ : ∃ n, bars.toNat = n + 1 := ⟨bars.toNat - 1, by omega⟩
  unfold HarmonyEngine.generate
  rw [if_neg (show ¬ bars < 1 by omega), Sanitized.val_bind, ChordEngine.voicing, Seeded.val_run,
    Sanitized.val_forEach, hn, List.range_succ_eq_map, List.flatMap_cons]
  show Seeded.value (Seeded.forEach _ (_ :: _)) _ ≠ []
  rw [Seeded.value_forEach_cons]
  exact List.append_ne_nil_of_left_ne_nil (voiceChord_ne_nil _ _) _

/-- A chord that was read has a root, also when no candidate fits. -/
theorem chordSpecs_root (groups : List (Nat × List MidiEvent)) :
    ∀ cs ∈ (chordSpecs groups).val, RootOk cs := by
  induction groups using chordSpecs.induct with
  | case1 => exact fun cs hcs => absurd hcs List.not_mem_nil
  | case2 tick events =>
    intro cs hcs
    rw [List.mem_singleton.mp hcs]
    exact chordSpec_root _ _ _
  | case3 tick events next events' rest ih =>
    intro cs hcs
    rw [chordSpecs, Sanitized.val_bind, Sanitized.val_bind, Sanitized.val_pure] at hcs
    obtain rfl | hcs := List.mem_cons.mp hcs
    · exact chordSpec_root _ _ _
    · exact ih cs hcs

/-- Each group of notes gives a chord. -/
theorem chordSpecs_ne_nil {groups : List (Nat × List MidiEvent)} (h : groups ≠ []) :
    (chordSpecs groups).val ≠ [] := by
  cases groups with
  | nil => exact absurd rfl h
  | cons group rest =>
    cases rest with
    | nil => exact List.cons_ne_nil _ _
    | cons group' rest => exact List.cons_ne_nil _ _

/-- The detected chords of a harmony. -/
theorem detected_played {harmony : List MidiEvent} (h : harmony ≠ []) :
    (chordSpecs (groupBy (fun ev => ev.tickOn.toNat) harmony)).val ≠ [] ∧
      ∀ cs ∈ (chordSpecs (groupBy (fun ev => ev.tickOn.toNat) harmony)).val, RootOk cs := by
  refine ⟨chordSpecs_ne_nil fun hnil => ?_, chordSpecs_root _⟩
  -- The tick of any note is a key of the map.
  obtain ⟨ev, hev⟩ := List.exists_mem_of_ne_nil _ h
  have hkey : ev.tickOn.toNat ∈
      (groupBy (fun ev : MidiEvent => ev.tickOn.toNat) harmony).map Prod.fst :=
    mem_keys_groupBy.mpr ⟨ev, hev, rfl⟩
  rw [hnil] at hkey
  exact absurd hkey List.not_mem_nil

/-! ### Piano

The treble of a block chord starts an octave above its bass, and nothing is moved below C3. -/

/-- A part from C3 on that is not empty. -/
def PianoPart (events : List MidiEvent) : Prop :=
  events ≠ [] ∧ ∀ ev ∈ events, 48 ≤ ev.note.toNat

/-- More notes from C3 on may follow. -/
theorem PianoPart.append {xs ys : List MidiEvent} (hx : PianoPart xs)
    (hy : ∀ ev ∈ ys, 48 ≤ ev.note.toNat) : PianoPart (xs ++ ys) :=
  ⟨List.append_ne_nil_of_left_ne_nil hx.1 _, fun ev hev =>
    (List.mem_append.mp hev).elim (hx.2 ev) (hy ev)⟩

/-- A note from C3 on, in the register of the piano. -/
theorem pianoNote_part (tickOn tickOff : Sanitized UInt32) {note : Int} (h : 48 ≤ note)
    (h' : note ≤ 108) (velocity : UInt8) :
    PianoPart (PianoEngine.pianoNote tickOn tickOff note velocity).val := by
  have hrange : PianoEngine.inPianoRange note = true := by
    simp [PianoEngine.inPianoRange]
    omega
  rw [PianoEngine.pianoNote, if_pos hrange]
  refine ⟨List.cons_ne_nil _ _, fun ev hev => ?_⟩
  rw [List.mem_singleton.mp hev, u8cast_toNat (by omega) (by omega)]
  omega

/-- A block chord with its bass from C3 and its treble from C4 on. -/
theorem blockChord_part {cs : ChordSpec} (h : RootOk cs) (chordOff : UInt32) :
    Seeded.Yields (PianoEngine.blockChord 48 60 cs chordOff) PianoPart := by
  have hroot := tmod_root h
  obtain ⟨hlow, hhigh⟩ := h
  refine Seeded.yields_bind_any fun lv => ?_
  refine Seeded.yields_bind (Seeded.yields_lift (pianoNote_part _ _ (by omega) (by omega) _))
    fun n0 h0 => ?_
  refine Seeded.yields_bind (Seeded.yields_lift (pianoNote_part _ _ (by omega) (by omega) _))
    fun n1 h1 => ?_
  refine Seeded.yields_bind_any fun rv => ?_
  -- The treble notes lie at the base and above it, by the offsets of the quality.
  have htreble : Seeded.Yields (liftM (PianoEngine.trebleNotes cs 60 (pure cs.startTick)
      (subTick chordOff 10) rv)) fun out => ∀ ev ∈ out, 48 ≤ ev.note.toNat := by
    refine Seeded.yields_lift fun ev hev => ?_
    rw [PianoEngine.trebleNotes, Sanitized.val_forEach] at hev
    obtain ⟨off, hoff, hev⟩ := List.mem_flatMap.mp hev
    obtain ⟨hoff, hoff'⟩ := (offsetsFor_range cs.quality).2 off hoff
    exact (pianoNote_part _ _ (by omega) (by omega) rv).2 ev hev
  refine Seeded.yields_bind htreble fun right hright => ?_
  exact Seeded.yields_pure ((h0.append h1.2).append hright)

/-- For any chords the piano plays something, all of it from C3 on. -/
theorem piano_part (req : ChordRequest) (hne : req.chords ≠ [])
    (hchords : ∀ cs ∈ req.chords, RootOk cs) :
    PianoPart (PianoEngine.generate ⟨req, .blockChords, 3, 4⟩).val := by
  -- Each chord is played with a generator of its own.
  have hchord : ∀ cs ∈ req.chords, ∀ i : Nat, PianoPart (Seeded.run (req.seed ^^^ UInt64.ofNat i)
      (PianoEngine.chordNotes .blockChords (i32cast req.ppq.toNat) 48 60 cs)).val := by
    intro cs hcs i
    exact Seeded.yields_run (Seeded.yields_bind_any fun chordOff => Seeded.yields_bind_any
      fun _ => blockChord_part (hchords cs hcs) chordOff) _
  unfold PianoEngine.generate
  rw [Sanitized.val_forEach]
  constructor
  · obtain ⟨cs, rest, hcons⟩ := List.exists_cons_of_ne_nil hne
    rw [hcons, List.zipIdx_cons, List.flatMap_cons]
    exact List.append_ne_nil_of_left_ne_nil (hchord cs (by simp [hcons]) 0).1 _
  · intro ev hev
    obtain ⟨p, hp, hev⟩ := List.mem_flatMap.mp hev
    exact (hchord p.1 (List.fst_mem_of_mem_zipIdx hp) p.2).2 ev hev

/-! ### Bass

The notes of the bass stay below C3 in every pattern, the walking one included. -/

/-- A part below C3. -/
def BassPart (events : List MidiEvent) : Prop := ∀ ev ∈ events, ev.note.toNat < 48

/-- The bass goes on with the next chord. -/
theorem BassPart.append {xs ys : List MidiEvent} (hx : BassPart xs) (hy : BassPart ys) :
    BassPart (xs ++ ys) := fun ev hev => (List.mem_append.mp hev).elim (hx ev) (hy ev)

/-- A single note of the bass. -/
theorem bassPart_singleton {on off : UInt32} {note : Int} {velocity channel : UInt8}
    (h : BassNote note) :
    BassPart [BassEngine.makeNote on off (u8cast note) velocity channel] := by
  obtain ⟨hlow, hhigh⟩ := h
  intro ev hev
  rw [List.mem_singleton.mp hev]
  show (u8cast note).toNat < 48
  rw [u8cast_toNat hlow (by omega)]
  omega

/-- A note of a pattern is low when its number is, wherever it is played. -/
theorem bassChord_part {cs : ChordSpec} (h : RootOk cs) (ppq : Int) :
    Seeded.Yields (BassEngine.chordNotes ppq cs) BassPart := by
  refine (BassPatterns.chordNotes_eq ppq cs).mono fun out hout ev hev => ?_
  obtain ⟨rootVel, fifthVel, c1, c3, pat, rfl⟩ := hout
  obtain ⟨b, hb, hev⟩ := List.mem_flatMap.mp hev
  have hnote : BassNote b.note := by
    obtain hroot | hfifth | hwalk := BassPatterns.patternBeats_note hb
    · exact hroot ▸ bassNote_root h
    · exact hfifth ▸ bassNote_fifth h
    · obtain ⟨c, hc⟩ := hwalk
      exact hc ▸ bassNote_walking h c
  exact bassPart_singleton hnote ev hev

/-- The bass plays in its register only. -/
theorem bass_part (req : ChordRequest) (hchords : ∀ cs ∈ req.chords, RootOk cs) :
    BassPart (BassEngine.generate req).val := by
  intro ev hev
  unfold BassEngine.generate at hev
  rw [Sanitized.val_forEach] at hev
  obtain ⟨p, hp, hev⟩ := List.mem_flatMap.mp hev
  have hcs := hchords p.1 (List.fst_mem_of_mem_zipIdx hp)
  exact Seeded.yields_run (bassChord_part hcs _) _ ev hev

/-! ### Humanization

The stages change ticks and velocities. A note number is found in the result whenever it was in the
part. -/

/-- Humanization keeps the notes. -/
theorem humanizeEvent_note (params : HumanizationParams) (ev : MidiEvent) :
    Seeded.Yields (HumanizationEngine.humanizeEvent params ev) (·.note = ev.note) := by
  intro rng
  rw [Humanization.value_humanizeEvent]
  exact (Humanization.humanized_sameVoice params ev rng).note

/-- The notes of a part are those it had before the humanization. -/
theorem exists_note_humanized (events : List MidiEvent) (seed : Seed) (note : UInt8) :
    (∃ ev ∈ (HumanizationEngine.apply events (humanParams seed)).val, ev.note = note) ↔
      ∃ ev ∈ events, ev.note = note := by
  have hevent : ∀ ev ∈ events, Seeded.Yields
      (do let ev ← HumanizationEngine.humanizeEvent (humanParams seed) ev; pure [ev])
      fun out => ∀ x, (∃ e ∈ out, e.note = x) ↔ ev.note = x := by
    intro ev _
    refine Seeded.yields_bind (humanizeEvent_note _ ev) fun ev' hev' => Seeded.yields_pure ?_
    intro x
    rw [← hev']
    simp
  exact Seeded.yields_run (Seeded.yields_forEach hevent) seed note

/-! ### Drums -/

/-- The rhythm of a chord is not empty. -/
theorem rhythm_ne_nil (req : ChordRequest) (h : req.chords ≠ []) (seed : Seed) :
    (RhythmEngine.generate req ⟨.eighth, 0, seed⟩ ⟨-1, 1⟩).val ≠ [] := by
  have hchord : ∀ cs, (RhythmEngine.chordPattern req.seed ⟨.eighth, 0, seed⟩ ⟨-1, 1⟩
      RhythmEngine.eighthBarTicksStraight.val cs).val ≠ [] := by
    intro cs
    have hpattern : ∀ barStart, Seeded.Yields (RhythmEngine.fillEighthPattern barStart
        RhythmEngine.eighthBarTicksStraight.val) (· ≠ []) := by
      intro barStart rng
      -- The hi-hat plays on the first position of the grid.
      rw [RhythmEngine.fillEighthPattern, show RhythmEngine.eighthBarTicksStraight.val.zipIdx =
        (0, 0) :: RhythmEngine.eighthBarTicksStraight.val.zipIdx.tail from by decide,
        Seeded.value_forEach_cons]
      exact List.cons_ne_nil _ _
    exact Seeded.yields_run (Seeded.yields_bind (hpattern _) fun out hout =>
      Seeded.yields_pure hout) _
  obtain ⟨cs, rest, hcons⟩ := List.exists_cons_of_ne_nil h
  show (Sanitized.forEach _ _).val ≠ []
  rw [Sanitized.val_forEach, hcons, List.flatMap_cons]
  exact List.append_ne_nil_of_left_ne_nil (hchord cs) _

/-! ### The parts -/

/-- In a piece of one bar or more every part is played. -/
theorem generateEvents_played (std : StdSort drumEventLt) (key scale : Bytes) {bars : Int}
    (h : 1 ≤ bars) (seed : Seed) : PlayedParts (generateEvents std key scale bars seed).val := by
  unfold generateEvents
  simp only [Sanitized.val_bind]
  have hdetected := detected_played (harmony_ne_nil key scale h seed)
  generalize (chordSpecs _).val = chords at hdetected ⊢
  obtain ⟨hne, hroots⟩ := hdetected
  have hpiano := piano_part ⟨chords, seed, u32cast kPpq⟩ hne hroots
  have hbass := bass_part ⟨chords, seed, u32cast kPpq⟩ hroots
  have hrhythm := rhythm_ne_nil ⟨chords, seed, u32cast kPpq⟩ hne seed
  generalize (PianoEngine.generate _).val = piano at hpiano ⊢
  generalize (BassEngine.generate _).val = bass at hbass ⊢
  constructor
  · -- A note of the piano is still there after the humanization.
    obtain ⟨ev, hev⟩ := List.exists_mem_of_ne_nil _ hpiano.1
    obtain ⟨ev', hev', -⟩ := (exists_note_humanized piano seed _).mpr ⟨ev, hev, rfl⟩
    exact List.ne_nil_of_mem hev'
  · intro ev hev
    obtain ⟨ev', hev', hnote⟩ := (exists_note_humanized piano seed _).mp ⟨ev, hev, rfl⟩
    rw [← hnote]
    exact hpiano.2 ev' hev'
  · intro ev hev
    obtain ⟨ev', hev', hnote⟩ := (exists_note_humanized bass seed _).mp ⟨ev, hev, rfl⟩
    rw [← hnote]
    exact hbass ev' hev'
  · obtain ⟨ev, hev⟩ := List.exists_mem_of_ne_nil _ hrhythm
    exact List.ne_nil_of_mem ((std.mem_sort _ ev).mpr (List.mem_append_left _ hev))

end AiMidi.Proofs.MteCli
