import AiMidi.Proofs.ChordVoicing
import AiMidi.Proofs.GuitarChords
import AiMidi.Theory.StringsEngine
import Mathlib.Data.List.Perm.Basic

/-!
# `AiMidi.Proofs.Strings.Pads`: the whole chord in every section

The root of a voicing is at most seventeen semitones above the bottom of its range, and a tone at
most eleven above the root. Each range has room for that once the tones above its top go down an
octave, so no tone is left out (`voiceInRange_perm`). The draws only decide the velocities: which
notes a pad plays, and when, is one equation (`generatePad_played`).

`generatePad_soundsChords` is the result.

The notes are compared by pitch classes. A voicing has one note for each class of its chord
(`voiceInRange_classes`), and the classes of a bar are distinct since its voices have different
channels (`nodup_barClasses`). What a pad sounds is a permutation of these (`generatePad_sounded`).
-/

set_option autoImplicit false

namespace AiMidi.Proofs.Strings

open AiMidi.Lib AiMidi.Lib.Sanitized AiMidi.Lib.Seeded AiMidi.Theory AiMidi.Theory.StringsEngine

/-! ### Voicings

A tone above the top of the range goes down an octave. In a range that is wide enough it is in the
range then, and no two tones meet on one note. -/

/-- A range with room for the root of every chord: the octave from six semitones above its
bottom. -/
structure Wide (range : SectionRange) : Prop where
  min : 0 ≤ range.min
  room : range.min + 17 ≤ range.max
  max : range.max ≤ 127

/-- The range of every section is wide enough for a chord. -/
theorem wide_rangeFor (stringsSection : StringsSection) : Wide (rangeFor stringsSection) := by
  cases stringsSection <;> exact ⟨by decide, by decide, by decide⟩

/-- The pitch classes of a chord. -/
def chordClasses (chord : ParsedChord) : List Int :=
  (StringsEngine.offsetsFor chord.quality).map fun off => (chord.rootPc + off) % 12

section

variable {range : SectionRange} {rootPc : Int}

/-- The note of the root. -/
def rootNote (range : SectionRange) (rootPc : Int) : Int :=
  lowerTo (range.min + 18) (raiseTo (range.min + 6)
    (Int.tdiv range.min 12 * 12 + Int.tmod rootPc 12))

/-- The note of a tone, an octave lower above the top of the range. -/
def place (range : SectionRange) (rootPc off : Int) : Int :=
  let n := if rootNote range rootPc + off < range.min then rootNote range rootPc + off + 12
    else rootNote range rootPc + off
  if n > range.max then n - 12 else n

/-- The root is placed in the octave that starts six semitones above the minimum. -/
theorem rootNote_bounds (hmin : 0 ≤ range.min) (h0 : 0 ≤ rootPc) (h1 : rootPc < 12) :
    range.min + 6 ≤ rootNote range rootPc ∧ rootNote range rootPc < range.min + 18 ∧
      rootNote range rootPc % 12 = rootPc := by
  rw [rootNote, Int.tdiv_eq_ediv_of_nonneg hmin, Int.tmod_eq_of_lt h0 h1]
  obtain ⟨hlow, hup⟩ := raiseTo_bounds (range.min + 6) (range.min / 12 * 12 + rootPc)
  have hmod := raiseTo_emod (range.min + 6) (range.min / 12 * 12 + rootPc)
  -- The second loop has nothing to do.
  rw [lowerTo_of_le (by omega)]
  omega

/-- A chord tone is placed within the range, at its own pitch class. -/
theorem place_spec (hrange : Wide range) (h0 : 0 ≤ rootPc) (h1 : rootPc < 12) {off : Int}
    (hoff : 0 ≤ off ∧ off ≤ 11) : range.min ≤ place range rootPc off ∧
      place range rootPc off ≤ range.max ∧ place range rootPc off % 12 = (rootPc + off) % 12 := by
  obtain ⟨hlow, hhigh, hmod⟩ := rootNote_bounds hrange.min h0 h1
  have hroom := hrange.room
  have hraised : ¬ rootNote range rootPc + off < range.min := by omega
  rw [place, if_neg hraised]
  split <;> omega

/-- The classes of the placed tones. -/
theorem map_place_classes (hrange : Wide range) (h0 : 0 ≤ rootPc) (h1 : rootPc < 12)
    (quality : Bytes) :
    ((StringsEngine.offsetsFor quality).map (place range rootPc)).map (· % 12)
      = chordClasses ⟨rootPc, quality⟩ := by
  rw [chordClasses, List.map_map]
  refine List.map_congr_left fun off hoff => ?_
  exact (place_spec hrange h0 h1 ((ChordVoicing.offsetsFor_range quality).2 off hoff)).2.2

/-- The pitch classes of a chord are listed once each. -/
theorem nodup_chordClasses (chord : ParsedChord) : (chordClasses chord).Nodup := by
  refine (ChordVoicing.offsetsFor_nodup chord.quality).map_on fun off hoff off' hoff' heq => ?_
  obtain ⟨hlow, hhigh⟩ := (ChordVoicing.offsetsFor_range chord.quality).2 off hoff
  obtain ⟨hlow', hhigh'⟩ := (ChordVoicing.offsetsFor_range chord.quality).2 off' hoff'
  omega

/-- The loop places every tone, and keeps what is in the range and new. -/
theorem voiceInRange_eq {quality : Bytes} (hne : StringsEngine.offsetsFor quality ≠ []) :
    voiceInRange rootPc quality range =
      (let notes := pushNew (inRange · range)
        ((StringsEngine.offsetsFor quality).map (place range rootPc))
      if notes = [] then
        [rootNote range rootPc, rootNote range rootPc + 4, rootNote range rootPc + 7].filter
          (inRange · range)
      else notes).insertionSort (· ≤ ·) := by
  rw [voiceInRange, if_neg hne, pushNew, List.foldl_map]
  rfl

/-- A voicing has the note of every tone. -/
theorem voiceInRange_perm (hrange : Wide range) (h0 : 0 ≤ rootPc) (h1 : rootPc < 12)
    (quality : Bytes) : (voiceInRange rootPc quality range).Perm
      ((StringsEngine.offsetsFor quality).map (place range rootPc)) := by
  have hne : StringsEngine.offsetsFor quality ≠ [] := (ChordVoicing.offsetsFor_range quality).1
  have hall : ∀ n ∈ (StringsEngine.offsetsFor quality).map (place range rootPc),
      inRange n range = true := by
    intro n hn
    obtain ⟨off, hoff, rfl⟩ := List.mem_map.mp hn
    obtain ⟨hlow, hhigh, -⟩ :=
      place_spec hrange h0 h1 ((ChordVoicing.offsetsFor_range quality).2 off hoff)
    rw [inRange, Bool.and_eq_true, decide_eq_true_iff, decide_eq_true_iff]
    exact ⟨hlow, hhigh⟩
  -- Different tones have different notes, already by their pitch classes.
  have hnodup : ((StringsEngine.offsetsFor quality).map (place range rootPc)).Nodup := by
    apply List.Nodup.of_map (· % 12)
    rw [map_place_classes hrange h0 h1]
    exact nodup_chordClasses ⟨rootPc, quality⟩
  rw [voiceInRange_eq hne, pushNew_of_nodup hall hnodup]
  dsimp only
  rw [if_neg (by simpa using hne)]
  exact List.perm_insertionSort _ _

/-- Each pitch class of the chord once. -/
theorem voiceInRange_classes (hrange : Wide range) (h0 : 0 ≤ rootPc) (h1 : rootPc < 12)
    (quality : Bytes) : ((voiceInRange rootPc quality range).map (· % 12)).Perm
      (chordClasses ⟨rootPc, quality⟩) := by
  rw [← map_place_classes hrange h0 h1 quality]
  exact (voiceInRange_perm hrange h0 h1 quality).map (· % 12)

/-- The notes of a voicing. -/
theorem mem_voiceInRange (hrange : Wide range) (h0 : 0 ≤ rootPc) (h1 : rootPc < 12)
    {quality : Bytes} {n : Int} (hn : n ∈ voiceInRange rootPc quality range) :
    range.min ≤ n ∧ n ≤ range.max ∧ n % 12 ∈ chordClasses ⟨rootPc, quality⟩ := by
  have hclass := (voiceInRange_classes hrange h0 h1 quality).mem_iff.mp (List.mem_map_of_mem hn)
  rw [(voiceInRange_perm hrange h0 h1 quality).mem_iff] at hn
  obtain ⟨off, hoff, rfl⟩ := List.mem_map.mp hn
  obtain ⟨hlow, hhigh, -⟩ :=
    place_spec hrange h0 h1 ((ChordVoicing.offsetsFor_range quality).2 off hoff)
  exact ⟨hlow, hhigh, hclass⟩

end

/-! ### Events

The events of a bar all begin on its first tick. Sections differ in their range and in their
channel. -/

/-- When, on which channel and which note an event sounds. -/
def played (e : MidiEvent) : Nat × UInt8 × Int := (e.tickOn.toNat, e.channel, e.note.toNat)

/-- What a made note plays is its tick, its channel and its pitch. -/
theorem played_makeNote (tickOn tickOff : UInt32) (velocity channel : UInt8) {n : Int} (h0 : 0 ≤ n)
    (h1 : n < 256) :
    played (makeNote tickOn tickOff (u8cast n) velocity channel) = (tickOn.toNat, channel, n) := by
  have hnote : ((u8cast n).toNat : Int) = n := by
    rw [u8cast_toNat h0 h1]
    omega
  rw [played, makeNote, hnote]

/-- The emitted notes play at the bar's first tick, in order. -/
theorem played_emit (barStart : UInt32) {notes : List Int} (ch vel : UInt8)
    (hnotes : ∀ n ∈ notes, 0 ≤ n ∧ n < 256) :
    (emit barStart notes ch vel).val.map played = notes.map fun n => (barStart.toNat, ch, n) := by
  rw [emit, val_forEach, List.map_flatMap, List.map_eq_flatMap]
  refine List.flatMap_congr fun n hn => ?_
  obtain ⟨h0, h1⟩ := hnotes n hn
  exact congrArg ([·]) (played_makeNote _ _ _ _ h0 h1)

/-- The ranges that play: those of all four sections in the full ensemble. -/
def voices (stringsSection : StringsSection) : List SectionRange :=
  if stringsSection = .fullEnsemble then
    [rangeFor .violin, rangeFor .viola, rangeFor .cello, rangeFor .contrabass]
  else [rangeFor stringsSection]

/-- Each voice of a section has a wide range. -/
theorem wide_of_mem_voices {stringsSection : StringsSection} {range : SectionRange}
    (h : range ∈ voices stringsSection) : Wide range := by
  have hfour : ∀ r ∈ voices stringsSection, ∃ single, r = rangeFor single := by
    rw [voices]
    split
    · simp
    · exact fun r hr => ⟨stringsSection, List.mem_singleton.mp hr⟩
  obtain ⟨single, rfl⟩ := hfour range h
  exact wide_rangeFor single

/-- The voices of a section play on distinct channels. -/
theorem voices_channels (stringsSection : StringsSection) :
    (voices stringsSection).Pairwise fun r r' => r.channel ≠ r'.channel := by
  cases stringsSection <;> decide

/-- What a bar plays that starts at `tick`. -/
def barNotes (stringsSection : StringsSection) (tick : Nat) (chord : ParsedChord) :
    List (Nat × UInt8 × Int) :=
  (voices stringsSection).flatMap fun range =>
    (voiceInRange chord.rootPc chord.quality range).map fun n => (tick, range.channel, n)

section

variable {chord : ParsedChord}

/-- A note of a bar lies in the range of one of the voices and is a chord tone. -/
theorem mem_barNotes (h0 : 0 ≤ chord.rootPc) (h1 : chord.rootPc < 12)
    {stringsSection : StringsSection} {tick : Nat} {p : Nat × UInt8 × Int}
    (h : p ∈ barNotes stringsSection tick chord) : ∃ range ∈ voices stringsSection,
      p.1 = tick ∧ p.2.1 = range.channel ∧ range.min ≤ p.2.2 ∧ p.2.2 ≤ range.max ∧
        p.2.2 % 12 ∈ chordClasses chord := by
  obtain ⟨range, hrange, hnote⟩ := List.mem_flatMap.mp h
  obtain ⟨n, hn, rfl⟩ := List.mem_map.mp hnote
  exact ⟨range, hrange, rfl, rfl, mem_voiceInRange (wide_of_mem_voices hrange) h0 h1 hn⟩

/-- The notes of one section. -/
theorem yields_emit (h0 : 0 ≤ chord.rootPc) (h1 : chord.rootPc < 12) {range : SectionRange}
    (hrange : Wide range) (barStart : UInt32) (ch vel : UInt8) :
    Yields (liftM (emit barStart (voiceInRange chord.rootPc chord.quality range) ch vel))
      fun out => out.map played = (voiceInRange chord.rootPc chord.quality range).map
        fun n => (barStart.toNat, ch, n) := by
  have hmin := hrange.min
  have hmax := hrange.max
  refine yields_lift (played_emit barStart ch vel fun n hn => ?_)
  obtain ⟨hlow, hhigh, -⟩ := mem_voiceInRange hrange h0 h1 hn
  omega

/-- A bar of the ensemble plays the notes of the bar for all four sections. -/
theorem yields_ensembleBar (h0 : 0 ≤ chord.rootPc) (h1 : chord.rootPc < 12) (barStart : UInt32) :
    Yields (ensembleBar chord barStart) fun out =>
      out.map played = barNotes .fullEnsemble barStart.toNat chord := by
  refine yields_bind_any fun vln => yields_bind_any fun vla => yields_bind_any fun cel =>
    yields_bind_any fun cb => ?_
  refine yields_bind (yields_emit h0 h1 (wide_rangeFor .violin) barStart 0 _) fun out0 hvln => ?_
  refine yields_bind (yields_emit h0 h1 (wide_rangeFor .viola) barStart 1 _) fun out1 hvla => ?_
  refine yields_bind (yields_emit h0 h1 (wide_rangeFor .cello) barStart 2 _) fun out2 hcel => ?_
  refine yields_bind (yields_emit h0 h1 (wide_rangeFor .contrabass) barStart 3 _) fun out3 hcb =>
    yields_pure ?_
  rw [List.map_append, List.map_append, List.map_append, hvln, hvla, hcel, hcb]
  simp [barNotes, voices, rangeFor]

/-- A bar of one section plays the notes of the chord in its range. -/
theorem yields_sectionBar (h0 : 0 ≤ chord.rootPc) (h1 : chord.rootPc < 12) {range : SectionRange}
    (hrange : Wide range) (barStart : UInt32) :
    Yields (sectionBar range chord barStart) fun out => out.map played =
      (voiceInRange chord.rootPc chord.quality range).map
        fun n => (barStart.toNat, range.channel, n) := by
  refine yields_bind_any fun base => ?_
  dsimp only
  rw [List.map_eq_flatMap]
  refine yields_forEach_map fun n hn => ?_
  have hmin := hrange.min
  have hmax := hrange.max
  obtain ⟨hlow, hhigh, -⟩ := mem_voiceInRange hrange h0 h1 hn
  refine yields_bind_any fun k => yields_bind_any fun tickOff => yields_pure ?_
  exact congrArg ([·]) (played_makeNote _ _ _ _ (by omega) (by omega))

end

/-! ### Pads

What is played is an equation without draws. What sounds is that list up to the order within a
voicing, with notes replaced by their pitch classes. -/

section

variable {progression : List Bytes} {bars : Int} {stringsSection : StringsSection} {seed : Seed}

/-- A pad plays the voicings of its chords, bar by bar, whatever is drawn. -/
theorem generatePad_played (hprogression : progression ≠ []) (hbars : bars ≤ 2 ^ 20) :
    (generatePad progression bars stringsSection seed).val.map played =
      (List.range bars.toNat).flatMap fun bar =>
        barNotes stringsSection (bar * 1920) (chordOf progression bar) := by
  rw [generatePad]
  split
  case isTrue h =>
    have hnone : bars.toNat = 0 := by
      obtain hlt | hnil := h
      · omega
      · exact absurd hnil hprogression
    rw [hnone]
    rfl
  case isFalse h =>
    refine yields_run (yields_forEach_map fun bar hbar => ?_) seed
    rw [List.mem_range] at hbar
    obtain ⟨h0, h1⟩ := GuitarChords.parseChord_rootPc
      (progression.getD (bar % progression.length) [])
    -- Within the bars the tick of a bar does not wrap.
    have hstart : (u32cast ((u32cast bar).toNat * 1920)).toNat = bar * 1920 := by
      rw [u32cast_natCast, Nat.mod_eq_of_lt (by omega), u32cast_toNat (by omega) (by omega)]
      omega
    refine yields_bind (yields_lift (P := fun barStart => barStart.toNat = bar * 1920) hstart)
      fun barStart hbarStart => ?_
    split
    · rename_i hfull
      rw [hfull, ← hbarStart]
      exact yields_ensembleBar h0 h1 barStart
    · rename_i hsingle
      rw [barNotes, voices, if_neg hsingle, List.flatMap_singleton, ← hbarStart]
      exact yields_sectionBar h0 h1 (wide_rangeFor stringsSection) barStart

/-- When, on which channel and in which pitch class an event sounds. -/
def sounded (e : MidiEvent) : Nat × UInt8 × Int :=
  (e.tickOn.toNat, e.channel, (e.note.toNat : Int) % 12)

/-- In every bar each of the ranges sounds each pitch class of the chord once, in the range and on
its channel, and nothing else sounds. -/
structure SoundsChords (progression : List Bytes) (bars : Int) (stringsSection : StringsSection)
    (out : List MidiEvent) : Prop where
  once : (out.map sounded).Nodup
  complete : ∀ bar < bars.toNat, ∀ range ∈ voices stringsSection,
    ∀ pc ∈ chordClasses (chordOf progression bar), (bar * 1920, range.channel, pc) ∈ out.map sounded
  only : ∀ e ∈ out, ∃ bar < bars.toNat, ∃ range ∈ voices stringsSection,
    e.tickOn.toNat = bar * 1920 ∧ e.channel = range.channel ∧
      range.min ≤ e.note.toNat ∧ e.note.toNat ≤ range.max ∧
      (e.note.toNat : Int) % 12 ∈ chordClasses (chordOf progression bar)

/-- What a bar sounds. -/
def barClasses (stringsSection : StringsSection) (tick : Nat) (chord : ParsedChord) :
    List (Nat × UInt8 × Int) :=
  (voices stringsSection).flatMap fun range =>
    (chordClasses chord).map fun pc => (tick, range.channel, pc)

/-- A bar sounds each pitch class of its chord once in each voice. -/
theorem sounded_barNotes (tick : Nat) {chord : ParsedChord} (h0 : 0 ≤ chord.rootPc)
    (h1 : chord.rootPc < 12) :
    ((barNotes stringsSection tick chord).map fun p => (p.1, p.2.1, p.2.2 % 12)).Perm
      (barClasses stringsSection tick chord) := by
  rw [barNotes, barClasses, List.map_flatMap]
  refine List.Perm.flatMap_left _ fun range hrange => ?_
  have hclasses := (voiceInRange_classes (wide_of_mem_voices hrange) h0 h1 chord.quality).map
    fun pc => (tick, range.channel, pc)
  rw [List.map_map] at hclasses ⊢
  exact hclasses

variable (stringsSection seed) in
/-- What a pad sounds, up to the order within a voicing. -/
theorem generatePad_sounded (hprogression : progression ≠ []) (hbars : bars ≤ 2 ^ 20) :
    ((generatePad progression bars stringsSection seed).val.map sounded).Perm
      ((List.range bars.toNat).flatMap fun bar =>
        barClasses stringsSection (bar * 1920) (chordOf progression bar)) := by
  have hcomp : sounded = (fun p : Nat × UInt8 × Int => (p.1, p.2.1, p.2.2 % 12)) ∘ played := rfl
  rw [hcomp, ← List.map_map, generatePad_played hprogression hbars, List.map_flatMap]
  refine List.Perm.flatMap_left _ fun bar _ => ?_
  obtain ⟨h0, h1⟩ := GuitarChords.parseChord_rootPc (progression.getD (bar % progression.length) [])
  exact sounded_barNotes (bar * 1920) h0 h1

/-- The classes of a bar are the chord tones, on the channel of each voice. -/
theorem mem_barClasses {tick : Nat} {chord : ParsedChord} {p : Nat × UInt8 × Int} :
    p ∈ barClasses stringsSection tick chord ↔ ∃ range ∈ voices stringsSection,
      ∃ pc ∈ chordClasses chord, (tick, range.channel, pc) = p := by
  rw [barClasses, List.mem_flatMap]
  simp only [List.mem_map]

/-- No class of a bar is listed twice. -/
theorem nodup_barClasses (tick : Nat) (chord : ParsedChord) :
    (barClasses stringsSection tick chord).Nodup := by
  rw [barClasses, List.nodup_flatMap]
  constructor
  · intro range _
    refine (nodup_chordClasses chord).map fun pc pc' heq => ?_
    exact congrArg (fun p => p.2.2) heq
  · refine (voices_channels stringsSection).imp fun hchannel p hp hp' => ?_
    obtain ⟨pc, -, rfl⟩ := List.mem_map.mp hp
    obtain ⟨pc', -, heq⟩ := List.mem_map.mp hp'
    exact hchannel (congrArg (fun p => p.2.1) heq).symm

/-- No class is listed twice over all bars. -/
theorem nodup_classes (progression : List Bytes) (bars : Nat) :
    ((List.range bars).flatMap fun bar =>
      barClasses stringsSection (bar * 1920) (chordOf progression bar)).Nodup := by
  rw [List.nodup_flatMap]
  constructor
  · exact fun bar _ => nodup_barClasses _ _
  · refine List.nodup_range.imp fun {bar bar'} hbar p hp hp' => ?_
    obtain ⟨range, -, pc, -, rfl⟩ := mem_barClasses.mp hp
    obtain ⟨range', -, pc', -, heq⟩ := mem_barClasses.mp hp'
    have htick : bar' * 1920 = bar * 1920 := congrArg (fun p => p.1) heq
    omega

end

/-- Every section that plays sounds the complete chord of every bar. -/
theorem generatePad_soundsChords (progression : List Bytes) (bars : Int)
    (stringsSection : StringsSection) (seed : Seed) (hprogression : progression ≠ [])
    (hbars : bars ≤ 2 ^ 20) : SoundsChords progression bars stringsSection
      (generatePad progression bars stringsSection seed).val := by
  have hsounded := generatePad_sounded stringsSection seed hprogression hbars
  refine ⟨?_, ?_, ?_⟩
  · exact hsounded.nodup_iff.mpr (nodup_classes progression bars.toNat)
  · intro bar hbar range hrange pc hpc
    rw [hsounded.mem_iff, List.mem_flatMap]
    exact ⟨bar, List.mem_range.mpr hbar, mem_barClasses.mpr ⟨range, hrange, pc, hpc, rfl⟩⟩
  -- A note of the pad is one of those of its bar.
  · intro e he
    have hmem : played e ∈ (List.range bars.toNat).flatMap fun bar =>
        barNotes stringsSection (bar * 1920) (chordOf progression bar) := by
      rw [← generatePad_played hprogression hbars]
      exact List.mem_map_of_mem he
    obtain ⟨bar, hbar, hnote⟩ := List.mem_flatMap.mp hmem
    obtain ⟨h0, h1⟩ := GuitarChords.parseChord_rootPc
      (progression.getD (bar % progression.length) [])
    obtain ⟨range, hrange, hplays⟩ := mem_barNotes h0 h1 hnote
    exact ⟨bar, List.mem_range.mp hbar, range, hrange, hplays⟩

/-- Two bars of the full ensemble. -/
theorem generatePad_soundsChords_two : SoundsChords [bytes "C", bytes "F#m7b5"] 2 .fullEnsemble
    (generatePad [bytes "C", bytes "F#m7b5"] 2 .fullEnsemble 7).val :=
  generatePad_soundsChords [bytes "C", bytes "F#m7b5"] 2 .fullEnsemble 7 (List.cons_ne_nil _ _)
    (by decide)

end AiMidi.Proofs.Strings
