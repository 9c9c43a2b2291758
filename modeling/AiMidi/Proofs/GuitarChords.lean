import AiMidi.Lib.Tables
import AiMidi.Theory.GuitarEngine

/-!
# `AiMidi.Proofs.GuitarChords`: which notes a guitar part sounds

The three builders put the root of every chord at a fixed distance from its pitch class. The
low E string is MIDI note 40, and `buildGuitarVoicing` places the root at `40 + root_pc`, so
all its notes are four semitones away from the chord. The power chords are off by the same
four, and the funk voicings by seven.

`Sounds` says which notes a bar emits: all notes of its voicing and no others, in every style
and for every draw. So whether a part plays the chords it is given is a question about the
voicings alone. Four semitones map the augmented triad onto itself, and no other chord:
`plays_iff`.

The voicings are computed by loops over offsets. `mem_buildGuitarVoicing`, `buildPowerVoicing_eq`
and `mem_buildFunkVoicing` say which notes come out of them for a root that is a pitch class, and
every parsed root is one. `generateBars_sounds` carries what a bar sounds to the whole part.
-/

set_option autoImplicit false

namespace AiMidi.Proofs.GuitarChords

open AiMidi.Lib AiMidi.Lib.Seeded AiMidi.Theory AiMidi.Theory.GuitarEngine

/-! ### The property

A part is to play the tones of its chords, in the range of the instrument. The property says nothing
about rhythm, velocity or the order of the strings. -/

/-- The note has the pitch class of a chord tone and lies in the range of the guitar. -/
structure InChord (rootPc : Int) (offsets : List Int) (note : UInt8) : Prop where
  pitch_class : ∃ o ∈ offsets, (note.toNat : Int) % 12 = (rootPc + o) % 12
  range : 40 ≤ note.toNat ∧ note.toNat ≤ 84

/-- Every note emitted for a bar is in the chord of that bar. -/
def PlaysProgression (offsets : ParsedChord → List Int) (progression : List Bytes)
    (out : List (Nat × MidiEvent)) : Prop :=
  ∀ p ∈ out, InChord (chordOf progression p.1).rootPc (offsets (chordOf progression p.1)) p.2.note

/-- The chord tones of the symbol. -/
def chordTones (chord : ParsedChord) : List Int := GuitarEngine.offsetsFor chord.quality

/-- Root and fifth. -/
def powerTones (_ : ParsedChord) : List Int := [0, 7]

/-- The tones a style is to play. -/
def styleTones (style : GuitarStyle) : ParsedChord → List Int :=
  if style = .powerChord then powerTones else chordTones

/-! ### Parsed chords

The parser gives a row of the table of qualities and a root that is a pitch class. Both are finite,
so the facts about shifts are decided on the rows. -/

/-- The roots of the table are pitch classes. -/
theorem keyTable_range (root : Bytes) :
    0 ≤ (keyTable.lookup root).getD 0 ∧ (keyTable.lookup root).getD 0 < 12 := by
  have htable : ∀ p ∈ keyTable, 0 ≤ p.2 ∧ p.2 < 12 := by decide
  exact getD_lookup (P := fun pc => 0 ≤ pc ∧ pc < 12) htable (by decide) root

/-- A parsed root is a pitch class. -/
theorem parseChord_rootPc (sym : Bytes) :
    0 ≤ (parseChord sym).rootPc ∧ (parseChord sym).rootPc < 12 := by
  unfold parseChord
  split
  · decide
  · exact keyTable_range _
  · split
    · exact keyTable_range _
    · exact keyTable_range _

/-- The tones of a chord are those of a row of the table. -/
theorem chordTones_mem (chord : ParsedChord) :
    ∃ q, (q, chordTones chord) ∈ qualityOffsets ∧
      (chord.quality = bytes "aug" ↔ q = bytes "aug") := by
  unfold chordTones GuitarEngine.offsetsFor
  cases h : qualityOffsets.lookup chord.quality with
  | none =>
    refine ⟨bytes "maj", by decide, fun heq => ?_, fun heq => absurd heq (by decide)⟩
    rw [heq] at h
    exact absurd h (by decide)
  | some offs =>
    exact ⟨chord.quality, mem_of_lookup h, Iff.rfl⟩

/-- Chord tones lie within an octave of the root. -/
theorem chordTones_range (chord : ParsedChord) : ∀ o ∈ chordTones chord, 0 ≤ o ∧ o < 12 := by
  have htable : ∀ p ∈ qualityOffsets, ∀ o ∈ p.2, 0 ≤ o ∧ o < 12 := by decide
  obtain ⟨q, hmem, -⟩ := chordTones_mem chord
  exact htable _ hmem

/-- Every chord has tones. -/
theorem chordTones_ne_nil (chord : ParsedChord) : chordTones chord ≠ [] := by
  have htable : ∀ p ∈ qualityOffsets, p.2 ≠ [] := by decide
  obtain ⟨q, hmem, -⟩ := chordTones_mem chord
  exact htable _ hmem

/-- Only the augmented triad is invariant under a shift by four semitones. -/
theorem shift_four_iff (chord : ParsedChord) :
    (∀ o ∈ chordTones chord, ∃ o' ∈ chordTones chord, (4 + o - o') % 12 = 0) ↔
      chord.quality = bytes "aug" := by
  have htable : ∀ p ∈ qualityOffsets,
      (∀ o ∈ p.2, ∃ o' ∈ p.2, (4 + o - o') % 12 = 0) ↔ p.1 = bytes "aug" := by decide
  obtain ⟨q, hmem, haug⟩ := chordTones_mem chord
  rw [haug]
  exact htable _ hmem

/-- No chord of the table is invariant under a shift by seven semitones. -/
theorem shift_seven (chord : ParsedChord) :
    ¬ ∀ o ∈ chordTones chord, ∃ o' ∈ chordTones chord, (7 + o - o') % 12 = 0 := by
  have htable : ∀ p ∈ qualityOffsets,
      ¬ ∀ o ∈ p.2, ∃ o' ∈ p.2, (7 + o - o') % 12 = 0 := by decide
  obtain ⟨q, hmem, -⟩ := chordTones_mem chord
  exact htable _ hmem

/-! ### Voicings

The loops drop and lift octaves to stay on the neck. For a root that is a pitch class most of these
branches are not taken, and each voicing comes down to its offsets above one fixed note. -/

/-- With a low root no octave is dropped. -/
theorem dropOctaves_low {base off : Int} (h : base + off ≤ 84) : dropOctaves base off 0 = 0 := by
  rw [dropOctaves, if_neg]
  rintro ⟨hgt, -⟩
  rw [kGuitarHigh] at hgt
  omega

/-- A note of the guitar is not lifted. -/
theorem liftNote_in {n : Int} (h : 40 ≤ n) : liftNote n = n := by
  rw [liftNote, if_neg]
  rw [kGuitarLow]
  omega

/-- Nor is the next one lowered when it fits. -/
theorem lowerForNext_low {next : Int} (h : next ≤ 84) : lowerForNext next 0 = 0 := by
  rw [lowerForNext, if_neg]
  rintro ⟨hgt, -⟩
  rw [kGuitarHigh] at hgt
  omega

/-- A note is added once. -/
theorem mem_addNote {notes : List Int} {n m : Int} :
    m ∈ addNote notes true n ↔ m ∈ notes ∨ m = n := by
  rw [addNote, Bool.true_and]
  cases hmem : notes.contains n with
  | false => rw [if_pos (by decide), List.mem_append, List.mem_singleton]
  | true =>
    rw [if_neg (by decide)]
    refine ⟨Or.inl, fun h => h.elim id fun heq => ?_⟩
    rw [heq]
    exact List.contains_iff_mem.mp hmem

/-- The loop over the offsets places every one of them above the base. -/
theorem mem_placeNotes (base : Int) (h0 : 40 ≤ base) (h1 : base ≤ 51) {offsets : List Int}
    (hoff : ∀ o ∈ offsets, 0 ≤ o ∧ o < 12) (notes : List Int) (m : Int) :
    m ∈ placeNotes base 0 notes offsets ↔ m ∈ notes ∨ ∃ o ∈ offsets, m = base + o := by
  induction offsets generalizing notes with
  | nil => simp [placeNotes]
  | cons off offsets ih =>
    have hrange := hoff off List.mem_cons_self
    have hrest : ∀ o ∈ offsets, 0 ≤ o ∧ o < 12 := fun o ho => hoff o (List.mem_cons_of_mem off ho)
    -- Low offsets stay within the neck, so neither the octave nor the note is moved.
    have hnote : liftNote (base + off + 0 * 12) = base + off := by
      rw [Int.zero_mul, Int.add_zero, liftNote_in (by omega)]
    have hin : inGuitarRange (base + off) = true := by
      rw [inGuitarRange, kGuitarLow, kGuitarHigh, Bool.and_eq_true, decide_eq_true_iff,
        decide_eq_true_iff]
      omega
    have hoctave : keepOctave base 0 offsets = 0 := by
      cases offsets with
      | nil => rfl
      | cons next _ =>
        have hnext := hrest next List.mem_cons_self
        exact lowerForNext_low (by omega)
    rw [placeNotes]
    simp only [dropOctaves_low (show base + off ≤ 84 by omega), hnote, hin]
    rw [hoctave, ih hrest, mem_addNote]
    simp only [List.mem_cons, exists_eq_or_imp, or_assoc]

/-- A root of a parsed chord is not changed by `% 12`. -/
theorem tmod_rootPc {chord : ParsedChord} (h : 0 ≤ chord.rootPc ∧ chord.rootPc < 12) :
    Int.tmod chord.rootPc 12 = chord.rootPc :=
  Int.tmod_eq_of_lt h.1 h.2

/-- The voicing has the chord tones above note `40 + root_pc`. -/
theorem mem_buildGuitarVoicing {chord : ParsedChord} (h : 0 ≤ chord.rootPc ∧ chord.rootPc < 12)
    (m : Int) :
    m ∈ buildGuitarVoicing chord ↔ ∃ o ∈ chordTones chord, m = 40 + chord.rootPc + o := by
  have hmem := mem_placeNotes (40 + chord.rootPc) (by omega) (by omega)
    (chordTones_range chord) []
  have hne : placeNotes (40 + chord.rootPc) 0 [] (chordTones chord) ≠ [] := by
    obtain ⟨o, ho⟩ := List.exists_mem_of_ne_nil _ (chordTones_ne_nil chord)
    exact List.ne_nil_of_mem ((hmem _).mpr (.inr ⟨o, ho, rfl⟩))
  rw [buildGuitarVoicing]
  simp only [kGuitarLow, tmod_rootPc h]
  rw [show GuitarEngine.offsetsFor chord.quality = chordTones chord from rfl,
    if_neg (chordTones_ne_nil chord), if_neg hne, List.mem_insertionSort, hmem]
  simp only [List.not_mem_nil, false_or]

/-- The root of a power chord: between A2 and F#3, at note `40 + root_pc` or an octave above. -/
def powerRoot (rootPc : Int) : Int := if rootPc ≤ 5 then 52 + rootPc else 40 + rootPc

/-- A power chord is its root and the fifth above. -/
theorem buildPowerVoicing_eq {chord : ParsedChord} (h : 0 ≤ chord.rootPc ∧ chord.rootPc < 12) :
    buildPowerVoicing chord = [powerRoot chord.rootPc, powerRoot chord.rootPc + 7] := by
  have hin : ∀ n : Int, 40 ≤ n → n ≤ 84 → inGuitarRange n = true := by
    intro n h0 h1
    rw [inGuitarRange, kGuitarLow, kGuitarHigh, Bool.and_eq_true, decide_eq_true_iff,
      decide_eq_true_iff]
    exact ⟨h0, h1⟩
  unfold buildPowerVoicing powerRoot
  rw [tmod_rootPc h]
  -- The root lies in the lower or the upper half octave, and neither note is moved again.
  by_cases hlow : chord.rootPc ≤ 5
  · simp only [if_pos hlow, if_neg (show ¬ 40 + chord.rootPc + 12 > 57 by omega),
      if_neg (show ¬ 40 + chord.rootPc + 12 < 40 by omega),
      if_neg (show ¬ 40 + chord.rootPc + 12 + 7 > 64 by omega),
      hin (40 + chord.rootPc + 12) (by omega) (by omega),
      hin (40 + chord.rootPc + 12 + 7) (by omega) (by omega)]
    rw [show 40 + chord.rootPc + 12 = 52 + chord.rootPc by omega]
    rfl
  · simp only [if_neg hlow, if_pos (show 40 + chord.rootPc + 12 > 57 by omega),
      if_neg (show ¬ 40 + chord.rootPc + 12 - 12 < 40 by omega),
      if_neg (show ¬ 40 + chord.rootPc + 12 - 12 + 7 > 64 by omega),
      hin (40 + chord.rootPc + 12 - 12) (by omega) (by omega),
      hin (40 + chord.rootPc + 12 - 12 + 7) (by omega) (by omega)]
    rw [show 40 + chord.rootPc + 12 - 12 = 40 + chord.rootPc by omega]
    rfl

/-- The loop of the funk voicing. -/
theorem mem_foldl_funk (base : Int) (h0 : 55 ≤ base) (h1 : base ≤ 66) {offsets : List Int}
    (hoff : ∀ o ∈ offsets, 0 ≤ o ∧ o < 12) (notes : List Int) (m : Int) :
    m ∈ offsets.foldl (fun notes off =>
      let n := if base + off > 84 then base + off - 12 else base + off
      addNote notes (n ≥ 52 && n ≤ 84) n) notes ↔ m ∈ notes ∨ ∃ o ∈ offsets, m = base + o := by
  induction offsets generalizing notes with
  | nil => simp
  | cons off offsets ih =>
    have hrange := hoff off List.mem_cons_self
    have hkeep : (decide (base + off ≥ 52) && decide (base + off ≤ 84)) = true := by
      rw [Bool.and_eq_true, decide_eq_true_iff, decide_eq_true_iff]
      omega
    rw [List.foldl_cons, ih fun o ho => hoff o (List.mem_cons_of_mem off ho)]
    simp only [if_neg (show ¬ base + off > 84 by omega), hkeep, mem_addNote, List.mem_cons,
      exists_eq_or_imp, or_assoc]

/-- The funk voicing has the chord tones above note `55 + root_pc`. -/
theorem mem_buildFunkVoicing {chord : ParsedChord} (h : 0 ≤ chord.rootPc ∧ chord.rootPc < 12)
    (m : Int) :
    m ∈ buildFunkVoicing chord ↔ ∃ o ∈ chordTones chord, m = 55 + chord.rootPc + o := by
  have hmem := mem_foldl_funk (55 + chord.rootPc) (by omega) (by omega)
    (chordTones_range chord) []
  obtain ⟨o, ho⟩ := List.exists_mem_of_ne_nil _ (chordTones_ne_nil chord)
  have hne := List.ne_nil_of_mem ((hmem _).mpr (.inr ⟨o, ho, rfl⟩))
  unfold buildFunkVoicing
  simp only [tmod_rootPc h, show GuitarEngine.offsetsFor chord.quality = chordTones chord from rfl,
    if_neg (chordTones_ne_nil chord), if_neg (show ¬ 55 + chord.rootPc > 72 by omega),
    if_neg (show ¬ 55 + chord.rootPc < 52 by omega)]
  rw [if_neg hne, List.mem_insertionSort, hmem]
  simp only [List.not_mem_nil, false_or]

/-! ### Bars

Every style plays all notes of its voicing in a bar and no others, so what a bar sounds does not
depend on the draws. -/

/-- The notes of the events are the given ones. -/
def Sounds (out : List MidiEvent) (notes : List Int) : Prop :=
  ∀ x : UInt8, (∃ e ∈ out, e.note = x) ↔ ∃ n ∈ notes, u8cast n = x

/-- No notes sound no tones. -/
theorem sounds_nil : Sounds [] [] := fun x => by simp

/-- One event. -/
theorem exists_makeNote {on off : UInt32} {n : Int} {vel x : UInt8} :
    (∃ e ∈ [makeNote on off n vel], e.note = x) ↔ u8cast n = x := by
  simp [makeNote]

/-- A loop that plays all the notes in each of its rounds. -/
theorem sounds_of_rounds {ι : Type} {rounds : List ι} (hne : rounds ≠ []) {out : List MidiEvent}
    {notes : List Int}
    (h : ∀ x : UInt8, (∃ e ∈ out, e.note = x) ↔ ∃ _i ∈ rounds, ∃ n ∈ notes, u8cast n = x) :
    Sounds out notes := by
  intro x
  obtain ⟨i, hi⟩ := List.exists_mem_of_ne_nil rounds hne
  rw [h x]
  exact ⟨fun ⟨_, _, hx⟩ => hx, fun hx => ⟨i, hi, hx⟩⟩

/-- Pairing with an index changes nothing in what is sounded. -/
theorem exists_mem_zipIdx {α : Type} {l : List α} {P : α → Prop} :
    (∃ p ∈ l.zipIdx, P p.1) ↔ ∃ a ∈ l, P a := by
  constructor
  · rintro ⟨p, hp, h⟩
    exact ⟨p.1, List.fst_mem_of_mem_zipIdx hp, h⟩
  · rintro ⟨a, ha, h⟩
    rw [← List.zipIdx_map_fst 0 l] at ha
    obtain ⟨p, hp, rfl⟩ := List.mem_map.mp ha
    exact ⟨p, hp, h⟩

/-- A strummed bar sounds its voicing. -/
theorem strumBar_sounds (chord : ParsedChord) (barStart : UInt32) :
    Yields (strumBar chord barStart) (Sounds · (buildGuitarVoicing chord)) := by
  rw [strumBar]
  -- A voicing without notes sounds nothing.
  by_cases hnil : buildGuitarVoicing chord = []
  · rw [if_pos hnil, hnil]
    exact yields_pure sounds_nil
  · rw [if_neg hnil]
    -- Each beat plays all notes of the voicing, and the pairing with an index does not change them.
    refine (yields_forEach (f := MidiEvent.note)
      (R := fun _ x => ∃ n ∈ buildGuitarVoicing chord, u8cast n = x) fun beat _ => ?_).mono
      fun out hout => sounds_of_rounds (by decide) hout
    refine yields_bind_any fun beatTick => yields_bind_any fun accent =>
      yields_bind_any fun spread => ?_
    refine (yields_forEach (f := MidiEvent.note) (R := fun p x => u8cast p.1 = x)
      fun p _ => ?_).mono fun out hout x =>
        (hout x).trans (exists_mem_zipIdx (P := fun n => u8cast n = x))
    exact yields_bind_any fun onTick => yields_bind_any fun off => yields_bind_any fun offTick =>
      yields_bind_any fun k => yields_pure fun x => exists_makeNote

/-- An arpeggio goes through all the notes. -/
theorem mem_arpeggioOrder (pattern : Nat) {size : Nat} (hsize : 0 < size) (j : Nat) :
    j ∈ arpeggioOrder pattern size ↔ j < size := by
  unfold arpeggioOrder
  split
  · exact List.mem_range
  · rw [List.range_eq_range', List.drop_range']
    simp only [List.mem_append, List.mem_singleton, List.mem_ite_nil_right, List.mem_range'_1]
    omega
  · rw [List.mem_reverse, List.mem_range]

/-- An arpeggio sounds its voicing. -/
theorem arpeggioBar_sounds (chord : ParsedChord) (barStart : UInt32) :
    Yields (arpeggioBar chord barStart) (Sounds · (buildGuitarVoicing chord)) := by
  rw [arpeggioBar]
  by_cases hnil : buildGuitarVoicing chord = []
  · rw [if_pos hnil, hnil]
    exact yields_pure sounds_nil
  · rw [if_neg hnil]
    have hsize : 0 < (buildGuitarVoicing chord).length := List.length_pos_of_ne_nil hnil
    refine yields_bind_any fun pattern => ?_
    refine (yields_forEach (f := MidiEvent.note)
      (R := fun p x => u8cast ((buildGuitarVoicing chord).getD p.1 0) = x) fun p _ => ?_).mono
      fun out hout x => ?_
    · exact yields_bind_any fun onTick => yields_bind_any fun off => yields_bind_any fun offTick =>
        yields_bind_any fun k => yields_pure fun x => exists_makeNote
    · rw [hout x,
        exists_mem_zipIdx (P := fun j => u8cast ((buildGuitarVoicing chord).getD j 0) = x)]
      -- Every order of the arpeggio goes through all strings.
      constructor
      · rintro ⟨j, hj, hx⟩
        have hlt := (mem_arpeggioOrder pattern hsize j).mp hj
        rw [List.getD_eq_getElem?_getD, List.getElem?_eq_getElem hlt, Option.getD_some] at hx
        exact ⟨_, List.getElem_mem hlt, hx⟩
      · rintro ⟨n, hn, hx⟩
        obtain ⟨j, hlt, rfl⟩ := List.mem_iff_getElem.mp hn
        refine ⟨j, (mem_arpeggioOrder pattern hsize j).mpr hlt, ?_⟩
        rwa [List.getD_eq_getElem?_getD, List.getElem?_eq_getElem hlt, Option.getD_some]

/-- A bar of power chords sounds root and fifth. -/
theorem powerBar_sounds (chord : ParsedChord) (barStart : UInt32) :
    Yields (powerBar chord barStart) (Sounds · (buildPowerVoicing chord)) := by
  have hlen : ¬ (buildPowerVoicing chord).length < 2 := by simp [buildPowerVoicing]
  rw [powerBar, if_neg hlen]
  refine yields_bind_any fun palmMute => ?_
  refine (yields_forEach (f := MidiEvent.note)
    (R := fun _ x => ∃ n ∈ buildPowerVoicing chord, u8cast n = x) fun beat _ => ?_).mono
    fun out hout => sounds_of_rounds (by decide) hout
  refine yields_bind_any fun beatTick => yields_bind_any fun k => ?_
  exact yields_forEach (f := MidiEvent.note) (R := fun n x => u8cast n = x) fun n _ =>
    yields_bind_any fun offTick => yields_pure fun x => exists_makeNote

/-- The slot has a chop, given the draw of the bar. -/
def Chops (r : UInt64) (slot : Nat) : Prop :=
  slot % 2 = 1 ∧ Int.tmod (i32cast (slot + i32cast r.toNat)) 3 ≠ 0

/-- Every draw leaves a chop on one of the slots 1, 3 and 5: at most one of two neighbours is a
multiple of three. -/
theorem exists_chops (r : UInt64) : ∃ slot ∈ List.range 16, Chops r slot := by
  have hrange := i32cast_range r.toNat
  unfold Chops
  generalize i32cast r.toNat = z at hrange
  have hne : ∀ y : Int, y % 3 ≠ 0 → Int.tmod y 3 ≠ 0 := fun y hy h =>
    hy (Int.emod_eq_zero_of_dvd (Int.dvd_of_tmod_eq_zero h))
  -- `slot + r` overflows between two slots at most, so 1 and 3, or 3 and 5, stay neighbours.
  by_cases h3 : 3 + z < 2 ^ 31
  · have hcast1 : i32cast ((1 : Nat) + z) = 1 + z := i32cast_of_range (by omega) (by omega)
    have hcast3 : i32cast ((3 : Nat) + z) = 3 + z := i32cast_of_range (by omega) (by omega)
    by_cases h : (1 + z) % 3 = 0
    · exact ⟨3, by decide, by decide, by rw [hcast3]; exact hne _ (by omega)⟩
    · exact ⟨1, by decide, by decide, by rw [hcast1]; exact hne _ h⟩
  · have hcast3 : i32cast ((3 : Nat) + z) = 3 + z - 2 ^ 32 := i32cast_of_wrap (by omega) (by omega)
    have hcast5 : i32cast ((5 : Nat) + z) = 5 + z - 2 ^ 32 := i32cast_of_wrap (by omega) (by omega)
    by_cases h : (3 + z - 2 ^ 32) % 3 = 0
    · exact ⟨5, by decide, by decide, by rw [hcast5]; exact hne _ (by omega)⟩
    · exact ⟨3, by decide, by decide, by rw [hcast3]; exact hne _ h⟩

/-- A funk bar sounds its voicing. -/
theorem funkBar_sounds (chord : ParsedChord) (barStart : UInt32) :
    Yields (funkBar chord barStart) (Sounds · (buildFunkVoicing chord)) := by
  rw [funkBar]
  by_cases hnil : buildFunkVoicing chord = []
  · rw [if_pos hnil, hnil]
    exact yields_pure sounds_nil
  · rw [if_neg hnil]
    refine yields_bind_any fun r => ?_
    refine (yields_forEach (f := MidiEvent.note)
      (R := fun slot x => Chops r slot ∧ ∃ n ∈ buildFunkVoicing chord, u8cast n = x)
      fun slot _ => ?_).mono fun out hout x => ?_
    -- Even slots rest, and of the odd ones those that the drawn remainder picks.
    · by_cases heven : slot % 2 = 0
      · rw [if_pos heven]
        exact yields_pure fun x => by simp [Chops, heven]
      · rw [if_neg heven]
        refine yields_bind (P := fun sum => sum = i32cast (slot + i32cast r.toNat))
          (yields_lift (Sanitized.val_i32 _)) fun sum hsum => ?_
        have hodd : slot % 2 = 1 := Nat.mod_two_ne_zero.mp heven
        by_cases hthree : Int.tmod sum 3 = 0
        · rw [if_pos hthree]
          rw [hsum] at hthree
          exact yields_pure fun x => by simp [Chops, hthree]
        · rw [if_neg hthree]
          rw [hsum] at hthree
          refine yields_bind_any fun tick => yields_bind_any fun k => ?_
          refine (yields_forEach (f := MidiEvent.note) (R := fun n x => u8cast n = x) fun n _ =>
            yields_bind_any fun offTick => yields_pure fun x => exists_makeNote).mono
            fun out hout x => ?_
          rw [hout x]
          exact ⟨fun hx => ⟨⟨hodd, hthree⟩, hx⟩, fun hx => hx.2⟩
    -- Some slot is chopped, whatever is drawn.
    · rw [hout x]
      obtain ⟨slot, hslot, hchops⟩ := exists_chops r
      exact ⟨fun ⟨_, _, _, hx⟩ => hx, fun hx => ⟨slot, hslot, hchops, hx⟩⟩

/-! ### Parts

A bar takes its chord from the progression in turn. The property of the part is thus one condition
on each chord of the progression that is reached. -/

variable {progression : List Bytes} {bars : Int}

/-- A part whose bars sound their voicings: a bar of the call has the notes of its chord, and
there are no others. -/
theorem generateBars_sounds {body : ParsedChord → UInt32 → Seeded (List MidiEvent)}
    {notes : ParsedChord → List Int}
    (hbody : ∀ chord barStart, Yields (body chord barStart) (Sounds · (notes chord)))
    (hbars : 1 ≤ bars) (hne : progression ≠ []) (seed : Seed) (y : Nat × UInt8) :
    (∃ p ∈ (generateBars body progression bars seed).val, (p.1, p.2.note) = y) ↔
      ∃ bar ∈ List.range bars.toNat, bar = y.1 ∧
        ∃ n ∈ notes (chordOf progression bar), u8cast n = y.2 := by
  have hguard : ¬ (bars < 1 ∨ progression = []) := by
    rintro (h | h)
    · omega
    · exact hne h
  rw [generateBars, if_neg hguard]
  -- Bar by bar, with the bar kept beside its events.
  refine yields_run (yields_forEach (f := fun p : Nat × MidiEvent => (p.1, p.2.note))
    (R := fun bar y => bar = y.1 ∧ ∃ n ∈ notes (chordOf progression bar), u8cast n = y.2)
    fun bar _ => ?_) seed y
  refine yields_bind_any fun barStart => ?_
  refine yields_bind (hbody _ barStart) fun out hout => yields_pure fun y => ?_
  rw [← hout y.2]
  constructor
  · rintro ⟨p, hp, rfl⟩
    obtain ⟨e, he, rfl⟩ := List.mem_map.mp hp
    exact ⟨rfl, e, he, rfl⟩
  · rintro ⟨hbar, e, he, hnote⟩
    exact ⟨(bar, e), List.mem_map_of_mem he, Prod.ext hbar hnote⟩

/-- A part plays its progression when the voicings of its bars are in their chords. -/
theorem plays_iff_voicings {body : ParsedChord → UInt32 → Seeded (List MidiEvent)}
    {notes tones : ParsedChord → List Int}
    (hbody : ∀ chord barStart, Yields (body chord barStart) (Sounds · (notes chord)))
    (hbars : 1 ≤ bars) (hne : progression ≠ []) (seed : Seed) :
    PlaysProgression tones progression (generateBars body progression bars seed).val ↔
      ∀ bar < bars.toNat, ∀ n ∈ notes (chordOf progression bar),
        InChord (chordOf progression bar).rootPc (tones (chordOf progression bar)) (u8cast n) := by
  have hsounds := generateBars_sounds hbody hbars hne seed
  constructor
  -- A note of a voicing is played in its bar, so it is in the chord of the bar.
  · intro h bar hbar n hn
    obtain ⟨p, hp, heq⟩ := (hsounds (bar, u8cast n)).mpr
      ⟨bar, List.mem_range.mpr hbar, rfl, n, hn, rfl⟩
    obtain ⟨rfl, hnote⟩ : p.1 = bar ∧ p.2.note = u8cast n := Prod.mk.inj heq
    rw [← hnote]
    exact h p hp
  · intro h p hp
    obtain ⟨bar, hbar, rfl, n, hn, hnote⟩ := (hsounds (p.1, p.2.note)).mp ⟨p, hp, rfl⟩
    have hsame : u8cast n = p.2.note := hnote
    rw [← hsame]
    exact h _ (List.mem_range.mp hbar) n hn

/-- A note of a voicing is in the chord when its distance from some chord tone is a number of
octaves. -/
theorem inChord_u8cast_iff {rootPc n : Int} {offsets : List Int} (h0 : 40 ≤ n) (h1 : n ≤ 84) :
    InChord rootPc offsets (u8cast n) ↔ ∃ o ∈ offsets, n % 12 = (rootPc + o) % 12 := by
  have hcast : (u8cast n).toNat = n.toNat := u8cast_toNat (by omega) (by omega)
  have hnote : ((u8cast n).toNat : Int) = n := by rw [hcast, Int.toNat_of_nonneg (by omega)]
  constructor
  · intro h
    rw [← hnote]
    exact h.pitch_class
  · intro h
    exact ⟨by rw [hnote]; exact h, by omega⟩

/-- The guitar voicing is in its chord exactly for the augmented triads. -/
theorem guitarVoicing_inChord_iff {chord : ParsedChord}
    (h : 0 ≤ chord.rootPc ∧ chord.rootPc < 12) :
    (∀ n ∈ buildGuitarVoicing chord, InChord chord.rootPc (chordTones chord) (u8cast n)) ↔
      chord.quality = bytes "aug" := by
  rw [← shift_four_iff]
  -- The voicing lies four semitones above the tones.
  have htone : ∀ o ∈ chordTones chord,
      InChord chord.rootPc (chordTones chord) (u8cast (40 + chord.rootPc + o)) ↔
        ∃ o' ∈ chordTones chord, (4 + o - o') % 12 = 0 := by
    intro o ho
    have hrange := chordTones_range chord o ho
    rw [inChord_u8cast_iff (by omega) (by omega)]
    refine exists_congr fun o' => and_congr_right fun _ => ?_
    omega
  constructor
  · intro hall o ho
    exact (htone o ho).mp (hall _ ((mem_buildGuitarVoicing h _).mpr ⟨o, ho, rfl⟩))
  · intro hshift n hn
    obtain ⟨o, ho, rfl⟩ := (mem_buildGuitarVoicing h n).mp hn
    exact (htone o ho).mpr (hshift o ho)

/-- A power chord is never root and fifth of its symbol. -/
theorem powerVoicing_not_inChord {chord : ParsedChord}
    (h : 0 ≤ chord.rootPc ∧ chord.rootPc < 12) :
    ¬ ∀ n ∈ buildPowerVoicing chord, InChord chord.rootPc (powerTones chord) (u8cast n) := by
  intro hall
  rw [buildPowerVoicing_eq h] at hall
  have hroot := hall _ List.mem_cons_self
  have hrange : 40 ≤ powerRoot chord.rootPc ∧ powerRoot chord.rootPc ≤ 84 ∧
      powerRoot chord.rootPc % 12 = (chord.rootPc + 4) % 12 := by
    unfold powerRoot
    split <;> omega
  obtain ⟨o, ho, hpc⟩ := (inChord_u8cast_iff hrange.1 hrange.2.1).mp hroot
  have htones : o = 0 ∨ o = 7 := by simpa [powerTones] using ho
  omega

/-- A funk voicing is never in its chord. -/
theorem funkVoicing_not_inChord {chord : ParsedChord}
    (h : 0 ≤ chord.rootPc ∧ chord.rootPc < 12) :
    ¬ ∀ n ∈ buildFunkVoicing chord, InChord chord.rootPc (chordTones chord) (u8cast n) := by
  intro hall
  refine shift_seven chord fun o ho => ?_
  have hrange := chordTones_range chord o ho
  have hnote := hall _ ((mem_buildFunkVoicing h _).mpr ⟨o, ho, rfl⟩)
  obtain ⟨o', ho', hpc⟩ := (inChord_u8cast_iff (by omega) (by omega)).mp hnote
  exact ⟨o', ho', by omega⟩

/-- A part whose voicings are never in their chords plays the empty progression only. -/
theorem plays_iff_nil {body : ParsedChord → UInt32 → Seeded (List MidiEvent)}
    {notes tones : ParsedChord → List Int}
    (hbody : ∀ chord barStart, Yields (body chord barStart) (Sounds · (notes chord)))
    (hwrong : ∀ chord : ParsedChord, 0 ≤ chord.rootPc ∧ chord.rootPc < 12 →
      ¬ ∀ n ∈ notes chord, InChord chord.rootPc (tones chord) (u8cast n))
    (hbars : 1 ≤ bars) (seed : Seed) :
    PlaysProgression tones progression (generateBars body progression bars seed).val ↔
      progression = [] := by
  by_cases hnil : progression = []
  · refine iff_of_true (fun p hp => ?_) hnil
    rw [generateBars, if_pos (.inr hnil)] at hp
    exact absurd hp List.not_mem_nil
  · refine iff_of_false (fun h => ?_) hnil
    have hvoicings := (plays_iff_voicings hbody hbars hnil seed).mp h
    exact hwrong _ (parseChord_rootPc _) (hvoicings 0 (by omega))

/-- When guitar parts play the chords they are given, all notes in the range 40 to 84: a
strummed or arpeggiated part when every chord it uses is an augmented triad, power chords and
funk chops when there is nothing to play. -/
theorem plays_iff (hbars : 1 ≤ bars) (seed : Seed) :
    (∀ style, PlaysProgression (styleTones style) progression
        (generateBars (styleBar style) progression bars seed).val ↔
      progression = [] ∨ (style ≠ .powerChord ∧ style ≠ .funkChop ∧
        ∀ bar < bars.toNat, (chordOf progression bar).quality = bytes "aug")) ∧
    (PlaysProgression powerTones progression (generateBars powerBar progression bars seed).val ↔
      progression = []) ∧
    (PlaysProgression chordTones progression (generateBars funkBar progression bars seed).val ↔
      progression = []) := by
  have hpower : PlaysProgression powerTones progression
      (generateBars powerBar progression bars seed).val ↔ progression = [] :=
    plays_iff_nil powerBar_sounds (fun _ => powerVoicing_not_inChord) hbars seed
  have hfunk : PlaysProgression chordTones progression
      (generateBars funkBar progression bars seed).val ↔ progression = [] :=
    plays_iff_nil funkBar_sounds (fun _ => funkVoicing_not_inChord) hbars seed
  have hplain : ∀ body, (∀ chord barStart,
      Yields (body chord barStart) (Sounds · (buildGuitarVoicing chord))) →
      (PlaysProgression chordTones progression (generateBars body progression bars seed).val ↔
        progression = [] ∨
          ∀ bar < bars.toNat, (chordOf progression bar).quality = bytes "aug") := by
    -- The voicing is a major third too high, which only an augmented chord forgives.
    intro body hbody
    by_cases hnil : progression = []
    · refine iff_of_true (fun p hp => ?_) (.inl hnil)
      rw [generateBars, if_pos (.inr hnil)] at hp
      exact absurd hp List.not_mem_nil
    · rw [plays_iff_voicings hbody hbars hnil, or_iff_right hnil]
      exact forall₂_congr fun bar _ => guitarVoicing_inChord_iff (parseChord_rootPc _)
  refine ⟨fun style => ?_, hpower, hfunk⟩
  cases style with
  | powerChord => simpa [styleTones, styleBar] using hpower
  | funkChop => simpa [styleTones, styleBar] using hfunk
  | strumming => simpa [styleTones, styleBar] using hplain _ strumBar_sounds
  | arpeggio => simpa [styleTones, styleBar] using hplain _ arpeggioBar_sounds
  | fingerpicking => simpa [styleTones, styleBar] using hplain _ strumBar_sounds
  | riff => simpa [styleTones, styleBar] using hplain _ strumBar_sounds

/-- Two bars of an augmented triad. -/
theorem plays_iff_caug :
    (∀ style, PlaysProgression (styleTones style) [bytes "Caug"]
        (generateBars (styleBar style) [bytes "Caug"] 2 42).val ↔
      [bytes "Caug"] = [] ∨ (style ≠ .powerChord ∧ style ≠ .funkChop ∧
        ∀ bar < (2 : Int).toNat, (chordOf [bytes "Caug"] bar).quality = bytes "aug")) ∧
    (PlaysProgression powerTones [bytes "Caug"] (generateBars powerBar [bytes "Caug"] 2 42).val ↔
      [bytes "Caug"] = []) ∧
    (PlaysProgression chordTones [bytes "Caug"] (generateBars funkBar [bytes "Caug"] 2 42).val ↔
      [bytes "Caug"] = []) :=
  plays_iff (by decide) 42

/-- One strummed bar of C major: the root sounds as E. -/
theorem not_plays :
    ¬ ∀ (progression : List Bytes) (bars : Int) (seed : Seed) (style : GuitarStyle), 1 ≤ bars →
      PlaysProgression (styleTones style) progression
        (generateBars (styleBar style) progression bars seed).val := by
  intro hall
  have hplays := hall [bytes "C"] 1 42 .strumming (by decide)
  have hvoicings := (plays_iff_voicings strumBar_sounds (by decide) (by decide) 42).mp hplays
  have haug := (guitarVoicing_inChord_iff (parseChord_rootPc _)).mp (hvoicings 0 (by decide))
  exact absurd haug (by decide)

end AiMidi.Proofs.GuitarChords
