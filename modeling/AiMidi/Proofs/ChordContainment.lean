import AiMidi.Lib.Tables
import AiMidi.Proofs.BassPatterns
import AiMidi.Proofs.MteCli.Engines
import Mathlib.Data.Nat.ModEq

/-!
# `AiMidi.Proofs.ChordContainment`: which chords hold their accompaniment

Bass, drums and comping play the pattern of a whole 4/4 bar from the first tick of every chord,
however long the chord is. Only block chords and arpeggios look at its duration.

`accompaniment_inside` says from which length on the events of a chord end with it, for every
seed and every root. A bar of bass or comping takes 1910 ticks and a bar of drums 1620, or 1860
when it is a fill, while a quarter note is enough for the two styles that look. The bass leaves
every chord of at most two quarters (`bass_leaves`).

A note is placed by its offsets from the start of the chord, so that a wrap of the ticks does no
harm while the chord itself ends on a tick (`Inside.of_offsets`). Each engine then needs the offsets
of its patterns only. In the other direction one note that begins outside is enough, and
`accompaniment_leaves` shows for each of the three conditions what happens without it.
-/

set_option autoImplicit false

namespace AiMidi.Proofs.ChordContainment

open AiMidi.Lib AiMidi.Theory
open AiMidi.Proofs.BassPatterns
open AiMidi.Proofs.MteCli (safe_addTick safe_subTick hitPos)

/-! ### The property

Ticks are 32 bits wide. A note is inside when its ticks, as numbers, lie within those of its chord,
so a note whose end has wrapped is not. -/

/-- From the tick `on` to the tick `off` within the chord. -/
structure Inside (cs : ChordSpec) (on off : UInt32) : Prop where
  start_le : cs.startTick.toNat ≤ on.toNat
  lt : on.toNat < off.toNat
  le_end : off.toNat ≤ cs.startTick.toNat + cs.durationTicks.toNat

/-- All events are within the chord. -/
def AllInside (cs : ChordSpec) (events : List MidiEvent) : Prop :=
  ∀ ev ∈ events, Inside cs ev.tickOn ev.tickOff

/-- The chord ends on a tick. -/
def EndsOnTick (cs : ChordSpec) : Prop :=
  cs.startTick.toNat + cs.durationTicks.toNat < 2 ^ 32

section

variable {cs : ChordSpec}

/-- No events lie anywhere. -/
theorem AllInside.nil : AllInside cs [] := fun _ h => absurd h List.not_mem_nil

/-- One event lies in the chord when its note does. -/
theorem AllInside.singleton {ev : MidiEvent} (h : Inside cs ev.tickOn ev.tickOff) :
    AllInside cs [ev] := fun _ hev => List.mem_singleton.mp hev ▸ h

/-- Two groups of events in the chord. -/
theorem AllInside.append {xs ys : List MidiEvent} (hx : AllInside cs xs) (hy : AllInside cs ys) :
    AllInside cs (xs ++ ys) := List.forall_mem_append.mpr ⟨hx, hy⟩

/-- And any number of groups. -/
theorem AllInside.flatMap {α : Type} {as : List α} {f : α → List MidiEvent}
    (h : ∀ a ∈ as, AllInside cs (f a)) : AllInside cs (as.flatMap f) := by
  intro ev hev
  obtain ⟨a, ha, hev⟩ := List.mem_flatMap.mp hev
  exact h a ha ev hev

/-- A span of offsets in the chord. -/
theorem Inside.of_offsets {on off : UInt32} {a b : Int}
    (hon : (on.toNat : Int) = cs.startTick.toNat + a)
    (hoff : (off.toNat : Int) = cs.startTick.toNat + b) (hpos : 0 ≤ a) (hlt : a < b)
    (hle : b ≤ cs.durationTicks.toNat) : Inside cs on off :=
  ⟨by omega, by omega, by omega⟩

/-- A later tick that fits is the sum. -/
theorem addTick_toNat (tick : UInt32) (d : Int) (h0 : 0 ≤ d) (h1 : tick.toNat + d < 2 ^ 32) :
    ((addTick tick d).val.toNat : Int) = tick.toNat + d := (safe_addTick h0 h1).2

/-- An earlier tick, modulo `2 ^ 32`. -/
theorem subTick_emod (tick : UInt32) (d : Int) :
    ((subTick tick d).val.toNat : Int) = (tick.toNat - d) % 2 ^ 32 := by
  rw [subTick, Sanitized.val_u32, u32cast_emod, u32cast_emod, Int.sub_emod_emod]

/-! ### Bass

The bass plays four quarters in every pattern. Its last note ends ten ticks short of the bar. -/

/-- A note `beat` quarters into the chord. -/
theorem noteAt_inside (hend : EndsOnTick cs) {beat dur : Int} (hbeat : 0 ≤ beat ∧ beat ≤ 3)
    (hdur : 0 < dur) (hfit : 480 * beat + dur ≤ cs.durationTicks.toNat) (note : Int)
    (vel : UInt8) : AllInside cs (BassEngine.noteAt cs 480 beat dur note vel).val := by
  unfold EndsOnTick at hend
  have hon := addTick_toNat cs.startTick (480 * beat) (by omega) (by omega)
  have hoff := addTick_toNat (addTick cs.startTick (480 * beat)).val dur (by omega) (by omega)
  rw [BassEngine.noteAt, Sanitized.val_bind_i32 (by omega) (by omega), Sanitized.val_bind,
    Sanitized.val_bind, Sanitized.val_pure]
  rw [hon, Int.add_assoc] at hoff
  exact .singleton (.of_offsets hon hoff (by omega) (by omega) hfit)

/-- Four quarters, the last one ten ticks short. -/
theorem bassChord_inside (hend : EndsOnTick cs) (hfit : 1910 ≤ cs.durationTicks.toNat) :
    Seeded.Yields (BassEngine.chordNotes 480 cs) (AllInside cs) := by
  refine (chordNotes_eq 480 cs).mono fun out hout => ?_
  obtain ⟨rootVel, fifthVel, c1, c3, pat, rfl⟩ := hout
  refine .flatMap fun b hb => ?_
  have hbeat := patternBeats_beat hb
  have hroot : i32cast (480 - 10) = 470 := by decide
  have hfifth : i32cast (Int.tdiv 480 2 - 5) = 235 := by decide
  have hdur : b.dur = 470 ∨ b.dur = 235 := by
    rw [← hroot, ← hfifth]
    exact patternBeats_dur hb
  exact noteAt_inside hend hbeat (by omega) (by omega) b.note b.vel

/-! ### Drums

The last hit of a groove decides how much of the chord the drums need. A fill has a hit 1800 ticks
into the chord, and every other groove is over before. -/

/-- The ticks that the groove of the chord with this index takes. Every fourth one is a fill, whose
last hit is a snare at 1800. The other ones end with a ghost note at 1560. -/
def grooveLength (barIdx : Nat) : Nat := if barIdx % 4 = 3 then 1860 else 1620

/-- The fill ends in the fourth beat. -/
theorem fillHits_range : ∀ hit ∈ DrumEngine.fillHits, 0 ≤ hitPos hit ∧ hitPos hit ≤ 1800 := by
  decide

/-- A variation ends before it. -/
theorem variationHits_range (style : DrumStyle) (variation : Nat) :
    ∀ hit ∈ DrumEngine.variationHits style variation, 0 ≤ hitPos hit ∧ hitPos hit ≤ 1560 := by
  -- Variation 3 looks at the style, but not for a position.
  obtain ⟨seed, ghosts, openHh⟩ := style
  match variation with
  | 0 => show ∀ hit ∈ DrumEngine.variationHits ⟨0, false, false⟩ 0, _; decide
  | 1 => show ∀ hit ∈ DrumEngine.variationHits ⟨0, false, false⟩ 1, _; decide
  | 2 => show ∀ hit ∈ DrumEngine.variationHits ⟨0, false, false⟩ 2, _; decide
  | n + 3 =>
    show ∀ hit ∈ DrumEngine.variationHits ⟨0, false, openHh⟩ 3, _
    revert openHh
    decide

/-- A hit with its length lies in the chord when the chord is that long behind its start. -/
theorem makeDrum_inside (hend : EndsOnTick cs) {tick : UInt32} {pos : Int}
    (htick : (tick.toNat : Int) = cs.startTick.toNat + pos) (hpos : 0 ≤ pos)
    (hfit : pos + 60 ≤ cs.durationTicks.toNat) (note vel : UInt8) :
    AllInside cs (DrumEngine.makeDrum tick note vel).val := by
  unfold EndsOnTick at hend
  have hoff := addTick_toNat tick DrumEngine.kNoteDuration (by decide)
    (by rw [DrumEngine.kNoteDuration]; omega)
  rw [DrumEngine.makeDrum, Sanitized.val_bind, Sanitized.val_pure]
  rw [DrumEngine.kNoteDuration, htick, Int.add_assoc] at hoff
  exact .singleton (.of_offsets htick hoff hpos (by omega) hfit)

/-- A hit of a pattern, with its drawn velocity. -/
theorem playHit_inside (hend : EndsOnTick cs) (style : DrumStyle) {hit : DrumEngine.Hit}
    (hpos : 0 ≤ hitPos hit) (hfit : hitPos hit + 60 ≤ cs.durationTicks.toNat) :
    Seeded.Yields (DrumEngine.playHit style cs.startTick hit) (AllInside cs) := by
  have htick : Seeded.Yields (liftM (addTick cs.startTick (hitPos hit))) fun tick =>
      (tick.toNat : Int) = cs.startTick.toNat + hitPos hit := by
    -- The hit ends inside the chord, so its tick is computed without a wrap.
    unfold EndsOnTick at hend
    exact Seeded.yields_lift (addTick_toNat _ _ hpos (by omega))
  cases hit with
  | kick pos vel =>
    exact Seeded.yields_bind htick fun tick ht =>
      Seeded.yields_lift (makeDrum_inside hend ht hpos hfit _ _)
  | hh pos isOpen =>
    exact Seeded.yields_bind htick fun tick ht => Seeded.yields_bind_any fun vel =>
      Seeded.yields_lift (makeDrum_inside hend ht hpos hfit _ _)
  | snare pos vel =>
    exact Seeded.yields_bind htick fun tick ht =>
      Seeded.yields_lift (makeDrum_inside hend ht hpos hfit _ _)
  | ghostSnare pos =>
    -- A ghost note is played or left out by the style and by the coin.
    refine Seeded.yields_bind htick fun tick ht => ?_
    split
    · refine Seeded.yields_bind_any fun coin => ?_
      split
      · exact Seeded.yields_bind_any fun vel =>
          Seeded.yields_lift (makeDrum_inside hend ht hpos hfit _ _)
      · exact Seeded.yields_pure .nil
    · exact Seeded.yields_pure .nil

/-- The groove of a chord that is long enough for it. -/
theorem chordGroove_inside (hend : EndsOnTick cs) {barIdx : Nat}
    (hfit : grooveLength barIdx ≤ cs.durationTicks.toNat) (style : DrumStyle) :
    Seeded.Yields (DrumEngine.chordGroove style cs barIdx) (AllInside cs) := by
  refine Seeded.yields_bind_any fun variation => ?_
  refine Seeded.yields_forEach_forall fun hit hhit => ?_
  unfold grooveLength at hfit
  split at hhit
  next hfill =>
    have hpos := fillHits_range hit hhit
    rw [if_pos hfill] at hfit
    exact playHit_inside hend style hpos.1 (by omega)
  next hfill =>
    have hpos := variationHits_range style variation hit hhit
    rw [if_neg hfill] at hfit
    exact playHit_inside hend style hpos.1 (by omega)

/-! ### Piano

Comping plays on the beats of a bar like the bass. Block chords and arpeggios take the duration of
their chord: a product of the duration and an index is the only thing that may overflow there. -/

/-- A note is within the chord when its ticks are. A note that is not on the piano is left out. -/
theorem pianoNote_inside (on off : Sanitized UInt32) (h : Inside cs on.val off.val) (note : Int)
    (velocity : UInt8) : AllInside cs (PianoEngine.pianoNote on off note velocity).val := by
  unfold PianoEngine.pianoNote
  split
  · exact .singleton h
  · exact .nil

/-- The notes of the treble lie in the chord when their common span does. -/
theorem trebleNotes_inside (on off : Sanitized UInt32) (h : Inside cs on.val off.val)
    (trebleBase : Int) (velocity : UInt8) :
    AllInside cs (PianoEngine.trebleNotes cs trebleBase on off velocity).val := by
  rw [PianoEngine.trebleNotes, Sanitized.val_forEach]
  exact .flatMap fun _ _ => pianoNote_inside on off h _ velocity

/-- The end of the chord, as the engine computes it. -/
theorem chordOff_toNat (hend : EndsOnTick cs) :
    ((u32cast (cs.startTick.toNat + cs.durationTicks.toNat)).toNat : Int) =
      cs.startTick.toNat + cs.durationTicks.toNat := by
  unfold EndsOnTick at hend
  rw [u32cast_emod]
  omega

/-- A block chord ends with its chord. -/
theorem blockChord_inside (hfit : 480 ≤ cs.durationTicks.toNat) (bassBase trebleBase : Int)
    {chordOff : UInt32}
    (hoff : (chordOff.toNat : Int) = cs.startTick.toNat + cs.durationTicks.toNat) :
    Seeded.Yields (PianoEngine.blockChord bassBase trebleBase cs chordOff) (AllInside cs) := by
  have hticks : Inside cs cs.startTick (subTick chordOff 10).val := by
    have hsub := (safe_subTick (show (0 : Int) ≤ 10 by decide)
      (show (10 : Int) ≤ chordOff.toNat by omega)).2
    exact ⟨Nat.le_refl _, by omega, by omega⟩
  refine Seeded.yields_bind_any fun lv => ?_
  refine Seeded.yields_bind (Seeded.yields_lift (pianoNote_inside _ _ hticks _ lv)) fun n0 h0 => ?_
  refine Seeded.yields_bind (Seeded.yields_lift (pianoNote_inside _ _ hticks _ lv)) fun n1 h1 => ?_
  refine Seeded.yields_bind_any fun rv => ?_
  refine Seeded.yields_bind (Seeded.yields_lift (trebleNotes_inside _ _ hticks _ rv))
    fun right hright => ?_
  exact Seeded.yields_pure ((h0.append h1).append hright)

/-- A quarter note on a beat of the bar. -/
theorem quarter_inside (hend : EndsOnTick cs) (hfit : 1910 ≤ cs.durationTicks.toNat) {beat : Int}
    (hbeat : 0 ≤ beat ∧ beat ≤ 3) :
    Inside cs (PianoEngine.beatTick cs 480 beat).val
      (PianoEngine.quarterEnd 480 (PianoEngine.beatTick cs 480 beat).val).val := by
  unfold EndsOnTick at hend
  have hon := addTick_toNat cs.startTick (beat * 480) (by omega) (by omega)
  have hvalue : (PianoEngine.beatTick cs 480 beat).val =
      (addTick cs.startTick (beat * 480)).val := by
    rw [PianoEngine.beatTick, Sanitized.val_bind_i32 (by omega) (by omega)]
  rw [hvalue, PianoEngine.quarterEnd, Sanitized.val_bind]
  generalize (addTick cs.startTick (beat * 480)).val = bt at hon ⊢
  -- The next beat may lie behind the last tick. Ten ticks earlier it does not.
  have hnext := addTick_emod bt 480
  generalize (addTick bt 480).val = next at hnext ⊢
  have hoff := subTick_emod next 10
  exact .of_offsets (a := beat * 480) (b := beat * 480 + 470) hon (by omega) (by omega) (by omega)
    (by omega)

/-- Comping needs the whole bar of its last hit. -/
theorem comping_inside (hend : EndsOnTick cs) (hfit : 1910 ≤ cs.durationTicks.toNat)
    (bassBase trebleBase : Int) :
    Seeded.Yields (PianoEngine.comping 480 bassBase trebleBase cs) (AllInside cs) := by
  -- All notes of comping are quarters on a beat.
  have hquarter : ∀ beat : Int, 0 ≤ beat ∧ beat ≤ 3 →
      Inside cs (pure (PianoEngine.beatTick cs 480 beat).val : Sanitized UInt32).val
        (PianoEngine.quarterEnd 480 (PianoEngine.beatTick cs 480 beat).val).val := by
    intro beat hbeat
    rw [Sanitized.val_pure]
    exact quarter_inside hend hfit hbeat
  refine Seeded.yields_bind_any fun rv => ?_
  refine Seeded.yields_bind (P := AllInside cs) (Seeded.yields_lift ?_) fun right hright => ?_
  · rw [Sanitized.val_forEach]
    refine .flatMap fun beat hbeat => ?_
    rw [Sanitized.val_bind]
    exact trebleNotes_inside _ _ (hquarter beat (by revert beat; decide)) _ rv
  refine Seeded.yields_bind_any fun lv => ?_
  refine Seeded.yields_bind (P := AllInside cs) (Seeded.yields_lift ?_) fun left hleft => ?_
  · rw [Sanitized.val_forEach]
    refine .flatMap fun beat hbeat => ?_
    rw [Sanitized.val_bind]
    exact pianoNote_inside _ _ (hquarter beat (by revert beat; decide)) _ lv
  exact Seeded.yields_pure (hright.append hleft)

/-- A chord type has one to four notes. -/
theorem length_offsetsFor (quality : Bytes) :
    0 < (offsetsFor quality).length ∧ (offsetsFor quality).length ≤ 4 := by
  have htable : ∀ entry ∈ qualityTable, 0 < entry.2.length ∧ entry.2.length ≤ 4 := by decide
  rw [offsetsFor]
  exact getD_lookup (P := fun offsets : List Int => 0 < offsets.length ∧ offsets.length ≤ 4)
    htable (by decide) quality

/-- The products of an arpeggio fit an `int`. -/
def ProductsFit (cs : ChordSpec) : Prop :=
  ((offsetsFor cs.quality).length - 1) * cs.durationTicks.toNat < 2 ^ 31 ∧
    cs.durationTicks.toNat < 2 ^ 31

/-- The slots of an arpeggio do not reach behind the chord. -/
theorem slot_le {j n : Nat} (dur : Nat) (hj : j < n) : j * dur / n + dur / n ≤ dur := by
  have hsum : j * dur / n + dur / n ≤ (j * dur + dur) / n := Nat.div_add_div_le_add_div
  rw [← Nat.succ_mul] at hsum
  have hmono := Nat.div_le_div_right (c := n) (Nat.mul_le_mul_right dur (Nat.succ_le_of_lt hj))
  rw [Nat.mul_div_cancel_left dur (by omega)] at hmono
  omega

/-- A note of an arpeggio lies in its share of the chord. -/
theorem spreadNote_inside (hend : EndsOnTick cs) (hfit : 480 ≤ cs.durationTicks.toNat)
    (hproducts : ProductsFit cs) {j : Nat} (hj : j < (offsetsFor cs.quality).length)
    (trebleBase : Int) (velocity : UInt8) (off : Int) :
    AllInside cs (PianoEngine.spreadNote cs trebleBase cs.durationTicks.toNat
      (offsetsFor cs.quality).length velocity off j).val := by
  obtain ⟨hproduct, hdur⟩ := hproducts
  have hn := (length_offsetsFor cs.quality).2
  generalize (offsetsFor cs.quality).length = n at hproduct hn hj ⊢
  generalize hd : cs.durationTicks.toNat = dur at hproduct hdur hfit ⊢
  have hslot := slot_le dur hj
  have hlength : 120 ≤ dur / n := (Nat.le_div_iff_mul_le (by omega)).mpr (by omega)
  have hscaled : j * dur < 2 ^ 31 :=
    Nat.lt_of_le_of_lt (Nat.mul_le_mul_right dur (Nat.le_sub_one_of_lt hj)) hproduct
  have hquot : Int.tdiv ((j * dur : Nat) : Int) n = (j * dur / n : Nat) := by
    rw [Int.tdiv_eq_ediv_of_nonneg (Int.natCast_nonneg _), Int.natCast_ediv]
  have hquot' : Int.tdiv (dur : Int) n = (dur / n : Nat) := by
    rw [Int.tdiv_eq_ediv_of_nonneg (Int.natCast_nonneg _), Int.natCast_ediv]
  rw [PianoEngine.spreadNote, ← Int.natCast_mul, Sanitized.val_bind_i32 (by omega) (by omega),
    hquot, hquot']
  generalize j * dur / n = slot at hslot ⊢
  generalize dur / n = len at hslot hlength ⊢
  rw [Sanitized.val_bind, Sanitized.val_i32, Sanitized.val_bind, Sanitized.val_i32,
    Sanitized.val_bind, Sanitized.val_i32]
  -- The ticks pass through an `int`, and come back modulo `2 ^ 32`.
  have hchord := i32cast_emod cs.startTick.toNat
  generalize i32cast cs.startTick.toNat = chordOn at hchord ⊢
  have hsum := i32cast_emod (chordOn + slot)
  generalize i32cast (chordOn + slot) = on at hsum ⊢
  have hsum' := i32cast_emod (on + len - 5)
  generalize i32cast (on + len - 5) = end' at hsum' ⊢
  have hon := u32cast_emod on
  have hoff := u32cast_emod end'
  unfold EndsOnTick at hend
  exact pianoNote_inside _ _ (.of_offsets (a := slot) (b := slot + len - 5) (hon.trans (by omega))
    (hoff.trans (by omega)) (by omega) (by omega) (by omega)) _ velocity

/-- An arpeggio takes its chord up, whatever its length. -/
theorem arpeggio_inside (hend : EndsOnTick cs) (hfit : 480 ≤ cs.durationTicks.toNat)
    (hproducts : ProductsFit cs) (bassBase trebleBase : Int) {chordOff : UInt32}
    (hoff : (chordOff.toNat : Int) = cs.startTick.toNat + cs.durationTicks.toNat) :
    Seeded.Yields
      (PianoEngine.arpeggio bassBase trebleBase cs chordOff cs.durationTicks.toNat)
      (AllInside cs) := by
  have hhalf : Int.tdiv (cs.durationTicks.toNat : Int) 2 = cs.durationTicks.toNat / 2 :=
    Int.tdiv_eq_ediv_of_nonneg (by omega)
  have hmid := addTick_emod cs.startTick (cs.durationTicks.toNat / 2)
  have hmidOff := subTick_emod (addTick cs.startTick (cs.durationTicks.toNat / 2)).val 5
  have hlast := subTick_emod chordOff 5
  have hbound := cs.durationTicks.toNat_lt
  unfold PianoEngine.arpeggio
  rw [hhalf]
  -- The left hand plays one note in each half of the chord, the right hand spreads over it.
  refine Seeded.yields_bind_any fun lv => ?_
  refine Seeded.yields_bind (P := AllInside cs)
    (Seeded.yields_lift (pianoNote_inside _ _ ?_ _ lv)) fun n0 h0 => ?_
  · rw [Sanitized.val_pure, Sanitized.val_bind]
    unfold EndsOnTick at hend
    exact ⟨Nat.le_refl _, by omega, by omega⟩
  refine Seeded.yields_bind (P := AllInside cs)
    (Seeded.yields_lift (pianoNote_inside _ _ ?_ _ lv)) fun n1 h1 => ?_
  · unfold EndsOnTick at hend
    exact ⟨by omega, by omega, by omega⟩
  refine Seeded.yields_bind_any fun rv => ?_
  refine Seeded.yields_bind (P := AllInside cs) (Seeded.yields_lift ?_) fun right hright => ?_
  · rw [Sanitized.val_forEach]
    refine .flatMap fun p hp => ?_
    exact spreadNote_inside hend hfit hproducts (List.snd_lt_of_mem_zipIdx hp) _ rv _
  exact Seeded.yields_pure ((h0.append h1).append hright)

/-- What the piano asks of a chord. Block chords and arpeggios follow its duration, comping plays
a bar. -/
def PianoFits : PianoStyle → ChordSpec → Prop
  | .blockChords, cs => 480 ≤ cs.durationTicks.toNat
  | .arpeggio,    cs => 480 ≤ cs.durationTicks.toNat ∧ ProductsFit cs
  | .comping,     cs => 1910 ≤ cs.durationTicks.toNat

/-- What a style plays over a chord lies in it, when the chord fits the style. -/
theorem pianoChord_inside (hend : EndsOnTick cs) {style : PianoStyle} (hfit : PianoFits style cs)
    (bassBase trebleBase : Int) :
    Seeded.Yields (PianoEngine.chordNotes style 480 bassBase trebleBase cs) (AllInside cs) := by
  have hoff := chordOff_toNat hend
  refine Seeded.yields_bind (P := (· = u32cast (cs.startTick.toNat + cs.durationTicks.toNat)))
    (Seeded.yields_lift rfl) fun chordOff heq => ?_
  rw [← heq] at hoff
  -- Only the arpeggio computes with the duration, as an `int`.
  cases style with
  | blockChords => exact Seeded.yields_bind_any fun _ => blockChord_inside hfit _ _ hoff
  | comping => exact Seeded.yields_bind_any fun _ => comping_inside hend hfit _ _
  | arpeggio =>
    obtain ⟨hlong, hproducts⟩ := hfit
    have hint : i32cast cs.durationTicks.toNat = cs.durationTicks.toNat :=
      i32cast_of_range (by omega) (Int.ofNat_lt.mpr hproducts.2)
    refine Seeded.yields_bind (P := (· = (cs.durationTicks.toNat : Int)))
      (Seeded.yields_lift ((Sanitized.val_i32 _).trans hint)) fun chordDur hdur => ?_
    rw [hdur]
    exact arpeggio_inside hend hlong hproducts _ _ hoff

end

/-! ### Requests

An engine seeds its generator for each chord, so the events of a chord do not depend on those in
front of it. This is what takes the lemmas about one chord to a request. -/

/-- The bass line under the chord with an index. -/
def bassEvents (req : ChordRequest) (p : ChordSpec × Nat) : List MidiEvent :=
  (Seeded.run (req.seed ^^^ UInt64.ofNat p.2)
    (BassEngine.chordNotes (i32cast req.ppq.toNat) p.1)).val

/-- The groove of the chord with an index. -/
def drumEvents (style : DrumStyle) (p : ChordSpec × Nat) : List MidiEvent :=
  (Seeded.run (u64cast style.seed ^^^ UInt64.ofNat p.2) (DrumEngine.chordGroove style p.1 p.2)).val

/-- The piano part under the chord with an index. -/
def pianoEvents (req : PianoRequest) (p : ChordSpec × Nat) : List MidiEvent :=
  (Seeded.run (req.chordReq.seed ^^^ UInt64.ofNat p.2)
    (PianoEngine.chordNotes req.style (i32cast req.chordReq.ppq.toNat) ((req.bassOctave + 1) * 12)
      ((req.trebleOctave + 1) * 12) p.1)).val

/-- The bass line is the events of its chords. -/
theorem bass_events (req : ChordRequest) :
    (BassEngine.generate req).val = req.chords.zipIdx.flatMap (bassEvents req) :=
  Sanitized.val_forEach _ _

/-- So are the drums. -/
theorem drum_events (req : ChordRequest) (style : DrumStyle) :
    (DrumEngine.generate req style).val = req.chords.zipIdx.flatMap (drumEvents style) :=
  Sanitized.val_forEach _ _

/-- And so is the piano. -/
theorem piano_events (req : PianoRequest) :
    (PianoEngine.generate req).val = req.chordReq.chords.zipIdx.flatMap (pianoEvents req) :=
  Sanitized.val_forEach _ _

/-- The quarter note of the renderer, as an `int`. -/
theorem quarter_ppq : i32cast (480 : UInt32).toNat = 480 := by decide

/-- The definition, as an equation between functions. With arguments on both sides the kernel would
run the generator to compare them. -/
theorem bassEvents_eq : bassEvents = fun req p =>
    (Seeded.run (req.seed ^^^ UInt64.ofNat p.2)
      (BassEngine.chordNotes (i32cast req.ppq.toNat) p.1)).val := rfl

/-- The bass of a chord of a bar. -/
theorem bassEvents_inside {req : ChordRequest} (hppq : req.ppq = 480) {p : ChordSpec × Nat}
    (hend : EndsOnTick p.1) (hfit : 1910 ≤ p.1.durationTicks.toNat) :
    AllInside p.1 (bassEvents req p) := by
  rw [bassEvents_eq]
  beta_reduce
  rw [hppq, quarter_ppq]
  exact Seeded.yields_run (bassChord_inside hend hfit) _

/-- The drums of a chord as long as their groove. -/
theorem drumEvents_inside (style : DrumStyle) {p : ChordSpec × Nat} (hend : EndsOnTick p.1)
    (hfit : grooveLength p.2 ≤ p.1.durationTicks.toNat) :
    AllInside p.1 (drumEvents style p) := by
  rw [drumEvents]
  exact Seeded.yields_run (chordGroove_inside hend hfit style) _

/-- The piano of a chord that fits its style. -/
theorem pianoEvents_inside {req : PianoRequest} (hppq : req.chordReq.ppq = 480)
    {p : ChordSpec × Nat} (hend : EndsOnTick p.1) (hfit : PianoFits req.style p.1) :
    AllInside p.1 (pianoEvents req p) := by
  rw [pianoEvents, hppq, quarter_ppq]
  exact Seeded.yields_run (pianoChord_inside hend hfit _ _) _

/-- The three engines play the chords one after the other, and what they play for a chord stays
in it when it is as long as their pattern. -/
theorem accompaniment_inside (req : PianoRequest) (drumStyle : DrumStyle)
    (hppq : req.chordReq.ppq = 480) :
    ((BassEngine.generate req.chordReq).val =
        req.chordReq.chords.zipIdx.flatMap (bassEvents req.chordReq) ∧
      (DrumEngine.generate req.chordReq drumStyle).val =
        req.chordReq.chords.zipIdx.flatMap (drumEvents drumStyle) ∧
      (PianoEngine.generate req).val =
        req.chordReq.chords.zipIdx.flatMap (pianoEvents req)) ∧
    ∀ p ∈ req.chordReq.chords.zipIdx, EndsOnTick p.1 →
      (1910 ≤ p.1.durationTicks.toNat → AllInside p.1 (bassEvents req.chordReq p)) ∧
      (grooveLength p.2 ≤ p.1.durationTicks.toNat → AllInside p.1 (drumEvents drumStyle p)) ∧
      (PianoFits req.style p.1 → AllInside p.1 (pianoEvents req p)) := by
  constructor
  · exact ⟨bass_events _, drum_events _ _, piano_events _⟩
  · intro p _ hend
    exact ⟨bassEvents_inside hppq hend, drumEvents_inside drumStyle hend,
      pianoEvents_inside hppq hend⟩

/-- A bar of comping, with the bass and the drums that go with it. -/
theorem accompaniment_inside_bar :
    AllInside ⟨1920, 1920, 9, bytes "min", 0⟩
      (bassEvents ⟨[⟨1920, 1920, 9, bytes "min", 0⟩], 1, 480⟩
        (⟨1920, 1920, 9, bytes "min", 0⟩, 0)) ∧
    AllInside ⟨1920, 1920, 9, bytes "min", 0⟩
      (drumEvents {} (⟨1920, 1920, 9, bytes "min", 0⟩, 0)) ∧
    AllInside ⟨1920, 1920, 9, bytes "min", 0⟩
      (pianoEvents
        { chordReq := ⟨[⟨1920, 1920, 9, bytes "min", 0⟩], 1, 480⟩, style := .comping }
        (⟨1920, 1920, 9, bytes "min", 0⟩, 0)) := by
  obtain ⟨hbass, hdrums, hpiano⟩ := (accompaniment_inside
    { chordReq := ⟨[⟨1920, 1920, 9, bytes "min", 0⟩], 1, 480⟩, style := .comping } {} rfl).2 _
    List.mem_cons_self (show 1920 + 1920 < 2 ^ 32 by decide)
  exact ⟨hbass (by decide), hdrums (by decide), hpiano (show 1910 ≤ 1920 by decide)⟩

/-! ### Chords that do not hold their accompaniment

One event that starts behind its chord is enough. The bass has a note on the third beat for every
draw, so it leaves a short chord whatever the seed is. -/

/-- One of the events starts on a tick. -/
def StartsAt (tick : Int) (events : List MidiEvent) : Prop :=
  ∃ ev ∈ events, (ev.tickOn.toNat : Int) = tick

/-- Events in front keep a start. -/
theorem StartsAt.left {tick : Int} {xs : List MidiEvent} (h : StartsAt tick xs)
    (ys : List MidiEvent) : StartsAt tick (xs ++ ys) := by
  obtain ⟨ev, hev, htick⟩ := h
  exact ⟨ev, List.mem_append_left ys hev, htick⟩

/-- Events behind keep it as well. -/
theorem StartsAt.right {tick : Int} {ys : List MidiEvent} (h : StartsAt tick ys)
    (xs : List MidiEvent) : StartsAt tick (xs ++ ys) := by
  obtain ⟨ev, hev, htick⟩ := h
  exact ⟨ev, List.mem_append_right xs hev, htick⟩

/-- And so does a loop with the start in one of its rounds. -/
theorem StartsAt.flatMap {α : Type} {tick : Int} {as : List α} {f : α → List MidiEvent} {a : α}
    (ha : a ∈ as) (h : StartsAt tick (f a)) : StartsAt tick (as.flatMap f) := by
  obtain ⟨ev, hev, htick⟩ := h
  exact ⟨ev, List.mem_flatMap.mpr ⟨a, ha, hev⟩, htick⟩

/-- A note that begins outside of a chord is not inside. -/
theorem not_allInside {cs : ChordSpec} {tick : Int} {events : List MidiEvent}
    (h : StartsAt tick events)
    (hout : tick < cs.startTick.toNat ∨ cs.startTick.toNat + cs.durationTicks.toNat ≤ tick) :
    ¬ AllInside cs events := by
  intro hall
  obtain ⟨ev, hev, htick⟩ := h
  obtain ⟨hstart, hlt, hle⟩ := hall ev hev
  omega

/-- The third beat of a chord that may be shorter. -/
theorem noteAt_thirdBeat (cs : ChordSpec) (dur note : Int) (vel : UInt8) :
    StartsAt ((cs.startTick.toNat + 960) % 2 ^ 32)
      (BassEngine.noteAt cs 480 2 dur note vel).val := by
  rw [BassEngine.noteAt, Sanitized.val_bind_i32 (by decide) (by decide), Sanitized.val_bind,
    Sanitized.val_bind, Sanitized.val_pure]
  exact ⟨_, List.mem_cons_self, addTick_emod _ _⟩

/-- Every bass pattern has a note on the third beat. -/
theorem bassChord_thirdBeat (cs : ChordSpec) :
    Seeded.Yields (BassEngine.chordNotes 480 cs)
      (StartsAt ((cs.startTick.toNat + 960) % 2 ^ 32)) := by
  refine (chordNotes_eq 480 cs).mono fun out hout => ?_
  obtain ⟨rootVel, fifthVel, c1, c3, pat, rfl⟩ := hout
  obtain ⟨b, hb, hthird⟩ := exists_thirdBeat pat
  refine .flatMap hb ?_
  rw [playBeat, hthird]
  exact noteAt_thirdBeat cs b.dur b.note b.vel

/-- The bass leaves a chord that ends by its third beat, and one whose third beat wraps. -/
theorem bass_leaves {req : ChordRequest} (hppq : req.ppq = 480) (p : ChordSpec × Nat)
    (h : p.1.durationTicks.toNat ≤ 960 ∨ 2 ^ 32 ≤ p.1.startTick.toNat + 960) :
    ¬ AllInside p.1 (bassEvents req p) := by
  have hbound := p.1.startTick.toNat_lt
  rw [bassEvents_eq]
  beta_reduce
  rw [hppq, quarter_ppq]
  exact not_allInside (Seeded.yields_run (bassChord_thirdBeat p.1) _) (by omega)

/-- Chords of at least a quarter, each of them from the end of the one in front. -/
structure Contiguous (req : ChordRequest) : Prop where
  ppq : req.ppq = 480
  chain : req.chords.IsChain fun cs next =>
    cs.startTick.toNat + cs.durationTicks.toNat = next.startTick.toNat
  quarter : ∀ cs ∈ req.chords, 480 ≤ cs.durationTicks.toNat

/-- Two chords of a quarter note. -/
def quarterChords : ChordRequest :=
  ⟨[⟨0, 480, 0, bytes "maj", 0⟩, ⟨480, 480, 7, bytes "maj", 0⟩], 1, 480⟩

/-- A bar whose third beat is behind the last tick. -/
def lastBar : ChordRequest := ⟨[⟨4294966816, 1920, 0, bytes "maj", 0⟩], 1, 480⟩

/-- A chord of `2 ^ 30` ticks. Twice its duration is not an `int`. -/
def longChord : ChordSpec := ⟨0, 1073741824, 0, bytes "maj", 0⟩

/-- The fifth of the arpeggio starts where the wrapped product puts it. -/
theorem longChord_arpeggio (bassBase : Int) :
    Seeded.Yields (PianoEngine.chordNotes .arpeggio 480 bassBase 60 longChord)
      (StartsAt 3579139414) := by
  refine Seeded.yields_bind_any fun chordOff => ?_
  refine Seeded.yields_bind (P := (· = 1073741824)) (Seeded.yields_lift (by decide))
    fun chordDur hdur => ?_
  rw [hdur]
  refine Seeded.yields_bind_any fun lv => ?_
  refine Seeded.yields_bind_any fun n0 => Seeded.yields_bind_any fun n1 => ?_
  refine Seeded.yields_bind_any fun rv => ?_
  refine Seeded.yields_bind (P := StartsAt 3579139414) (Seeded.yields_lift ?_)
    fun right hright => Seeded.yields_pure (hright.right _)
  rw [Sanitized.val_forEach]
  refine .flatMap (show ((7 : Int), 2) ∈ [(0, 0), (4, 1), (7, 2)] by decide) ?_
  exact ⟨⟨3579139414, 3937053350, 0, 67, rv, 0⟩, List.mem_cons_self,
    show ((3579139414 : UInt32).toNat : Int) = 3579139414 by decide⟩

/-- The arpeggio of a chord with overflowing shares leaves it. -/
theorem longChord_leaves {req : PianoRequest} (hppq : req.chordReq.ppq = 480)
    (hstyle : req.style = .arpeggio) (hoctave : req.trebleOctave = 4) (i : Nat) :
    ¬ AllInside longChord (pianoEvents req (longChord, i)) := by
  rw [pianoEvents, hppq, hstyle, hoctave, quarter_ppq]
  exact not_allInside (Seeded.yields_run (longChord_arpeggio _) _) (Or.inr (by decide))

/-- An arpeggio over the chord of `2 ^ 30` ticks. -/
def longArpeggio : PianoRequest := { chordReq := ⟨[longChord], 1, 480⟩, style := .arpeggio }

/-- Three requests of contiguous chords. The bass leaves a chord of a quarter note and one whose
third beat wraps, and the arpeggio leaves one whose duration is too long for its products. -/
theorem accompaniment_leaves :
    (Contiguous quarterChords ∧
      ¬ ∀ p ∈ quarterChords.chords.zipIdx, AllInside p.1 (bassEvents quarterChords p)) ∧
    (Contiguous lastBar ∧
      ¬ ∀ p ∈ lastBar.chords.zipIdx, AllInside p.1 (bassEvents lastBar p)) ∧
    (Contiguous longArpeggio.chordReq ∧
      ¬ ∀ p ∈ longArpeggio.chordReq.chords.zipIdx, AllInside p.1 (pianoEvents longArpeggio p)) := by
  refine ⟨⟨⟨rfl, ?_, by decide⟩, fun h => ?_⟩, ⟨⟨rfl, ?_, by decide⟩, fun h => ?_⟩,
    ⟨⟨rfl, ?_, by decide⟩, fun h => ?_⟩⟩
  -- A quarter note has no third beat.
  · exact .cons_cons (by decide) (.singleton _)
  · exact bass_leaves rfl (⟨0, 480, 0, bytes "maj", 0⟩, 0) (.inl (by decide))
      (h _ List.mem_cons_self)
  · exact .singleton _
  -- The third beat of the last bar wraps.
  · exact bass_leaves rfl (⟨4294966816, 1920, 0, bytes "maj", 0⟩, 0) (.inr (by decide))
      (h _ List.mem_cons_self)
  · exact .singleton _
  · exact longChord_leaves rfl rfl rfl 0 (h _ List.mem_cons_self)

end AiMidi.Proofs.ChordContainment
