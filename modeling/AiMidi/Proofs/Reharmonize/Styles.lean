import AiMidi.Proofs.Reharmonize.Symbols
import Mathlib.Data.List.GetD

/-!
# `AiMidi.Proofs.Reharmonize.Styles`: where a style writes an augmented chord

For each style but jazz: every symbol that it writes is spelled, and some symbol is augmented
exactly when a condition on the request and its draws holds. The simple and the modal style
only hand down an augmented chord whose root is not in the scale. The chromatic style hands
down and draws, and the pedal style draws from the scale.

For each style there is one lemma about the chosen quality and one about the symbol printed with it.
A draw is named by its place in the generator, so the conditions can speak of it (`DrawsAug`,
`DrawsThird`).
-/

set_option autoImplicit false

namespace AiMidi.Proofs.Reharmonize

open AiMidi.Lib AiMidi.Lib.Seeded AiMidi.Theory AiMidi.Theory.ReharmonizeEngine

variable {key scale : Bytes} {chords : List Bytes}

/-- One of the options is chosen. -/
theorem choose_mem {opts : List Bytes} (h : 0 < (UInt64.ofNat opts.length).toNat) :
    Yields (choose opts) (· ∈ opts) := by
  refine yields_bind (yields_draw h) fun k hk => yields_pure ?_
  have hlt : k < opts.length := Nat.lt_of_lt_of_le hk (by
    rw [UInt64.toNat_ofNat']
    exact Nat.mod_le _ _)
  rw [List.getD_eq_getElem _ _ hlt]
  exact List.getElem_mem hlt

/-! ### Simple and modal

On a degree of the scale both styles look the quality up. Off the scale they hand on what the chord
has, and this is how an augmented chord survives. -/

/-- An augmented chord outside the scale. -/
def KeepsAug (key scale chord : Bytes) : Prop :=
  IsAug chord ∧ findDegree (rootOf chord) key scale = none

/-- A diatonic chord gets a plain quality. -/
theorem simpleQuality_degree {d : Nat} (h : d < 7) (quality : Bytes) :
    Yields (simpleQuality (some d) quality) fun q => q ∈ qualities ∧ q ≠ bytes "aug" := by
  have htable : ∀ opts ∈ simpleOptions, 0 < (UInt64.ofNat opts.length).toNat ∧
      ∀ q ∈ opts, q ∈ qualities ∧ q ≠ bytes "aug" := by decide
  have hlt : d < simpleOptions.length := h
  obtain ⟨hsize, hopts⟩ := htable _ (List.getElem_mem hlt)
  rw [simpleQuality, Option.bind_some, List.getElem?_eq_getElem hlt]
  exact (choose_mem hsize).mono hopts

/-- The quality of the simple style: a plain one for a degree, and else the chord's own. -/
theorem simpleQuality_spec {degree : Option Nat} (hdegree : ∀ d, degree = some d → d < 7)
    {quality : Bytes} (hquality : quality ∈ qualities) :
    Yields (simpleQuality degree quality) fun q =>
      q ∈ qualities ∧ (q = bytes "aug" ↔ quality = bytes "aug" ∧ degree = none) := by
  cases degree with
  | none => exact yields_pure ⟨hquality, (and_iff_left rfl).symm⟩
  | some d =>
    refine (simpleQuality_degree (hdegree d rfl) quality).mono fun q hq => ?_
    exact ⟨hq.1, iff_of_false hq.2 fun h => absurd h.2 (Option.some_ne_none d)⟩

/-- A chord of the simple style is augmented when it was and is not diatonic. -/
theorem simpleChord_spec {chord : Bytes} (h : Spelled chord) :
    Yields (simpleChord key scale chord) fun out =>
      (∀ s ∈ out, Spelled s) ∧ ((∃ s ∈ out, IsAug s) ↔ KeepsAug key scale chord) := by
  refine yields_bind (simpleQuality_spec (fun d hd => (of_findDegree hd).1) h) fun q hq =>
    yields_pure ?_
  obtain ⟨hspelled, haug⟩ := oneChord_spec (isPc_rootOf chord) hq.1
  exact ⟨hspelled, haug.trans hq.2⟩

/-- The row of every mode has a plain quality for each degree. -/
theorem modeRow_spec (scale : Bytes) :
    7 ≤ (kModeQualities.getD (modeIndex scale) []).length ∧
      ∀ q ∈ kModeQualities.getD (modeIndex scale) [], q ∈ qualities ∧ q ≠ bytes "aug" := by
  have htable : ∀ row ∈ kModeQualities, 7 ≤ row.length ∧
      ∀ q ∈ row, q ∈ qualities ∧ q ≠ bytes "aug" := by decide
  have hlt : modeIndex scale < kModeQualities.length := by
    unfold modeIndex
    cases h : kModes.findIdx? (· = scale) with
    | none => decide
    | some m => exact (List.findIdx?_eq_some_iff_getElem.mp h).1
  apply htable
  rw [List.getD_eq_getElem _ _ hlt]
  exact List.getElem_mem hlt

/-- A diatonic chord gets a plain quality. -/
theorem modalQuality_degree (scale : Bytes) {d : Nat} (h : d < 7) (quality : Bytes) :
    modalQuality scale (some d) quality ∈ qualities ∧
      modalQuality scale (some d) quality ≠ bytes "aug" := by
  obtain ⟨hseven, hrow⟩ := modeRow_spec scale
  have hlt := Nat.lt_of_lt_of_le h hseven
  rw [modalQuality, Option.bind_some, List.getElem?_eq_getElem hlt]
  exact hrow _ (List.getElem_mem hlt)

/-- Any other chord keeps its own. -/
theorem modalQuality_none (scale : Bytes) {quality : Bytes} (hne : quality ≠ []) :
    modalQuality scale none quality = quality := by
  rw [modalQuality, Option.bind_none]
  exact if_neg hne

/-- The quality of a mode: that of the row for a degree, and else the chord's own. -/
theorem modalQuality_spec (scale : Bytes) {degree : Option Nat}
    (hdegree : ∀ d, degree = some d → d < 7) {quality : Bytes} (hquality : quality ∈ qualities) :
    modalQuality scale degree quality ∈ qualities ∧
      (modalQuality scale degree quality = bytes "aug" ↔
        quality = bytes "aug" ∧ degree = none) := by
  cases degree with
  | none =>
    have hne : quality ≠ [] := by
      rintro rfl
      exact absurd hquality (by decide)
    rw [modalQuality_none scale hne]
    exact ⟨hquality, (and_iff_left rfl).symm⟩
  | some d =>
    obtain ⟨hmem, hne⟩ := modalQuality_degree scale (hdegree d rfl) quality
    exact ⟨hmem, iff_of_false hne fun h => absurd h.2 (Option.some_ne_none d)⟩

/-- A chord of a mode is augmented when it was and is not diatonic. -/
theorem modalChord_spec {chord : Bytes} (h : Spelled chord) :
    Spelled (modalChord key scale chord) ∧
      (IsAug (modalChord key scale chord) ↔ KeepsAug key scale chord) := by
  have hroot := isPc_rootOf chord
  have hdegree : ∀ d, findDegree (rootOf chord) key scale = some d → d < 7 := fun d hd =>
    (of_findDegree hd).1
  obtain ⟨hmem, haug⟩ := modalQuality_spec scale hdegree h
  exact ⟨spelled_chordName hroot hmem, (isAug_chordName hroot hmem).trans haug⟩

/-! ### Chromatic

The style draws a substitute from options that depend on the quality. For a major chord one of them
is augmented, and for an altered dominant none is. -/

/-- The substitute for a chord is augmented: it is not an altered V, and the chord is augmented
itself, or major and the third option is drawn. -/
def DrawsAug (key scale chord : Bytes) (i : Nat) (rng : Mt19937_64) : Prop :=
  ¬ (findDegree (rootOf chord) key scale = some 4 ∧ i > 0) ∧
    (IsAug chord ∨ qualityOf chord = bytes "maj" ∧ rng.draw 3 = 2)

/-- A passing chord can be spelled and is never augmented. -/
theorem passingChord_spec (rootPc : Int) (i : Nat) :
    Yields (passingChord rootPc i) fun out => ∀ s ∈ out, Spelled s ∧ ¬ IsAug s := by
  have hnil : Yields (pure [] : Seeded (List Bytes)) fun out =>
      ∀ s ∈ out, Spelled s ∧ ¬ IsAug s := yields_pure fun s hs => absurd hs List.not_mem_nil
  unfold passingChord
  split
  · refine yields_bind_any fun skip => ?_
    split
    · refine yields_bind_any fun down => yields_bind_any fun dominant => yields_pure fun s hs => ?_
      -- The passing chord is a `dim` or a `7`, and its root is reduced to a pitch class.
      have hquality : ∀ q ∈ [bytes "dim", bytes "7"], q ∈ qualities ∧ q ≠ bytes "aug" := by decide
      obtain ⟨hmem, hne⟩ := hquality (if dominant = 0 then bytes "dim" else bytes "7")
        (by split <;> simp)
      have hpc : ∀ z : Int, IsPc (Int.tmod (Int.tmod z 12 + 12) 12) := fun z => by
        have := Int.lt_tmod_of_pos z (show (0 : Int) < 12 by decide)
        exact isPc_tmod (by omega)
      obtain ⟨hspelled, hplain, -⟩ := chordName_plain (hpc _) hmem hne
      rw [List.mem_singleton.mp hs]
      exact ⟨hspelled, hplain⟩
    · exact hnil
  · exact hnil

/-- Options that are all spelled. -/
theorem choose_spelled {opts : List Bytes}
    (h : 0 < (UInt64.ofNat opts.length).toNat ∧ ∀ q ∈ opts, q ∈ qualities) :
    Yields (choose opts) (· ∈ qualities) := (choose_mem h.1).mono h.2

/-- Options none of which is augmented. -/
theorem choose_not_aug {opts : List Bytes}
    (h : 0 < (UInt64.ofNat opts.length).toNat ∧ bytes "aug" ∉ opts) :
    Yields (choose opts) (· ≠ bytes "aug") :=
  (choose_mem h.1).mono fun _ hq heq => h.2 (heq ▸ hq)

/-- The chromatic style spells its qualities. -/
theorem chromaticQuality_spelled (degree : Option Nat) (i : Nat) {quality : Bytes}
    (hquality : quality ∈ qualities) :
    Yields (chromaticQuality degree i quality) (· ∈ qualities) := by
  unfold chromaticQuality
  repeat' split
  · exact choose_spelled (by decide)
  · exact choose_spelled (by decide)
  · exact choose_spelled (by decide)
  · exact choose_spelled (by decide)
  · exact yields_pure hquality

/-- The third option for a major chord. -/
theorem choose_major_aug (rng : Mt19937_64) :
    value (choose [bytes "maj", bytes "maj7", bytes "aug"]) rng = bytes "aug" ↔
      rng.draw 3 = 2 := by
  have hlt : rng.draw 3 < 3 := rng.draw_lt (by decide)
  show [bytes "maj", bytes "maj7", bytes "aug"].getD (rng.draw 3) [] = bytes "aug" ↔ _
  generalize rng.draw 3 = k at hlt
  have hall :
      ∀ k < 3, [bytes "maj", bytes "maj7", bytes "aug"].getD k [] = bytes "aug" ↔ k = 2 := by
    decide
  exact hall k hlt

/-- A chromatic quality is augmented when the chord was, or when it is major and the draw says so.
The dominant is exempt. -/
theorem chromaticQuality_aug (degree : Option Nat) (i : Nat) {quality : Bytes}
    (hquality : quality ∈ qualities) (rng : Mt19937_64) :
    value (chromaticQuality degree i quality) rng = bytes "aug" ↔
      ¬ (degree = some 4 ∧ i > 0) ∧
        (quality = bytes "aug" ∨ quality = bytes "maj" ∧ rng.draw 3 = 2) := by
  have hne : quality ≠ [] := by
    rintro rfl
    exact absurd hquality (by decide)
  unfold chromaticQuality
  split
  -- A dominant behind the first chord is drawn anew, never augmented.
  case isTrue hV => exact iff_of_false (choose_not_aug (by decide) rng) fun h => h.1 hV
  case isFalse hV =>
    rw [and_iff_right hV]
    split
    case isTrue hmajor =>
      -- A major quality may be drawn as an augmented one.
      obtain rfl := hmajor.resolve_right hne
      rw [choose_major_aug, and_iff_right rfl, or_iff_right (by decide)]
    case isFalse hmajor =>
      rw [or_iff_left fun h => hmajor (.inl h.1)]
      split
      case isTrue hminor =>
        rw [hminor]
        exact iff_of_false (choose_not_aug (by decide) rng) (by decide)
      case isFalse =>
        split
        case isTrue hdim =>
          rw [hdim]
          exact iff_of_false (choose_not_aug (by decide) rng) (by decide)
        case isFalse => exact Iff.rfl

/-- The chromatic style spells its chords. -/
theorem chromaticChord_spelled {p : Bytes × Nat} (h : Spelled p.1) :
    Yields (chromaticChord key scale p) fun out => ∀ s ∈ out, Spelled s := by
  refine yields_bind (passingChord_spec _ p.2) fun passing hpassing => ?_
  refine yields_bind (chromaticQuality_spelled _ p.2 h) fun q hq => yields_pure fun s hs => ?_
  obtain hs | hs := List.mem_append.mp hs
  · exact (hpassing s hs).1
  · exact (oneChord_spec (isPc_rootOf p.1) hq).1 s hs

/-- The passing chord is not augmented, so only the substitute counts. -/
theorem chromaticChord_aug {chord : Bytes} (h : Spelled chord) (i : Nat) (rng : Mt19937_64) :
    (∃ s ∈ value (chromaticChord key scale (chord, i)) rng, IsAug s) ↔
      DrawsAug key scale chord i (after (passingChord (rootOf chord) i) rng) := by
  have hpassing := passingChord_spec (rootOf chord) i rng
  have hquality := chromaticQuality_spelled (findDegree (rootOf chord) key scale) i h
    (after (passingChord (rootOf chord) i) rng)
  have hvalue : value (chromaticChord key scale (chord, i)) rng
      = value (passingChord (rootOf chord) i) rng ++
        [chordName (rootOf chord) (value (chromaticQuality (findDegree (rootOf chord) key scale) i
          (qualityOf chord)) (after (passingChord (rootOf chord) i) rng))] := rfl
  simp only [hvalue, List.mem_append, or_and_right, exists_or]
  rw [or_iff_right fun ⟨s, hs, haug⟩ => (hpassing s hs).2 haug,
    (oneChord_spec (isPc_rootOf chord) hquality).2]
  exact chromaticQuality_aug _ i h _

/-! ### Pedal

The pedal ignores the chords and draws degrees. An augmented triad stands on one degree of two of
the scales. -/

/-- The third degree of a harmonic or melodic minor scale is drawn, and keeps its quality. -/
def DrawsThird (scale : Bytes) (rng : Mt19937_64) : Prop :=
  (scale = bytes "harmonic_minor" ∨ scale = bytes "melodic_minor") ∧
    rng.draw 7 = 2 ∧ rng.next.2.draw 4 ≠ 0

/-- A degree of the scale is below seven. -/
theorem seven_of_degree {d : Nat} (h : d < (diatonicChords key scale).length) : d < 7 :=
  Nat.lt_of_lt_of_le h (length_diatonicChords key scale ▸ (scaleIntervals_spec scale).1)

/-- The modulus of the draw. -/
theorem toNat_size :
    (UInt64.ofNat (diatonicChords key scale).length).toNat = (diatonicChords key scale).length := by
  have hseven := (scaleIntervals_spec scale).1
  rw [length_diatonicChords]
  exact UInt64.toNat_ofNat_of_lt' (Nat.lt_of_le_of_lt hseven (by decide))

/-- Every scale has a degree to draw. -/
theorem size_pos (key scale : Bytes) :
    0 < (UInt64.ofNat (diatonicChords key scale).length).toNat := by
  have hhead := (scaleIntervals_spec scale).2.2.1
  rw [toNat_size, length_diatonicChords, List.length_pos_iff]
  intro hnil
  rw [hnil] at hhead
  exact absurd hhead (by simp)

/-- The chord that is drawn from the scale. -/
theorem diatonicChords_getD {d : Nat} (h : d < (diatonicChords key scale).length) :
    (diatonicChords key scale).getD d ⟨0, []⟩ =
      ⟨diatonicRoot key scale d, (qualitiesForScale scale).getD d []⟩ := by
  have hlt : d < 7 := seven_of_degree h
  have hget := diatonicChords_getElem? key scale d
  have hlt' : d < (scaleIntervals scale).length := length_diatonicChords key scale ▸ h
  rw [List.getElem?_eq_getElem hlt', if_pos hlt] at hget
  rw [List.getD_eq_getElem?_getD, diatonicRoot, hget]
  rfl

/-- The pedal style spells its chords. -/
theorem pedalChord_spelled : Yields (pedalChord key scale) fun out => ∀ s ∈ out, Spelled s := by
  refine yields_bind (yields_draw (size_pos key scale)) fun d hd => ?_
  rw [toNat_size] at hd
  refine yields_bind_any fun plain => ?_
  rw [diatonicChords_getD hd]
  split
  · refine yields_bind (choose_spelled (by decide)) fun q hq => yields_pure ?_
    exact (oneChord_spec (isPc_diatonicRoot key scale d) hq).1
  · exact yields_pure (oneChord_spec (isPc_diatonicRoot key scale d)
      (qualitiesForScale_spec scale (seven_of_degree hd)).1).1

/-- A chord of the pedal is augmented when the third is drawn in a scale where it is. -/
theorem pedalChord_aug (rng : Mt19937_64) :
    (∃ s ∈ value (pedalChord key scale) rng, IsAug s) ↔ DrawsThird scale rng := by
  have hd : rng.draw (UInt64.ofNat (diatonicChords key scale).length) <
      (diatonicChords key scale).length := by
    have hlt := rng.draw_lt (size_pos key scale)
    rwa [toNat_size] at hlt
  obtain ⟨hmem, haug⟩ := qualitiesForScale_spec scale (seven_of_degree hd)
  have hpc :=
    isPc_diatonicRoot key scale (rng.draw (UInt64.ofNat (diatonicChords key scale).length))
  -- The two draws have been made.
  show (∃ s ∈ value (if rng.next.2.draw 4 = 0 then choose [bytes "7", bytes "maj7", bytes "m7"] >>=
      fun quality => pure [chordName ((diatonicChords key scale).getD (rng.draw _) ⟨0, []⟩).rootPc
        quality]
    else pure [chordName ((diatonicChords key scale).getD (rng.draw _) ⟨0, []⟩).rootPc
      ((diatonicChords key scale).getD (rng.draw _) ⟨0, []⟩).quality]) rng.next.2.next.2,
    IsAug s) ↔ _
  rw [diatonicChords_getD hd]
  by_cases hcolour : rng.next.2.draw 4 = 0
  · have hchoose : value (choose [bytes "7", bytes "maj7", bytes "m7"]) rng.next.2.next.2 ≠
        bytes "aug" := choose_not_aug (by decide) _
    rw [if_pos hcolour, value_bind, value_pure,
      (oneChord_spec hpc (choose_spelled (by decide) _)).2]
    exact iff_of_false hchoose fun h => h.2.2 hcolour
  · rw [if_neg hcolour, value_pure, (oneChord_spec hpc hmem).2, haug]
    refine and_congr_right fun hscale => ?_
    rw [and_iff_left hcolour, length_of_minor key scale hscale]
    rfl

end AiMidi.Proofs.Reharmonize
