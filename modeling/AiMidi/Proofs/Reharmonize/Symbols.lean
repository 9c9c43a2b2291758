import AiMidi.Proofs.GuitarChords
import AiMidi.Proofs.Scales
import AiMidi.Theory.ReharmonizeEngine

/-!
# `AiMidi.Proofs.Reharmonize.Symbols`: chord symbols and diatonic chords

A symbol is printed from a root and a quality and parsed again. For the nine qualities that
have a suffix, and any pitch class as root, that is the identity (`parseChordName_chordName`).

The rest of the module reads the tables of the engine: which degrees a scale has, which
qualities stand on them, and where the degrees I, ii, V and vi lie.

The facts about the tables are decided, row by row or degree by degree. They are stated for the
whole table, so that a proof about a style never looks at a name of a scale (`scaleIntervals_spec`,
`qualitiesForScale_spec`).
-/

set_option autoImplicit false

namespace AiMidi.Proofs.Reharmonize

open AiMidi.Lib AiMidi.Theory AiMidi.Theory.ReharmonizeEngine
open AiMidi.Proofs.GuitarChords (keyTable_range parseChord_rootPc)

/-! ### Symbols

A symbol has a root of one or two bytes and a rest. The rest is the quality but for two spellings,
which the parser resolves. -/

/-- The qualities that a suffix spells. -/
def qualities : List Bytes := qualitySuffixes.map Prod.fst

/-- The pitch class that the code reads off a chord name. -/
def rootOf (symbol : Bytes) : Int := (parseChordName symbol).1

/-- The quality that the code reads off a chord name. -/
def qualityOf (symbol : Bytes) : Bytes := (parseChordName symbol).2

/-- The quality of the symbol is one of the nine. -/
def Spelled (symbol : Bytes) : Prop := qualityOf symbol ∈ qualities

/-- An augmented chord. -/
def IsAug (symbol : Bytes) : Prop := qualityOf symbol = bytes "aug"

/-- A pitch class. -/
def IsPc (pc : Int) : Prop := 0 ≤ pc ∧ pc < 12

/-- The remainder of a non-negative number by 12 is a pitch class. -/
theorem isPc_tmod {z : Int} (h : 0 ≤ z) : IsPc (Int.tmod z 12) :=
  ⟨Int.tmod_nonneg 12 h, Int.tmod_lt_of_pos z (by decide)⟩

/-- The root of a key is a pitch class, for any text. -/
theorem isPc_parseRootPc (key : Bytes) : IsPc (parseRootPc key) := keyTable_range key

/-- A spelled quality is the one that the guitar engine reads. -/
theorem guitar_parseQuality (qual : Bytes) (h : parseQuality qual ∈ qualities) :
    GuitarEngine.parseQuality qual = parseQuality qual := by
  unfold parseQuality GuitarEngine.parseQuality at *
  by_cases hnil : qual = []
  · rw [if_pos (.inl hnil), if_pos hnil]
  · by_cases hm : qual = bytes "m"
    · rw [hm]
      decide
    · rw [if_neg hnil, if_neg hm] at h ⊢
      have hM : qual ≠ bytes "M" := by
        rintro rfl
        exact absurd h (by decide)
      rw [if_neg (not_or.mpr ⟨hnil, hM⟩)]
      by_cases hmin : qual = bytes "min"
      · rw [if_pos (.inr hmin), hmin]
      · rw [if_neg (not_or.mpr ⟨hm, hmin⟩)]

/-- Both engines read the same root in a symbol, and the same quality when it is spelled. -/
theorem guitar_parseChord (symbol : Bytes) :
    (GuitarEngine.parseChord symbol).rootPc = rootOf symbol ∧
      (Spelled symbol → (GuitarEngine.parseChord symbol).quality = qualityOf symbol) := by
  unfold Spelled rootOf qualityOf
  match symbol with
  | [] => exact ⟨rfl, fun _ => rfl⟩
  | [letter] => exact ⟨rfl, guitar_parseQuality []⟩
  | letter :: accidental :: rest =>
    unfold parseChordName GuitarEngine.parseChord
    by_cases h : [accidental] = bytes "#" ∨ [accidental] = bytes "b"
    · simp only [if_pos h]
      exact ⟨rfl, guitar_parseQuality rest⟩
    · simp only [if_neg h]
      exact ⟨rfl, guitar_parseQuality (accidental :: rest)⟩

/-- The root of any chord name is a pitch class. -/
theorem isPc_rootOf (symbol : Bytes) : IsPc (rootOf symbol) :=
  (guitar_parseChord symbol).1 ▸ parseChord_rootPc symbol

/-- A printed symbol reads back. -/
theorem parseChordName_chordName {pc : Int} {quality : Bytes} (hpc : IsPc pc)
    (hquality : quality ∈ qualities) : parseChordName (chordName pc quality) = (pc, quality) := by
  have htable : ∀ n < 12, ∀ quality ∈ qualities,
      parseChordName (chordName (n : Nat) quality) = ((n : Int), quality) := by decide
  obtain ⟨n, rfl⟩ := Int.eq_ofNat_of_zero_le hpc.1
  exact htable n (Int.ofNat_lt.mp hpc.2) quality hquality

/-- The root of a printed name is the root that it was printed from. -/
theorem rootOf_chordName {pc : Int} {quality : Bytes} (hpc : IsPc pc)
    (hquality : quality ∈ qualities) : rootOf (chordName pc quality) = pc := by
  rw [rootOf, parseChordName_chordName hpc hquality]

/-- The quality of a printed name is the quality that it was printed from. -/
theorem qualityOf_chordName {pc : Int} {quality : Bytes} (hpc : IsPc pc)
    (hquality : quality ∈ qualities) : qualityOf (chordName pc quality) = quality := by
  rw [qualityOf, parseChordName_chordName hpc hquality]

/-- A printed name of a known quality is spelled as the style engine spells it. -/
theorem spelled_chordName {pc : Int} {quality : Bytes} (hpc : IsPc pc)
    (hquality : quality ∈ qualities) : Spelled (chordName pc quality) := by
  rw [Spelled, qualityOf_chordName hpc hquality]
  exact hquality

/-- A printed name is augmented exactly for the augmented quality. -/
theorem isAug_chordName {pc : Int} {quality : Bytes} (hpc : IsPc pc)
    (hquality : quality ∈ qualities) :
    IsAug (chordName pc quality) ↔ quality = bytes "aug" := by
  rw [IsAug, qualityOf_chordName hpc hquality]

/-- A symbol of another quality than an augmented one. -/
theorem chordName_plain {pc : Int} {quality : Bytes} (hpc : IsPc pc)
    (hquality : quality ∈ qualities) (hne : quality ≠ bytes "aug") :
    Spelled (chordName pc quality) ∧ ¬ IsAug (chordName pc quality) ∧
      rootOf (chordName pc quality) = pc :=
  ⟨spelled_chordName hpc hquality, fun h => hne ((isAug_chordName hpc hquality).mp h),
    rootOf_chordName hpc hquality⟩

/-- A round that writes one symbol. -/
theorem oneChord_spec {pc : Int} {quality : Bytes} (hpc : IsPc pc)
    (hquality : quality ∈ qualities) :
    (∀ s ∈ [chordName pc quality], Spelled s) ∧
      ((∃ s ∈ [chordName pc quality], IsAug s) ↔ quality = bytes "aug") := by
  simp only [List.mem_singleton, forall_eq, exists_eq_left]
  exact ⟨spelled_chordName hpc hquality, isAug_chordName hpc hquality⟩

/-! ### Diatonic chords

A scale is a list of intervals, and a degree is a place in it. The tables have one quality for each
of the first seven degrees. -/

variable (key scale : Bytes)

/-- The scale is one of the table. -/
theorem scaleIntervals_mem : ∃ name, (name, scaleIntervals scale) ∈ kScales := by
  unfold scaleIntervals
  obtain ⟨-, hnil⟩ | ⟨-, hmem⟩ := Scales.intervalsOf_cases scale
  · rw [if_pos hnil]
    exact ⟨bytes "major", by decide⟩
  · have hne : intervalsOf scale ≠ [] := by
      intro hnil
      have hroot := (Scales.kScales_rows _ hmem).2.2.1
      rw [hnil] at hroot
      exact absurd hroot (by simp)
    rw [if_neg hne]
    exact ⟨scale, hmem⟩

/-- A scale has at most seven degrees, all different, within an octave. -/
theorem scaleIntervals_spec :
    (scaleIntervals scale).length ≤ 7 ∧ (scaleIntervals scale).Nodup ∧
      (scaleIntervals scale).head? = some 0 ∧ ∀ interval ∈ scaleIntervals scale, IsPc interval := by
  obtain ⟨name, hmem⟩ := scaleIntervals_mem scale
  exact Scales.kScales_rows _ hmem

/-- The scale has one diatonic chord for each of its degrees. -/
theorem length_diatonicChords :
    (diatonicChords key scale).length = (scaleIntervals scale).length := by
  rw [diatonicChords, List.length_map, List.length_zipIdx]

/-- The diatonic chord of a degree has the root of the degree and the quality of the scale. -/
theorem diatonicChords_getElem? (d : Nat) :
    (diatonicChords key scale)[d]? = (scaleIntervals scale)[d]?.map fun interval =>
      ⟨Int.tmod (parseRootPc key + interval) 12,
        if d < 7 then (qualitiesForScale scale).getD d [] else bytes "maj"⟩ := by
  rw [diatonicChords, List.getElem?_map, List.getElem?_zipIdx, Option.map_map, Nat.zero_add]
  rfl

/-- The root of a degree is the key moved by the interval of the degree. -/
theorem diatonicRoot_eq {d : Nat} {interval : Int}
    (h : (scaleIntervals scale)[d]? = some interval) :
    diatonicRoot key scale d = (parseRootPc key + interval) % 12 := by
  have hkey := isPc_parseRootPc key
  have hinterval := (scaleIntervals_spec scale).2.2.2 interval (List.mem_of_getElem? h)
  rw [diatonicRoot, diatonicChords_getElem?, h]
  exact Int.tmod_eq_emod_of_nonneg (Int.add_nonneg hkey.1 hinterval.1)

/-- The root of a degree is a pitch class. -/
theorem isPc_diatonicRoot (d : Nat) : IsPc (diatonicRoot key scale d) := by
  cases h : (scaleIntervals scale)[d]? with
  | none =>
    have hzero : IsPc 0 := ⟨by decide, by decide⟩
    rw [diatonicRoot, diatonicChords_getElem?, h]
    exact hzero
  | some interval =>
    rw [diatonicRoot_eq key scale h]
    exact ⟨Int.emod_nonneg _ (by decide), Int.emod_lt_of_pos _ (by decide)⟩

/-- The first degree is the key. -/
theorem diatonicRoot_zero : diatonicRoot key scale 0 = parseRootPc key := by
  have hkey := isPc_parseRootPc key
  have hhead := (scaleIntervals_spec scale).2.2.1
  rw [diatonicRoot_eq key scale (List.head?_eq_getElem? ▸ hhead), Int.add_zero]
  exact Int.emod_eq_of_lt hkey.1 hkey.2

/-- Different degrees have different roots. -/
theorem diatonicRoot_inj {d e : Nat} (hd : d < (diatonicChords key scale).length)
    (he : e < (diatonicChords key scale).length)
    (h : diatonicRoot key scale d = diatonicRoot key scale e) : d = e := by
  rw [length_diatonicChords] at hd he
  obtain ⟨-, hnodup, -, hrange⟩ := scaleIntervals_spec scale
  rw [diatonicRoot_eq key scale (List.getElem?_eq_getElem hd),
    diatonicRoot_eq key scale (List.getElem?_eq_getElem he)] at h
  have hrange_d := hrange _ (List.getElem_mem hd)
  have hrange_e := hrange _ (List.getElem_mem he)
  unfold IsPc at hrange_d hrange_e
  have heq : (scaleIntervals scale)[d] = (scaleIntervals scale)[e] := by omega
  exact hnodup.getElem_inj_iff.mp heq

/-- No scale has a fourth as its second degree, and none a semitone as its fifth one. -/
theorem scaleIntervals_second_fifth :
    (scaleIntervals scale)[1]? ≠ some 5 ∧ (scaleIntervals scale)[4]? ≠ some 1 := by
  have htable : ∀ p ∈ kScales, p.2[1]? ≠ some 5 ∧ p.2[4]? ≠ some 1 := by decide
  obtain ⟨name, hmem⟩ := scaleIntervals_mem scale
  exact htable _ hmem

variable {key scale}

/-- A degree that is found is one of the first seven, and the root stands on it. -/
theorem of_findDegree {root : Int} {d : Nat} (h : findDegree root key scale = some d) :
    d < 7 ∧ d < (diatonicChords key scale).length ∧ diatonicRoot key scale d = root := by
  obtain ⟨hlt, hroot, -⟩ := List.findIdx?_eq_some_iff_getElem.mp h
  have hseven := (scaleIntervals_spec scale).1
  rw [← length_diatonicChords key] at hseven
  refine ⟨Nat.lt_of_lt_of_le hlt hseven, hlt, ?_⟩
  rw [diatonicRoot, List.getElem?_eq_getElem hlt]
  exact of_decide_eq_true hroot

variable (key scale)

/-- No degree below the seventh lacks a quality, and the only augmented chord stands on the
third degree of the harmonic and of the melodic minor scale. -/
theorem qualitiesForScale_spec {d : Nat} (h : d < 7) :
    (qualitiesForScale scale).getD d [] ∈ qualities ∧
      ((qualitiesForScale scale).getD d [] = bytes "aug" ↔
        (scale = bytes "harmonic_minor" ∨ scale = bytes "melodic_minor") ∧ d = 2) := by
  -- Major and natural minor have no augmented degree; the other two have it on the third.
  have hplain : ∀ qs ∈ [kMajorQualities, kNaturalMinorQualities], ∀ d < 7,
      qs.getD d [] ∈ qualities ∧ qs.getD d [] ≠ bytes "aug" := by decide
  have hthird : ∀ qs ∈ [kHarmonicMinorQualities, kMelodicMinorQualities], ∀ d < 7,
      qs.getD d [] ∈ qualities ∧ (qs.getD d [] = bytes "aug" ↔ d = 2) := by decide
  unfold qualitiesForScale
  split
  case isTrue hminor =>
    obtain ⟨hmem, hne⟩ := hplain kNaturalMinorQualities (by decide) d h
    refine ⟨hmem, iff_of_false hne ?_⟩
    rintro ⟨hscale, -⟩
    obtain rfl | rfl := hminor
    · exact absurd hscale (by decide)
    · exact absurd hscale (by decide)
  case isFalse =>
    split
    case isTrue hscale =>
      obtain ⟨hmem, haug⟩ := hthird kHarmonicMinorQualities (by decide) d h
      exact ⟨hmem, haug.trans (and_iff_right (.inl hscale)).symm⟩
    case isFalse hharmonic =>
      split
      case isTrue hscale =>
        obtain ⟨hmem, haug⟩ := hthird kMelodicMinorQualities (by decide) d h
        exact ⟨hmem, haug.trans (and_iff_right (.inr hscale)).symm⟩
      case isFalse hmelodic =>
        obtain ⟨hmem, hne⟩ := hplain kMajorQualities (by decide) d h
        exact ⟨hmem, iff_of_false hne fun haug => not_or.mpr ⟨hharmonic, hmelodic⟩ haug.1⟩

/-- These two scales have seven degrees. -/
theorem length_of_minor (h : scale = bytes "harmonic_minor" ∨ scale = bytes "melodic_minor") :
    (diatonicChords key scale).length = 7 := by
  rw [length_diatonicChords]
  obtain rfl | rfl := h
  · decide
  · decide

end AiMidi.Proofs.Reharmonize
