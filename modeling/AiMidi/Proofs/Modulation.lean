import AiMidi.Proofs.Reharmonize.Symbols
import AiMidi.Theory.ModulationEngine

/-!
# `AiMidi.Proofs.Modulation`: the pivot chord and the cadence behind it

The three passes over two chord lists implement one order of preference (`PivotChosen`): a shared
chord on the fifth degree of the target, then any shared chord, then a chord of the target on a
shared root. This holds of any provider whose intervals are not negative
(`findPivotChord_chosen`).

A modulation puts II-V-I behind the pivot, as far as its bars go, and four bars are enough to
reach the tonic (`generateModulation_resolves`). The standard scales carry this: each has at least
five degrees, and the first is its root.

Each pass is described by what it finds and by when it finds nothing, and `pivot_none`,
`pivot_shared` and `pivot_commonRoot` put the three descriptions together. A name reads back as its
chord because the chords of a key are triads (`isTriad_diatonic`), so this fact is carried along to
`findPivotChord_cases`.
-/

set_option autoImplicit false

namespace AiMidi.Proofs.Modulation

open AiMidi.Lib AiMidi.Theory AiMidi.Theory.ModulationEngine
open AiMidi.Theory.ReharmonizeEngine (DiatonicChord)
open AiMidi.Proofs.Reharmonize (IsPc isPc_tmod)

/-! ### The three passes

Each pass goes through the chords of the first key and asks the map of the target. The first two
want an equal quality on the root, the third is content with the root. -/

section Passes

variable {F T : List DiatonicChord} {v : Int}

/-- The chord is in both keys. -/
def Shared (F T : List DiatonicChord) (c : DiatonicChord) : Prop := c ∈ F ∧ c ∈ T

/-- The two keys have no root in common. -/
def NoCommonRoot (F T : List DiatonicChord) : Prop := ∀ f ∈ F, ∀ t ∈ T, f.rootPc ≠ t.rootPc

/-- The qualities on a root are those of the target key. -/
theorem mem_targetMap {rootPc : Int} {quality : Bytes} :
    quality ∈ targetMap T rootPc ↔ ⟨rootPc, quality⟩ ∈ T := by
  unfold targetMap
  constructor
  · intro h
    obtain ⟨tc, htc, rfl⟩ := List.mem_map.mp h
    obtain ⟨hmem, hroot⟩ := List.mem_filter.mp htc
    rw [← of_decide_eq_true hroot]
    exact hmem
  · intro h
    exact List.mem_map.mpr ⟨_, List.mem_filter.mpr ⟨h, decide_eq_true rfl⟩, rfl⟩

/-- The test of the second pass. -/
theorem any_targetMap (c : DiatonicChord) :
    ((targetMap T c.rootPc).any fun tq => c.quality == tq) = true ↔ c ∈ T := by
  rw [List.any_eq_true]
  constructor
  · rintro ⟨tq, htq, heq⟩
    rw [← eq_of_beq heq] at htq
    exact mem_targetMap.mp htq
  · intro h
    exact ⟨c.quality, mem_targetMap.mpr h, beq_self_eq_true _⟩

/-- The test of the first pass. -/
theorem any_targetMap_dominant (c : DiatonicChord) :
    ((targetMap T c.rootPc).any fun tq => c.quality == tq && c.rootPc == v) = true ↔
      c ∈ T ∧ c.rootPc = v := by
  rw [List.any_eq_true]
  constructor
  · rintro ⟨tq, htq, heq⟩
    obtain ⟨hquality, hroot⟩ := Bool.and_eq_true_iff.mp heq
    rw [← eq_of_beq hquality] at htq
    exact ⟨mem_targetMap.mp htq, eq_of_beq hroot⟩
  · rintro ⟨hmem, hroot⟩
    refine ⟨c.quality, mem_targetMap.mpr hmem, ?_⟩
    rw [hroot, beq_self_eq_true, beq_self_eq_true, Bool.and_self]

/-- The first pass finds nothing when no shared chord stands on the dominant. -/
theorem sharedDominant_none :
    sharedDominant F T v = none ↔ ∀ c, Shared F T c → c.rootPc ≠ v := by
  simp only [sharedDominant, List.find?_eq_none, any_targetMap_dominant, Shared, not_and, and_imp]

/-- What the first pass finds is a shared chord on the dominant. -/
theorem sharedDominant_some {c : DiatonicChord} (h : sharedDominant F T v = some c) :
    Shared F T c ∧ c.rootPc = v := by
  have htest := List.find?_some (show List.find? _ F = some c from h)
  obtain ⟨hmem, hroot⟩ := (any_targetMap_dominant c).mp htest
  exact ⟨⟨List.mem_of_find?_eq_some h, hmem⟩, hroot⟩

/-- The second pass finds nothing when no chord is shared. -/
theorem sharedChord_none : sharedChord F T = none ↔ ∀ c, ¬ Shared F T c := by
  simp only [sharedChord, List.find?_eq_none, any_targetMap, Shared, not_and]

/-- What the second pass finds is a shared chord. -/
theorem sharedChord_some {c : DiatonicChord} (h : sharedChord F T = some c) : Shared F T c := by
  have htest := List.find?_some (show List.find? _ F = some c from h)
  exact ⟨List.mem_of_find?_eq_some h, (any_targetMap c).mp htest⟩

/-- The test of the third pass looks at the root alone. -/
theorem any_rootPc (t : DiatonicChord) :
    (F.any fun fc => fc.rootPc == t.rootPc) = true ↔ ∃ f ∈ F, f.rootPc = t.rootPc := by
  simp only [List.any_eq_true, beq_iff_eq]

/-- The third pass finds nothing when no root is common. -/
theorem commonRoot_none : commonRoot F T = none ↔ NoCommonRoot F T := by
  simp only [commonRoot, List.find?_eq_none, any_rootPc, not_exists, not_and, NoCommonRoot]
  constructor
  · intro h f hf t ht
    exact h t ht f hf
  · intro h t ht f hf
    exact h f hf t ht

/-- What the third pass finds is a chord of the target key on a common root. -/
theorem commonRoot_some {t : DiatonicChord} (h : commonRoot F T = some t) :
    t ∈ T ∧ ∃ f ∈ F, f.rootPc = t.rootPc := by
  have htest := List.find?_some (show List.find? _ T = some t from h)
  exact ⟨List.mem_of_find?_eq_some h, (any_rootPc t).mp htest⟩

/-- The three passes find nothing exactly when no root is common. -/
theorem pivot_none : pivot F T v = none ↔ NoCommonRoot F T := by
  rw [pivot, Option.or_eq_none_iff, Option.or_eq_none_iff, commonRoot_none]
  constructor
  · intro h
    exact h.2.2
  · intro h
    have hshared (c : DiatonicChord) : ¬ Shared F T c := fun hc => h c hc.1 c hc.2 rfl
    exact ⟨sharedDominant_none.mpr fun c hc => absurd hc (hshared c),
      sharedChord_none.mpr hshared, h⟩

/-- Where a chord is shared, a shared chord is the pivot, the one on the dominant if it is
shared. -/
theorem pivot_shared (h : ∃ c, Shared F T c) : ∃ c, pivot F T v = some c ∧ Shared F T c ∧
    ((∃ c', Shared F T c' ∧ c'.rootPc = v) → c.rootPc = v) := by
  cases hdominant : sharedDominant F T v with
  | some c =>
    obtain ⟨hshared, hroot⟩ := sharedDominant_some hdominant
    refine ⟨c, ?_, hshared, fun _ => hroot⟩
    rw [pivot, hdominant, Option.some_or]
  | none =>
    have hnone := sharedDominant_none.mp hdominant
    cases hchord : sharedChord F T with
    | none =>
      obtain ⟨c, hc⟩ := h
      exact absurd hc (sharedChord_none.mp hchord c)
    | some c =>
      refine ⟨c, ?_, sharedChord_some hchord, ?_⟩
      · rw [pivot, hdominant, hchord, Option.none_or, Option.some_or]
      · rintro ⟨c', hshared, hroot⟩
        exact absurd hroot (hnone c' hshared)

/-- Where no chord is shared, the pivot is a chord of the target on a common root. -/
theorem pivot_commonRoot (h : ¬ ∃ c, Shared F T c) {t : DiatonicChord}
    (hpivot : pivot F T v = some t) : t ∈ T ∧ ∃ f ∈ F, f.rootPc = t.rootPc := by
  have hshared (c : DiatonicChord) : ¬ Shared F T c := not_exists.mp h c
  rw [pivot, sharedDominant_none.mpr fun c hc => absurd hc (hshared c),
    sharedChord_none.mpr hshared, Option.none_or, Option.none_or] at hpivot
  exact commonRoot_some hpivot

end Passes

/-! ### Names

The pivot travels as a name. A triad on a pitch class has a name that is read back as that triad,
and all chords of a key are such triads. -/

/-- The name is printed for the chord, and reads back as it. -/
structure Names (name : Bytes) (c : DiatonicChord) : Prop where
  printed : name = chordName c.rootPc c.quality
  parsed : parseChordName name = (c.rootPc, c.quality)

/-- The qualities on the degrees of a scale. -/
def triads : List Bytes := [bytes "maj", bytes "min", bytes "dim", bytes "aug"]

/-- A triad on a pitch class. -/
def IsTriad (c : DiatonicChord) : Prop := IsPc c.rootPc ∧ c.quality ∈ triads

/-- The name of a triad is read as the triad, and it is not empty. -/
theorem names_chordName {c : DiatonicChord} (h : IsTriad c) :
    Names (chordName c.rootPc c.quality) c ∧ chordName c.rootPc c.quality ≠ [] := by
  have htable : ∀ n < 12, ∀ quality ∈ triads,
      parseChordName (chordName (n : Nat) quality) = ((n : Int), quality) ∧
        chordName (n : Nat) quality ≠ [] := by decide
  obtain ⟨⟨hge, hlt⟩, hquality⟩ := h
  obtain ⟨n, hn⟩ := Int.eq_ofNat_of_zero_le hge
  rw [hn] at hlt
  obtain ⟨hparsed, hne⟩ := htable n (Int.ofNat_lt.mp hlt) c.quality hquality
  rw [← hn] at hparsed hne
  exact ⟨⟨rfl, hparsed⟩, hne⟩

/-- The chords of every scale are triads. -/
theorem qualitiesForScale_triads (scale : Bytes) {d : Nat} (h : d < 7) :
    (qualitiesForScale scale).getD d [] ∈ triads := by
  have htable : ∀ qualities ∈ [ReharmonizeEngine.kMajorQualities,
      ReharmonizeEngine.kNaturalMinorQualities, ReharmonizeEngine.kHarmonicMinorQualities,
      ReharmonizeEngine.kMelodicMinorQualities], ∀ d < 7, qualities.getD d [] ∈ triads := by
    decide
  refine htable _ ?_ d h
  unfold qualitiesForScale ReharmonizeEngine.qualitiesForScale
  split
  · simp
  · split
    · simp
    · split <;> simp

/-! ### Diatonic chords

The provider gives the intervals of a scale. Each is added to the root of the key and reduced to the
octave, which gives a pitch class when no interval is negative. -/

/-- Every key has a pitch class. -/
theorem isPc_parseRootPc (key : Bytes) : IsPc (parseRootPc key) := Reharmonize.isPc_parseRootPc key

/-- No interval of a scale is negative. -/
def NonNegative (scales : ScaleProvider) : Prop :=
  ∀ name, ∀ interval ∈ scales.intervalsOf name, 0 ≤ interval

/-- The intervals of the built-in scales are not negative. -/
theorem nonNegative_makeScaleProvider : NonNegative makeScaleProvider := by
  intro name interval h
  obtain ⟨-, hnil⟩ | ⟨-, hmem⟩ := Scales.intervalsOf_cases name
  · exact absurd (hnil ▸ h : interval ∈ []) List.not_mem_nil
  · exact ((Scales.kScales_rows _ hmem).2.2.2 interval h).1

section Diatonic

variable {scales : ScaleProvider} (key scale : Bytes)

/-- The chord on a degree: root and interval together, reduced to the octave. -/
theorem diatonicChords_getElem? (d : Nat) :
    (diatonicChords key scale (some scales))[d]? = (scaleIntervals scales scale)[d]?.map
      fun interval => ⟨Int.tmod (parseRootPc key + interval) 12,
        if d < 7 then (qualitiesForScale scale).getD d [] else bytes "maj"⟩ := by
  rw [diatonicChords, List.getElem?_map, List.getElem?_zipIdx, Option.map_map, Nat.zero_add]
  rfl

/-- The chords of a key are triads on pitch classes. -/
theorem isTriad_diatonic (hscales : NonNegative scales) {c : DiatonicChord}
    (h : c ∈ diatonicChords key scale (some scales)) : IsTriad c := by
  obtain ⟨d, hd⟩ := List.mem_iff_getElem?.mp h
  rw [diatonicChords_getElem?, Option.map_eq_some_iff] at hd
  obtain ⟨interval, hinterval, rfl⟩ := hd
  have hnonneg : 0 ≤ interval := by
    have hmem := List.mem_of_getElem? hinterval
    unfold scaleIntervals at hmem
    split at hmem
    · exact hscales _ interval hmem
    · exact hscales _ interval hmem
  refine ⟨isPc_tmod (Int.add_nonneg (isPc_parseRootPc key).1 hnonneg), ?_⟩
  show (if d < 7 then _ else _) ∈ triads
  split
  case isTrue hd => exact qualitiesForScale_triads scale hd
  case isFalse => decide

/-- The dominant is the root of the fifth degree. -/
theorem dominantPc_eq {fifth : DiatonicChord}
    (h : (diatonicChords key scale (some scales))[4]? = some fifth) :
    dominantPc key (scaleIntervals scales scale) = fifth.rootPc := by
  rw [diatonicChords_getElem?, Option.map_eq_some_iff] at h
  obtain ⟨interval, hinterval, rfl⟩ := h
  rw [dominantPc, hinterval]

end Diatonic

/-! ### The pivot

The property speaks of the chords of the two keys as sets. The order of the lists decides which of
several pivots is taken, but not whether it is one. -/

/-- The order of preference among the chords of two keys. -/
structure PivotChosen (F T : List DiatonicChord) (name : Bytes) : Prop where
  empty_iff : name = [] ↔ F = [] ∨ T = [] ∨ NoCommonRoot F T
  shared : (∃ c, Shared F T c) → ∃ c, Shared F T c ∧ Names name c ∧
    ∀ fifth, T[4]? = some fifth → (∃ c', Shared F T c' ∧ c'.rootPc = fifth.rootPc) →
      c.rootPc = fifth.rootPc
  common : ¬ (∃ c, Shared F T c) → name ≠ [] →
    ∃ t ∈ T, (∃ f ∈ F, f.rootPc = t.rootPc) ∧ Names name t

/-- The pivot is in one of the two lists. -/
theorem isTriad_pivot {F T : List DiatonicChord} {v : Int} {c : DiatonicChord}
    (hF : ∀ f ∈ F, IsTriad f) (hT : ∀ t ∈ T, IsTriad t) (h : pivot F T v = some c) : IsTriad c := by
  by_cases hshared : ∃ c, Shared F T c
  · obtain ⟨c', hc', hmem, -⟩ := pivot_shared (v := v) hshared
    rw [Option.some.inj (h.symm.trans hc')]
    exact hF c' hmem.1
  · exact hT c (pivot_commonRoot hshared h).1

/-- An empty list of chords has no root in common with any other. -/
theorem noCommonRoot_iff {F T : List DiatonicChord} :
    F = [] ∨ T = [] ∨ NoCommonRoot F T ↔ NoCommonRoot F T := by
  constructor
  · rintro (rfl | rfl | h)
    · intro f hf
      exact absurd hf List.not_mem_nil
    · intro f hf t ht
      exact absurd ht List.not_mem_nil
    · exact h
  · intro h
    exact .inr (.inr h)

section Pivot

variable {scales : ScaleProvider} (fromKey fromScale toKey toScale : Bytes)

/-- The name is that of the chord that the passes find, and empty when they find none. -/
theorem findPivotChord_cases (hscales : NonNegative scales) {F T : List DiatonicChord}
    (hF : diatonicChords fromKey fromScale (some scales) = F)
    (hT : diatonicChords toKey toScale (some scales) = T) {name : Bytes}
    (hname : findPivotChord (some scales) fromKey fromScale toKey toScale = name) :
    (name = [] ∧ pivot F T (dominantPc toKey (scaleIntervals scales toScale)) = none) ∨
      ∃ c, name ≠ [] ∧ Names name c ∧
        pivot F T (dominantPc toKey (scaleIntervals scales toScale)) = some c := by
  have htriad {c : DiatonicChord} := isTriad_pivot (c := c)
    (fun f hf => isTriad_diatonic fromKey fromScale hscales hf)
    (fun t ht => isTriad_diatonic toKey toScale hscales ht)
    (v := dominantPc toKey (scaleIntervals scales toScale))
  unfold findPivotChord at hname
  dsimp only at hname
  rw [hF, hT] at hname htriad
  -- No common root, or the pivot of the two lists, whose name is printed.
  split at hname
  case isTrue hempty =>
    refine .inl ⟨hname.symm, pivot_none.mpr (noCommonRoot_iff.mp ?_)⟩
    exact hempty.imp_right .inl
  case isFalse =>
    cases h : pivot F T (dominantPc toKey (scaleIntervals scales toScale)) with
    | none =>
      rw [h] at hname
      exact .inl ⟨hname.symm, rfl⟩
    | some c =>
      have hprinted : chordName c.rootPc c.quality = name := by
        rw [h] at hname
        exact hname
      obtain ⟨hnames, hne⟩ := names_chordName (htriad h)
      rw [hprinted] at hnames hne
      exact .inr ⟨c, hne, hnames, rfl⟩

/-- The pivot of two keys is chosen in the order of preference. -/
theorem findPivotChord_chosen (hscales : NonNegative scales) :
    PivotChosen (diatonicChords fromKey fromScale (some scales))
      (diatonicChords toKey toScale (some scales))
      (findPivotChord (some scales) fromKey fromScale toKey toScale) := by
  have hcases := findPivotChord_cases fromKey fromScale toKey toScale hscales rfl rfl rfl
  have hdominant {fifth : DiatonicChord}
      (h : (diatonicChords toKey toScale (some scales))[4]? = some fifth) :
      dominantPc toKey (scaleIntervals scales toScale) = fifth.rootPc :=
    dominantPc_eq toKey toScale h
  -- Only the two lists and the dominant matter from here on.
  generalize findPivotChord (some scales) fromKey fromScale toKey toScale = name at hcases ⊢
  generalize dominantPc toKey (scaleIntervals scales toScale) = v at hcases hdominant
  generalize diatonicChords fromKey fromScale (some scales) = F at hcases ⊢
  generalize diatonicChords toKey toScale (some scales) = T at hcases hdominant ⊢
  constructor
  case empty_iff =>
    rw [noCommonRoot_iff, ← pivot_none (v := v)]
    obtain ⟨hnil, hnone⟩ | ⟨c, hne, -, hsome⟩ := hcases
    · exact iff_of_true hnil hnone
    · exact iff_of_false hne (hsome ▸ Option.some_ne_none c)
  -- A chord shared by both keys is preferred, the dominant of the target first.
  case shared =>
    intro hshared
    obtain ⟨c, hc, hmem, hfifth⟩ := pivot_shared (v := v) hshared
    rw [hc] at hcases
    obtain ⟨-, hnone⟩ | ⟨c', -, hnames, hsome⟩ := hcases
    · exact absurd hnone (Option.some_ne_none c)
    · rw [← Option.some.inj hsome] at hnames
      refine ⟨c, hmem, hnames, ?_⟩
      intro fifth h
      rw [← hdominant h]
      exact hfifth
  case common =>
    intro hshared hne
    obtain ⟨hnil, -⟩ | ⟨t, -, hnames, hsome⟩ := hcases
    · exact absurd hnil hne
    · obtain ⟨hmem, hroot⟩ := pivot_commonRoot hshared hsome
      exact ⟨t, hmem, hroot, hnames⟩

end Pivot

/-- From C to G major, on the standard scales. -/
theorem findPivotChord_chosen_standard :
    PivotChosen (diatonicChords (bytes "C") (bytes "major") (some makeScaleProvider))
      (diatonicChords (bytes "G") (bytes "major") (some makeScaleProvider))
      (findPivotChord (some makeScaleProvider) (bytes "C") (bytes "major") (bytes "G")
        (bytes "major")) :=
  findPivotChord_chosen (bytes "C") (bytes "major") (bytes "G") (bytes "major")
    nonNegative_makeScaleProvider

/-! ### The cadence

The cadence is written into the bars that are left behind the pivot. Where these do not suffice it
is cut from the end, so that the tonic is the first to be missing. -/

/-- The number of chords that stand for the pivot. -/
def pivotCount (name : Bytes) : Nat := if name = [] then 0 else 1

/-- A degree of a key in the standard scales. -/
def degree (key scale : Bytes) (d : Nat) : Option DiatonicChord :=
  (diatonicChords key scale (some makeScaleProvider))[d]?

/-- The pitch class on which the source puts a degree, and its quality. -/
def HasDegree (toIntervals : List Int) (scale : Bytes) (d : Nat) (c : DiatonicChord) : Prop :=
  c.rootPc = Int.tmod (toIntervals.getD d 0) 12 ∧ c.quality = (qualitiesForScale scale).getD d []

/-- A known scale has at least five degrees. -/
theorem intervalsOf_known {scale : Bytes} (h : knows scale = true) :
    5 ≤ (intervalsOf scale).length ∧ (intervalsOf scale)[0]? = some 0 := by
  have htable : ∀ p ∈ kScales, 5 ≤ p.2.length ∧ p.2[0]? = some 0 := by decide
  obtain ⟨hunknown, -⟩ | ⟨-, hmem⟩ := Scales.intervalsOf_cases scale
  · exact absurd (h.symm.trans hunknown) (by decide)
  · exact htable _ hmem

/-- Turning a scale to a root leaves the number of its intervals. -/
theorem length_intervalsFor (scale : Bytes) (rootPc : Int) :
    (intervalsFor scale rootPc).length = (intervalsOf scale).length := by
  rw [intervalsFor, List.length_map]

/-- The transposed intervals of a known scale are the roots of its degrees. -/
theorem degree_known {scale : Bytes} (h : knows scale = true) (key : Bytes) {d : Nat} (hd : d < 5) :
    ∃ c, degree key scale d = some c ∧
      HasDegree (intervalsFor scale (parseRootPc key)) scale d c := by
  obtain ⟨hlength, -⟩ := intervalsOf_known h
  have hlt : d < (intervalsOf scale).length := by omega
  have hne : intervalsOf scale ≠ [] := List.ne_nil_of_length_pos (by omega)
  have hkey := isPc_parseRootPc key
  have hintervals : scaleIntervals makeScaleProvider scale = intervalsOf scale := if_neg hne
  refine ⟨⟨Int.tmod (parseRootPc key + (intervalsOf scale)[d]) 12,
    (qualitiesForScale scale).getD d []⟩, ?_, ?_, rfl⟩
  · rw [degree, diatonicChords_getElem?, hintervals, List.getElem?_eq_getElem hlt, Option.map_some,
      if_pos (by omega)]
  · have hroot : Int.tmod (Int.tmod (parseRootPc key) 12 + 12) 12 = parseRootPc key := by
      obtain ⟨hge, hlt⟩ := hkey
      rw [Int.tmod_eq_of_lt hge hlt, Int.tmod_eq_emod_of_nonneg (by omega)]
      omega
    have hfor : (intervalsFor scale (parseRootPc key)).getD d 0
        = Int.tmod ((intervalsOf scale)[d] + parseRootPc key) 12 := by
      unfold intervalsFor
      rw [hroot, List.getD_eq_getElem?_getD, List.getElem?_map, List.getElem?_eq_getElem hlt]
      rfl
    rw [hfor, Int.tmod_tmod, Int.add_comm]

/-- The first degree is the key. -/
theorem tonic_root {scale : Bytes} (h : knows scale = true) (key : Bytes) {c : DiatonicChord}
    (hc : degree key scale 0 = some c) : c.rootPc = parseRootPc key := by
  obtain ⟨-, hhead⟩ := intervalsOf_known h
  have hkey := isPc_parseRootPc key
  have hne : intervalsOf scale ≠ [] := by
    intro hnil
    rw [hnil] at hhead
    exact absurd hhead (by simp)
  have hintervals : scaleIntervals makeScaleProvider scale = intervalsOf scale := if_neg hne
  rw [degree, diatonicChords_getElem?, hintervals, hhead] at hc
  rw [← Option.some.inj hc]
  show Int.tmod (parseRootPc key + 0) 12 = parseRootPc key
  rw [Int.add_zero, Int.tmod_eq_of_lt hkey.1 hkey.2]

/-- The cadence in as many bars as there are: II, then V, then I. -/
theorem cadence_spec {toIntervals : List Int} {toScale : Bytes} {barsLeft : Int}
    {ii v i : DiatonicChord} (hii : HasDegree toIntervals toScale 1 ii)
    (hv : HasDegree toIntervals toScale 4 v) (hi : HasDegree toIntervals toScale 0 i)
    (hbars : 0 < barsLeft) : ∃ vQuality, (vQuality = v.quality ∨ vQuality = bytes "7") ∧
      cadence toIntervals toScale barsLeft =
        [(ii.rootPc, ii.quality), (v.rootPc, vQuality), (i.rootPc, i.quality)].take
          barsLeft.toNat := by
  unfold cadence
  dsimp only
  rw [← hii.1, ← hii.2, ← hv.1, ← hv.2, ← hi.1, ← hi.2]
  refine ⟨if (toScale = bytes "major" ∨ toScale = bytes "harmonic_minor") ∧ barsLeft > 1
    then bytes "7" else v.quality, ?_, ?_⟩
  · split
    · exact .inr rfl
    · exact .inl rfl
  -- The cadence is cut to the bars that are left.
  · obtain h1 | h2 | h3 : barsLeft = 1 ∨ barsLeft = 2 ∨ 3 ≤ barsLeft := by omega
    · subst h1
      rfl
    · subst h2
      rfl
    · rw [if_pos (show barsLeft - 1 > 0 by omega), if_pos (show barsLeft - 1 - 1 > 0 by omega),
        List.take_of_length_le]
      show 3 ≤ barsLeft.toNat
      omega

/-- A transition has its pivot and then its cadence, inside its bars, and four bars reach the
tonic. -/
structure Resolves (fromKey fromScale toKey toScale : Bytes) (transitionBars : Int)
    (name : Bytes) (result : List (Int × Bytes)) : Prop where
  length_le : (result.length : Int) ≤ max 0 transitionBars
  pivot : name ≠ [] → 1 ≤ transitionBars → ∃ c, Names name c ∧
    result.head? = some (c.rootPc, c.quality)
  cadence : knows toScale = true → ∃ ii v i vQuality,
    degree toKey toScale 1 = some ii ∧ degree toKey toScale 4 = some v ∧
    degree toKey toScale 0 = some i ∧ (vQuality = v.quality ∨ vQuality = bytes "7") ∧
    result.drop (pivotCount name)
      <+: [(ii.rootPc, ii.quality), (v.rootPc, vQuality), (i.rootPc, i.quality)]
  tonic : knows toScale = true → 4 ≤ transitionBars → ∃ i, degree toKey toScale 0 = some i ∧
    i.rootPc = parseRootPc toKey ∧ result.getLast? = some (i.rootPc, i.quality)

/-- The chord in front of the cadence. -/
def pivotPart (name : Bytes) : List (Int × Bytes) := if name = [] then [] else [parseChordName name]

/-- The pivot is a part of the modulation of one chord, or of none. -/
theorem length_pivotPart (name : Bytes) : (pivotPart name).length = pivotCount name := by
  unfold pivotPart pivotCount
  split <;> rfl

/-- There is one pivot at most. -/
theorem pivotCount_le (name : Bytes) : pivotCount name ≤ 1 := by
  unfold pivotCount
  split <;> omega

variable (fromKey fromScale toKey toScale : Bytes)

/-- A transition to a scale that is not known is the pivot. -/
theorem generateModulation_unknown {transitionBars : Int} (hbars : 0 < transitionBars)
    (h : knows toScale = false) :
    generateModulation (some makeScaleProvider) fromKey fromScale toKey toScale transitionBars
      = pivotPart (findPivotChord (some makeScaleProvider) fromKey fromScale toKey toScale) := by
  obtain ⟨-, hnil⟩ | ⟨hknown, -⟩ := Scales.intervalsOf_cases toScale
  · have hlength : (intervalsFor toScale (parseRootPc toKey)).length < 3 := by
      rw [length_intervalsFor, hnil]
      decide
    unfold generateModulation
    rw [if_neg (by omega)]
    exact if_pos hlength
  · exact absurd (hknown.symm.trans h) (by decide)

/-- A transition to a known scale is the pivot and the cadence in the bars behind it. -/
theorem generateModulation_known {transitionBars : Int} (hbars : 0 < transitionBars)
    (h : knows toScale = true) {name : Bytes}
    (hname : findPivotChord (some makeScaleProvider) fromKey fromScale toKey toScale = name) :
    ∃ ii v i vQuality, degree toKey toScale 1 = some ii ∧ degree toKey toScale 4 = some v ∧
      degree toKey toScale 0 = some i ∧ (vQuality = v.quality ∨ vQuality = bytes "7") ∧
      generateModulation (some makeScaleProvider) fromKey fromScale toKey toScale transitionBars
        = pivotPart name ++
          [(ii.rootPc, ii.quality), (v.rootPc, vQuality), (i.rootPc, i.quality)].take
            (transitionBars - pivotCount name).toNat := by
  obtain ⟨hfive, -⟩ := intervalsOf_known h
  rw [← length_intervalsFor toScale (parseRootPc toKey)] at hfive
  obtain ⟨ii, hii, hii'⟩ := degree_known h toKey (show 1 < 5 by decide)
  obtain ⟨v, hv, hv'⟩ := degree_known h toKey (show 4 < 5 by decide)
  obtain ⟨i, hi, hi'⟩ := degree_known h toKey (show 0 < 5 by decide)
  -- The source counts the bars behind the pivot.
  have hrest : generateModulation (some makeScaleProvider) fromKey fromScale toKey toScale
      transitionBars = if transitionBars - pivotCount name > 0 then
        pivotPart name ++ cadence (intervalsFor toScale (parseRootPc toKey)) toScale
          (transitionBars - pivotCount name) else pivotPart name := by
    have hbars : ¬ transitionBars ≤ 0 := by omega
    have hthree : ¬ (intervalsFor toScale (parseRootPc toKey)).length < 3 := by omega
    rw [← length_pivotPart, ← hname]
    unfold generateModulation
    rw [if_neg hbars]
    refine (if_neg hthree).trans (if_congr ?_ rfl rfl)
    exact and_iff_left hfive
  by_cases hpos : 0 < transitionBars - pivotCount name
  · obtain ⟨vQuality, hvQuality, hcadence⟩ := cadence_spec hii' hv' hi' hpos
    rw [hrest, if_pos hpos, hcadence]
    exact ⟨ii, v, i, vQuality, hii, hv, hi, hvQuality, rfl⟩
  · have hzero : (transitionBars - pivotCount name).toNat = 0 := by omega
    refine ⟨ii, v, i, v.quality, hii, hv, hi, .inl rfl, ?_⟩
    rw [hrest, if_neg hpos, hzero, List.take_zero, List.append_nil]

/-- The pivot part of a transition is the chord that the pivot names. -/
theorem pivotPart_findPivotChord
    (hne : findPivotChord (some makeScaleProvider) fromKey fromScale toKey toScale ≠ []) :
    ∃ c, Names (findPivotChord (some makeScaleProvider) fromKey fromScale toKey toScale) c ∧
      pivotPart (findPivotChord (some makeScaleProvider) fromKey fromScale toKey toScale)
        = [(c.rootPc, c.quality)] := by
  obtain ⟨hnil, -⟩ | ⟨c, -, hnames, -⟩ := findPivotChord_cases fromKey fromScale toKey toScale
    nonNegative_makeScaleProvider rfl rfl rfl
  · exact absurd hnil hne
  · refine ⟨c, hnames, ?_⟩
    rw [pivotPart, if_neg hne, hnames.parsed]

/-- Every transition keeps to its bars, begins with the pivot, and resolves. -/
theorem generateModulation_resolves (transitionBars : Int) :
    Resolves fromKey fromScale toKey toScale transitionBars
      (findPivotChord (some makeScaleProvider) fromKey fromScale toKey toScale)
      (generateModulation (some makeScaleProvider) fromKey fromScale toKey toScale
        transitionBars) := by
  have hpivot := pivotPart_findPivotChord fromKey fromScale toKey toScale
  have hknown {bars : Int} (hbars : 0 < bars) (h : knows toScale = true) :=
    generateModulation_known fromKey fromScale toKey toScale hbars h rfl
  have hunknown {bars : Int} (hbars : 0 < bars) (h : knows toScale = false) :=
    generateModulation_unknown fromKey fromScale toKey toScale hbars h
  generalize findPivotChord (some makeScaleProvider) fromKey fromScale toKey toScale = name at *
  have hlength := length_pivotPart name
  have hcount := pivotCount_le name
  by_cases hbars : 0 < transitionBars
  case neg =>
    have hnil : generateModulation (some makeScaleProvider) fromKey fromScale toKey toScale
        transitionBars = [] := if_pos (by omega)
    rw [hnil]
    constructor
    case length_le => exact Int.le_max_left 0 transitionBars
    case pivot =>
      intro _ h1
      omega
    case cadence =>
      intro h
      obtain ⟨ii, v, i, vQuality, hii, hv, hi, hvQuality, -⟩ := hknown (show 0 < 1 by decide) h
      refine ⟨ii, v, i, vQuality, hii, hv, hi, hvQuality, ?_⟩
      rw [List.drop_nil]
      exact List.nil_prefix
    case tonic =>
      intro _ h4
      omega
  case pos =>
    constructor
    case length_le =>
      cases h : knows toScale with
      | false =>
        rw [hunknown hbars h]
        omega
      | true =>
        obtain ⟨ii, v, i, vQuality, -, -, -, -, hresult⟩ := hknown hbars h
        rw [hresult, List.length_append, List.length_take, hlength]
        omega
    case pivot =>
      intro hne _
      obtain ⟨c, hnames, hfirst⟩ := hpivot hne
      refine ⟨c, hnames, ?_⟩
      cases h : knows toScale with
      | false => rw [hunknown hbars h, hfirst, List.head?_cons]
      | true =>
        obtain ⟨ii, v, i, vQuality, -, -, -, -, hresult⟩ := hknown hbars h
        rw [hresult, hfirst, List.cons_append, List.head?_cons]
    case cadence =>
      intro h
      obtain ⟨ii, v, i, vQuality, hii, hv, hi, hvQuality, hresult⟩ := hknown hbars h
      refine ⟨ii, v, i, vQuality, hii, hv, hi, hvQuality, ?_⟩
      rw [hresult, ← hlength, List.drop_left]
      exact List.take_prefix _ _
    case tonic =>
      intro h h4
      obtain ⟨ii, v, i, vQuality, -, -, hi, -, hresult⟩ := hknown hbars h
      refine ⟨i, hi, tonic_root h toKey hi, ?_⟩
      -- Three bars are left behind the pivot, one for each chord of the cadence.
      have hall : [(ii.rootPc, ii.quality), (v.rootPc, vQuality), (i.rootPc, i.quality)].length
          ≤ (transitionBars - pivotCount name).toNat := by
        show 3 ≤ _
        omega
      rw [hresult, List.take_of_length_le hall]
      simp

end AiMidi.Proofs.Modulation
