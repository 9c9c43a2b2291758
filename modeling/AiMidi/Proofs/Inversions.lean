import AiMidi.Proofs.ChordVoicing

/-!
# `AiMidi.Proofs.Inversions`: which tone an inversion puts in the bass

`applyInversion` is meant to put the third in the bass at inversion 1 and to keep all tones
within an octave. It rotates the list to the left, which already brings the third to the front,
and then drops the notes behind it by an octave, so these end up below the third. The lowest
note is therefore the first one or its octave at every inversion (`applyInversion_lowest`), and
`inverted_iff` says that the list is inverted as meant in root position only.
-/

set_option autoImplicit false

namespace AiMidi.Proofs.Inversions

open AiMidi.Theory.ChordEngine

/-- Notes in ascending order within an octave. -/
structure ClosePosition (notes : List Int) : Prop where
  ascending : notes.Pairwise (· < ·)
  span : ∀ low ∈ notes, ∀ high ∈ notes, high - low < 12

/-- The notes `out` are the inversion `inv` of the notes: in close position, with the same pitch
classes, and with tone `inv`, counted around the chord, as their lowest. -/
structure Inverted (notes : List Int) (inv : Int) (out : List Int) : Prop where
  close : ClosePosition out
  tones : (out.map (· % 12)).Perm (notes.map (· % 12))
  bass : ∃ low ∈ out, (∀ n ∈ out, low ≤ n) ∧
    notes[(inv % notes.length).toNat]?.map (· % 12) = some (low % 12)

/-- `((inv % count) + count) % count` with the remainder of C++ is the remainder that is never
negative. -/
theorem tmod_tmod_add (inv : Int) {count : Int} (h : 0 < count) :
    Int.tmod (Int.tmod inv count + count) count = inv % count := by
  have hlow := Int.lt_tmod_of_pos inv h
  rw [Int.tmod_eq_emod_of_nonneg (by omega), Int.add_emod_right, Int.tmod_def,
    Int.sub_mul_emod_self_left]

/-- An inversion turns the list by a number of notes and lowers those by an octave. -/
theorem applyInversion_eq {notes : List Int} (h : notes ≠ []) (inv : Int) :
    applyInversion notes inv =
      notes.drop (inv % notes.length).toNat
        ++ (notes.take (inv % notes.length).toNat).map (· - 12) := by
  have hlength := List.length_pos_iff.mpr h
  rw [applyInversion, if_neg h]
  dsimp only
  rw [tmod_tmod_add inv (by omega)]

/-- The number of notes that are moved is below the number of notes. -/
theorem inversion_bounds {notes : List Int} (h : notes ≠ []) (inv : Int) :
    0 ≤ inv % notes.length ∧ (inv % notes.length).toNat < notes.length := by
  have hlength := List.length_pos_iff.mpr h
  have hlow := Int.emod_nonneg inv (show (notes.length : Int) ≠ 0 by omega)
  have hhigh := Int.emod_lt_of_pos inv (show (0 : Int) < notes.length by omega)
  omega

/-- The root position is not touched. -/
theorem applyInversion_root {notes : List Int} {inv : Int}
    (hinv : inv % notes.length = 0) : applyInversion notes inv = notes := by
  by_cases h : notes = []
  · rw [h]
    rfl
  · rw [applyInversion_eq h, hinv]
    exact List.append_nil notes

/-- The first note is the lowest, and the others are less than an octave above it. -/
theorem ClosePosition.first_le {first : Int} {rest : List Int}
    (h : ClosePosition (first :: rest)) :
    ∀ n ∈ first :: rest, first ≤ n ∧ n < first + 12 := by
  intro n hn
  have hspan := h.span first List.mem_cons_self n hn
  obtain rfl | hn := List.mem_cons.mp hn
  · omega
  · have hlt := List.rel_of_pairwise_cons h.ascending hn
    omega

/-- At every inversion the lowest note is the first one or its octave. -/
theorem applyInversion_lowest {first : Int} {rest : List Int}
    (h : ClosePosition (first :: rest)) (inv : Int) :
    ∃ low ∈ applyInversion (first :: rest) inv,
      (∀ n ∈ applyInversion (first :: rest) inv, low ≤ n) ∧ low % 12 = first % 12 := by
  rw [applyInversion_eq (List.cons_ne_nil first rest)]
  generalize (inv % ((first :: rest).length : Int)).toNat = k
  cases k with
  | zero =>
    refine ⟨first, List.mem_append_left _ List.mem_cons_self, fun n hn => ?_, rfl⟩
    rw [List.drop_zero, List.take_zero, List.map_nil, List.append_nil] at hn
    exact (h.first_le n hn).1
  | succ k =>
    -- The first note is moved to the back and down.
    refine ⟨first - 12, ?_, fun n hn => ?_, by omega⟩
    · exact List.mem_append_right _ (List.mem_map.mpr ⟨first, List.mem_cons_self, rfl⟩)
    · obtain hn | hn := List.mem_append.mp hn
      · have hlow := (h.first_le n (List.mem_of_mem_drop hn)).1
        omega
      · obtain ⟨m, hm, rfl⟩ := List.mem_map.mp hn
        have hlow := (h.first_le m (List.mem_of_mem_take hm)).1
        omega

/-- No other note has the pitch class of the first one. -/
theorem ClosePosition.index_of_first {first : Int} {rest : List Int}
    (h : ClosePosition (first :: rest)) {k : Nat} (hk : k < (first :: rest).length)
    (hclass : (first :: rest)[k] % 12 = first % 12) : k = 0 := by
  cases k with
  | zero => rfl
  | succ k =>
    have hk' : k < rest.length := Nat.lt_of_succ_lt_succ hk
    have hup : first < rest[k] := List.rel_of_pairwise_cons h.ascending (List.getElem_mem hk')
    have hspan := (h.first_le rest[k] (List.mem_cons_of_mem first (List.getElem_mem hk'))).2
    rw [List.getElem_cons_succ] at hclass
    omega

/-- When notes are moved, the lowest note is not the one that is meant. -/
theorem not_inverted {notes : List Int} (hne : notes ≠ []) (hclose : ClosePosition notes)
    {inv : Int} (hinv : inv % notes.length ≠ 0) :
    ¬ Inverted notes inv (applyInversion notes inv) := by
  intro h
  obtain ⟨low, hlow, hle, htone⟩ := h.bass
  obtain ⟨hnonneg, hlt⟩ := inversion_bounds hne inv
  cases notes with
  | nil => exact hne rfl
  | cons first rest =>
    obtain ⟨low', hlow', hle', hfirst⟩ := applyInversion_lowest hclose inv
    have hsame : low = low' := Int.le_antisymm (hle low' hlow') (hle' low hlow)
    rw [List.getElem?_eq_getElem hlt, Option.map_some, Option.some.injEq, hsame, hfirst] at htone
    have hindex := hclose.index_of_first hlt htone
    omega

/-- In root position nothing is moved. -/
theorem inverted_root {notes : List Int} (hne : notes ≠ []) (hclose : ClosePosition notes)
    {inv : Int} (hinv : inv % notes.length = 0) :
    Inverted notes inv (applyInversion notes inv) := by
  rw [applyInversion_root hinv]
  cases notes with
  | nil => exact absurd rfl hne
  | cons first rest =>
    refine ⟨hclose, List.Perm.refl _, first, List.mem_cons_self, ?_, ?_⟩
    · exact fun n hn => (hclose.first_le n hn).1
    · rw [hinv]
      rfl

/-- The notes are inverted as meant exactly when the inversion is root position. -/
theorem inverted_iff (notes : List Int) (hne : notes ≠ []) (hclose : ClosePosition notes)
    (inv : Int) :
    Inverted notes inv (applyInversion notes inv) ↔ inv % notes.length = 0 := by
  constructor
  · intro h
    by_contra hinv
    exact not_inverted hne hclose hinv h
  · exact inverted_root hne hclose

/-- A C major triad. -/
def triad : List Int := [48, 52, 55]

/-- The triad is in close position. -/
theorem triad_close : ClosePosition triad := ⟨by decide, by decide⟩

/-- An inversion by three tones is root position again. -/
theorem inverted_iff_triad :
    Inverted triad (-3) (applyInversion triad (-3)) ↔ (-3) % (triad.length : Int) = 0 :=
  inverted_iff triad (by decide) triad_close (-3)

/-- The first inversion of C major has a C in the bass. -/
theorem triad_not_inverted :
    applyInversion triad 1 = [52, 55, 36] ∧ ¬ Inverted triad 1 (applyInversion triad 1) :=
  ⟨by decide, not_inverted (by decide) triad_close (by decide)⟩

end AiMidi.Proofs.Inversions
