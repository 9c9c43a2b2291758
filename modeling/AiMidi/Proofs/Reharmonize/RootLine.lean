import AiMidi.Proofs.Reharmonize.Styles

/-!
# `AiMidi.Proofs.Reharmonize.RootLine`: the roots under a new harmony

A style chooses qualities, prints a symbol, and the root is read from that symbol again. For
progressions of spelled qualities the simple and the modal style keep the root of every chord,
and the chromatic style keeps the line of the roots, with at most one neighbour in front of each
root but the first (`styles_keep_roots`).

A round of a style is described by the roots of the symbols that it outputs (`simpleChord_root`,
`modalChord_root`, `chromaticChord_root`), and the line of a progression is an induction over the
rounds.
-/

set_option autoImplicit false

namespace AiMidi.Proofs.Reharmonize

open AiMidi.Lib AiMidi.Lib.Seeded AiMidi.Theory AiMidi.Theory.ReharmonizeEngine

/-- The pitch class is one semitone above or below the root. -/
def IsNeighbour (pc root : Int) : Prop := pc = (root + 1) % 12 ∨ pc = (root - 1) % 12

/-- A line of roots in which some have a neighbour in front. -/
inductive Decorated : List Int → List Int → Prop where
  | nil : Decorated [] []
  | plain {root : Int} {roots line : List Int} (rest : Decorated roots line) :
      Decorated (root :: roots) (root :: line)
  | passing {pc root : Int} {roots line : List Int} (neighbour : IsNeighbour pc root)
      (rest : Decorated roots line) : Decorated (root :: roots) (pc :: root :: line)

/-- No neighbour is in front of the first root. -/
inductive RootLine : List Int → List Int → Prop where
  | nil : RootLine [] []
  | first {root : Int} {roots line : List Int} (rest : Decorated roots line) :
      RootLine (root :: roots) (root :: line)

variable {key scale : Bytes}

/-! ### Simple and modal

Both styles print one symbol for each chord, on the root that they have read. Printing and reading a
root is the identity. -/

/-- The simple style keeps the root of a chord. -/
theorem simpleChord_root {chord : Bytes} (h : Spelled chord) :
    Yields (simpleChord key scale chord) fun out => out.map rootOf = [rootOf chord] := by
  refine yields_bind (simpleQuality_spec (fun d hd => (of_findDegree hd).1) h) fun q hq =>
    yields_pure ?_
  show [rootOf (chordName (rootOf chord) q)] = _
  rw [rootOf_chordName (isPc_rootOf chord) hq.1]

/-- So it keeps the line of the roots. -/
theorem simpleReharm_roots {chords : List Bytes} (h : ∀ chord ∈ chords, Spelled chord) :
    Yields (simpleReharm chords key scale) fun out => out.map rootOf = chords.map rootOf := by
  rw [List.map_eq_flatMap (l := chords)]
  exact yields_forEach_map fun chord hchord => simpleChord_root (h chord hchord)

/-- A mode keeps the root of a chord. -/
theorem modalChord_root {chord : Bytes} (h : Spelled chord) :
    rootOf (modalChord key scale chord) = rootOf chord := by
  have hdegree : ∀ d, findDegree (rootOf chord) key scale = some d → d < 7 := fun d hd =>
    (of_findDegree hd).1
  exact rootOf_chordName (isPc_rootOf chord) (modalQuality_spec scale hdegree h).1

/-- So it keeps the line of the roots. -/
theorem modalReharm_roots {chords : List Bytes} (h : ∀ chord ∈ chords, Spelled chord) :
    Yields (modalReharm chords key scale) fun out => out.map rootOf = chords.map rootOf := by
  refine yields_bind_any fun mode => yields_pure ?_
  rw [List.map_map]
  exact List.map_congr_left fun chord hchord => modalChord_root (h chord hchord)

/-! ### Chromatic

A passing chord is printed in front of the symbol of its chord. Whether it is there, and on which
neighbour of the root, is drawn. -/

/-- The first chord has no passing chord. -/
theorem passingChord_zero (rootPc : Int) : Yields (passingChord rootPc 0) fun out => out = [] :=
  fun _ => rfl

/-- A passing chord is on a neighbour of the root. -/
theorem passingChord_root {rootPc : Int} (hroot : IsPc rootPc) (i : Nat) :
    Yields (passingChord rootPc i) fun out =>
      out = [] ∨ ∃ s, out = [s] ∧ IsNeighbour (rootOf s) rootPc := by
  unfold passingChord
  split
  case isFalse => exact yields_pure (.inl rfl)
  case isTrue =>
    refine yields_bind_any fun skip => ?_
    split
    case isFalse => exact yields_pure (.inl rfl)
    case isTrue =>
      refine yields_bind_any fun down => yields_bind_any fun dominant => yields_pure (.inr ?_)
      have hquality : (if dominant = 0 then bytes "dim" else bytes "7") ∈ qualities := by
        split
        · decide
        · decide
      have hstep : 0 ≤ rootPc + (if down = 0 then 1 else -1) + 1 := by
        have := hroot.1
        split <;> omega
      -- The double remainder of the source is that of the positive residue.
      have hpc : ∀ z : Int, 0 ≤ z + 1 →
          Int.tmod (Int.tmod z 12 + 12) 12 = z % 12 := by
        intro z hz
        obtain hneg | hpos : z = -1 ∨ 0 ≤ z := by omega
        · rw [hneg]
          decide
        · rw [Int.tmod_eq_emod_of_nonneg hpos, Int.tmod_eq_emod_of_nonneg (by omega)]
          omega
      have hmod : IsPc ((rootPc + (if down = 0 then 1 else -1)) % 12) :=
        ⟨Int.emod_nonneg _ (by decide), Int.emod_lt_of_pos _ (by decide)⟩
      refine ⟨_, rfl, ?_⟩
      rw [hpc _ hstep, rootOf_chordName hmod hquality]
      split
      · exact .inl rfl
      · exact .inr rfl

/-- A round outputs a chord on the old root, behind what the passing chord is. -/
theorem chromaticChord_root (key scale : Bytes) {p : Bytes × Nat} (h : Spelled p.1)
    {P : List Bytes → Prop} (hpassing : Yields (passingChord (rootOf p.1) p.2) P) :
    Yields (chromaticChord key scale p) fun out => ∃ passing s, out = passing ++ [s] ∧ P passing ∧
      rootOf s = rootOf p.1 := by
  refine yields_bind hpassing fun passing hP => ?_
  refine yields_bind (chromaticQuality_spelled _ p.2 h) fun q hq => yields_pure ?_
  exact ⟨passing, _, rfl, hP, rootOf_chordName (isPc_rootOf p.1) hq⟩

/-- Behind the first chord every root may have its neighbour. -/
theorem chromatic_decorated {chords : List Bytes} (h : ∀ chord ∈ chords, Spelled chord) (i : Nat) :
    Yields (Seeded.forEach (chromaticChord key scale) (chords.zipIdx i)) fun out =>
      Decorated (chords.map rootOf) (out.map rootOf) := by
  induction chords generalizing i with
  | nil => exact yields_pure .nil
  | cons chord chords ih =>
    have hround := chromaticChord_root key scale (p := (chord, i))
      (h chord List.mem_cons_self) (passingChord_root (isPc_rootOf chord) i)
    rw [List.zipIdx_cons]
    refine yields_bind hround fun out hout => ?_
    refine yields_bind (ih (fun c hc => h c (List.mem_cons_of_mem _ hc)) (i + 1)) fun rest hrest =>
      yields_pure ?_
    obtain ⟨passing, s, rfl, hpassing, hs⟩ := hout
    rw [List.map_append, List.map_append, List.map_cons, List.map_cons, List.map_nil, hs]
    -- With or without a passing chord in front of it, the chord keeps its root.
    obtain rfl | ⟨t, rfl, hneighbour⟩ := hpassing
    · exact .plain hrest
    · exact .passing hneighbour hrest

/-- The chromatic style keeps the roots, with neighbours in front of some of them. -/
theorem chromaticReharm_roots {chords : List Bytes} (h : ∀ chord ∈ chords, Spelled chord) :
    Yields (chromaticReharm chords key scale) fun out =>
      RootLine (chords.map rootOf) (out.map rootOf) := by
  cases chords with
  | nil => exact yields_pure .nil
  | cons chord chords =>
    have hround := chromaticChord_root key scale (p := (chord, 0))
      (h chord List.mem_cons_self) (passingChord_zero (rootOf chord))
    unfold chromaticReharm
    rw [List.zipIdx_cons]
    refine yields_bind hround fun out hout => ?_
    refine yields_bind (chromatic_decorated (fun c hc => h c (List.mem_cons_of_mem _ hc)) 1)
      fun rest hrest => yields_pure ?_
    obtain ⟨passing, s, rfl, rfl, hs⟩ := hout
    rw [List.nil_append, List.map_append, List.map_cons, List.map_cons, List.map_nil, hs]
    exact .first hrest

/-! ### The line of the roots

The result for the three styles is one statement, with a line of roots for each. -/

/-- The three styles keep the roots of a progression. -/
structure KeepsRoots (chords : List Bytes) (key scale : Bytes) (seed : Seed) : Prop where
  simple : (run seed (simpleReharm chords key scale)).val.map rootOf = chords.map rootOf
  modal : (run seed (modalReharm chords key scale)).val.map rootOf = chords.map rootOf
  chromatic : RootLine (chords.map rootOf)
    ((run seed (chromaticReharm chords key scale)).val.map rootOf)

/-- Progressions of spelled qualities keep their roots. -/
theorem styles_keep_roots {chords : List Bytes} (h : ∀ chord ∈ chords, Spelled chord)
    (key scale : Bytes) (seed : Seed) : KeepsRoots chords key scale seed where
  simple := yields_run (simpleReharm_roots h) seed
  modal := yields_run (modalReharm_roots h) seed
  chromatic := yields_run (chromaticReharm_roots h) seed

/-- A cadence in C major. -/
theorem cadence_keeps_roots :
    KeepsRoots [bytes "Dm7", bytes "G7", bytes "C"] (bytes "C") (bytes "major") 42 :=
  styles_keep_roots (by unfold Spelled; decide) (bytes "C") (bytes "major") 42

end AiMidi.Proofs.Reharmonize
