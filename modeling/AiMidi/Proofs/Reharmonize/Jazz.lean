import AiMidi.Proofs.Reharmonize.Symbols

/-!
# `AiMidi.Proofs.Reharmonize.Jazz`: where the jazz style writes an augmented chord

The first pass hands down an augmented chord, whatever its root, unless it is a V that
resolves. The turnaround pass then overwrites the vi of every I-vi-ii-V. What it writes is never
a I, so no turnaround makes room for another one, and which chords are overwritten can be read
off the result of the first pass (`exists_isAug_turnaround`). That in turn can be read off the
original chords and the draws for the V behind a ii (`jazzReharm_aug`).

Here the place of a symbol matters, so lists are taken apart at one element (`Splits`). The first
pass puts a run of symbols for each chord, and `splits_forEach` moves what is said about a place in
the result to a place in the chords, together with the draws in front of it.
-/

set_option autoImplicit false

namespace AiMidi.Proofs.Reharmonize

open AiMidi.Lib AiMidi.Lib.Seeded AiMidi.Theory AiMidi.Theory.ReharmonizeEngine

variable {key scale : Bytes}

/-! ### Degrees

The pass compares roots with those of the degrees. That different degrees have different roots is
what keeps its cases apart. -/

section

variable (hsize : 6 ≤ (diatonicChords key scale).length)

include hsize

/-- The first six degrees have different roots. -/
theorem diatonicRoot_ne {i j : Nat} (hi : i < 6) (hj : j < 6) (hne : i ≠ j) :
    diatonicRoot key scale i ≠ diatonicRoot key scale j :=
  fun h => hne (diatonicRoot_inj key scale (by omega) (by omega) h)

/-- Of these only the first is the key. -/
theorem diatonicRoot_ne_key {i : Nat} (hi : i < 6) (hne : i ≠ 0) :
    diatonicRoot key scale i ≠ parseRootPc key := by
  rw [← diatonicRoot_zero key scale]
  exact diatonicRoot_ne hsize hi (by decide) hne

/-- The root of VI7, a fifth above the second degree, is not the first. -/
theorem fifthAbove_second_ne_key :
    Int.tmod (diatonicRoot key scale 1 + 7) 12 ≠ parseRootPc key := by
  have hlt : 1 < (scaleIntervals scale).length := by
    rw [← length_diatonicChords key]
    omega
  have hget := List.getElem?_eq_getElem hlt
  have hne := (scaleIntervals_second_fifth scale).1
  have hinterval := (scaleIntervals_spec scale).2.2.2 _ (List.getElem_mem hlt)
  have hkey := isPc_parseRootPc key
  have hpc := isPc_diatonicRoot key scale 1
  rw [hget, Ne, Option.some_inj] at hne
  rw [Int.tmod_eq_emod_of_nonneg (by unfold IsPc at hpc; omega), diatonicRoot_eq key scale hget]
  unfold IsPc at *
  omega

/-- The root of the tritone substitute is neither the first nor the fifth degree. -/
theorem tritone_ne : Int.tmod (parseRootPc key + 1) 12 ≠ parseRootPc key ∧
    Int.tmod (parseRootPc key + 1) 12 ≠ diatonicRoot key scale 4 := by
  have hlt : 4 < (scaleIntervals scale).length := by
    rw [← length_diatonicChords key]
    omega
  have hget := List.getElem?_eq_getElem hlt
  have hne := (scaleIntervals_second_fifth scale).2
  have hinterval := (scaleIntervals_spec scale).2.2.2 _ (List.getElem_mem hlt)
  have hkey := isPc_parseRootPc key
  rw [hget, Ne, Option.some_inj] at hne
  rw [Int.tmod_eq_emod_of_nonneg (by unfold IsPc at hkey; omega), diatonicRoot_eq key scale hget]
  unfold IsPc at *
  omega

end

/-! ### The turnaround pass

The pass looks at four chords at a time and writes over the second one. It reads the chord in front
as it was left by the step before. -/

/-- The chords `prev` and `s` and the two behind them are I-vi-ii-V. -/
def Overwritten (key scale prev s : Bytes) (post : List Bytes) : Prop :=
  rootOf prev = parseRootPc key ∧ rootOf s = diatonicRoot key scale 5 ∧
    [diatonicRoot key scale 1, diatonicRoot key scale 4] <+: post.map rootOf

/-- VI7, the dominant of the second degree. -/
def secondaryDominant (key scale : Bytes) : Bytes :=
  chordName (Int.tmod (diatonicRoot key scale 1 + 7) 12) (bytes "7")

/-- One step of the pass: a vi may become VI7. -/
theorem turnaroundFrom_cons (key scale c1 c2 : Bytes) (rest : List Bytes) :
    (Overwritten key scale c1 c2 rest ∧ turnaroundFrom key scale c1 (c2 :: rest) =
      c1 :: turnaroundFrom key scale (secondaryDominant key scale) rest) ∨
    (¬ Overwritten key scale c1 c2 rest ∧
      turnaroundFrom key scale c1 (c2 :: rest) = c1 :: turnaroundFrom key scale c2 rest) := by
  unfold Overwritten
  -- The pass needs four chords to look at; with fewer it copies.
  match rest with
  | [] => exact .inr ⟨by simp, rfl⟩
  | [c3] => exact .inr ⟨by simp, rfl⟩
  | c3 :: c4 :: rest =>
    have hprefix : [diatonicRoot key scale 1, diatonicRoot key scale 4] <+:
        (c3 :: c4 :: rest).map rootOf ↔
          rootOf c3 = diatonicRoot key scale 1 ∧ rootOf c4 = diatonicRoot key scale 4 := by
      rw [List.map_cons, List.map_cons, List.cons_prefix_cons, List.cons_prefix_cons,
        and_iff_left List.nil_prefix, eq_comm, eq_comm (a := diatonicRoot key scale 4)]
    have hturnaround : isTurnaround key scale c1 c2 c3 c4 = true ↔
        Overwritten key scale c1 c2 (c3 :: c4 :: rest) := by
      rw [isTurnaround, Overwritten, hprefix]
      simp only [Bool.and_eq_true, beq_iff_eq, and_assoc]
      rfl
    rw [show turnaroundFrom key scale c1 (c2 :: c3 :: c4 :: rest) = c1 :: turnaroundFrom key scale
      (if isTurnaround key scale c1 c2 c3 c4 then secondaryDominant key scale else c2)
      (c3 :: c4 :: rest) from rfl]
    by_cases h : isTurnaround key scale c1 c2 c3 c4 = true
    · exact .inl ⟨hturnaround.mp h, by rw [if_pos h]⟩
    · exact .inr ⟨fun ho => h (hturnaround.mpr ho), by rw [if_neg h]⟩

/-- The secondary dominant is a plain chord a fifth above the second degree. -/
theorem secondaryDominant_spec (key scale : Bytes) : Spelled (secondaryDominant key scale) ∧
    ¬ IsAug (secondaryDominant key scale) ∧
    rootOf (secondaryDominant key scale) = Int.tmod (diatonicRoot key scale 1 + 7) 12 := by
  have hpc : IsPc (Int.tmod (diatonicRoot key scale 1 + 7) 12) :=
    isPc_tmod (Int.add_nonneg (isPc_diatonicRoot key scale 1).1 (by decide))
  exact chordName_plain hpc (by decide) (by decide)

/-- The pass over the turnarounds leaves symbols that can be spelled. -/
theorem turnaroundFrom_spelled {c1 : Bytes} {chords : List Bytes} (h1 : Spelled c1)
    (h : ∀ c ∈ chords, Spelled c) : ∀ s ∈ turnaroundFrom key scale c1 chords, Spelled s := by
  induction chords generalizing c1 with
  | nil => simpa [turnaroundFrom] using h1
  | cons c2 rest ih =>
    have hrest : ∀ c ∈ rest, Spelled c := fun c hc => h c (List.mem_cons_of_mem c2 hc)
    rcases turnaroundFrom_cons key scale c1 c2 rest with ⟨-, heq⟩ | ⟨-, heq⟩
    · rw [heq]
      exact List.forall_mem_cons.mpr ⟨h1, ih (secondaryDominant_spec key scale).1 hrest⟩
    · rw [heq]
      exact List.forall_mem_cons.mpr ⟨h1, ih (h c2 List.mem_cons_self) hrest⟩

/-- The augmented chords that the pass leaves. -/
theorem exists_isAug_turnaroundFrom (hsize : 6 ≤ (diatonicChords key scale).length) (c1 : Bytes)
    (chords : List Bytes) :
    (∃ s ∈ turnaroundFrom key scale c1 chords, IsAug s) ↔
      IsAug c1 ∨ Splits chords fun pre s post =>
        IsAug s ∧ ¬ Overwritten key scale (pre.getLastD c1) s post := by
  induction chords generalizing c1 with
  | nil => simp [turnaroundFrom, splits_nil]
  | cons c2 rest ih =>
    rw [splits_cons]
    simp only [List.getLastD_nil, List.getLastD_cons]
    rcases turnaroundFrom_cons key scale c1 c2 rest with ⟨ho, heq⟩ | ⟨ho, heq⟩
    · obtain ⟨-, hnot, hroot⟩ := secondaryDominant_spec key scale
      have hvi : ¬ (IsAug c2 ∧ ¬ Overwritten key scale c1 c2 rest) := fun h => h.2 ho
      rw [heq, List.exists_mem_cons_iff, ih, or_iff_right hnot, or_iff_right hvi]
      refine or_congr Iff.rfl (splits_congr fun pre s post _ =>
        and_congr_right fun _ => not_congr ?_)
      -- Neither the vi nor what is written over it is a I.
      cases pre with
      | nil =>
        have hI := fifthAbove_second_ne_key hsize
        have hI' := diatonicRoot_ne_key hsize (i := 5) (by decide) (by decide)
        exact iff_of_false (fun h => hI (hroot ▸ h.1)) fun h => hI' (ho.2.1 ▸ h.1)
      | cons c pre => simp only [List.getLastD_cons]
    · rw [heq, List.exists_mem_cons_iff, ih, and_iff_left ho]

/-- The same from the first chord on, which is never overwritten. -/
theorem exists_isAug_turnaround (hsize : 6 ≤ (diatonicChords key scale).length)
    (chords : List Bytes) :
    (∃ s ∈ turnaround key scale chords, IsAug s) ↔ Splits chords fun pre s post =>
      IsAug s ∧ ¬ ∃ prev ∈ pre.getLast?, Overwritten key scale prev s post := by
  cases chords with
  | nil => simp [turnaround, splits_nil]
  | cons c chords =>
    rw [turnaround, exists_isAug_turnaroundFrom hsize, splits_cons]
    refine or_congr (by simp) (splits_congr fun pre s post _ => ?_)
    rw [List.getLast?_cons]
    simp

/-! ### The first pass

A V in front of its I becomes a ii and a dominant, which is the V or, as it is drawn, its tritone
substitute. Every other chord becomes one chord on the same root and draws nothing. -/

/-- What a chord that does not resolve becomes. -/
theorem jazzQuality_spec (degree : Option Nat) {quality : Bytes} (h : quality ∈ qualities) :
    jazzQuality degree quality ∈ qualities ∧
      (jazzQuality degree quality = bytes "aug" ↔ quality = bytes "aug") := by
  have htable : ∀ quality ∈ qualities, ∀ dominant : Bool,
      let q := if quality = bytes "maj" ∨ quality = [] then
          if dominant then bytes "7" else bytes "maj7"
        else if quality = bytes "min" ∨ quality = bytes "m" then bytes "m7"
        else if quality = bytes "dim" then bytes "m7b5"
        else quality
      q ∈ qualities ∧ (q = bytes "aug" ↔ quality = bytes "aug") := by decide
  simpa [jazzQuality] using htable quality h (degree = some 4)

/-- One chord, by its root and quality. -/
theorem jazzChord_eq (p : Bytes × Option Bytes) : jazzChord key scale p =
    if resolvesV key scale p.1 p.2 = true then draw 3 >>= fun tritone => pure
      [chordName (diatonicRoot key scale (1 % (diatonicChords key scale).length)) (bytes "m7"),
        if tritone = 0 then chordName (Int.tmod (parseRootPc key + 1) 12) (bytes "7")
        else chordName (rootOf p.1) (bytes "7")]
    else pure [chordName (rootOf p.1)
      (jazzQuality (findDegree (rootOf p.1) key scale) (qualityOf p.1))] := rfl

/-- A chord that does not resolve stays one chord, with its root, and draws nothing. -/
theorem jazzChord_plain {p : Bytes × Option Bytes} (h : Spelled p.1)
    (hplain : resolvesV key scale p.1 p.2 = false) (rng : Mt19937_64) :
    ∃ s, value (jazzChord key scale p) rng = [s] ∧ after (jazzChord key scale p) rng = rng ∧
      Spelled s ∧ rootOf s = rootOf p.1 ∧ (IsAug s ↔ IsAug p.1) := by
  obtain ⟨hmem, haug⟩ := jazzQuality_spec (findDegree (rootOf p.1) key scale) h
  have hroot := isPc_rootOf p.1
  have hbody : jazzChord key scale p = pure [chordName (rootOf p.1)
      (jazzQuality (findDegree (rootOf p.1) key scale) (qualityOf p.1))] := by
    rw [jazzChord_eq, if_neg (by rw [hplain]; exact Bool.false_ne_true)]
  rw [hbody]
  exact ⟨_, rfl, rfl, spelled_chordName hroot hmem, rootOf_chordName hroot hmem,
    (isAug_chordName hroot hmem).trans haug⟩

/-- A chord that resolves is a V. -/
theorem of_resolvesV {chord : Bytes} {next : Option Bytes}
    (h : resolvesV key scale chord next = true) :
    4 < (diatonicChords key scale).length ∧ diatonicRoot key scale 4 = rootOf chord := by
  unfold resolvesV at h
  simp only [Bool.and_eq_true, beq_iff_eq] at h
  exact (of_findDegree h.1.1).2

/-- A V that resolves becomes a ii and a V, or the tritone substitute of the V. -/
theorem jazzChord_resolves {p : Bytes × Option Bytes}
    (hresolves : resolvesV key scale p.1 p.2 = true) (rng : Mt19937_64) :
    ∃ ii v, value (jazzChord key scale p) rng = [ii, v] ∧
      (Spelled ii ∧ ¬ IsAug ii ∧ rootOf ii = diatonicRoot key scale 1) ∧ Spelled v ∧ ¬ IsAug v ∧
      rootOf v = if rng.draw 3 = 0 then Int.tmod (parseRootPc key + 1) 12
        else diatonicRoot key scale 4 := by
  obtain ⟨hlt, hV⟩ := of_resolvesV hresolves
  -- The body is the two chords, with one draw for the second.
  have hbody : jazzChord key scale p = draw 3 >>= fun tritone => pure
      [chordName (diatonicRoot key scale 1) (bytes "m7"),
        if tritone = 0 then chordName (Int.tmod (parseRootPc key + 1) 12) (bytes "7")
        else chordName (rootOf p.1) (bytes "7")] := by
    rw [jazzChord_eq, if_pos hresolves, Nat.mod_eq_of_lt (by omega)]
  have htritone : IsPc (Int.tmod (parseRootPc key + 1) 12) :=
    isPc_tmod (Int.add_nonneg (isPc_parseRootPc key).1 (by decide))
  have hii := isPc_diatonicRoot key scale 1
  rw [hbody]
  refine ⟨_, _, rfl, chordName_plain hii (by decide) (by decide), ?_⟩
  split
  · exact chordName_plain htritone (by decide) (by decide)
  · rw [hV]
    exact chordName_plain (isPc_rootOf p.1) (by decide) (by decide)

/-- The symbols of the first pass are spelled. -/
theorem jazzChord_spelled {p : Bytes × Option Bytes} (h : Spelled p.1) :
    Yields (jazzChord key scale p) fun out => ∀ s ∈ out, Spelled s := by
  intro rng
  cases hp : resolvesV key scale p.1 p.2 with
  | false =>
    obtain ⟨s, hvalue, -, hs, -⟩ := jazzChord_plain h hp rng
    rw [hvalue]
    simpa using hs
  | true =>
    obtain ⟨ii, v, hvalue, ⟨hii, -, -⟩, hv, -, -⟩ := jazzChord_resolves hp rng
    rw [hvalue]
    simpa using ⟨hii, hv⟩

/-- Only a chord that does not resolve hands down that it is augmented. -/
theorem splits_jazzChord {p : Bytes × Option Bytes} (h : Spelled p.1) (rng : Mt19937_64)
    {P : List Bytes → Bytes → List Bytes → Prop} {c : Prop}
    (hP : resolvesV key scale p.1 p.2 = false → ∀ s, rootOf s = rootOf p.1 → (P [] s [] ↔ c)) :
    (Splits (value (jazzChord key scale p) rng) fun out s rest => IsAug s ∧ P out s rest) ↔
      IsAug p.1 ∧ resolvesV key scale p.1 p.2 = false ∧ c := by
  cases hp : resolvesV key scale p.1 p.2 with
  | false =>
    obtain ⟨s, hvalue, -, -, hroot, haug⟩ := jazzChord_plain h hp rng
    rw [hvalue, splits_singleton, haug, hP hp s hroot, and_iff_right (a := false = false) rfl]
  | true =>
    obtain ⟨ii, v, hvalue, ⟨-, hii, -⟩, -, hv, -⟩ := jazzChord_resolves hp rng
    rw [hvalue, splits_cons, splits_singleton]
    refine iff_of_false ?_ fun h => Bool.noConfusion h.2.1
    rintro (h | h)
    · exact hii h.1
    · exact hv h.1

/-! ### The turnaround in the original chords

Whether a turnaround is found depends on the symbols of the first pass. The lemmas trace each of its
four symbols back to the chords. -/

/-- The chord in front becomes one whose root is the key. -/
theorem getLast?_jazz (hsize : 6 ≤ (diatonicChords key scale).length)
    {pre : List (Bytes × Option Bytes)} (h : ∀ p ∈ pre, Spelled p.1) (rng : Mt19937_64) :
    (∃ prev ∈ (value (forEach (jazzChord key scale) pre) rng).getLast?,
        rootOf prev = parseRootPc key) ↔
      ∃ p ∈ pre.getLast?, rootOf p.1 = parseRootPc key := by
  rcases List.eq_nil_or_concat pre with rfl | ⟨pre, p, rfl⟩
  · exact iff_of_false (fun ⟨_, h, _⟩ => by simp [forEach] at h) fun ⟨_, h, _⟩ => by simp at h
  · have hp : Spelled p.1 := h p (by simp)
    rw [List.concat_eq_append, value_forEach_append]
    generalize after (forEach (jazzChord key scale) pre) rng = rng'
    have hone :
        value (forEach (jazzChord key scale) [p]) rng' = value (jazzChord key scale p) rng' :=
      List.append_nil _
    rw [hone]
    cases hres : resolvesV key scale p.1 p.2 with
    | false =>
      obtain ⟨s, hvalue, -, -, hroot, -⟩ := jazzChord_plain hp hres rng'
      rw [hvalue]
      simp [hroot]
    | true =>
      -- Neither the V nor its substitute is a I, and the V was none either.
      obtain ⟨ii, v, hvalue, -, -, -, hroot⟩ := jazzChord_resolves hres rng'
      have hV := diatonicRoot_ne_key hsize (i := 4) (by decide) (by decide)
      have htritone := (tritone_ne hsize).1
      rw [hvalue]
      simp only [List.getLast?_append, List.getLast?_cons_cons, List.getLast?_singleton,
        Option.some_or, Option.mem_some_iff, exists_eq_left', hroot, ← (of_resolvesV hres).2]
      refine iff_of_false ?_ hV
      split
      · exact htritone
      · exact hV

/-- The chords behind become a ii and a V: a V that resolves and is not substituted, or a ii and
a V that does not resolve. -/
def TwoFive (key scale : Bytes) (rng : Mt19937_64) : List (Bytes × Option Bytes) → Prop
  | [] => False
  | p :: post =>
    if resolvesV key scale p.1 p.2 then rng.draw 3 ≠ 0
    else rootOf p.1 = diatonicRoot key scale 1 ∧
      ∃ q ∈ post.head?, rootOf q.1 = diatonicRoot key scale 4 ∧ resolvesV key scale q.1 q.2 = false

/-- The first symbol has the root of the V. -/
theorem prefix_fifth (hsize : 6 ≤ (diatonicChords key scale).length)
    {post : List (Bytes × Option Bytes)} (h : ∀ p ∈ post, Spelled p.1) (rng : Mt19937_64) :
    [diatonicRoot key scale 4] <+: (value (forEach (jazzChord key scale) post) rng).map rootOf ↔
      ∃ q ∈ post.head?, rootOf q.1 = diatonicRoot key scale 4 ∧
        resolvesV key scale q.1 q.2 = false := by
  cases post with
  | nil => exact iff_of_false (by simp [forEach]) (by simp)
  | cons q post =>
    have hcons : value (forEach (jazzChord key scale) (q :: post)) rng =
        value (jazzChord key scale q) rng ++
          value (forEach (jazzChord key scale) post) (after (jazzChord key scale q) rng) := rfl
    simp only [List.head?_cons, Option.mem_some_iff, exists_eq_left', hcons]
    cases hres : resolvesV key scale q.1 q.2 with
    | false =>
      obtain ⟨s, hvalue, -, -, hroot, -⟩ := jazzChord_plain (h q List.mem_cons_self) hres rng
      rw [hvalue, and_iff_left rfl, List.singleton_append, List.map_cons, List.cons_prefix_cons,
        and_iff_left List.nil_prefix, hroot, eq_comm]
    | true =>
      -- The cadence begins with the second degree, which is not the fifth.
      obtain ⟨ii, v, hvalue, ⟨-, -, hii⟩, -⟩ := jazzChord_resolves hres rng
      rw [hvalue, List.cons_append, List.map_cons, List.cons_prefix_cons, hii]
      have hne := diatonicRoot_ne hsize (i := 1) (j := 4) (by decide) (by decide) (by decide)
      exact iff_of_false (fun heq => hne heq.1.symm) fun hq => Bool.noConfusion hq.2

/-- The symbols behind begin with the second and the fifth degree exactly when the chords do so or
are drawn so. -/
theorem prefix_second_fifth (hsize : 6 ≤ (diatonicChords key scale).length)
    {post : List (Bytes × Option Bytes)} (h : ∀ p ∈ post, Spelled p.1) (rng : Mt19937_64) :
    [diatonicRoot key scale 1, diatonicRoot key scale 4] <+:
        (value (forEach (jazzChord key scale) post) rng).map rootOf ↔
      TwoFive key scale rng post := by
  cases post with
  | nil => exact iff_of_false (by simp [forEach]) id
  | cons p post =>
    have hcons : value (forEach (jazzChord key scale) (p :: post)) rng =
        value (jazzChord key scale p) rng ++
          value (forEach (jazzChord key scale) post) (after (jazzChord key scale p) rng) := rfl
    rw [TwoFive, hcons]
    cases hres : resolvesV key scale p.1 p.2 with
    -- A chord that does not resolve prints its own root, so the fifth must follow it.
    | false =>
      obtain ⟨s, hvalue, hafter, -, hroot, -⟩ := jazzChord_plain (h p List.mem_cons_self) hres rng
      rw [hvalue, hafter, List.singleton_append, List.map_cons, List.cons_prefix_cons, hroot,
        prefix_fifth hsize (fun q hq => h q (List.mem_cons_of_mem p hq)), if_neg Bool.false_ne_true,
        eq_comm]
    -- A chord that resolves prints the second degree and the fifth, unless the fifth is its
    -- tritone.
    | true =>
      obtain ⟨ii, v, hvalue, ⟨-, -, hii⟩, -, -, hroot⟩ := jazzChord_resolves hres rng
      rw [hvalue, List.cons_append, List.cons_append, List.map_cons, List.map_cons,
        List.cons_prefix_cons, List.cons_prefix_cons, and_iff_left List.nil_prefix, hii,
        and_iff_right rfl, hroot, if_pos rfl]
      split
      case isTrue hdraw =>
        exact iff_of_false (fun heq => (tritone_ne hsize).2 heq.symm) fun hne => hne hdraw
      case isFalse hdraw => exact iff_of_true rfl hdraw

/-! ### The style

The two passes are put together at the place of one symbol. What is in front of it decides the state
of the generator there. -/

/-- The augmented chord `p` is handed down: it does not resolve, and it is not the vi of a
I-vi-ii-V. -/
def JazzKeepsAug (key scale : Bytes) (rng : Mt19937_64) (pre : List (Bytes × Option Bytes))
    (p : Bytes × Option Bytes) (post : List (Bytes × Option Bytes)) : Prop :=
  IsAug p.1 ∧ resolvesV key scale p.1 p.2 = false ∧
    ¬ (6 ≤ (diatonicChords key scale).length ∧
      (∃ q ∈ pre.getLast?, rootOf q.1 = parseRootPc key) ∧
      rootOf p.1 = diatonicRoot key scale 5 ∧
      TwoFive key scale (after (forEach (jazzChord key scale) pre) rng) post)

/-- The chords with their successors are the chords. -/
theorem mem_withNext {chords : List Bytes} {p : Bytes × Option Bytes}
    (h : p ∈ withNext chords) : p.1 ∈ chords := (List.of_mem_zip h).1

/-- The jazz style spells all its symbols. -/
theorem jazzReharm_spelled {chords : List Bytes} (h : ∀ c ∈ chords, Spelled c) :
    Yields (jazzReharm chords key scale) fun out => ∀ s ∈ out, Spelled s := by
  refine yields_bind (yields_forEach_forall fun p hp => jazzChord_spelled (h _ (mem_withNext hp)))
    fun result hresult => yields_pure ?_
  split
  · cases result with
    | nil => exact hresult
    | cons c rest =>
      exact turnaroundFrom_spelled (hresult c List.mem_cons_self)
        fun s hs => hresult s (List.mem_cons_of_mem c hs)
  · exact hresult

/-- The jazz style writes an augmented chord exactly where it hands one down. -/
theorem jazzReharm_aug {chords : List Bytes} (h : ∀ c ∈ chords, Spelled c) (rng : Mt19937_64) :
    (∃ s ∈ value (jazzReharm chords key scale) rng, IsAug s) ↔
      Splits (withNext chords) (JazzKeepsAug key scale rng) := by
  have hspelled : ∀ p ∈ withNext chords, Spelled p.1 := fun p hp => h _ (mem_withNext hp)
  have hvalue : value (jazzReharm chords key scale) rng =
      if (diatonicChords key scale).length ≥ 6 then
        turnaround key scale (value (forEach (jazzChord key scale) (withNext chords)) rng)
      else value (forEach (jazzChord key scale) (withNext chords)) rng := rfl
  by_cases hsize : 6 ≤ (diatonicChords key scale).length
  -- With six degrees the turnaround pass may overwrite the name behind a tonic.
  · rw [hvalue, if_pos hsize, exists_isAug_turnaround hsize, splits_forEach]
    refine splits_congr fun pre p post hsplit => ?_
    rw [hsplit] at hspelled
    have hp : Spelled p.1 := hspelled p (by simp)
    refine splits_jazzChord (P := fun out s rest => ¬ ∃ prev ∈
        (value (forEach (jazzChord key scale) pre) rng ++ out).getLast?,
      Overwritten key scale prev s (rest ++ _)) hp _ fun hplain s hroot => not_congr ?_
    obtain ⟨-, -, hafter, -⟩ :=
      jazzChord_plain hp hplain (after (forEach (jazzChord key scale) pre) rng)
    rw [List.append_nil, List.nil_append, hafter, and_iff_right hsize,
      ← getLast?_jazz hsize (fun q hq => hspelled q (by simp [hq])) rng,
      ← prefix_second_fifth hsize (fun q hq => hspelled q (by simp [hq])), ← hroot]
    unfold Overwritten
    exact ⟨fun ⟨prev, hprev, hI, hrest⟩ => ⟨⟨prev, hprev, hI⟩, hrest⟩,
      fun ⟨⟨prev, hprev, hI⟩, hrest⟩ => ⟨prev, hprev, hI, hrest⟩⟩
  -- With fewer the pass does nothing, and every kept name is in the result.
  · rw [hvalue, if_neg hsize, ← splits_mem, splits_forEach]
    refine splits_congr fun pre p post hsplit => ?_
    rw [hsplit] at hspelled
    have hone : (Splits
        (value (jazzChord key scale p) (after (forEach (jazzChord key scale) pre) rng))
        fun _ s _ => IsAug s ∧ True) ↔ IsAug p.1 ∧ resolvesV key scale p.1 p.2 = false ∧ True :=
      splits_jazzChord (hspelled p (by simp)) _ fun _ _ _ => Iff.rfl
    simp only [and_true] at hone
    rw [hone, JazzKeepsAug, and_iff_left (a := resolvesV key scale p.1 p.2 = false)
      fun hcut => hsize hcut.1]

end AiMidi.Proofs.Reharmonize
