import AiMidi.Theory.CounterpointEngine
import Mathlib.Data.List.GetD

/-!
# `AiMidi.Proofs.Counterpoint.Consonance`: the downbeats are consonant

A range of 25 notes has an octave of every bass note, so there is a candidate for every downbeat,
and an octave for the first and the last. The filter takes candidates away, but never the last one
(`filterFirstSpecies_ne_nil`). So the note that is drawn is consonant, whatever was drawn before.

`Rounds` says of the events of the loop what each round makes of its state, and `yields_overBass`
is the rule for the loop. `generate_consonantLine` is the result.

The two species differ in the number of notes for a bass note, and in what is said of the second
one. Both are rounds of one loop, and `Rounds.consonant` is the induction over its bass notes.
-/

set_option autoImplicit false

namespace AiMidi.Proofs.Counterpoint

open AiMidi.Lib AiMidi.Lib.Seeded AiMidi.Theory AiMidi.Theory.CounterpointEngine

/-! ### Intervals

The remainder of C++ is corrected for negative numbers, so an interval below the bass has the class
of the one an octave higher. The register has two octaves and a note. -/

/-- The C++ remainder with its correction is the remainder. -/
theorem mod12_eq (n : Int) : mod12 n = n % 12 := by
  have hmod : Int.tmod n 12 = n % 12 ∨ Int.tmod n 12 = n % 12 - 12 := by
    rw [Int.tmod_eq_emod]
    split
    · exact .inl (Int.sub_zero _)
    · exact .inr rfl
  rw [mod12, Int.tmod_eq_emod_of_nonneg (by omega)]
  omega

/-- The interval above the bass, as a class. -/
theorem intervalClass_eq (c bassPc : Int) : intervalClass c bassPc = (c - bassPc) % 12 :=
  mod12_eq _

/-- The consonances that are listed: unison, thirds, fifth and sixths. -/
theorem mem_kConsonantIntervals {ic : Int} : ic ∈ kConsonantIntervals ↔
    ic = 0 ∨ ic = 3 ∨ ic = 4 ∨ ic = 7 ∨ ic = 8 ∨ ic = 9 := by
  simp [kConsonantIntervals]

/-- The unison is one. -/
theorem zero_mem_kConsonantIntervals : (0 : Int) ∈ kConsonantIntervals := List.mem_cons_self

/-- The valid notes are those of the register that are consonant with the bass. -/
theorem mem_validMidiNotes {bassPc minMidi maxMidi c : Int} :
    c ∈ validMidiNotes bassPc minMidi maxMidi ↔
      minMidi ≤ c ∧ c ≤ maxMidi ∧ intervalClass c bassPc ∈ kConsonantIntervals := by
  have hrange : c ∈ (List.range (maxMidi - minMidi + 1).toNat).map (fun i : Nat => minMidi + i) ↔
      minMidi ≤ c ∧ c ≤ maxMidi := by
    rw [List.mem_map]
    constructor
    · rintro ⟨i, hi, rfl⟩
      rw [List.mem_range] at hi
      omega
    · intro h
      exact ⟨(c - minMidi).toNat, List.mem_range.mpr (by omega), by omega⟩
  -- The test by pitch classes is the one by the interval above the bass.
  have hclass : (kConsonantIntervals.map fun interval => mod12 (bassPc + interval)).contains
      (mod12 c) = true ↔ intervalClass c bassPc ∈ kConsonantIntervals := by
    rw [List.contains_iff_mem, intervalClass_eq, mem_kConsonantIntervals]
    simp only [kConsonantIntervals, List.map_cons, List.map_nil, List.mem_cons, List.not_mem_nil,
      or_false, mod12_eq]
    omega
  rw [validMidiNotes, List.mem_filter, hrange, hclass, and_assoc]

/-- Every consonance to a bass note is in the lowest octave of the register. -/
theorem exists_valid (bassPc : Int) {ic : Int} (h : ic ∈ kConsonantIntervals) :
    ∃ c ∈ validMidiNotes bassPc kMinMidi kMaxMidi, intervalClass c bassPc = ic := by
  have hic := mem_kConsonantIntervals.mp h
  have hclass : intervalClass (kMinMidi + (bassPc + ic - kMinMidi) % 12) bassPc = ic := by
    rw [intervalClass_eq]
    omega
  refine ⟨_, ?_, hclass⟩
  rw [mem_validMidiNotes, hclass, kMinMidi, kMaxMidi]
  exact ⟨by omega, by omega, h⟩

/-- Every bass has one. -/
theorem validMidiNotes_ne_nil (bassPc : Int) : validMidiNotes bassPc kMinMidi kMaxMidi ≠ [] := by
  obtain ⟨c, hmem, -⟩ := exists_valid bassPc zero_mem_kConsonantIntervals
  exact List.ne_nil_of_mem hmem

/-! ### Candidates

The filter looks at the note before, and the ends of the bass admit octaves only. None of this takes
away the last candidate. -/

section

variable (cf : List Int) (n i : Nat) (prev : Previous) (bassPc : Int)

/-- The candidates for the downbeat of a bass note. -/
abbrev candidates : List Int :=
  filterFirstSpecies (validMidiNotes bassPc kMinMidi kMaxMidi) bassPc i n prev cf

/-- The filter drops notes and moves none. -/
theorem filterFirstSpecies_sublist (notes : List Int) :
    (filterFirstSpecies notes bassPc i n prev cf).Sublist notes := by
  unfold filterFirstSpecies
  dsimp only
  repeat' split
  all_goals first | exact List.Sublist.refl _ | exact List.filter_sublist

/-- The filter leaves a candidate. -/
theorem filterFirstSpecies_ne_nil {notes : List Int} (h : notes ≠ []) :
    filterFirstSpecies notes bassPc i n prev cf ≠ [] := by
  unfold filterFirstSpecies
  dsimp only
  repeat' split
  all_goals assumption

/-- Candidates are left whatever the filter drops. -/
theorem candidates_ne_nil : candidates cf n i prev bassPc ≠ [] :=
  filterFirstSpecies_ne_nil cf n i prev bassPc (validMidiNotes_ne_nil bassPc)

/-- At both ends only octaves are left. -/
theorem candidates_octave (hend : i = 0 ∨ i = n - 1) :
    ∀ c ∈ candidates cf n i prev bassPc, intervalClass c bassPc = 0 := by
  obtain ⟨octave, hmem, hclass⟩ := exists_valid bassPc zero_mem_kConsonantIntervals
  have hperfect : (validMidiNotes bassPc kMinMidi kMaxMidi).filter (fun c =>
      intervalClass c bassPc = 0 || intervalClass c bassPc = 12) ≠ [] :=
    List.ne_nil_of_mem (List.mem_filter.mpr ⟨hmem, by simp [hclass]⟩)
  intro c hc
  rw [candidates, filterFirstSpecies, if_neg (List.ne_nil_of_mem hmem), if_pos hend] at hc
  dsimp only at hc
  rw [if_neg hperfect, List.mem_filter, Bool.or_eq_true, decide_eq_true_iff,
    decide_eq_true_iff] at hc
  have hlt := intervalClass_eq c bassPc
  omega

/-- The register has 25 notes. -/
theorem length_validMidiNotes_le (bassPc : Int) :
    (validMidiNotes bassPc kMinMidi kMaxMidi).length ≤ 25 := by
  have hle := List.length_filter_le (fun midi =>
    (kConsonantIntervals.map fun interval => mod12 (bassPc + interval)).contains (mod12 midi))
    ((List.range (kMaxMidi - kMinMidi + 1).toNat).map fun i : Nat => kMinMidi + i)
  rw [List.length_map, List.length_range] at hle
  exact hle

end

/-! ### One note

Which candidate is taken is drawn. All that the proofs use of the draw is that the note is one of
the candidates. -/

/-- The choice is one of the notes. -/
theorem yields_choose {notes : List Int} (bassPc : Int) (h : notes ≠ [])
    (hlen : notes.length < 2 ^ 64) : Yields (choose notes bassPc) fun c => c ∈ notes := by
  have hsize : (UInt64.ofNat notes.length).toNat = notes.length := UInt64.toNat_ofNat_of_lt' hlen
  rw [choose, if_neg h]
  have hpos := List.length_pos_iff.mpr h
  refine yields_bind (yields_draw (by omega)) fun k hk => yields_pure ?_
  rw [hsize] at hk
  rw [List.getD_eq_getElem _ _ hk]
  exact List.getElem_mem hk

/-- A note of the register. -/
def InRegister (c : Int) : Prop := 60 ≤ c ∧ c ≤ 84

/-- The note on the downbeat is one of the candidates. -/
theorem yields_chooseDownbeat (cf : List Int) (n i : Nat) (prev : Previous) (bassPc : Int) :
    Yields (chooseDownbeat cf n i prev bassPc) fun c => c ∈ candidates cf n i prev bassPc := by
  have hsub := filterFirstSpecies_sublist cf n i prev bassPc
    (validMidiNotes bassPc kMinMidi kMaxMidi)
  have hlen := Nat.le_trans hsub.length_le (length_validMidiNotes_le bassPc)
  exact yields_choose bassPc (candidates_ne_nil cf n i prev bassPc) (by omega)

/-- What is known of a candidate. -/
theorem mem_candidates {cf : List Int} {n i : Nat} {prev : Previous} {bassPc c : Int}
    (h : c ∈ candidates cf n i prev bassPc) :
    InRegister c ∧ intervalClass c bassPc ∈ kConsonantIntervals ∧
      (i = 0 ∨ i = n - 1 → intervalClass c bassPc = 0) := by
  obtain ⟨hlow, hhigh, hclass⟩ := mem_validMidiNotes.mp
    ((filterFirstSpecies_sublist cf n i prev bassPc _).subset h)
  exact ⟨⟨hlow, hhigh⟩, hclass, fun hend => candidates_octave cf n i prev bassPc hend c h⟩

/-- A passing note stays in the register. -/
theorem yields_choosePassing (prevNote bassPc : Int) :
    Yields (choosePassing prevNote bassPc) InRegister := by
  refine yields_bind_any fun k => ?_
  dsimp only
  -- The direction is drawn, and both are treated alike.
  generalize (if k = 0 then (1 : Int) else -1) = direction
  split
  case isTrue =>
    -- Without a passing note the valid notes are taken.
    have hlen := length_validMidiNotes_le bassPc
    refine (yields_choose bassPc (validMidiNotes_ne_nil bassPc) (by omega)).mono
      fun c hc => ?_
    obtain ⟨hlow, hhigh, -⟩ := mem_validMidiNotes.mp hc
    exact ⟨hlow, hhigh⟩
  case isFalse hne =>
    have hlen : (passingNotes prevNote direction bassPc).length ≤ 3 := List.length_filter_le _ _
    refine (yields_choose bassPc hne (by omega)).mono fun c hc => ?_
    have hkept := (List.mem_filter.mp hc).2
    simp only [Bool.and_eq_true, decide_eq_true_iff] at hkept
    exact ⟨hkept.1.1, hkept.1.2⟩

/-- A note of the register is written as it is. -/
theorem yields_emit (tick dur : Int) {c : Int} (h : InRegister c) :
    Yields (emit tick dur c) fun e => (e.note.toNat : Int) = c := by
  obtain ⟨hlow, hhigh⟩ := h
  refine yields_bind_any fun tickOn => yields_bind_any fun last => yields_bind_any fun tickOff =>
    yields_bind_any fun velocity => yields_pure ?_
  show ((u8cast c).toNat : Int) = c
  rw [u8cast_toNat (by omega) (by omega)]
  omega

/-! ### The loop

A round leaves the note that it has played to the next one. `Rounds` keeps this state, so that a
property of two consecutive notes can be stated as well. -/

/-- The events `out` of the loop over `bass`, where each round does `Q` from its state. -/
inductive Rounds (Q : Nat → Previous → Int → List MidiEvent → Previous → Prop) :
    Nat → Previous → List Int → List MidiEvent → Prop where
  | nil (i : Nat) (prev : Previous) : Rounds Q i prev [] []
  | cons {i : Nat} {prev next : Previous} {bassPc : Int} {bass : List Int}
      {out rest : List MidiEvent} : Q i prev bassPc out next → Rounds Q (i + 1) next bass rest →
      Rounds Q i prev (bassPc :: bass) (out ++ rest)

/-- The rule for the loop. -/
theorem yields_overBass {round : Nat → Previous → Int → Seeded (List MidiEvent × Previous)}
    {Q : Nat → Previous → Int → List MidiEvent → Previous → Prop}
    (h : ∀ i prev bassPc, Yields (round i prev bassPc) fun r => Q i prev bassPc r.1 r.2)
    (i : Nat) (prev : Previous) (bass : List Int) :
    Yields (overBass round i prev bass) (Rounds Q i prev bass) := by
  induction bass generalizing i prev with
  | nil => exact yields_pure (.nil i prev)
  | cons bassPc bass ih =>
    refine yields_bind (h i prev bassPc) fun r hr => ?_
    exact yields_bind (ih (i + 1) r.2) fun rest hrest => yields_pure (.cons hr hrest)

/-- A round begins with a consonant note on the downbeat, an octave at both ends, and all of its
`k` notes are in the register. -/
structure ConsonantRound (n k i : Nat) (bassPc : Int) (out : List MidiEvent) : Prop where
  length : out.length = k
  range : ∀ e ∈ out, InRegister e.note.toNat
  downbeat : ∃ e, out[0]? = some e ∧ intervalClass e.note.toNat bassPc ∈ kConsonantIntervals ∧
    (i = 0 ∨ i = n - 1 → intervalClass e.note.toNat bassPc = 0)

/-- A round of the first species. -/
theorem firstRound_consonant (cf : List Int) (n : Nat) (slot : Int) (i : Nat) (prev : Previous)
    (bassPc : Int) : Yields (firstRound cf n slot i prev bassPc) fun r =>
      ConsonantRound n 1 i bassPc r.1 := by
  refine yields_bind_any fun tick => yields_bind_any fun dur => ?_
  refine yields_bind (yields_chooseDownbeat cf n i prev bassPc) fun chosen hchosen => ?_
  obtain ⟨hrange, hclass, hend⟩ := mem_candidates hchosen
  refine yields_bind (yields_emit tick dur hrange) fun e he => yields_pure ⟨rfl, ?_, e, rfl, ?_⟩
  · rw [List.forall_mem_singleton, he]
    exact hrange
  · rw [he]
    exact ⟨hclass, hend⟩

/-- A round of the second species, with its two notes. -/
theorem secondRound_consonant (cf : List Int) (n : Nat) (slot : Int) (i : Nat) (prev : Previous)
    (bassPc : Int) : Yields (secondRound cf n slot i prev bassPc) fun r =>
      ConsonantRound n 2 i bassPc r.1 := by
  refine yields_bind_any fun dur => yields_bind_any fun baseTick => ?_
  refine yields_bind (yields_chooseDownbeat cf n i prev bassPc) fun chosen hchosen => ?_
  obtain ⟨hrange, hclass, hend⟩ := mem_candidates hchosen
  refine yields_bind (yields_emit baseTick dur hrange) fun down hdown => ?_
  refine yields_bind_any fun tick => ?_
  refine yields_bind (yields_choosePassing chosen bassPc) fun passing hpassing => ?_
  refine yields_bind (yields_emit tick dur hpassing) fun up hup =>
    yields_pure ⟨rfl, ?_, down, rfl, ?_⟩
  · rw [List.forall_mem_cons, List.forall_mem_singleton, hdown, hup]
    exact ⟨hrange, hpassing⟩
  · rw [hdown]
    exact ⟨hclass, hend⟩

/-! ### The line

The two species play one or two notes for a bass note. The statement counts them, and says of the
first of each group that it is consonant. -/

/-- The notes for one bass note. -/
def notesPerBass : CounterpointSpecies → Nat
  | .first  => 1
  | .second => 2

/-- A line over a bass, with `k` notes for each bass note: the first of them is consonant, and at
both ends of the bass an octave. -/
structure ConsonantLine (k : Nat) (bass : List Int) (out : List MidiEvent) : Prop where
  length : out.length = k * bass.length
  range : ∀ e ∈ out, InRegister e.note.toNat
  consonant : ∀ i bassPc, bass[i]? = some bassPc → ∃ e, out[k * i]? = some e ∧
    intervalClass e.note.toNat bassPc ∈ kConsonantIntervals ∧
    (i = 0 ∨ i = bass.length - 1 → intervalClass e.note.toNat bassPc = 0)

/-- The rounds from index `i` on, joined. -/
theorem Rounds.consonant {n k i : Nat} {prev : Previous} {bass : List Int} {out : List MidiEvent}
    (h : Rounds (fun i _ bassPc out _ => ConsonantRound n k i bassPc out) i prev bass out) :
    out.length = k * bass.length ∧ (∀ e ∈ out, InRegister e.note.toNat) ∧
      ∀ j bassPc, bass[j]? = some bassPc → ∃ e, out[k * j]? = some e ∧
        intervalClass e.note.toNat bassPc ∈ kConsonantIntervals ∧
        (i + j = 0 ∨ i + j = n - 1 → intervalClass e.note.toNat bassPc = 0) := by
  -- The downbeat of the first round is note 0, and round `j` of the rest starts `k` notes later.
  induction h with
  | nil => simp
  | @cons i prev next bassPc bass out rest hround hrest ih =>
    obtain ⟨ihlength, ihrange, ihline⟩ := ih
    refine ⟨?_, List.forall_mem_append.mpr ⟨hround.range, ihrange⟩, fun j b hb => ?_⟩
    · rw [List.length_append, hround.length, ihlength, List.length_cons, Nat.mul_succ,
        Nat.add_comm]
    · cases j with
      | zero =>
        obtain ⟨e, he, hclass⟩ := hround.downbeat
        obtain rfl := Option.some.inj hb
        obtain ⟨hlt, -⟩ := List.getElem?_eq_some_iff.mp he
        exact ⟨e, (List.getElem?_append_left hlt).trans he, hclass⟩
      | succ j =>
        obtain ⟨e, he, hclass, hend⟩ := ihline j b hb
        have hplace : k * (j + 1) = out.length + k * j := by
          rw [hround.length, Nat.mul_succ, Nat.add_comm]
        refine ⟨e, ?_, hclass, fun h => hend (by omega)⟩
        rw [hplace, List.getElem?_append_right (Nat.le_add_right _ _), Nat.add_sub_cancel_left]
        exact he

/-- Consonant rounds make a consonant line. Induction on the bass notes, with the round's number. -/
theorem yields_consonantLine {k : Nat} {bass : List Int}
    {round : Nat → Previous → Int → Seeded (List MidiEvent × Previous)}
    (h : ∀ i prev bassPc, Yields (round i prev bassPc) fun r =>
      ConsonantRound bass.length k i bassPc r.1) (prev : Previous) :
    Yields (overBass round 0 prev bass) (ConsonantLine k bass) := by
  refine (yields_overBass (Q := fun i _ bassPc out _ => ConsonantRound bass.length k i bassPc out)
    h 0 prev bass).mono fun out hout => ?_
  obtain ⟨hlength, hrange, hline⟩ := hout.consonant
  exact ⟨hlength, hrange, by simpa only [Nat.zero_add] using hline⟩

section

variable {req : CounterpointRequest}

/-- What the loop yields for every length of the slots, the engine generates. -/
theorem generate_yields {P : List MidiEvent → Prop} (hbass : req.bassNotes ≠ [])
    (hcf : req.cantusFirmus ≠ [])
    (hfirst : req.species = .first → ∀ slot, Yields (generateFirstSpecies req slot) P)
    (hsecond : req.species = .second → ∀ slot, Yields (generateSecondSpecies req slot) P) :
    P (generate req).val := by
  have hsome : ¬ (req.bassNotes = [] ∨ req.cantusFirmus = []) := not_or.mpr ⟨hbass, hcf⟩
  rw [generate, if_neg hsome, Sanitized.val_bind]
  split
  · rename_i hspecies
    exact yields_run (hfirst hspecies _) req.seed
  · rename_i hspecies
    exact yields_run (hsecond hspecies _) req.seed

/-- What `generate` returns for a bass and a cantus firmus is such a line. -/
theorem generate_line (hbass : req.bassNotes ≠ []) (hcf : req.cantusFirmus ≠ []) :
    ConsonantLine (notesPerBass req.species) req.bassNotes (generate req).val := by
  apply generate_yields hbass hcf
  · intro hspecies slot
    rw [hspecies]
    exact yields_consonantLine (firstRound_consonant req.cantusFirmus _ slot) {}
  · intro hspecies slot
    rw [hspecies]
    exact yields_consonantLine (secondRound_consonant req.cantusFirmus _ slot) {}

end

/-- A line over the bass is consonant on its downbeats, and every downbeat has a candidate: the
octave for want of one is never played. -/
theorem generate_consonantLine (req : CounterpointRequest) (hbass : req.bassNotes ≠ [])
    (hcf : req.cantusFirmus ≠ []) :
    ConsonantLine (notesPerBass req.species) req.bassNotes (generate req).val ∧
      ∀ bassPc ∈ req.bassNotes, ∀ i prev, filterFirstSpecies
        (validMidiNotes bassPc kMinMidi kMaxMidi) bassPc i req.bassNotes.length prev
        req.cantusFirmus ≠ [] := by
  constructor
  · exact generate_line hbass hcf
  · intro bassPc _ i prev
    exact candidates_ne_nil req.cantusFirmus req.bassNotes.length i prev bassPc

/-- Two notes over a rising fifth. -/
theorem generate_consonantLine_two :
    ConsonantLine 1 [-7, 0] (generate ⟨[0, 2], [-7, 0], 1, 7, .first, 480⟩).val :=
  (generate_consonantLine ⟨[0, 2], [-7, 0], 1, 7, .first, 480⟩ (List.cons_ne_nil _ _)
    (List.cons_ne_nil _ _)).1

end AiMidi.Proofs.Counterpoint
