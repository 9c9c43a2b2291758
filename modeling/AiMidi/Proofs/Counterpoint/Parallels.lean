import AiMidi.Proofs.Counterpoint.Consonance

/-!
# `AiMidi.Proofs.Counterpoint.Parallels`: parallel fifths and octaves

The filter of the first species takes out parallels to the note before, but not at the last bass
note, where only octaves are left. And when nothing passes the filter, all consonances are allowed
again, the parallels too. `stepOk_iff` says at which steps no candidate is a parallel.

`firstSpecies_noParallels` says so for a whole line: when all of its steps are of that kind, it has
no parallels. With two bass notes the second one is never of that kind, since both notes are
octaves (`twoNotes_parallel`).
-/

set_option autoImplicit false

namespace AiMidi.Proofs.Counterpoint

open AiMidi.Lib AiMidi.Lib.Seeded AiMidi.Theory AiMidi.Theory.CounterpointEngine

/-- Both intervals are fifths, or both are octaves. -/
def Parallel (ic ic' : Int) : Prop := ic = ic' ∧ (ic = 7 ∨ ic = 0)

/-- The interval classes of a line with one note for each bass note. -/
def classes (bass : List Int) (out : List MidiEvent) : List Int :=
  List.zipWith (fun bassPc e => intervalClass e.note.toNat bassPc) bass out

/-- No two consecutive notes make parallels with their bass notes. -/
def NoParallels (bass : List Int) (out : List MidiEvent) : Prop :=
  (classes bass out).IsChain fun ic ic' => ¬ Parallel ic ic'

/-! ### One step

A step is judged by the candidates that are left, for whatever note comes before. At the last bass
note the filter is not asked, and in the middle it may be given up. -/

/-- The step to the bass note `i` of `n` has a way out of parallels. The last note is an octave, so
the note before it is none. For another note, the note before is neither a fifth nor an octave, or
some consonance passes the filter. -/
def StepOk (cf : List Int) (n i : Nat) (prev : Previous) (bassPc : Int) : Prop :=
  if i = n - 1 then prev.ic ≠ 0
  else (prev.ic ≠ 7 ∧ prev.ic ≠ 0) ∨ ∃ c ∈ validMidiNotes bassPc kMinMidi kMaxMidi,
    keepsCandidate bassPc (cfDirectionAt cf i) prev c = true

/-- What passes the filter is no parallel. -/
theorem not_parallel_of_keeps {bassPc cfDir c : Int} {prev : Previous}
    (h : keepsCandidate bassPc cfDir prev c = true) :
    ¬ Parallel prev.ic (intervalClass c bassPc) := by
  rintro ⟨heq, hperfect⟩
  have hparallel : (prev.ic = 7 ∧ intervalClass c bassPc = 7) ∨
      (prev.ic = 0 ∧ intervalClass c bassPc = 0) := by
    rw [← heq]
    omega
  rw [keepsCandidate, if_pos hparallel] at h
  exact absurd h (by decide)

/-- In the middle of the bass the filter is applied, unless it would leave nothing. -/
theorem candidates_middle {cf : List Int} {n i : Nat} {prev : Previous} (bassPc : Int)
    (hmiddle : ¬ (i = 0 ∨ i = n - 1)) (hprev : prev.note ≥ 0) :
    candidates cf n i prev bassPc =
      let filtered := (validMidiNotes bassPc kMinMidi kMaxMidi).filter
        (keepsCandidate bassPc (cfDirectionAt cf i) prev)
      if filtered = [] then validMidiNotes bassPc kMinMidi kMaxMidi else filtered := by
  rw [candidates, filterFirstSpecies, if_neg (validMidiNotes_ne_nil bassPc), if_neg hmiddle,
    if_pos hprev]

/-- No candidate of a step is a parallel to the note before, exactly when the step is ok. -/
theorem stepOk_iff (cf : List Int) (n : Nat) {i : Nat} {prev : Previous} (bassPc : Int)
    (hi : 0 < i) (hprev : 0 ≤ prev.note) :
    (∀ c ∈ candidates cf n i prev bassPc, ¬ Parallel prev.ic (intervalClass c bassPc)) ↔
      StepOk cf n i prev bassPc := by
  by_cases hlast : i = n - 1
  · rw [StepOk, if_pos hlast]
    have hoctave := candidates_octave cf n i prev bassPc (.inr hlast)
    constructor
    · intro h hzero
      obtain ⟨c, hc⟩ := List.exists_mem_of_ne_nil _ (candidates_ne_nil cf n i prev bassPc)
      exact h c hc ⟨hzero.trans (hoctave c hc).symm, .inr hzero⟩
    · intro hne c hc hparallel
      exact hne (hparallel.1.trans (hoctave c hc))
  · rw [StepOk, if_neg hlast, candidates_middle bassPc (by omega) hprev]
    dsimp only
    split
    case isTrue hnone =>
      -- The filter has left nothing, so all consonances are candidates.
      rw [List.filter_eq_nil_iff] at hnone
      constructor
      · intro h
        refine .inl ⟨fun hseven => ?_, fun hzero => ?_⟩
        · have hfifth : (7 : Int) ∈ kConsonantIntervals := by decide
          obtain ⟨c, hc, hclass⟩ := exists_valid bassPc hfifth
          exact h c hc ⟨hseven.trans hclass.symm, .inl hseven⟩
        · obtain ⟨c, hc, hclass⟩ := exists_valid bassPc zero_mem_kConsonantIntervals
          exact h c hc ⟨hzero.trans hclass.symm, .inr hzero⟩
      · rintro (⟨hseven, hzero⟩ | ⟨c, hc, hkept⟩) c' hc' hparallel
        · exact hparallel.2.elim hseven hzero
        · exact hnone c hc hkept
    case isFalse hsome =>
      obtain ⟨c, hc⟩ := List.exists_mem_of_ne_nil _ hsome
      obtain ⟨hmem, hkept⟩ := List.mem_filter.mp hc
      refine iff_of_true (fun c' hc' => ?_) (.inr ⟨c, hmem, hkept⟩)
      exact not_parallel_of_keeps (List.mem_filter.mp hc').2

/-! ### The run

The condition is asked before each draw, in the state that the draws so far have led to. The
induction follows the rounds with the interval class of the note before. -/

/-- All steps behind the first note are ok. Each step leaves the note that it has drawn. -/
inductive StepsOk (cf : List Int) (n : Nat) :
    Nat → Previous → List Int → List MidiEvent → Prop where
  | nil (i : Nat) (prev : Previous) (bass : List Int) : StepsOk cf n i prev bass []
  | cons {i : Nat} {prev : Previous} {bassPc : Int} {bass : List Int} {e : MidiEvent}
      {out : List MidiEvent} : (0 < i → StepOk cf n i prev bassPc) →
      StepsOk cf n (i + 1) ⟨e.note.toNat, intervalClass e.note.toNat bassPc⟩ bass out →
      StepsOk cf n i prev (bassPc :: bass) (e :: out)

/-- A round of the first species draws one candidate and leaves it to the next round. -/
def Drawn (cf : List Int) (n i : Nat) (prev : Previous) (bassPc : Int) (out : List MidiEvent)
    (next : Previous) : Prop :=
  ∃ e, out = [e] ∧ (e.note.toNat : Int) ∈ candidates cf n i prev bassPc ∧
    next = ⟨e.note.toNat, intervalClass e.note.toNat bassPc⟩

/-- A round draws its note from the candidates. -/
theorem firstRound_drawn (cf : List Int) (n : Nat) (slot : Int) (i : Nat) (prev : Previous)
    (bassPc : Int) :
    Yields (firstRound cf n slot i prev bassPc) fun r => Drawn cf n i prev bassPc r.1 r.2 := by
  refine yields_bind_any fun tick => yields_bind_any fun dur => ?_
  refine yields_bind (yields_chooseDownbeat cf n i prev bassPc) fun chosen hchosen => ?_
  refine yields_bind (yields_emit tick dur (mem_candidates hchosen).1) fun e he =>
    yields_pure ⟨e, rfl, ?_, ?_⟩
  · rw [he]
    exact hchosen
  · rw [he]

/-- Behind the first note: the interval class before and those of the line from there on. -/
theorem Rounds.noParallels {cf : List Int} {n i : Nat} {prev : Previous} {bass : List Int}
    {out : List MidiEvent} (h : Rounds (Drawn cf n) i prev bass out) (hi : 0 < i)
    (hprev : 0 ≤ prev.note) (hok : StepsOk cf n i prev bass out) :
    (prev.ic :: classes bass out).IsChain fun ic ic' => ¬ Parallel ic ic' := by
  induction h with
  | nil => exact .singleton _
  | @cons i prev next bassPc bass out rest hdrawn hrest ih =>
    obtain ⟨e, rfl, hmem, rfl⟩ := hdrawn
    obtain _ | ⟨hstep, hok⟩ := hok
    have hnot := (stepOk_iff cf n bassPc hi hprev).mpr (hstep hi) _ hmem
    exact .cons_cons hnot (ih (Nat.succ_pos i) (Int.natCast_nonneg _) hok)

/-- The whole line: its first note has nothing before it. -/
theorem Rounds.noParallels_zero {cf : List Int} {n : Nat} {bass : List Int} {out : List MidiEvent}
    (h : Rounds (Drawn cf n) 0 {} bass out) (hok : StepsOk cf n 0 {} bass out) :
    NoParallels bass out := by
  cases h with
  | nil => exact .nil
  | cons hdrawn hrest =>
    obtain ⟨e, rfl, hmem, rfl⟩ := hdrawn
    obtain _ | ⟨-, hok⟩ := hok
    exact hrest.noParallels Nat.one_pos (Int.natCast_nonneg _) hok

/-- The line of the first species consists of such rounds. -/
theorem generate_rounds (req : CounterpointRequest) (hspecies : req.species = .first)
    (hbass : req.bassNotes ≠ []) (hcf : req.cantusFirmus ≠ []) :
    Rounds (Drawn req.cantusFirmus req.bassNotes.length) 0 {} req.bassNotes (generate req).val := by
  apply generate_yields hbass hcf
  · intro _ slot
    exact yields_overBass (firstRound_drawn req.cantusFirmus req.bassNotes.length slot) 0 {}
      req.bassNotes
  · intro hsecond
    rw [hspecies] at hsecond
    exact absurd hsecond (by decide)

/-- A line of the first species all of whose steps are ok has no parallels. -/
theorem firstSpecies_noParallels (req : CounterpointRequest) (hspecies : req.species = .first)
    (hok : StepsOk req.cantusFirmus req.bassNotes.length 0 {} req.bassNotes (generate req).val) :
    NoParallels req.bassNotes (generate req).val := by
  by_cases hsome : req.bassNotes = [] ∨ req.cantusFirmus = []
  · have hnil : (generate req).val = [] := by
      rw [generate, if_pos hsome]
      rfl
    rw [hnil, NoParallels, classes, List.zipWith_nil_right]
    exact .nil
  · rw [not_or] at hsome
    exact (generate_rounds req hspecies hsome.1 hsome.2).noParallels_zero hok

/-- Three notes over a bass and a cantus firmus that do not move. -/
def stillBass : CounterpointRequest := ⟨[0, 0, 0], [0, 0, 0], 1, 7, .first, 480⟩

/-- The second note of the three is no octave, so that the third one can be. -/
theorem stillBass_stepsOk {out : List MidiEvent}
    (h : Rounds (Drawn stillBass.cantusFirmus stillBass.bassNotes.length) 0 {}
      stillBass.bassNotes out) :
    StepsOk stillBass.cantusFirmus stillBass.bassNotes.length 0 {} stillBass.bassNotes out := by
  obtain _ | ⟨⟨e, rfl, hmem, rfl⟩, hrounds⟩ := h
  obtain _ | ⟨⟨e', rfl, hmem', rfl⟩, hrounds⟩ := hrounds
  obtain _ | ⟨⟨e'', rfl, -, rfl⟩, hrounds⟩ := hrounds
  obtain _ | _ := hrounds
  have hoctave := (mem_candidates hmem).2.2 (.inl rfl)
  -- A minor third passes the filter.
  have hsecond : StepOk [0, 0, 0] 3 1 ⟨e.note.toNat, intervalClass e.note.toNat 0⟩ 0 := by
    rw [StepOk, if_neg (by decide), hoctave]
    exact .inr ⟨63, by decide, rfl⟩
  have hnot := (stepOk_iff [0, 0, 0] 3 0 Nat.one_pos (Int.natCast_nonneg _)).mpr hsecond _ hmem'
  have hthird : StepOk [0, 0, 0] 3 2 ⟨e'.note.toNat, intervalClass e'.note.toNat 0⟩ 0 := by
    rw [StepOk, if_pos (by decide)]
    exact fun hzero => hnot ⟨hoctave.trans hzero.symm, .inr hoctave⟩
  exact .cons (fun h => absurd h (Nat.lt_irrefl 0))
    (.cons (fun _ => hsecond) (.cons (fun _ => hthird) (.nil _ _ _)))

/-- These three notes have no parallels. -/
theorem stillBass_noParallels : NoParallels stillBass.bassNotes (generate stillBass).val :=
  firstSpecies_noParallels stillBass rfl (stillBass_stepsOk
    (generate_rounds stillBass rfl (List.cons_ne_nil _ _) (List.cons_ne_nil _ _)))

/-- Two notes are two octaves. -/
theorem not_noParallels_pair {cf : List Int} {bassPc bassPc' : Int} {out : List MidiEvent}
    (h : Rounds (Drawn cf 2) 0 {} [bassPc, bassPc'] out) :
    ¬ NoParallels [bassPc, bassPc'] out := by
  obtain _ | ⟨⟨e, rfl, hmem, rfl⟩, hrounds⟩ := h
  obtain _ | ⟨⟨e', rfl, hmem', rfl⟩, hrounds⟩ := hrounds
  obtain _ | _ := hrounds
  have hoctave := (mem_candidates hmem).2.2 (.inl rfl)
  have hoctave' := (mem_candidates hmem').2.2 (.inr rfl)
  rintro (_ | _ | ⟨hnot, -⟩)
  exact hnot ⟨hoctave.trans hoctave'.symm, .inr hoctave⟩

/-- A rising fifth in the bass. -/
def risingFifth : CounterpointRequest := ⟨[0, 2], [0, 7], 1, 7, .first, 480⟩

/-- The line over the rising fifth has parallel octaves. -/
theorem twoNotes_parallel : ¬ NoParallels risingFifth.bassNotes (generate risingFifth).val :=
  not_noParallels_pair
    (generate_rounds risingFifth rfl (List.cons_ne_nil _ _) (List.cons_ne_nil _ _))

end AiMidi.Proofs.Counterpoint
