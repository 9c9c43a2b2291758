import AiMidi.Proofs.Orchestration.Registers

/-!
# `AiMidi.Proofs.Orchestration.Players`: which instruments have notes

The harmony and the bass have notes in every bar, and the melody and the countermelody have those of
the given melody. A pad, a rhythm and a fill leave out each tone of a chord that does not fit into
the range of their instrument, so an instrument with a narrow range can be silent.

`Plays` is the condition on the instrument and the progression. `fullPushes_names` shows that it is
exact: the tracks that `orchestrateFull` writes to are those of the instruments that play.
-/

set_option autoImplicit false

namespace AiMidi.Proofs.Orchestration

open AiMidi.Lib AiMidi.Lib.Seeded AiMidi.Theory AiMidi.Theory.OrchestrationEngine

/-- Some tone of the chord fits into the range of the instrument. -/
def HasTone (chord : ParsedChord) (inst : OrchestralInstrument) : Prop :=
  ∃ off ∈ OrchestrationEngine.offsetsFor chord.quality,
    inRange inst (chordTone inst chord.rootPc off) = true

/-- The tones of a chord are few, so this is decided. -/
instance (chord : ParsedChord) : DecidablePred (HasTone chord) := fun inst =>
  inferInstanceAs (Decidable (∃ off ∈ OrchestrationEngine.offsetsFor chord.quality,
    inRange inst (chordTone inst chord.rootPc off) = true))

/-- The roles that leave out what does not fit. -/
def Selective (inst : OrchestralInstrument) : Prop :=
  inst.role = .pad ∨ inst.role = .rhythm ∨ inst.role = .fill

/-- The role decides whether an instrument waits for a tone. -/
instance : DecidablePred Selective := fun inst =>
  inferInstanceAs (Decidable (inst.role = .pad ∨ inst.role = .rhythm ∨ inst.role = .fill))

/-- A pad, a rhythm or a fill plays when the chord of some bar has a tone for it. The others always
play. -/
def Plays (progression : List Bytes) (bars : Int) (inst : OrchestralInstrument) : Prop :=
  Selective inst → ∃ bar ∈ List.range bars.toNat, HasTone (chordOf progression bar) inst

/-- The bars are finitely many, so this is decided. -/
instance (progression : List Bytes) (bars : Int) : DecidablePred (Plays progression bars) :=
  fun inst => inferInstanceAs (Decidable (Selective inst →
    ∃ bar ∈ List.range bars.toNat, HasTone (chordOf progression bar) inst))

/-- The names of the pushes are those of the instruments with `plays`. -/
def Names (insts : List OrchestralInstrument) (plays : OrchestralInstrument → Prop)
    (pushes : List Push) : Prop :=
  ∀ name, (∃ p ∈ pushes, p.1 = name) ↔ ∃ inst ∈ insts, plays inst ∧ inst.name = name

variable {insts : List OrchestralInstrument}

/-! ### One bar of a role

For each role the lemma says which names its pushes bear. Draws decide velocities and choices among
notes, but never whether an instrument plays. -/

section

variable {chord : ParsedChord} (barStart : UInt32)

/-- The loop over the instruments names each of them. -/
theorem giveNotes_names (duration baseVel : Int) (instIdx : Nat) (pool : List Int) :
    Yields (giveNotes barStart duration baseVel insts instIdx pool)
      (Names insts fun _ => True) := by
  induction insts generalizing instIdx pool with
  | nil => exact yields_pure fun name => by simp
  | cons inst insts ih =>
    refine yields_bind_any fun tickOff => yields_bind_any fun k =>
      yields_bind (ih (instIdx + 1) _) fun rest hrest => yields_pure fun name => ?_
    rw [List.exists_mem_cons_iff, hrest name, List.exists_mem_cons_iff, true_and]
    rfl

/-- The harmony names all its instruments, whatever the chord. -/
theorem assignChordToHarmony_names (duration baseVel : Int) :
    Yields (assignChordToHarmony chord insts barStart duration baseVel)
      (Names insts fun _ => True) := by
  unfold assignChordToHarmony
  split
  · rename_i hnil
    exact yields_pure fun name => by simp [hnil]
  · exact giveNotes_names barStart duration baseVel 0 _

/-- The bass names all its instruments. -/
theorem assignBass_names (beatTicks : Int) :
    Yields (assignBass chord insts barStart beatTicks) (Names insts fun _ => True) := by
  refine yields_forEach fun inst _ => ?_
  refine yields_bind_any fun k => yields_bind_any fun end1 => yields_bind_any fun off1 =>
    yields_bind_any fun on2 => yields_bind_any fun end2 => yields_bind_any fun off2 =>
    yields_pure fun name => ?_
  simp [pushNote]

/-- The root of a chord symbol is a pitch class already. -/
theorem assignPad_names (hroot : 0 ≤ chord.rootPc ∧ chord.rootPc < 12) (duration : Int) :
    Yields (assignPad chord insts barStart duration) (Names insts (HasTone chord)) := by
  have hpc : Int.tmod chord.rootPc 12 = chord.rootPc := Int.tmod_eq_of_lt hroot.1 hroot.2
  refine yields_forEach fun inst _ => yields_bind_any fun k => yields_bind_any fun tickOff => ?_
  refine (yields_forEach (R := fun off name =>
    inRange inst (chordTone inst chord.rootPc off) = true ∧ inst.name = name) fun off _ => ?_).mono
    fun out hout name => (hout name).trans ?_
  · dsimp only
    rw [hpc]
    split
    · rename_i hin
      exact yields_pure fun name => by simp [hin, pushNote]
    · rename_i hout
      exact yields_pure fun name => by simp [hout]
  · simp only [HasTone, ← and_assoc, exists_and_right]

/-- A tone of a beat names its instrument when the tone lies in the range. -/
theorem beatTone_names (dur gap baseVel : Int) (m : UInt64) (inst : OrchestralInstrument)
    (beat : Nat) (off : Int) :
    Yields (beatTone chord barStart dur gap baseVel m inst beat off) fun out =>
      ∀ name, (∃ p ∈ out, p.1 = name) ↔
        inRange inst (chordTone inst chord.rootPc off) = true ∧ inst.name = name := by
  unfold beatTone
  dsimp only
  split
  · rename_i hin
    exact yields_bind_any fun bt => yields_bind_any fun k => yields_bind_any fun end1 =>
      yields_bind_any fun tickOff => yields_pure fun name => by simp [hin, pushNote]
  · rename_i hout
    exact yields_pure fun name => by simp [hout]

/-- Stabs name the instruments with a tone of the chord. -/
theorem chordStabs_names (m : UInt64) :
    Yields (chordStabs m chord insts barStart) (Names insts (HasTone chord)) := by
  refine yields_forEach fun inst _ => ?_
  have hbeat (beat : Nat) : Yields (forEach (beatTone chord barStart (kPpq / 2) 5 55 m inst beat)
      (OrchestrationEngine.offsetsFor chord.quality)) fun out : List Push =>
        ∀ name, (∃ p ∈ out, p.1 = name) ↔ HasTone chord inst ∧ inst.name = name := by
    refine (yields_forEach fun off _ => beatTone_names barStart _ _ _ m inst beat off).mono
      fun out hout name => (hout name).trans ?_
    simp only [HasTone, ← and_assoc, exists_and_right]
  refine (yields_forEach fun beat _ => hbeat beat).mono fun out hout name => (hout name).trans ?_
  simp

end

/-! ### The whole operation

A bar consists of the roles one after the other. The names of a whole run are those of some bar, or
of the melody and the countermelody. -/

/-- The roles that play from the chords. -/
def Accompanies (inst : OrchestralInstrument) : Prop :=
  inst.role ≠ .melody ∧ inst.role ≠ .countermelody

/-- A bar names the instruments that accompany and have a tone in it. -/
theorem fullBar_names (progression : List Bytes) (bar : Nat) :
    Yields (fullBar (groupByRole insts) progression bar) (Names insts fun inst =>
      Accompanies inst ∧ (Selective inst → HasTone (chordOf progression bar) inst)) := by
  have hroot := GuitarChords.parseChord_rootPc (progression.getD (bar % progression.length) [])
  refine yields_bind_any fun barStart => ?_
  refine yields_bind (assignChordToHarmony_names barStart 1900 55) fun harmony hharmony => ?_
  refine yields_bind (assignBass_names barStart kPpq) fun bass hbass => ?_
  refine yields_bind (assignPad_names barStart hroot 1900) fun pad hpad => ?_
  refine yields_bind (chordStabs_names barStart 21) fun stabs hstabs => yields_pure fun name => ?_
  -- The bar goes through its five groups, and each names the members that it plays.
  simp only [List.mem_append, or_and_right, exists_or, hharmony name, hbass name, hpad name,
    hstabs name, groupByRole, sortByName, List.mem_insertionSort, List.mem_filter,
    decide_eq_true_eq, true_and]
  constructor
  · rintro (((⟨inst, ⟨hmem, hrole⟩, hname⟩ | ⟨inst, ⟨hmem, hrole⟩, hname⟩) |
      ⟨inst, ⟨hmem, hrole⟩, htone, hname⟩) | (⟨inst, ⟨hmem, hrole⟩, htone, hname⟩ |
      ⟨inst, ⟨hmem, hrole⟩, htone, hname⟩))
    · exact ⟨inst, hmem, ⟨by simp [Accompanies, hrole], by simp [Selective, hrole]⟩, hname⟩
    · exact ⟨inst, hmem, ⟨by simp [Accompanies, hrole], by simp [Selective, hrole]⟩, hname⟩
    · exact ⟨inst, hmem, ⟨by simp [Accompanies, hrole], fun _ => htone⟩, hname⟩
    · exact ⟨inst, hmem, ⟨by simp [Accompanies, hrole], fun _ => htone⟩, hname⟩
    · exact ⟨inst, hmem, ⟨by simp [Accompanies, hrole], fun _ => htone⟩, hname⟩
  · rintro ⟨inst, hmem, ⟨⟨hmelody, hcounter⟩, htone⟩, hname⟩
    cases hrole : inst.role with
    | melody => exact absurd hrole hmelody
    | countermelody => exact absurd hrole hcounter
    | harmony => exact .inl (.inl (.inl ⟨inst, ⟨hmem, hrole⟩, hname⟩))
    | bass => exact .inl (.inl (.inr ⟨inst, ⟨hmem, hrole⟩, hname⟩))
    | pad => exact .inl (.inr ⟨inst, ⟨hmem, hrole⟩, htone (.inl hrole), hname⟩)
    | rhythm => exact .inr (.inl ⟨inst, ⟨hmem, hrole⟩, htone (.inr (.inl hrole)), hname⟩)
    | fill => exact .inr (.inr ⟨inst, ⟨hmem, hrole⟩, htone (.inr (.inr hrole)), hname⟩)

/-- A countermelody names all its instruments when there is a melody. -/
theorem assignCountermelody_names (insts : List OrchestralInstrument) {melody : List MidiEvent}
    (hmelody : melody ≠ []) : Names insts (fun _ => True) (assignCountermelody melody insts) := by
  intro name
  obtain ⟨note, hnote⟩ := List.exists_mem_of_ne_nil _ hmelody
  constructor
  · rintro ⟨p, hp, rfl⟩
    obtain ⟨inst, hmem, hp⟩ := List.mem_flatMap.mp hp
    obtain ⟨-, -, rfl⟩ := List.mem_map.mp hp
    exact ⟨inst, hmem, trivial, rfl⟩
  · rintro ⟨inst, hmem, -, rfl⟩
    exact ⟨_, List.mem_flatMap.mpr ⟨inst, hmem, List.mem_map.mpr ⟨note, hnote, rfl⟩⟩, rfl⟩

/-- Beside the melody, the pushes bear the names of the other instruments that play. -/
theorem fullPushes_names {melody : List MidiEvent} (hmelody : melody ≠ [])
    (progression : List Bytes) {bars : Int} (hbars : 1 ≤ bars) :
    Yields (fullPushes melody (groupByRole insts) progression bars) fun pushes => ∃ rest,
      pushes = assignMelody melody (sortByName (groupByRole insts).melody) ++ rest ∧
        Names insts (fun inst => inst.role ≠ .melody ∧ Plays progression bars inst) rest := by
  refine yields_bind (yields_forEach fun bar _ => fullBar_names progression bar)
    fun backing hbacking => yields_pure ⟨_, List.append_assoc _ _ _, fun name => ?_⟩
  have hcounter := assignCountermelody_names (sortByName (groupByRole insts).countermelody) hmelody
    name
  simp only [List.mem_append, or_and_right, exists_or, hcounter, hbacking name]
  simp only [groupByRole, sortByName, List.mem_insertionSort, List.mem_filter, decide_eq_true_eq,
    true_and]
  constructor
  · rintro (⟨inst, ⟨hmem, hrole⟩, hname⟩ | ⟨bar, hbar, inst, hmem, ⟨⟨hrole, -⟩, htone⟩, hname⟩)
    · exact ⟨inst, hmem, ⟨by simp [hrole], by simp [Plays, Selective, hrole]⟩, hname⟩
    · exact ⟨inst, hmem, ⟨hrole, fun hselective => ⟨bar, hbar, htone hselective⟩⟩, hname⟩
  · rintro ⟨inst, hmem, ⟨hrole, hplays⟩, hname⟩
    by_cases hcounter : inst.role = .countermelody
    · exact .inl ⟨inst, ⟨hmem, hcounter⟩, hname⟩
    · by_cases hselective : Selective inst
      · obtain ⟨bar, hbar, htone⟩ := hplays hselective
        exact .inr ⟨bar, hbar, inst, hmem, ⟨⟨hrole, hcounter⟩, fun _ => htone⟩, hname⟩
      · -- It plays in every bar, so in the first one.
        exact .inr ⟨0, List.mem_range.mpr (by omega), inst, hmem,
          ⟨⟨hrole, hcounter⟩, fun h => absurd h hselective⟩, hname⟩

end AiMidi.Proofs.Orchestration
