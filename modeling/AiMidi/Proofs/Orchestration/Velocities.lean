import AiMidi.Proofs.Orchestration.Melody

/-!
# `AiMidi.Proofs.Orchestration.Velocities`: velocities of seven bits

Each role sets its velocities in a way of its own. A melody instrument takes those of the melody,
and the backing draws all of its velocities between 45 and 90. A countermelody instrument takes ten
off a velocity. The result is capped at 127 but not at 0, so a note softer than ten wraps to a
velocity above 245.

`velocities_iff` says for the tracks of `orchestrateFull` when no velocity wraps: when there is no
countermelody or no note of the melody is that soft.

The backing is bounded role by role, with the base and the spread of its draws. The melody
instruments copy what they are given, so the question is left to the countermelody
(`assignCountermelody_dataVelocity_iff`), and the rest of the module carries its answer from the
pushes to the tracks.
-/

set_option autoImplicit false

namespace AiMidi.Proofs.Orchestration

open AiMidi.Lib AiMidi.Lib.Seeded AiMidi.Theory AiMidi.Theory.OrchestrationEngine
open AiMidi.Theory.OrchestrateWorkflow (buildEnsemble)

/-- All velocities of the tracks fit seven bits. -/
def DataVelocities (tracks : List (Bytes × List MidiEvent)) : Prop :=
  ∀ t ∈ tracks, ∀ e ∈ t.2, e.velocity.toNat ≤ 127

/-- The velocity of a push fits seven bits. -/
def DataVelocity (p : Push) : Prop := p.2.velocity.toNat ≤ 127

/-- A velocity within the data bytes is written as it is. -/
theorem pushNote_dataVelocity (inst : OrchestralInstrument) (tickOn tickOff : UInt32) (note : Int)
    {z : Int} (h0 : 0 ≤ z) (h1 : z ≤ 127) :
    DataVelocity (pushNote inst tickOn tickOff note (u8cast z)) := u8cast_le h0 h1

/-! ### The backing

The velocities of the backing are drawn around constants. Both ends of each range are far from the
bounds of a data byte. -/

section

variable (chord : ParsedChord) (barStart : UInt32)

/-- The velocities around a base that is far enough from both bounds. -/
theorem giveNotes_dataVelocity {duration baseVel : Int} (h0 : 10 ≤ baseVel) (h1 : baseVel ≤ 117)
    (insts : List OrchestralInstrument) (instIdx : Nat) (pool : List Int) :
    Yields (giveNotes barStart duration baseVel insts instIdx pool)
      fun pushes => ∀ p ∈ pushes, DataVelocity p := by
  induction insts generalizing instIdx pool with
  | nil => exact yields_pure fun p hp => absurd hp List.not_mem_nil
  | cons inst insts ih =>
    refine yields_bind_any fun tickOff => yields_bind_any fun k =>
      yields_bind (ih (instIdx + 1) _) fun rest hrest => yields_pure ?_
    refine List.forall_mem_cons.mpr ⟨?_, hrest⟩
    exact pushNote_dataVelocity inst _ _ _ (by omega) (by omega)

/-- The velocities of the harmony. -/
theorem assignChordToHarmony_dataVelocity (insts : List OrchestralInstrument) (duration : Int) :
    Yields (assignChordToHarmony chord insts barStart duration 55)
      fun pushes => ∀ p ∈ pushes, DataVelocity p := by
  unfold assignChordToHarmony
  split
  · exact yields_pure fun p hp => absurd hp List.not_mem_nil
  · exact giveNotes_dataVelocity barStart (by decide) (by decide) _ _ _

/-- The fifth is five softer than the root. -/
theorem assignBass_dataVelocity (insts : List OrchestralInstrument) (beatTicks : Int) :
    Yields (assignBass chord insts barStart beatTicks)
      fun pushes => ∀ p ∈ pushes, DataVelocity p := by
  refine yields_forEach_forall fun inst _ => ?_
  refine yields_bind (yields_draw (by decide)) fun k hk => ?_
  have hk : k < 21 := hk
  have hvel : (u8cast (70 + k)).toNat = 70 + k := by
    rw [u8cast_toNat (by omega) (by omega)]
    omega
  refine yields_bind_any fun end1 => yields_bind_any fun off1 => yields_bind_any fun on2 =>
    yields_bind_any fun end2 => yields_bind_any fun off2 => yields_pure ?_
  intro p hp
  obtain rfl | hp := List.mem_cons.mp hp
  · exact pushNote_dataVelocity inst _ _ _ (by omega) (by omega)
  · rw [List.mem_singleton.mp hp, hvel]
    exact pushNote_dataVelocity inst _ _ _ (by omega) (by omega)

/-- The velocities of the pad. -/
theorem assignPad_dataVelocity (insts : List OrchestralInstrument) (duration : Int) :
    Yields (assignPad chord insts barStart duration)
      fun pushes => ∀ p ∈ pushes, DataVelocity p := by
  refine yields_forEach_forall fun inst _ => ?_
  refine yields_bind (yields_draw (by decide)) fun k hk => ?_
  have hk : k < 16 := hk
  refine yields_bind_any fun tickOff => yields_forEach_forall fun off _ => ?_
  dsimp only
  split
  · refine yields_pure (List.forall_mem_singleton.mpr ?_)
    exact pushNote_dataVelocity inst _ _ _ (by omega) (by omega)
  · exact yields_pure fun p hp => absurd hp List.not_mem_nil

/-- The velocities of stabs. -/
theorem chordStabs_dataVelocity (insts : List OrchestralInstrument) :
    Yields (chordStabs 21 chord insts barStart)
      fun pushes => ∀ p ∈ pushes, DataVelocity p := by
  refine yields_forEach_forall fun inst _ => yields_forEach_forall fun beat _ =>
    yields_forEach_forall fun off _ => ?_
  unfold beatTone
  dsimp only
  split
  · refine yields_bind_any fun bt => yields_bind (yields_draw (by decide)) fun k hk => ?_
    have hk : k < 21 := hk
    refine yields_bind_any fun end1 => yields_bind_any fun tickOff =>
      yields_pure (List.forall_mem_singleton.mpr ?_)
    exact pushNote_dataVelocity inst _ _ _ (by omega) (by omega)
  · exact yields_pure fun p hp => absurd hp List.not_mem_nil

end

/-- A bar never leaves the data bytes. -/
theorem fullBar_dataVelocity (groups : Groups) (progression : List Bytes) (bar : Nat) :
    Yields (fullBar groups progression bar) fun pushes => ∀ p ∈ pushes, DataVelocity p := by
  refine yields_bind_any fun barStart => ?_
  refine yields_bind (assignChordToHarmony_dataVelocity _ barStart _ _) fun harmony hharmony => ?_
  refine yields_bind (assignBass_dataVelocity _ barStart _ _) fun bass hbass => ?_
  refine yields_bind (assignPad_dataVelocity _ barStart _ _) fun pad hpad => ?_
  refine yields_bind (chordStabs_dataVelocity _ barStart _) fun stabs hstabs => yields_pure ?_
  simp only [List.forall_mem_append]
  exact ⟨⟨⟨hharmony, hbass⟩, hpad⟩, hstabs⟩

/-! ### The melody instruments

The melody is copied with its velocities, and the countermelody takes ten off. The difference is an
`int` and is cast to a byte without a lower bound. -/

variable {melody : List MidiEvent}

/-- The melody has its own velocities. -/
theorem assignMelody_dataVelocity (h : ∀ note ∈ melody, note.velocity.toNat ≤ 127)
    (insts : List OrchestralInstrument) :
    ∀ p ∈ assignMelody melody insts, DataVelocity p := by
  intro p hp
  obtain ⟨inst, -, hp⟩ := List.mem_flatMap.mp hp
  obtain ⟨note, hnote, rfl⟩ := List.mem_map.mp hp
  exact h note hnote

/-- Ten off a velocity of seven bits: the cap has nothing to do, and only a difference below zero
does not fit. -/
theorem softer_le_iff {vel : Nat} (h : vel ≤ 127) :
    (u8cast (min 127 ((vel : Int) - 10))).toNat ≤ 127 ↔ 10 ≤ vel := by
  have hcast := u8cast_emod (min 127 ((vel : Int) - 10))
  omega

/-- The countermelody is ten softer, which wraps for a soft note. -/
theorem assignCountermelody_dataVelocity_iff (h : ∀ note ∈ melody, note.velocity.toNat ≤ 127)
    (insts : List OrchestralInstrument) :
    (∀ p ∈ assignCountermelody melody insts, DataVelocity p) ↔
      insts = [] ∨ ∀ note ∈ melody, 10 ≤ note.velocity.toNat := by
  constructor
  · intro hall
    rw [or_iff_not_imp_left]
    intro hinsts note hnote
    -- Each note is played by some instrument, ten softer than it is.
    obtain ⟨inst, hinst⟩ := List.exists_mem_of_ne_nil _ hinsts
    exact (softer_le_iff (h note hnote)).mp
      (hall _ (List.mem_flatMap.mpr ⟨inst, hinst, List.mem_map.mpr ⟨note, hnote, rfl⟩⟩))
  · intro hsome p hp
    obtain ⟨inst, hinst, hp⟩ := List.mem_flatMap.mp hp
    obtain ⟨note, hnote, rfl⟩ := List.mem_map.mp hp
    obtain rfl | hloud := hsome
    · exact absurd hinst List.not_mem_nil
    · exact (softer_le_iff (h note hnote)).mpr (hloud note hnote)

/-- Sorting loses no instrument. -/
theorem sortByName_eq_nil {insts : List OrchestralInstrument} :
    sortByName insts = [] ↔ insts = [] := by
  rw [← List.length_eq_zero_iff, sortByName, List.length_insertionSort, List.length_eq_zero_iff]

/-- So the countermelody decides for the whole orchestration. -/
theorem fullPushes_dataVelocity_iff (h : ∀ note ∈ melody, note.velocity.toNat ≤ 127)
    (groups : Groups) (progression : List Bytes) (bars : Int) :
    Yields (fullPushes melody groups progression bars) fun pushes =>
      (∀ p ∈ pushes, DataVelocity p) ↔
        groups.countermelody = [] ∨ ∀ note ∈ melody, 10 ≤ note.velocity.toNat := by
  refine yields_bind (yields_forEach_forall fun bar _ => fullBar_dataVelocity groups _ bar)
    fun backing hbacking => yields_pure ?_
  rw [List.forall_mem_append, List.forall_mem_append, assignCountermelody_dataVelocity_iff h,
    sortByName_eq_nil, and_iff_left hbacking, and_iff_right (assignMelody_dataVelocity h _)]

/-! ### Tracks

The tracks hold the pushes of the instruments. The velocities of the tracks are therefore those of
the pushes. -/

/-- When every push is for one of the instruments, the tracks hold the events that were pushed. -/
theorem forall_mem_collect {insts : List OrchestralInstrument} {pushes : List Push}
    {P : MidiEvent → Prop} (h : PushesPlayed insts pushes) :
    (∀ t ∈ collect pushes insts, ∀ e ∈ t.2, P e) ↔ ∀ p ∈ pushes, P p.2 := by
  constructor
  · intro hall p hp
    obtain ⟨inst, hmem, hname, -⟩ := h p hp
    have hpush : (inst.name, p.2) ∈ pushes := hname ▸ hp
    obtain ⟨t, ht, hinst⟩ := exists_collect hmem hpush
    apply hall t ht
    rw [collect_track t ht, hinst]
    exact mem_trackOf.mpr hpush
  · intro hall t ht e he
    exact hall _ ((mem_collect ht).2 e he)

/-- All pushes are those of the instruments. -/
theorem fullPushes_played_all (insts : List OrchestralInstrument) (progression : List Bytes)
    (bars : Int) :
    Yields (fullPushes melody (groupByRole insts) progression bars) (PushesPlayed insts) := by
  refine (fullPushes_played melody progression bars).mono fun pushes h => ?_
  obtain ⟨rest, rfl, hrest⟩ := h
  exact ((assignMelody_played melody).mono mem_of_sorted_role).append (hrest.mono mem_of_backing)

/-- The ensemble has no countermelody exactly when no instrument of it has the role. -/
theorem countermelody_eq_nil {ensemble : List OrchestralSection} :
    (groupByRole (flattenEnsemble ensemble)).countermelody = [] ↔
      ∀ inst ∈ ensemble.flatMap OrchestralSection.instruments, inst.role ≠ .countermelody := by
  show List.filter _ _ = [] ↔ _
  simp only [List.filter_eq_nil_iff, mem_flattenEnsemble, decide_eq_true_iff, ne_eq]

/-- Without instruments there are no tracks. -/
theorem orchestrateFull_no_instruments {ensemble : List OrchestralSection}
    (h : ensemble.flatMap OrchestralSection.instruments = []) {progression : List Bytes}
    {bars : Int} {seed : Seed} :
    (orchestrateFull melody progression ensemble bars seed).val = [] := by
  have hflat : flattenEnsemble ensemble = [] := by
    rw [List.eq_nil_iff_forall_not_mem]
    intro inst hmem
    rw [mem_flattenEnsemble, h] at hmem
    exact absurd hmem List.not_mem_nil
  unfold orchestrateFull
  split
  · rfl
  · dsimp only
    rw [if_pos hflat]
    rfl

/-- Past the guards the condition is exact. -/
theorem velocities_iff_of_run (h : ∀ note ∈ melody, note.velocity.toNat ≤ 127)
    {progression : List Bytes} {ensemble : List OrchestralSection} {bars : Int}
    (hmelody : melody ≠ []) (hprogression : progression ≠ []) (hbars : 1 ≤ bars)
    {inst : OrchestralInstrument} (hmem : inst ∈ ensemble.flatMap OrchestralSection.instruments)
    (seed : Seed) :
    DataVelocities (orchestrateFull melody progression ensemble bars seed).val ↔
      (∀ inst ∈ ensemble.flatMap OrchestralSection.instruments, inst.role ≠ .countermelody) ∨
        ∀ note ∈ melody, 10 ≤ note.velocity.toNat := by
  rw [orchestrateFull_eq seed hmelody hprogression hbars hmem, DataVelocities,
    forall_mem_collect (yields_run (fullPushes_played_all _ progression bars) seed),
    ← countermelody_eq_nil]
  exact yields_run (fullPushes_dataVelocity_iff h (groupByRole (flattenEnsemble ensemble))
    progression bars) seed

/-- With a melody of MIDI velocities, all velocities of the tracks are MIDI velocities exactly when
no countermelody has to be softer than a note below ten. -/
theorem velocities_iff (h : ∀ note ∈ melody, note.velocity.toNat ≤ 127)
    (progression : List Bytes) (ensemble : List OrchestralSection) (bars : Int) (seed : Seed) :
    DataVelocities (orchestrateFull melody progression ensemble bars seed).val ↔
      progression = [] ∨ bars < 1 ∨
        (∀ inst ∈ ensemble.flatMap OrchestralSection.instruments, inst.role ≠ .countermelody) ∨
        ∀ note ∈ melody, 10 ≤ note.velocity.toNat := by
  by_cases hrun : melody ≠ [] ∧ progression ≠ [] ∧ 1 ≤ bars
  · obtain ⟨hmelody, hprogression, hbars⟩ := hrun
    by_cases hinsts : ensemble.flatMap OrchestralSection.instruments = []
    · rw [orchestrateFull_no_instruments hinsts, hinsts]
      simp [DataVelocities]
    · obtain ⟨inst, hmem⟩ := List.exists_mem_of_ne_nil _ hinsts
      have hbars' : ¬ bars < 1 := by omega
      simp only [hprogression, hbars', false_or]
      exact velocities_iff_of_run h hmelody hprogression hbars hmem seed
  · -- Nothing is orchestrated.
    apply iff_of_true
    · intro t ht
      exact absurd (orchestrateFull_nonempty ht) hrun
    · by_cases hmelody : melody = []
      · simp [hmelody]
      · by_cases hprogression : progression = []
        · exact .inl hprogression
        · exact .inr (.inl (Int.not_le.mp fun hbars => hrun ⟨hmelody, hprogression, hbars⟩))

/-- A melody as loud as the countermelody needs. -/
theorem velocities_iff_loud : DataVelocities
    (orchestrateFull [⟨0, 480, 0, 60, 90, 0⟩] [bytes "C"] (buildEnsemble .full) 1 7).val := by
  have hmidi : ∀ note ∈ [(⟨0, 480, 0, 60, 90, 0⟩ : MidiEvent)], note.velocity.toNat ≤ 127 := by
    decide
  have hiff := velocities_iff hmidi [bytes "C"] (buildEnsemble .full) 1 7
  exact hiff.mpr (.inr (.inr (.inr (by decide))))

/-- A flute that doubles the melody. -/
def doublingFlute : OrchestralInstrument := ⟨bytes "Flute", 73, 5, 60, 96, .countermelody, 2⟩

/-- The flute alone. -/
def soloFlute : List OrchestralSection := [⟨bytes "Woodwinds", [doublingFlute]⟩]

/-- A note of velocity 5 gives the flute one of 251. -/
theorem flute_velocity_wraps : ¬ DataVelocities
    (orchestrateFull [⟨0, 480, 0, 60, 5, 0⟩] [bytes "C"] soloFlute 1 7).val := by
  have hmem : doublingFlute ∈ soloFlute.flatMap OrchestralSection.instruments :=
    List.mem_cons_self
  rw [velocities_iff_of_run (by decide) (List.cons_ne_nil _ _) (List.cons_ne_nil _ _) (by decide)
    hmem]
  rintro (hrole | hloud)
  · exact hrole _ hmem rfl
  · exact absurd (hloud _ List.mem_cons_self) (by decide)

end AiMidi.Proofs.Orchestration
