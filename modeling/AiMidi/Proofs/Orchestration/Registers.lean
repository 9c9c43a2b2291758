import AiMidi.Proofs.GuitarChords
import AiMidi.Theory.OrchestrationEngine
import Mathlib.Data.List.GetD

/-!
# `AiMidi.Proofs.Orchestration.Registers`: every instrument stays in its range

Each role moves a note into the range of its instrument in a way of its own. `transpose` and
`pickNoteInRange` end in range for every range, since they fall back to its middle. A bass has
no such fallback: its two notes are in range because the range spans an octave
(`bassRoot_bounds`, `bassFifth_bounds`). The other roles leave out a tone that does not fit.

So every push is `Played`: it bears the name and the channel of an instrument, and a note of its
range when that is an octave. What is not the melody is played by the instruments without it
(`fullPushes_played`). Instruments with different names do not share a track, and
`orchestrate_inRegister` follows for the tracks.

One lemma for each role says that its pushes are `Played`. It asks nothing of the ranges beyond what
the role checks itself. The bars and their loop only join pushes, and `collect_inRegister` carries
what is known of the pushes to the tracks.
-/

set_option autoImplicit false

namespace AiMidi.Proofs.Orchestration

open AiMidi.Lib AiMidi.Lib.Seeded AiMidi.Theory AiMidi.Theory.OrchestrationEngine

/-! ### Ranges

Transposing goes by octaves, and falls back to the middle of the range when they end outside of it.
Picking looks for a note of the pool in the range and falls back likewise. -/

/-- A channel, and a range of at least an octave of MIDI notes. -/
structure Playable (inst : OrchestralInstrument) : Prop where
  channel : 0 ≤ inst.channel ∧ inst.channel ≤ 15
  low : 0 ≤ inst.minNote
  high : inst.maxNote ≤ 127
  octave : 11 ≤ inst.maxNote - inst.minNote

variable {inst : OrchestralInstrument}

/-- The centre of a range lies in it. -/
theorem center_bounds (h : Playable inst) :
    inst.minNote ≤ center inst ∧ center inst ≤ inst.maxNote := by
  have hlow := h.low
  have hoctave := h.octave
  rw [center, Int.tdiv_eq_ediv_of_nonneg (by omega)]
  omega

/-- The test of a range. -/
theorem inRange_iff {n : Int} : inRange inst n = true ↔ inst.minNote ≤ n ∧ n ≤ inst.maxNote := by
  rw [inRange, Bool.and_eq_true, decide_eq_true_iff, decide_eq_true_iff]

/-- Whatever the note, its transposition lies in the range. -/
theorem transpose_bounds (h : Playable inst) (n : Int) :
    inst.minNote ≤ transpose inst n ∧ transpose inst n ≤ inst.maxNote := by
  unfold transpose
  dsimp only
  split
  case isTrue hin => exact inRange_iff.mp hin
  case isFalse => exact center_bounds h

/-- A note that is picked lies in the range, also when no note of the pool does. -/
theorem pickNoteInRange_bounds (h : Playable inst) (pool : List Int) (chordIndex : Nat) :
    inst.minNote ≤ pickNoteInRange pool inst.minNote inst.maxNote chordIndex ∧
      pickNoteInRange pool inst.minNote inst.maxNote chordIndex ≤ inst.maxNote := by
  have hcenter := center_bounds h
  unfold pickNoteInRange
  dsimp only
  split
  case isTrue =>
    split
    case isTrue => exact hcenter
    case isFalse hin => omega
  case isFalse hne =>
    -- The index is reduced by the number of candidates, and all of these are in range.
    have hlt := Nat.mod_lt chordIndex (List.length_pos_iff.mpr hne)
    rw [List.getD_eq_getElem _ _ hlt]
    have hmem := (List.mem_filter.mp (List.getElem_mem hlt)).2
    rw [Bool.and_eq_true, decide_eq_true_iff, decide_eq_true_iff] at hmem
    exact hmem

/-- The remainder of a root. -/
theorem tmod_twelve {rootPc : Int} (h : 0 ≤ rootPc) :
    0 ≤ Int.tmod rootPc 12 ∧ Int.tmod rootPc 12 < 12 := by
  rw [Int.tmod_eq_emod_of_nonneg h]
  omega

/-- The root of a bass lies six semitones or more above its lowest note, unless the range is too
narrow for that. Then it is the highest such note of the range. -/
theorem bassRoot_bounds (h : Playable inst) {chord : ParsedChord} (hroot : 0 ≤ chord.rootPc) :
    inst.minNote ≤ bassRoot inst chord ∧ bassRoot inst chord ≤ inst.maxNote ∧
      (inst.minNote + 6 ≤ bassRoot inst chord ∨ inst.maxNote - 12 < bassRoot inst chord ∧
        bassRoot inst chord ≤ inst.minNote + 5) := by
  have hoctave := h.octave
  have hpc := tmod_twelve hroot
  have hdiv : inst.minNote - 11 ≤ Int.tdiv inst.minNote 12 * 12 ∧
      Int.tdiv inst.minNote 12 * 12 ≤ inst.minNote := by
    rw [Int.tdiv_eq_ediv_of_nonneg h.low]
    omega
  unfold bassRoot
  dsimp only
  -- Raising leaves the root below `minNote + 18`, so there is nothing to lower.
  have hraise := raiseTo_bounds (inst.minNote + 6)
    (Int.tdiv inst.minNote 12 * 12 + Int.tmod chord.rootPc 12)
  rw [lowerTo_of_le (by omega)]
  generalize raiseTo (inst.minNote + 6) _ = root at hraise ⊢
  rw [if_neg (show ¬ root < inst.minNote by omega)]
  split <;> omega

/-- The fifth above a root, or the fourth below it. -/
theorem bassFifth_bounds (h : Playable inst) {root : Int} (hlow : inst.minNote ≤ root)
    (hhigh : root ≤ inst.maxNote) (hroot : inst.minNote + 6 ≤ root ∨
      inst.maxNote - 12 < root ∧ root ≤ inst.minNote + 5) :
    inst.minNote ≤ bassFifth inst root ∧ bassFifth inst root ≤ inst.maxNote := by
  have hoctave := h.octave
  unfold bassFifth
  dsimp only
  by_cases hfifth : root + 7 > inst.maxNote
  · have hfourth : inst.minNote ≤ root + 7 - 12 := by
      obtain hup | ⟨hup, hdown⟩ := hroot
      · omega
      · omega
    rw [if_pos hfifth, if_neg (by omega)]
    omega
  · rw [if_neg hfifth, if_neg (by omega)]
    omega

/-! ### Pushes

A push is a note with the name of its track. The number of the note is cast to a byte, which changes
nothing for a range in MIDI. -/

/-- A note of one of the instruments, in its range and on its channel. -/
def InRegister (insts : List OrchestralInstrument) (p : Push) : Prop :=
  ∃ inst ∈ insts, p.1 = inst.name ∧ inst.minNote ≤ p.2.note.toNat ∧
    p.2.note.toNat ≤ inst.maxNote ∧ p.2.channel = u8cast inst.channel

/-- A note of a range in MIDI is written as it is. -/
theorem u8cast_bounds (h : Playable inst) {n : Int} (hn : inst.minNote ≤ n ∧ n ≤ inst.maxNote) :
    inst.minNote ≤ (u8cast n).toNat ∧ (u8cast n).toNat ≤ inst.maxNote := by
  have hlow := h.low
  have hhigh := h.high
  rw [u8cast_toNat (by omega) (by omega)]
  omega

variable {insts : List OrchestralInstrument}

/-- A note of one of the instruments on its channel, and in its range when that is an octave of MIDI
notes. -/
def Played (insts : List OrchestralInstrument) (p : Push) : Prop :=
  ∃ inst ∈ insts, p.1 = inst.name ∧ p.2.channel = u8cast inst.channel ∧
    (Playable inst → inst.minNote ≤ p.2.note.toNat ∧ p.2.note.toNat ≤ inst.maxNote)

/-- A push within the range of its instrument. -/
theorem pushNote_played (hmem : inst ∈ insts) {n : Int}
    (hn : Playable inst → inst.minNote ≤ n ∧ n ≤ inst.maxNote) (tickOn tickOff : UInt32)
    (velocity : UInt8) : Played insts (pushNote inst tickOn tickOff n velocity) :=
  ⟨inst, hmem, rfl, rfl, fun h => u8cast_bounds h (hn h)⟩

/-- All pushes are notes of the instruments. -/
def PushesPlayed (insts : List OrchestralInstrument) (pushes : List Push) : Prop :=
  ∀ p ∈ pushes, Played insts p

/-- No pushes. -/
theorem PushesPlayed.nil : PushesPlayed insts [] := fun _ h => absurd h List.not_mem_nil

/-- A push in front of others. -/
theorem PushesPlayed.cons {p : Push} {pushes : List Push} (hp : Played insts p)
    (h : PushesPlayed insts pushes) : PushesPlayed insts (p :: pushes) :=
  List.forall_mem_cons.mpr ⟨hp, h⟩

/-- Pushes one behind the other. -/
theorem PushesPlayed.append {pushes others : List Push} (h : PushesPlayed insts pushes)
    (hothers : PushesPlayed insts others) : PushesPlayed insts (pushes ++ others) :=
  List.forall_mem_append.mpr ⟨h, hothers⟩

/-- What a group of the instruments plays, they play. -/
theorem PushesPlayed.mono {group : List OrchestralInstrument} {pushes : List Push}
    (h : PushesPlayed group pushes) (hsub : ∀ inst ∈ group, inst ∈ insts) :
    PushesPlayed insts pushes := by
  intro p hp
  obtain ⟨inst, hmem, hinst⟩ := h p hp
  exact ⟨inst, hsub inst hmem, hinst⟩

/-- All pushes are in register when all ranges are an octave. -/
def PushesInRegister (insts : List OrchestralInstrument) (pushes : List Push) : Prop :=
  ∀ p ∈ pushes, InRegister insts p

/-- What instruments with playable ranges play lies in their registers. -/
theorem PushesPlayed.inRegister {pushes : List Push} (h : PushesPlayed insts pushes)
    (hplay : ∀ inst ∈ insts, Playable inst) : PushesInRegister insts pushes := by
  intro p hp
  obtain ⟨inst, hmem, hname, hchannel, hrange⟩ := h p hp
  obtain ⟨hlow, hhigh⟩ := hrange (hplay inst hmem)
  exact ⟨inst, hmem, hname, hlow, hhigh, hchannel⟩

/-! ### One bar of a role

The melodies and the bass are moved into the range, and the harmony picks a note of it. The other
roles test each tone and leave it out when it does not fit. -/

section Roles

variable {chord : ParsedChord} (barStart : UInt32)

/-- The loop over the instruments. -/
theorem giveNotes_played (duration baseVel : Int) (instIdx : Nat) (pool : List Int) :
    Yields (giveNotes barStart duration baseVel insts instIdx pool) (PushesPlayed insts) := by
  induction insts generalizing instIdx pool with
  | nil => exact yields_pure .nil
  | cons inst insts ih =>
    refine yields_bind_any fun tickOff => yields_bind_any fun k =>
      yields_bind (ih (instIdx + 1) _) fun rest hrest => yields_pure (.cons ?_ ?_)
    · exact pushNote_played List.mem_cons_self (fun h => pickNoteInRange_bounds h _ _) _ _ _
    · exact hrest.mono fun inst' h => List.mem_cons_of_mem inst h

/-- The harmony picks notes of the range. -/
theorem assignChordToHarmony_played (duration baseVel : Int) :
    Yields (assignChordToHarmony chord insts barStart duration baseVel) (PushesPlayed insts) := by
  unfold assignChordToHarmony
  split
  · exact yields_pure .nil
  · exact giveNotes_played barStart duration baseVel 0 _

/-- The bass transposes the root. -/
theorem assignBass_played (hroot : 0 ≤ chord.rootPc) (beatTicks : Int) :
    Yields (assignBass chord insts barStart beatTicks) (PushesPlayed insts) := by
  refine yields_forEach_forall fun inst hmem => ?_
  refine yields_bind_any fun k => yields_bind_any fun end1 => yields_bind_any fun off1 =>
    yields_bind_any fun on2 => yields_bind_any fun end2 => yields_bind_any fun off2 =>
    yields_pure (PushesPlayed.cons ?_ (.cons ?_ .nil))
  · refine pushNote_played hmem (fun h => ?_) _ _ _
    obtain ⟨hlow, hhigh, -⟩ := bassRoot_bounds h hroot
    exact ⟨hlow, hhigh⟩
  · refine pushNote_played hmem (fun h => ?_) _ _ _
    obtain ⟨hlow, hhigh, hgap⟩ := bassRoot_bounds h hroot
    exact bassFifth_bounds h hlow hhigh hgap

/-- The pad plays a tone only if it lies in the range. -/
theorem assignPad_played (duration : Int) :
    Yields (assignPad chord insts barStart duration) (PushesPlayed insts) := by
  refine yields_forEach_forall fun inst hmem => yields_bind_any fun k =>
    yields_bind_any fun tickOff => yields_forEach_forall fun off _ => ?_
  dsimp only
  split
  case isTrue hin =>
    exact yields_pure (PushesPlayed.cons
      (pushNote_played hmem (fun _ => inRange_iff.mp hin) _ _ _) .nil)
  case isFalse => exact yields_pure PushesPlayed.nil

/-- A tone of a beat is played only if it lies in the range. -/
theorem beatTone_played (hmem : inst ∈ insts) (dur gap baseVel : Int) (m : UInt64)
    (beat : Nat) (off : Int) :
    Yields (beatTone chord barStart dur gap baseVel m inst beat off) (PushesPlayed insts) := by
  unfold beatTone
  dsimp only
  split
  case isTrue hin =>
    refine yields_bind_any fun bt => yields_bind_any fun k => yields_bind_any fun end1 =>
      yields_bind_any fun tickOff => yields_pure (PushesPlayed.cons ?_ .nil)
    exact pushNote_played hmem (fun _ => inRange_iff.mp hin) _ _ _
  case isFalse => exact yields_pure PushesPlayed.nil

/-- Stabs are such tones. -/
theorem chordStabs_played (m : UInt64) :
    Yields (chordStabs m chord insts barStart) (PushesPlayed insts) :=
  yields_forEach_forall fun _ hmem => yields_forEach_forall fun beat _ =>
    yields_forEach_forall fun off _ => beatTone_played barStart hmem (kPpq / 2) 5 55 m beat off

/-- So is the countermelody of the chords. -/
theorem chordCountermelody_played :
    Yields (chordCountermelody chord insts barStart) (PushesPlayed insts) :=
  yields_forEach_forall fun _ hmem => yields_forEach_forall fun beat _ =>
    beatTone_played barStart hmem kPpq 10 60 21 beat _

/-- The melody on the roots transposes them. -/
theorem rootMelody_played : Yields (rootMelody chord insts barStart) (PushesPlayed insts) := by
  refine yields_forEach_forall fun inst hmem => yields_bind_any fun k =>
    yields_bind_any fun end1 => yields_bind_any fun tickOff =>
    yields_pure (PushesPlayed.cons ?_ .nil)
  exact pushNote_played hmem (fun h => transpose_bounds h _) _ _ _

/-- A melody is transposed note by note. -/
theorem assignMelody_played (melody : List MidiEvent) :
    PushesPlayed insts (assignMelody melody insts) := by
  intro p hp
  obtain ⟨inst, hmem, hp⟩ := List.mem_flatMap.mp hp
  obtain ⟨note, -, rfl⟩ := List.mem_map.mp hp
  exact ⟨inst, hmem, rfl, rfl, fun h => u8cast_bounds h (transpose_bounds h _)⟩

/-- A countermelody is transposed likewise. -/
theorem assignCountermelody_played (melody : List MidiEvent) :
    PushesPlayed insts (assignCountermelody melody insts) := by
  intro p hp
  obtain ⟨inst, hmem, hp⟩ := List.mem_flatMap.mp hp
  obtain ⟨note, -, rfl⟩ := List.mem_map.mp hp
  exact ⟨inst, hmem, rfl, rfl, fun h => u8cast_bounds h (transpose_bounds h _)⟩

end Roles

/-! ### Whole bars

The instruments of a role are sorted by name before they are used. Sorting keeps them, so they are
still instruments of the ensemble. -/

/-- The instruments of a role are among all. -/
theorem mem_of_role {role : OrchestralRole} :
    ∀ inst ∈ insts.filter (·.role = role), inst ∈ insts := by
  intro inst h
  exact List.mem_of_mem_filter h

/-- So are they when they are sorted by name. -/
theorem mem_of_sorted_role {role : OrchestralRole} :
    ∀ inst ∈ sortByName (insts.filter (·.role = role)), inst ∈ insts := by
  intro inst h
  exact mem_of_role inst ((List.mem_insertionSort _).mp h)

/-- The instruments that do not have the melody. -/
def backing (insts : List OrchestralInstrument) : List OrchestralInstrument :=
  insts.filter (·.role ≠ .melody)

/-- Every role but the melody belongs to the backing. -/
theorem mem_backing {role : OrchestralRole} (hne : role ≠ .melody) :
    ∀ inst ∈ insts.filter (·.role = role), inst ∈ backing insts := by
  intro inst h
  obtain ⟨hmem, hrole⟩ := List.mem_filter.mp h
  refine List.mem_filter.mpr ⟨hmem, decide_eq_true ?_⟩
  rw [of_decide_eq_true hrole]
  exact hne

/-- The backing sorted by name. -/
theorem mem_backing_sorted {role : OrchestralRole} (hne : role ≠ .melody) :
    ∀ inst ∈ sortByName (insts.filter (·.role = role)), inst ∈ backing insts := by
  intro inst h
  exact mem_backing hne inst ((List.mem_insertionSort _).mp h)

/-- Rhythm and fill belong to the backing. -/
theorem mem_backing_rhythm_fill :
    ∀ inst ∈ (groupByRole insts).rhythm ++ (groupByRole insts).fill, inst ∈ backing insts :=
  List.forall_mem_append.mpr ⟨mem_backing (by decide), mem_backing (by decide)⟩

/-- The backing is among all instruments. -/
theorem mem_of_backing : ∀ inst ∈ backing insts, inst ∈ insts := by
  intro inst h
  exact List.mem_of_mem_filter h

/-- A pass over a group of the instruments. -/
theorem played_of_group {group : List OrchestralInstrument} {x : Seeded (List Push)}
    (h : Yields x (PushesPlayed group)) (hsub : ∀ inst ∈ group, inst ∈ insts) :
    Yields x (PushesPlayed insts) := h.mono fun _ hpushes => hpushes.mono hsub

/-- A bar of the chords: all roles in turn. -/
theorem chordsBar_played (progression : List Bytes) (bar : Nat) :
    Yields (chordsBar (groupByRole insts) progression bar) (PushesPlayed insts) := by
  have hroot := (GuitarChords.parseChord_rootPc (progression.getD (bar % progression.length) [])).1
  refine yields_bind_any fun barStart => ?_
  refine yields_bind (played_of_group (rootMelody_played barStart) mem_of_role)
    fun melody hmelody => ?_
  refine yields_bind (played_of_group (chordCountermelody_played barStart) mem_of_role)
    fun counter hcounter => ?_
  refine yields_bind (played_of_group (assignChordToHarmony_played barStart 1900 60) mem_of_role)
    fun harmony hharmony => ?_
  refine yields_bind (played_of_group (assignBass_played barStart hroot kPpq) mem_of_role)
    fun bass hbass => ?_
  refine yields_bind (played_of_group (assignPad_played barStart 1900) mem_of_role)
    fun pad hpad => ?_
  refine yields_bind (played_of_group (chordStabs_played barStart 26)
    fun inst h => mem_of_backing inst (mem_backing_rhythm_fill inst h)) fun stabs hstabs => ?_
  exact yields_pure
    (((((hmelody.append hcounter).append hharmony).append hbass).append hpad).append hstabs)

/-- A bar of the full orchestration, where the melody is not drawn from the chords. -/
theorem fullBar_played (progression : List Bytes) (bar : Nat) :
    Yields (fullBar (groupByRole insts) progression bar) (PushesPlayed (backing insts)) := by
  have hroot := (GuitarChords.parseChord_rootPc (progression.getD (bar % progression.length) [])).1
  refine yields_bind_any fun barStart => ?_
  refine yields_bind (played_of_group (assignChordToHarmony_played barStart 1900 55)
    (mem_backing_sorted (by decide))) fun harmony hharmony => ?_
  refine yields_bind (played_of_group (assignBass_played barStart hroot kPpq)
    (mem_backing (by decide))) fun bass hbass => ?_
  refine yields_bind (played_of_group (assignPad_played barStart 1900) (mem_backing (by decide)))
    fun pad hpad => ?_
  refine yields_bind (played_of_group (chordStabs_played barStart 21) mem_backing_rhythm_fill)
    fun stabs hstabs => ?_
  exact yields_pure (((hharmony.append hbass).append hpad).append hstabs)

/-- All bars of the chords. -/
theorem chordsPushes_played (progression : List Bytes) (bars : Int) :
    Yields (chordsPushes (groupByRole insts) progression bars) (PushesPlayed insts) :=
  yields_bind_any fun _ => yields_forEach_forall fun bar _ => chordsBar_played progression bar

/-- The melody goes to the melody instruments, and everything else to the others. -/
theorem fullPushes_played (melody : List MidiEvent) (progression : List Bytes) (bars : Int) :
    Yields (fullPushes melody (groupByRole insts) progression bars) fun pushes => ∃ rest,
      pushes = assignMelody melody (sortByName (groupByRole insts).melody) ++ rest ∧
        PushesPlayed (backing insts) rest := by
  have hcounter : PushesPlayed (backing insts)
      (assignCountermelody melody (sortByName (groupByRole insts).countermelody)) :=
    (assignCountermelody_played melody).mono (mem_backing_sorted (by decide))
  refine yields_bind (yields_forEach_forall fun bar _ => fullBar_played progression bar)
    fun backing hbacking => yields_pure ⟨_, List.append_assoc _ _ _, ?_⟩
  exact hcounter.append hbacking

/-- The pushes of the full orchestration: the melodies first, then the bars. -/
theorem fullPushes_inRegister (hplay : ∀ inst ∈ insts, Playable inst) (melody : List MidiEvent)
    (progression : List Bytes) (bars : Int) :
    Yields (fullPushes melody (groupByRole insts) progression bars) (PushesInRegister insts) := by
  refine (fullPushes_played melody progression bars).mono fun pushes h => ?_
  obtain ⟨rest, rfl, hrest⟩ := h
  have hmelody : PushesPlayed insts
      (assignMelody melody (sortByName (groupByRole insts).melody)) :=
    (assignMelody_played melody).mono mem_of_sorted_role
  exact (hmelody.append (hrest.mono mem_of_backing)).inRegister hplay

/-! ### Tracks

Different names have different tracks. A track therefore holds the pushes of one instrument. -/

/-- A track has the events that were pushed under its name. -/
theorem mem_trackOf {pushes : List Push} {name : Bytes} {e : MidiEvent} :
    e ∈ trackOf pushes name ↔ (name, e) ∈ pushes := by
  rw [trackOf, List.mem_map]
  constructor
  · rintro ⟨⟨name', e'⟩, hp, rfl⟩
    rw [List.mem_filter, decide_eq_true_iff] at hp
    obtain ⟨hmem, rfl⟩ := hp
    exact hmem
  · intro h
    exact ⟨(name, e), List.mem_filter.mpr ⟨h, decide_eq_true rfl⟩, rfl⟩

/-- A track is not empty, and holds only what was pushed for its name. -/
theorem mem_collect {pushes : List Push} {t : Bytes × List MidiEvent}
    (h : t ∈ collect pushes insts) :
    (∃ inst ∈ insts, inst.name = t.1) ∧ ∀ e ∈ t.2, (t.1, e) ∈ pushes := by
  induction insts generalizing pushes with
  | nil => exact absurd h List.not_mem_nil
  | cons inst insts ih =>
    -- A track behind the first instrument's is collected from the pushes that are left.
    have hrest : t ∈ collect (pushes.filter (·.1 ≠ inst.name)) insts →
        (∃ inst' ∈ inst :: insts, inst'.name = t.1) ∧ ∀ e ∈ t.2, (t.1, e) ∈ pushes := by
      intro h
      obtain ⟨⟨inst', hmem, hname⟩, hevents⟩ := ih h
      exact ⟨⟨inst', List.mem_cons_of_mem inst hmem, hname⟩,
        fun e he => List.mem_of_mem_filter (hevents e he)⟩
    rw [collect] at h
    split at h
    · exact hrest h
    · obtain rfl | h := List.mem_cons.mp h
      · exact ⟨⟨inst, List.mem_cons_self, rfl⟩, fun e he => mem_trackOf.mp he⟩
      · exact hrest h

/-- The instruments of the ensemble, section by section. -/
theorem mem_flattenEnsemble {ensemble : List OrchestralSection} :
    inst ∈ flattenEnsemble ensemble ↔ inst ∈ ensemble.flatMap OrchestralSection.instruments :=
  List.mem_insertionSort _

/-- The tracks of the instruments hold notes of their ranges on their channels. -/
def TracksInRegister (ensemble : List OrchestralSection) (tracks : List (Bytes × List MidiEvent)) :
    Prop :=
  ∀ inst ∈ ensemble.flatMap OrchestralSection.instruments, ∀ t ∈ tracks, t.1 = inst.name →
    ∀ e ∈ t.2, inst.minNote ≤ e.note.toNat ∧ e.note.toNat ≤ inst.maxNote ∧
      (e.channel.toNat : Int) = inst.channel

/-- No tracks. -/
theorem tracksInRegister_nil {ensemble : List OrchestralSection} :
    TracksInRegister ensemble [] := by
  intro inst _ t ht
  exact absurd ht List.not_mem_nil

/-- Pushes in register are collected to tracks in register, when no two instruments share a
name. -/
theorem collect_inRegister {ensemble : List OrchestralSection} {pushes : List Push}
    (hnames : ((ensemble.flatMap OrchestralSection.instruments).map
      OrchestralInstrument.name).Nodup)
    (hplay : ∀ inst ∈ ensemble.flatMap OrchestralSection.instruments, Playable inst)
    (hpushes : PushesInRegister (flattenEnsemble ensemble) pushes) :
    TracksInRegister ensemble (collect pushes (flattenEnsemble ensemble)) := by
  intro inst hmem t ht hname e he
  obtain ⟨inst', hmem', hname', hlow, hhigh, hchannel⟩ := hpushes _ ((mem_collect ht).2 e he)
  have heq : inst' = inst := List.inj_on_of_nodup_map hnames (mem_flattenEnsemble.mp hmem') hmem
    (hname'.symm.trans hname)
  subst heq
  obtain ⟨hlow', hhigh'⟩ := (hplay inst' hmem).channel
  refine ⟨hlow, hhigh, ?_⟩
  rw [hchannel, u8cast_toNat hlow' (by omega)]
  omega

section

variable {ensemble : List OrchestralSection}
  (hnames : ((ensemble.flatMap OrchestralSection.instruments).map OrchestralInstrument.name).Nodup)
  (hplay : ∀ inst ∈ ensemble.flatMap OrchestralSection.instruments, Playable inst)
include hnames hplay

/-- The tracks of the full orchestration. -/
theorem orchestrateFull_inRegister (melody : List MidiEvent) (progression : List Bytes)
    (bars : Int) (seed : Seed) :
    TracksInRegister ensemble (orchestrateFull melody progression ensemble bars seed).val := by
  have hflat : ∀ inst ∈ flattenEnsemble ensemble, Playable inst :=
    fun inst h => hplay inst (mem_flattenEnsemble.mp h)
  unfold orchestrateFull
  split
  · exact tracksInRegister_nil
  · dsimp only
    split
    · exact tracksInRegister_nil
    · exact collect_inRegister hnames hplay
        (yields_run (fullPushes_inRegister hflat melody progression bars) seed)

/-- The tracks of the chords alone. -/
theorem orchestrateChords_inRegister (progression : List Bytes) (bars : Int) (seed : Seed) :
    TracksInRegister ensemble (orchestrateChords progression ensemble bars seed).val := by
  have hflat : ∀ inst ∈ flattenEnsemble ensemble, Playable inst :=
    fun inst h => hplay inst (mem_flattenEnsemble.mp h)
  unfold orchestrateChords
  split
  · exact tracksInRegister_nil
  · dsimp only
    split
    · exact tracksInRegister_nil
    · exact collect_inRegister hnames hplay
        (PushesPlayed.inRegister (yields_run (chordsPushes_played progression bars) seed) hflat)

/-- Every instrument stays in its register and on its channel, in both operations and whatever
its role, if the names differ and each range spans an octave. -/
theorem orchestrate_inRegister (melody : List MidiEvent) (progression : List Bytes) (bars : Int)
    (seed : Seed) :
    TracksInRegister ensemble (orchestrateFull melody progression ensemble bars seed).val ∧
      TracksInRegister ensemble (orchestrateChords progression ensemble bars seed).val :=
  ⟨orchestrateFull_inRegister hnames hplay melody progression bars seed,
    orchestrateChords_inRegister hnames hplay progression bars seed⟩

end

/-- A melody instrument. -/
def flute : OrchestralInstrument := ⟨bytes "Flute", 73, 5, 60, 96, .melody, 0⟩

/-- A bass instrument below it. -/
def doubleBass : OrchestralInstrument := ⟨bytes "Double Bass", 43, 2, 28, 60, .bass, 1⟩

/-- Two sections with an instrument each. -/
def duo : List OrchestralSection := [⟨bytes "Woodwinds", [flute]⟩, ⟨bytes "Strings", [doubleBass]⟩]

/-- A flute and a double bass play in two tracks, each in its register. The first note of the melody
is below the flute and the second one above it. -/
theorem orchestrate_inRegister_duo :
    (orchestrateFull [⟨0, 480, 0, 48, 90, 0⟩, ⟨480, 960, 0, 100, 80, 0⟩] [bytes "C", bytes "Am"]
        duo 2 7).val.map Prod.fst = [flute.name, doubleBass.name] ∧
      TracksInRegister duo (orchestrateFull [⟨0, 480, 0, 48, 90, 0⟩, ⟨480, 960, 0, 100, 80, 0⟩]
        [bytes "C", bytes "Am"] duo 2 7).val ∧
      TracksInRegister duo (orchestrateChords [bytes "C", bytes "Am"] duo 2 7).val := by
  refine ⟨rfl, orchestrate_inRegister (by decide) (fun inst hmem => ?_) _ _ _ _⟩
  obtain rfl | hmem := List.mem_cons.mp (show inst ∈ [flute, doubleBass] from hmem)
  · exact ⟨by decide, by decide, by decide, by decide⟩
  · obtain rfl := List.mem_singleton.mp hmem
    exact ⟨by decide, by decide, by decide, by decide⟩

end AiMidi.Proofs.Orchestration
