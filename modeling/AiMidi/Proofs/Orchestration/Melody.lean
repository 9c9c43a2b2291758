import AiMidi.Proofs.Orchestration.Channels
import AiMidi.Proofs.Orchestration.Players

/-!
# `AiMidi.Proofs.Orchestration.Melody`: melodies in the range of an instrument

`transpose` first raises a note to six semitones above the lowest note of the instrument and then
lowers it to six semitones below the highest one. In a narrow range the second loop can leave the
range, even with a note that was in it. Then the middle of the range is played, which is never an
octave of the note (`transpose_octaves_iff`).

A track belongs to a name, so the notes of all instruments with that name are in it. The track of a
melody instrument is its part when no other instrument of the name plays (`Alone`), and is longer
than the melody otherwise (`fullPushes_track`).

`melody_sameTune_iff` puts the two together for the tracks of `orchestrateFull`: where there is
anything to orchestrate, the tune is kept exactly when the instrument is alone in its track and each
note of the melody has an octave in the range, six semitones or more below the highest note.

Which other instruments write to a track is taken from `Players`. The notes of the part are counted
against those of the track: an instrument that is not alone leaves more of them there than the
melody has, which is what the tune excludes.
-/

set_option autoImplicit false

namespace AiMidi.Proofs.Orchestration

open AiMidi.Lib AiMidi.Lib.Seeded AiMidi.Theory AiMidi.Theory.OrchestrationEngine

variable {inst : OrchestralInstrument}

/-! ### Notes

The two loops go by octaves, and only the fallback does not. When it is taken depends on the note
and on the range, so the condition is about both. -/

/-- An octave of the note is in the range, six semitones or more below the highest note. -/
def HasOctave (inst : OrchestralInstrument) (n : Int) : Prop :=
  ∃ k : Int, inst.minNote ≤ n + 12 * k ∧ n + 12 * k ≤ inst.maxNote - 6

/-- The transposition goes by octaves exactly when the range has an octave of the note that the
second loop keeps. -/
theorem transpose_octaves_iff (hlow : 0 ≤ inst.minNote)
    (hoctave : 11 ≤ inst.maxNote - inst.minNote) (n : Int) :
    12 ∣ transpose inst n - n ↔ HasOctave inst n := by
  have hraised := raiseTo_bounds (inst.minNote + 6) n
  have hclass := raiseTo_emod (inst.minNote + 6) n
  unfold transpose HasOctave
  dsimp only
  generalize raiseTo (inst.minNote + 6) n = raised at hraised hclass ⊢
  have hlowered := lowerTo_bounds (inst.maxNote - 6) raised
  have hclass' := lowerTo_emod (inst.maxNote - 6) raised
  generalize lowerTo (inst.maxNote - 6) raised = lowered at hlowered hclass' ⊢
  by_cases hin : inst.minNote ≤ lowered
  · rw [if_pos (inRange_iff.mpr ⟨hin, by omega⟩)]
    exact iff_of_true (by omega) ⟨(lowered - n) / 12, by omega, by omega⟩
  · -- The note was lowered too far, and an octave higher it is above both bounds.
    rw [if_neg fun h => hin (inRange_iff.mp h).1, center,
      Int.tdiv_eq_ediv_of_nonneg (by omega)]
    refine iff_of_false (by omega) fun h => ?_
    obtain ⟨k, hmin, hmax⟩ := h
    omega

/-- A note of the part: an octave of the note of the melody, with its ticks and its velocity. -/
structure SameTune (note e : MidiEvent) : Prop where
  octaves : (12 : Int) ∣ e.note.toNat - note.note.toNat
  tickOn : e.tickOn = note.tickOn
  tickOff : e.tickOff = note.tickOff
  velocity : e.velocity = note.velocity

/-- A note of the melody as the instrument gets it. -/
def partNote (inst : OrchestralInstrument) (note : MidiEvent) : MidiEvent :=
  { note with channel := u8cast inst.channel, note := u8cast (transpose inst note.note.toNat) }

/-- The melody as an instrument is given it. -/
def melodyPart (inst : OrchestralInstrument) (melody : List MidiEvent) : List MidiEvent :=
  melody.map (partNote inst)

/-- The transposition ends in the range. -/
theorem transpose_range (hlow : 0 ≤ inst.minNote) (hhigh : inst.maxNote ≤ 127)
    (hoctave : 11 ≤ inst.maxNote - inst.minNote) (n : Int) :
    inst.minNote ≤ transpose inst n ∧ transpose inst n ≤ inst.maxNote := by
  -- The channel plays no part.
  have hplay : Playable { inst with channel := 0 } :=
    ⟨show (0 : Int) ≤ 0 ∧ (0 : Int) ≤ 15 by decide, hlow, hhigh, hoctave⟩
  exact transpose_bounds hplay n

/-- The part has the tune of the melody exactly when each of its notes has such an octave. -/
theorem melodyPart_sameTune_iff (hlow : 0 ≤ inst.minNote) (hhigh : inst.maxNote ≤ 127)
    (hoctave : 11 ≤ inst.maxNote - inst.minNote) (melody : List MidiEvent) :
    List.Forall₂ SameTune melody (melodyPart inst melody) ↔
      ∀ note ∈ melody, HasOctave inst note.note.toNat := by
  rw [melodyPart, List.forall₂_map_right_iff, List.forall₂_same]
  refine forall₂_congr fun note _ => ?_
  obtain ⟨hmin, hmax⟩ := transpose_range hlow hhigh hoctave note.note.toNat
  -- The transposed note lies in the range, so the cast to a byte keeps it.
  have hnote : ((partNote inst note).note.toNat : Int) = transpose inst note.note.toNat := by
    show ((u8cast (transpose inst note.note.toNat)).toNat : Int) = _
    rw [u8cast_toNat (by omega) (by omega)]
    omega
  rw [← transpose_octaves_iff hlow hoctave, ← hnote]
  constructor
  · intro h
    exact h.octaves
  · intro h
    exact ⟨h, rfl, rfl, rfl⟩

/-! ### Tracks

The pushes are collected by name. What the instruments of a name play is put together in the order
in which it was pushed. -/

/-- A track of two lists of pushes. -/
theorem trackOf_append (pushes others : List Push) (name : Bytes) :
    trackOf (pushes ++ others) name = trackOf pushes name ++ trackOf others name := by
  rw [trackOf, List.filter_append, List.map_append]
  rfl

/-- Dropping the pushes of another name leaves the track. -/
theorem trackOf_filter_of_ne {name name' : Bytes} (h : name ≠ name') (pushes : List Push) :
    trackOf (pushes.filter (·.1 ≠ name')) name = trackOf pushes name := by
  rw [trackOf, trackOf, List.filter_filter]
  congr 2
  funext p
  by_cases hp : p.1 = name
  · simp [hp, h]
  · simp [hp]

/-- A track of the result is the track of its name in the map. -/
theorem collect_track {pushes : List Push} {insts : List OrchestralInstrument} :
    ∀ t ∈ collect pushes insts, t.2 = trackOf pushes t.1 := by
  induction insts generalizing pushes with
  | nil => exact fun t ht => absurd ht List.not_mem_nil
  | cons first insts ih =>
    have hrest : ∀ t ∈ collect (pushes.filter (·.1 ≠ first.name)) insts,
        t.2 = trackOf pushes t.1 := by
      intro t ht
      -- A second track of the name would be empty.
      have hne : t.1 ≠ first.name := by
        intro hname
        obtain ⟨e, he⟩ := List.exists_mem_of_ne_nil _ (collect_ne_nil t ht)
        have hpush := (List.mem_filter.mp ((mem_collect ht).2 e he)).2
        exact of_decide_eq_true hpush hname
      rw [ih t ht, trackOf_filter_of_ne hne]
    intro t ht
    rw [collect] at ht
    split at ht
    · exact hrest t ht
    · obtain rfl | ht := List.mem_cons.mp ht
      · rfl
      · exact hrest t ht

/-- The melody instruments of a name get their parts one after the other. -/
theorem trackOf_assignMelody (melody : List MidiEvent) (insts : List OrchestralInstrument)
    (name : Bytes) :
    trackOf (assignMelody melody insts) name =
      (insts.filter (·.name = name)).flatMap fun inst => melodyPart inst melody := by
  induction insts with
  | nil => rfl
  | cons inst insts ih =>
    have hcons : assignMelody melody (inst :: insts) =
        melody.map (fun note => (inst.name, partNote inst note)) ++ assignMelody melody insts := rfl
    rw [hcons, trackOf_append, ih, trackOf, List.filter_map, List.map_map, List.filter_cons]
    by_cases hname : inst.name = name
    · simp [hname, Function.comp_def, melodyPart]
    · simp [hname, Function.comp_def]

/-! ### The result

A second instrument of the name adds notes, and a track with more notes than the melody is not the
tune. So the number of notes already shows whether the instrument is alone. -/

/-- Of the instruments that bear the name, this one alone plays. -/
def Alone (insts : List OrchestralInstrument) (progression : List Bytes) (bars : Int)
    (inst : OrchestralInstrument) : Prop :=
  insts.filter (fun other => other.name = inst.name ∧ Plays progression bars other) = [inst]

/-- A melody instrument always plays. -/
theorem plays_of_melody {progression : List Bytes} {bars : Int} (h : inst.role = .melody) :
    Plays progression bars inst := by
  intro hselective
  simp [Selective, h] at hselective

/-- The order of the instruments does not matter. -/
theorem Alone.perm {insts insts' : List OrchestralInstrument} {progression : List Bytes}
    {bars : Int} (h : Alone insts progression bars inst) (hperm : insts'.Perm insts) :
    Alone insts' progression bars inst := by
  unfold Alone at h ⊢
  exact List.perm_singleton.mp (h ▸ hperm.filter _)

section

variable {insts : List OrchestralInstrument} {progression : List Bytes} {bars : Int}

/-- The melody instruments of a name, in either order. -/
theorem melody_filter_perm (insts : List OrchestralInstrument) (name : Bytes) :
    ((sortByName (groupByRole insts).melody).filter (·.name = name)).Perm
      (insts.filter fun other => other.name = name ∧ other.role = .melody) := by
  have hsorted : (sortByName (groupByRole insts).melody).Perm
      (insts.filter (·.role = .melody)) := List.perm_insertionSort _ _
  refine (hsorted.filter _).trans ?_
  rw [List.filter_filter]
  simp only [Bool.decide_and]
  exact List.Perm.refl _

/-- To be alone is to be the only melody instrument of the name, and that no other one of the name
plays. -/
theorem alone_iff (hrole : inst.role = .melody) :
    Alone insts progression bars inst ↔
      (sortByName (groupByRole insts).melody).filter (·.name = inst.name) = [inst] ∧
        ∀ other ∈ insts, other.role ≠ .melody ∧ Plays progression bars other →
          other.name ≠ inst.name := by
  have hperm := melody_filter_perm insts inst.name
  constructor
  · intro h
    constructor
    · -- Among those that play, the melody instruments are the one.
      have hmelody : (insts.filter fun other => other.name = inst.name ∧ other.role = .melody)
          = (insts.filter fun other => other.name = inst.name ∧ Plays progression bars other).filter
              (·.role = .melody) := by
        rw [List.filter_filter]
        refine List.filter_congr fun other _ => ?_
        by_cases hother : other.role = .melody
        · simp [hother, plays_of_melody]
        · simp [hother]
      rw [hmelody, h, List.filter_singleton, decide_eq_true hrole] at hperm
      exact List.perm_singleton.mp hperm
    · rintro other hmem ⟨hother, hplays⟩ hname
      have hfound : other ∈ [inst] :=
        h ▸ List.mem_filter.mpr ⟨hmem, decide_eq_true ⟨hname, hplays⟩⟩
      rw [List.mem_singleton.mp hfound] at hother
      exact hother hrole
  · rintro ⟨hmelody, hothers⟩
    -- No other instrument of the name plays, so those that play are the melody instruments.
    have hsame : (insts.filter fun other => other.name = inst.name ∧ Plays progression bars other)
        = insts.filter fun other => other.name = inst.name ∧ other.role = .melody := by
      refine List.filter_congr fun other hmem =>
        decide_eq_decide.mpr (and_congr_right fun hname => ?_)
      constructor
      · intro hplays
        by_contra hother
        exact hothers other hmem ⟨hother, hplays⟩ hname
      · exact plays_of_melody
    unfold Alone
    rw [hmelody] at hperm
    rw [hsame]
    exact List.perm_singleton.mp hperm.symm

/-- The track of a melody instrument is its part when it is alone, and longer than that
otherwise. -/
theorem fullPushes_track (hmem : inst ∈ insts) (hrole : inst.role = .melody)
    {melody : List MidiEvent} (hmelody : melody ≠ []) (progression : List Bytes)
    (hbars : 1 ≤ bars) :
    Yields (fullPushes melody (groupByRole insts) progression bars) fun pushes =>
      (Alone insts progression bars inst →
        trackOf pushes inst.name = melodyPart inst melody) ∧
      ((trackOf pushes inst.name).length = melody.length → Alone insts progression bars inst) := by
  refine (fullPushes_names hmelody progression hbars).mono fun pushes h => ?_
  obtain ⟨rest, rfl, hnames⟩ := h
  have hrest : trackOf rest inst.name = [] ↔
      ∀ other ∈ insts, other.role ≠ .melody ∧ Plays progression bars other →
        other.name ≠ inst.name := by
    have hpush := not_congr (hnames inst.name)
    push Not at hpush
    rw [trackOf, List.map_eq_nil_iff, List.filter_eq_nil_iff]
    simpa using hpush
  rw [trackOf_append, trackOf_assignMelody, alone_iff hrole, ← hrest]
  have hgroup : inst ∈ (sortByName (groupByRole insts).melody).filter (·.name = inst.name) :=
    List.mem_filter.mpr ⟨(List.mem_insertionSort _).mpr
      (List.mem_filter.mpr ⟨hmem, decide_eq_true hrole⟩), decide_eq_true rfl⟩
  generalize (sortByName (groupByRole insts).melody).filter (·.name = inst.name) = group at hgroup ⊢
  constructor
  · rintro ⟨rfl, hnil⟩
    rw [hnil, List.flatMap_singleton, List.append_nil]
  · intro hlength
    have hparts : (group.flatMap fun inst => melodyPart inst melody).length
        = group.length * melody.length := by
      simp [List.length_flatMap, melodyPart]
    have hpos := List.length_pos_of_mem hgroup
    have hnotes := List.length_pos_iff.mpr hmelody
    rw [List.length_append, hparts] at hlength
    -- A second part would make the track too long, as would any other note.
    have hone : group.length = 1 := by
      by_contra hmany
      have htwo : 2 * melody.length ≤ group.length * melody.length :=
        Nat.mul_le_mul_right _ (by omega)
      omega
    rw [hone, one_mul] at hlength
    have hnil : trackOf rest inst.name = [] := List.length_eq_zero_iff.mp (by omega)
    obtain ⟨first, rfl⟩ := List.length_eq_one_iff.mp hone
    rw [List.mem_singleton] at hgroup
    exact ⟨by rw [hgroup], hnil⟩

end

/-- There is a result only with a melody, a progression and bars. -/
theorem orchestrateFull_nonempty {melody : List MidiEvent} {progression : List Bytes}
    {ensemble : List OrchestralSection} {bars : Int} {seed : Seed}
    {t : Bytes × List MidiEvent}
    (h : t ∈ (orchestrateFull melody progression ensemble bars seed).val) :
    melody ≠ [] ∧ progression ≠ [] ∧ 1 ≤ bars := by
  unfold orchestrateFull at h
  split at h
  · exact absurd h List.not_mem_nil
  · rename_i hsome
    rw [not_or, not_or, not_or] at hsome
    exact ⟨hsome.1, hsome.2.1, by omega⟩

section

variable {ensemble : List OrchestralSection}
  (hmem : inst ∈ ensemble.flatMap OrchestralSection.instruments) (hrole : inst.role = .melody)
include hmem hrole

/-- What the track of a melody instrument is, in the result. -/
theorem orchestrateFull_track {melody : List MidiEvent} {progression : List Bytes} {bars : Int}
    {seed : Seed} {t : Bytes × List MidiEvent}
    (ht : t ∈ (orchestrateFull melody progression ensemble bars seed).val)
    (hname : t.1 = inst.name) :
    (Alone (ensemble.flatMap OrchestralSection.instruments) progression bars inst →
        t.2 = melodyPart inst melody) ∧
      (t.2.length = melody.length →
        Alone (ensemble.flatMap OrchestralSection.instruments) progression bars inst) := by
  obtain ⟨hmelody, hprogression, hbars⟩ := orchestrateFull_nonempty ht
  -- Flattening only sorts the instruments, and neither condition depends on their order.
  have hperm : (flattenEnsemble ensemble).Perm (ensemble.flatMap OrchestralSection.instruments) :=
    List.perm_insertionSort _ _
  rw [orchestrateFull_eq seed hmelody hprogression hbars hmem] at ht
  have htrack := collect_track t ht
  rw [hname] at htrack
  rw [htrack]
  obtain ⟨hpart, halone⟩ := yields_run
    (fullPushes_track (mem_flattenEnsemble.mpr hmem) hrole hmelody progression hbars) seed
  exact ⟨fun h => hpart (h.perm hperm), fun hlength => (halone hlength).perm hperm.symm⟩

/-- Past the guards a melody instrument has a track. -/
theorem orchestrateFull_has_part {melody : List MidiEvent} {progression : List Bytes} {bars : Int}
    (seed : Seed) (hmelody : melody ≠ []) (hprogression : progression ≠ []) (hbars : 1 ≤ bars) :
    ∃ t ∈ (orchestrateFull melody progression ensemble bars seed).val, t.1 = inst.name := by
  have hflat := mem_flattenEnsemble.mpr hmem
  obtain ⟨e, hpush⟩ := yields_run (melody_push hflat hrole hmelody progression bars) seed
  rw [orchestrateFull_eq seed hmelody hprogression hbars hmem]
  exact exists_collect hflat hpush

end

/-- The track of the name has one note for each note of the melody, with the same ticks, the same
velocity and the same pitch up to octaves. -/
def KeepsTune (inst : OrchestralInstrument) (melody : List MidiEvent)
    (tracks : List (Bytes × List MidiEvent)) : Prop :=
  ∀ t ∈ tracks, t.1 = inst.name → List.Forall₂ SameTune melody t.2

/-- A melody instrument keeps the tune exactly when there is nothing to orchestrate, or when it is
alone in its track and all notes of the melody have an octave in its range, six semitones or more
below its highest note. -/
theorem melody_sameTune_iff {ensemble : List OrchestralSection}
    (hmem : inst ∈ ensemble.flatMap OrchestralSection.instruments) (hrole : inst.role = .melody)
    (hlow : 0 ≤ inst.minNote) (hhigh : inst.maxNote ≤ 127)
    (hoctave : 11 ≤ inst.maxNote - inst.minNote) (melody : List MidiEvent)
    (progression : List Bytes) (bars : Int) (seed : Seed) :
    KeepsTune inst melody (orchestrateFull melody progression ensemble bars seed).val ↔
      (melody = [] ∨ progression = [] ∨ bars < 1) ∨
        (Alone (ensemble.flatMap OrchestralSection.instruments) progression bars inst ∧
          ∀ note ∈ melody, HasOctave inst note.note.toNat) := by
  by_cases hnone : melody = [] ∨ progression = [] ∨ bars < 1
  -- Without a melody, a chord or a bar there is no track at all.
  · refine iff_of_true (fun t ht => ?_) (.inl hnone)
    obtain ⟨hmelody, hprogression, hbars⟩ := orchestrateFull_nonempty ht
    obtain h | h | h := hnone
    · exact absurd h hmelody
    · exact absurd h hprogression
    · omega
  · rw [or_iff_right hnone]
    simp only [not_or, Int.not_lt] at hnone
    obtain ⟨hmelody, hprogression, hbars⟩ := hnone
    constructor
    · intro h
      -- There is a track, and the number of its notes tells that the instrument is alone.
      obtain ⟨t, ht, hname⟩ := orchestrateFull_has_part hmem hrole seed hmelody hprogression hbars
      obtain ⟨hpart, halone⟩ := orchestrateFull_track hmem hrole ht hname
      have htune := h t ht hname
      have hinst := halone htune.length_eq.symm
      rw [hpart hinst] at htune
      exact ⟨hinst, (melodyPart_sameTune_iff hlow hhigh hoctave melody).mp htune⟩
    · rintro ⟨hinst, hnotes⟩ t ht hname
      rw [(orchestrateFull_track hmem hrole ht hname).1 hinst]
      exact (melodyPart_sameTune_iff hlow hhigh hoctave melody).mpr hnotes

/-- A range of 18 notes has an octave of every note. -/
theorem hasOctave_of_wide (hwide : 17 ≤ inst.maxNote - inst.minNote) (n : Int) :
    HasOctave inst n := ⟨(inst.maxNote - 6 - n) / 12, by omega, by omega⟩

/-- A recorder that plays one octave. -/
def recorder : OrchestralInstrument := ⟨bytes "Recorder", 74, 0, 60, 71, .melody, 0⟩

/-- The recorder alone. -/
def soloRecorder : List OrchestralSection := [⟨bytes "Solo", [recorder]⟩]

/-- A recorder with a pad of its name that is too narrow for the chord, and a double bass. -/
def recorderGroup : List OrchestralSection :=
  [⟨bytes "Solo", [recorder, ⟨bytes "Recorder", 89, 1, 61, 61, .pad, 0⟩]⟩,
    ⟨bytes "Strings", [⟨bytes "Double Bass", 43, 2, 28, 60, .bass, 1⟩]⟩]

/-- A D is played an octave lower, as the tune asks, and no C major chord has a C sharp. -/
theorem recorder_sameTune : KeepsTune recorder [⟨0, 480, 0, 74, 90, 0⟩]
    (orchestrateFull [⟨0, 480, 0, 74, 90, 0⟩] [bytes "C"] recorderGroup 2 7).val := by
  have hmem : recorder ∈ recorderGroup.flatMap OrchestralSection.instruments := List.mem_cons_self
  refine (melody_sameTune_iff hmem rfl (by decide) (by decide) (by decide)
    [⟨0, 480, 0, 74, 90, 0⟩] [bytes "C"] 2 7).mpr (.inr ⟨?_, fun note hnote => ?_⟩)
  · unfold Alone
    decide
  · rw [List.mem_singleton.mp hnote]
    exact ⟨-1, by decide, by decide⟩

/-- An F sharp in the range is lowered out of it, and the F in the middle is played. -/
theorem recorder_not_sameTune : ¬ KeepsTune recorder [⟨0, 480, 0, 66, 90, 0⟩]
    (orchestrateFull [⟨0, 480, 0, 66, 90, 0⟩] [bytes "C"] soloRecorder 1 7).val := by
  intro h
  have hmem : recorder ∈ soloRecorder.flatMap OrchestralSection.instruments := List.mem_cons_self
  obtain ⟨t, ht, hname⟩ := orchestrateFull_has_part hmem rfl 7
    (List.cons_ne_nil (⟨0, 480, 0, 66, 90, 0⟩ : MidiEvent) [])
    (List.cons_ne_nil (bytes "C") []) (show (1 : Int) ≤ 1 by decide)
  have htune := h t ht hname
  have halone :
      Alone (soloRecorder.flatMap OrchestralSection.instruments) [bytes "C"] 1 recorder := by
    unfold Alone
    decide
  rw [(orchestrateFull_track hmem rfl ht hname).1 halone,
    melodyPart_sameTune_iff (by decide) (by decide) (by decide)] at htune
  -- No octave of 66 lies between 60 and 65.
  obtain ⟨k, hmin, hmax⟩ := htune _ List.mem_cons_self
  have hmin : (60 : Int) ≤ 66 + 12 * k := hmin
  have hmax : 66 + 12 * k ≤ (71 : Int) - 6 := hmax
  omega

end AiMidi.Proofs.Orchestration
