import AiMidi.Proofs.BassPatterns
import AiMidi.Proofs.Orchestration.Coverage
import AiMidi.Proofs.Orchestration.Registers

/-!
# `AiMidi.Proofs.Orchestration.Channels`: two tracks on channel 0

Every ensemble has its first violin on channel 0, and the bass engine plays on channel 0 too. The
violin has the melody, of which every input has some (`melody_ne_nil`). The bass has at least one
note for each chord (`chordNotes_onZero`). Both tracks stay in the map up to the end. So two tracks
share channel 0 whenever there is a result at all (`channelsApart_iff`).

`OnChannel` is the fact that is followed through the map: a name has a track with an event on a
channel.
-/

set_option autoImplicit false

namespace AiMidi.Proofs.Orchestration

open AiMidi.Lib AiMidi.Lib.Seeded AiMidi.Theory AiMidi.Theory.OrchestrationEngine
open AiMidi.Theory.OrchestrateWorkflow

/-- Only the drums have events on channel 9, and tracks of different names have no channel in
common. -/
structure ChannelsApart (tracks : List Track) : Prop where
  drums : ∀ t ∈ tracks, t.1 ≠ bytes "Drums" → ∀ e ∈ t.2, e.channel ≠ 9
  apart : ∀ t ∈ tracks, ∀ t' ∈ tracks, t.1 ≠ t'.1 → ∀ e ∈ t.2, ∀ e' ∈ t'.2,
    e.channel ≠ e'.channel

/-! ### The map of the tracks

The map is changed by adding events to a track and by setting a track anew. Both leave the tracks of
other names as they are. -/

/-- The track of the name has an event on the channel. -/
def OnChannel (tracks : List Track) (name : Bytes) (ch : UInt8) : Prop :=
  ∃ t ∈ tracks, t.1 = name ∧ ∃ e ∈ t.2, e.channel = ch

section

variable {tracks : List Track} {name name' : Bytes} {ch : UInt8} {events : List MidiEvent}

/-- Setting another track leaves the channel of this one. -/
theorem OnChannel.setTrack_of_ne (h : OnChannel tracks name ch) (hne : name ≠ name') :
    OnChannel (setTrack tracks name' events) name ch := by
  obtain ⟨t, ht, rfl, hevent⟩ := h
  exact ⟨t, List.mem_append_left _ (List.mem_filter.mpr ⟨ht, decide_eq_true hne⟩), rfl, hevent⟩

/-- A track that is set has the channel of its events. -/
theorem onChannel_setTrack (h : ∃ e ∈ events, e.channel = ch) :
    OnChannel (setTrack tracks name events) name ch :=
  ⟨(name, events), List.mem_append_right _ List.mem_cons_self, rfl, h⟩

/-- Adding to another track leaves the channel of this one. -/
theorem OnChannel.addTrack_of_ne (h : OnChannel tracks name ch) (hne : name ≠ name') :
    OnChannel (OrchestrateWorkflow.addTrack tracks name' events) name ch := by
  unfold OrchestrateWorkflow.addTrack
  split
  · exact h
  · exact h.setTrack_of_ne hne

/-- A track that is added has the channel of its events. -/
theorem onChannel_addTrack (h : ∃ e ∈ events, e.channel = ch) :
    OnChannel (OrchestrateWorkflow.addTrack tracks name events) name ch := by
  obtain ⟨e, he, hch⟩ := h
  rw [OrchestrateWorkflow.addTrack, if_neg (List.ne_nil_of_mem he)]
  exact onChannel_setTrack ⟨e, he, hch⟩

/-- A name that is entered keeps its last track. -/
theorem onChannel_foldl {ts : List Track}
    (hall : ∀ t ∈ ts, t.1 = name → ∃ e ∈ t.2, e.channel = ch)
    (hsome : (∃ t ∈ ts, t.1 = name) ∨ OnChannel tracks name ch) :
    OnChannel (ts.foldl (fun tracks t => setTrack tracks t.1 t.2) tracks) name ch := by
  induction ts generalizing tracks with
  | nil => exact hsome.resolve_left fun ⟨t, ht, _⟩ => absurd ht List.not_mem_nil
  | cons t ts ih =>
    refine ih (fun t' ht' => hall t' (List.mem_cons_of_mem t ht')) ?_
    by_cases hname : t.1 = name
    · subst hname
      exact .inr (onChannel_setTrack (hall t List.mem_cons_self rfl))
    · obtain ⟨t', ht', hname'⟩ | h := hsome
      · obtain rfl | ht' := List.mem_cons.mp ht'
        · exact absurd hname' hname
        · exact .inl ⟨t', ht', hname'⟩
      · exact .inr (h.setTrack_of_ne (Ne.symm hname))

/-- Ordering the tracks drops no track of the order. -/
theorem OnChannel.orderTracks (h : OnChannel tracks name ch) (hname : name ∈ trackOrder) :
    OnChannel (orderTracks tracks) name ch := by
  obtain ⟨t, ht, rfl, e, he, hch⟩ := h
  refine ⟨t, List.mem_append_left _ (List.mem_flatMap.mpr ⟨t.1, hname, ?_⟩), rfl, e, he, hch⟩
  exact List.mem_filter.mpr ⟨ht, decide_eq_true ⟨rfl, List.ne_nil_of_mem he⟩⟩

/-- Two names on one channel. -/
theorem not_channelsApart (h : OnChannel tracks name ch) (h' : OnChannel tracks name' ch)
    (hne : name ≠ name') : ¬ ChannelsApart tracks := by
  intro hapart
  obtain ⟨t, ht, rfl, e, he, hch⟩ := h
  obtain ⟨t', ht', rfl, e', he', hch'⟩ := h'
  exact hapart.apart t ht t' ht' hne e he e' he' (hch.trans hch'.symm)

end

/-! ### The first violin

Every ensemble has the violin as a melody instrument, so it gets the melody. Its channel is fixed in
the table of the ensemble. -/

/-- The first violin of every ensemble. -/
def violin : OrchestralInstrument := ⟨bytes "Violin I", 40, 0, 55, 84, .melody, 0⟩

/-- Every density has the first violin. -/
theorem violin_mem (density : OrchestrateDensity) :
    violin ∈ (buildEnsemble density).flatMap OrchestralSection.instruments := by
  cases density <;> exact List.mem_cons_self

/-- No two instruments of an ensemble share a name. -/
theorem buildEnsemble_names (density : OrchestrateDensity) :
    (((buildEnsemble density).flatMap OrchestralSection.instruments).map
      OrchestralInstrument.name).Nodup := by
  cases density <;> decide

/-- The ranges of all instruments lie in MIDI. -/
theorem buildEnsemble_playable (density : OrchestrateDensity) :
    ∀ inst ∈ (buildEnsemble density).flatMap OrchestralSection.instruments, Playable inst := by
  have hbounds : ∀ inst ∈ (buildEnsemble density).flatMap OrchestralSection.instruments,
      (0 ≤ inst.channel ∧ inst.channel ≤ 15) ∧ 0 ≤ inst.minNote ∧ inst.maxNote ≤ 127 ∧
        11 ≤ inst.maxNote - inst.minNote := by
    cases density <;> decide
  intro inst hmem
  obtain ⟨hchannel, hlow, hhigh, hoctave⟩ := hbounds inst hmem
  exact ⟨hchannel, hlow, hhigh, hoctave⟩

/-- An instrument with a push has a track. -/
theorem exists_collect {pushes : List Push} {insts : List OrchestralInstrument}
    {inst : OrchestralInstrument} {e : MidiEvent} (hmem : inst ∈ insts)
    (h : (inst.name, e) ∈ pushes) : ∃ t ∈ collect pushes insts, t.1 = inst.name := by
  induction insts generalizing pushes with
  | nil => exact absurd hmem List.not_mem_nil
  | cons first insts ih =>
    -- The track is that of the first instrument, or it is collected behind it.
    by_cases hname : first.name = inst.name
    · have htrack : trackOf pushes first.name ≠ [] :=
        List.ne_nil_of_mem (mem_trackOf.mpr (hname ▸ h))
      rw [collect, if_neg htrack]
      exact ⟨_, List.mem_cons_self, hname⟩
    · obtain rfl | hmem := List.mem_cons.mp hmem
      · exact absurd rfl hname
      · have hrest : (inst.name, e) ∈ pushes.filter (·.1 ≠ first.name) :=
          List.mem_filter.mpr ⟨h, decide_eq_true (Ne.symm hname)⟩
        obtain ⟨t, ht, hinst⟩ := ih hmem hrest
        refine ⟨t, ?_, hinst⟩
        rw [collect]
        split
        · exact ht
        · exact List.mem_cons_of_mem _ ht

/-- Every track of the result has an event. -/
theorem collect_ne_nil {pushes : List Push} {insts : List OrchestralInstrument} :
    ∀ t ∈ collect pushes insts, t.2 ≠ [] := by
  induction insts generalizing pushes with
  | nil => exact fun t ht => absurd ht List.not_mem_nil
  | cons inst insts ih =>
    intro t ht
    rw [collect] at ht
    split at ht
    · exact ih t ht
    · rename_i hne
      obtain rfl | ht := List.mem_cons.mp ht
      · exact hne
      · exact ih t ht

/-- A melody instrument gets the melody. -/
theorem melody_push {melody : List MidiEvent} {insts : List OrchestralInstrument}
    {inst : OrchestralInstrument} (hmem : inst ∈ insts) (hrole : inst.role = .melody)
    (hmelody : melody ≠ []) (progression : List Bytes) (bars : Int) :
    Yields (fullPushes melody (groupByRole insts) progression bars)
      fun pushes => ∃ e, (inst.name, e) ∈ pushes := by
  obtain ⟨note, hnote⟩ := List.exists_mem_of_ne_nil _ hmelody
  have hgroup : inst ∈ sortByName (groupByRole insts).melody :=
    (List.mem_insertionSort _).mpr (List.mem_filter.mpr ⟨hmem, decide_eq_true hrole⟩)
  have hpush : (inst.name, { note with
      channel := u8cast inst.channel, note := u8cast (transpose inst note.note.toNat) }) ∈
      assignMelody melody (sortByName (groupByRole insts).melody) :=
    List.mem_flatMap.mpr ⟨inst, hgroup, List.mem_map.mpr ⟨note, hnote, rfl⟩⟩
  exact yields_bind_any fun backing => yields_pure
    ⟨_, List.mem_append_left _ (List.mem_append_left _ hpush)⟩

/-- Past the guards the orchestration collects what is pushed. -/
theorem orchestrateFull_eq {melody : List MidiEvent} {progression : List Bytes}
    {ensemble : List OrchestralSection} {bars : Int} (seed : Seed) (hmelody : melody ≠ [])
    (hprogression : progression ≠ []) (hbars : 1 ≤ bars)
    {inst : OrchestralInstrument} (hmem : inst ∈ ensemble.flatMap OrchestralSection.instruments) :
    (orchestrateFull melody progression ensemble bars seed).val =
      collect (run seed (fullPushes melody (groupByRole (flattenEnsemble ensemble)) progression
        bars)).val (flattenEnsemble ensemble) := by
  -- The instrument is in the ensemble, so neither early return is taken.
  have hensemble : ensemble ≠ [] := by
    rintro rfl
    exact absurd hmem List.not_mem_nil
  have hsome : ¬ (melody = [] ∨ progression = [] ∨ ensemble = [] ∨ bars < 1) := by
    rintro (h | h | h | h)
    · exact hmelody h
    · exact hprogression h
    · exact hensemble h
    · omega
  rw [orchestrateFull, if_neg hsome]
  dsimp only
  rw [if_neg (List.ne_nil_of_mem (mem_flattenEnsemble.mpr hmem))]
  rfl

/-- The violin has a track on channel 0. -/
theorem orchestrateFull_violin {melody : List MidiEvent} {progression : List Bytes} {bars : Int}
    (density : OrchestrateDensity) (seed : Seed) (hmelody : melody ≠ [])
    (hprogression : progression ≠ []) (hbars : 1 ≤ bars) :
    OnChannel ((orchestrateFull melody progression (buildEnsemble density) bars seed).val.foldl
      (fun tracks t => setTrack tracks t.1 t.2) []) (bytes "Violin I") 0 := by
  have hmem := violin_mem density
  have heq := orchestrateFull_eq seed hmelody hprogression hbars hmem
  have hregister := orchestrateFull_inRegister (buildEnsemble_names density)
    (buildEnsemble_playable density) melody progression bars seed
  -- The track has an event, all of its events are on the channel, and there is such a track.
  refine onChannel_foldl (fun t ht hname => ?_) (.inl ?_)
  · have hne : t.2 ≠ [] := by
      rw [heq] at ht
      exact collect_ne_nil t ht
    obtain ⟨e, he⟩ := List.exists_mem_of_ne_nil _ hne
    obtain ⟨-, -, hchannel⟩ := hregister violin hmem t ht hname e he
    exact ⟨e, he, UInt8.toNat_inj.mp (Int.ofNat_inj.mp hchannel)⟩
  · have hflat := mem_flattenEnsemble.mpr hmem
    obtain ⟨e, hpush⟩ := yields_run (melody_push hflat rfl hmelody progression bars) seed
    rw [heq]
    exact exists_collect hflat hpush

/-! ### The bass

The patterns of the bass differ in their notes, and all of them write channel 0. -/

/-- Some event is on channel 0. -/
def OnZero (events : List MidiEvent) : Prop := ∃ e ∈ events, e.channel = 0

/-- An event on channel 0 stays when others follow. -/
theorem OnZero.append {events : List MidiEvent} (h : OnZero events) (others : List MidiEvent) :
    OnZero (events ++ others) := by
  obtain ⟨e, he, hch⟩ := h
  exact ⟨e, List.mem_append_left others he, hch⟩

/-- Each pattern has a note, and all of its notes are on channel 0. -/
theorem chordNotes_onZero (ppq : Int) (cs : ChordSpec) :
    Yields (BassEngine.chordNotes ppq cs) OnZero := by
  refine (BassPatterns.chordNotes_eq ppq cs).mono fun out hout => ?_
  obtain ⟨rootVel, fifthVel, c1, c3, pat, rfl⟩ := hout
  obtain ⟨b, hb, -⟩ := BassPatterns.exists_thirdBeat pat
  exact ⟨_, List.mem_flatMap.mpr ⟨b, hb, List.mem_cons_self⟩, rfl⟩

/-- The bass plays under the first chord. -/
theorem generate_onZero {req : ChordRequest} (h : req.chords ≠ []) :
    OnZero (BassEngine.generate req).val := by
  rw [BassEngine.generate, Sanitized.val_forEach]
  obtain ⟨cs, chords, hchords⟩ := List.exists_cons_of_ne_nil h
  rw [hchords, List.zipIdx_cons, List.flatMap_cons]
  exact OnZero.append (yields_run (chordNotes_onZero _ cs) _) _

/-- The bass of a progression plays on channel 0. -/
theorem bassEvents_onZero (req : OrchestrateRequest) {progression : List Bytes}
    (h : progression ≠ []) : OnZero (bassEvents req progression).val := by
  have hchords : (buildChordRequest progression (req.seed + 3)).val.chords ≠ [] := by
    rw [buildChordRequest_chords]
    exact fun hnil => h (List.zipIdx_eq_nil_iff.mp (List.map_eq_nil_iff.mp hnil))
  exact generate_onZero hchords

/-! ### The workflow

An input has a melody as soon as it has an event, and a progression of at least one symbol. Past the
guards both tracks are therefore there. -/

/-- The first tick of the input has a melody note. -/
theorem melody_ne_nil {piano : List MidiEvent} (h : piano ≠ []) :
    (separateMelodyHarmony piano).1 ≠ [] := by
  obtain ⟨ev, hev⟩ := List.exists_mem_of_ne_nil _ h
  intro hnil
  have hgroup : (ev.tickOn.toNat, piano.filter fun e => e.tickOn.toNat = ev.tickOn.toNat) ∈
      groupBy (fun e : MidiEvent => e.tickOn.toNat) piano :=
    mem_groupBy.mpr ⟨rfl, List.ne_nil_of_mem (List.mem_filter.mpr ⟨hev, decide_eq_true rfl⟩)⟩
  obtain ⟨first, others, hevents⟩ := List.exists_cons_of_ne_nil (mem_groupBy.mp hgroup).2
  have hsplit := List.flatMap_eq_nil_iff.mp hnil _ (List.mem_map_of_mem (f := Prod.snd) hgroup)
  rw [hevents] at hsplit
  exact absurd hsplit (List.cons_ne_nil _ _)

/-- The progression is never empty. -/
theorem progression_ne_nil (harmony : List MidiEvent) (bars : Int) :
    (buildChordProgression harmony bars).val ≠ [] := by
  by_cases h : harmony = [] ∨ bars < 1
  · rw [buildChordProgression, if_pos h]
    exact List.cons_ne_nil _ _
  · have hbars : bars.toNat ≠ 0 := by omega
    rw [buildChordProgression_eq (fun hnil => h (.inl hnil)) (by omega), ne_eq, List.map_eq_nil_iff,
      List.range_eq_nil]
    exact hbars

/-- The tracks of the violin and of the bass both have events on channel 0. -/
theorem orchestrateTracks_onChannel {req : OrchestrateRequest} {melody : List MidiEvent}
    {progression : List Bytes} (hmelody : melody ≠ []) (hprogression : progression ≠ [])
    (hbars : 1 ≤ req.bars) :
    OnChannel (orchestrateTracks req melody progression).val (bytes "Violin I") 0 ∧
      OnChannel (orchestrateTracks req melody progression).val (bytes "Bass") 0 := by
  have hviolin := orchestrateFull_violin req.density req.seed hmelody hprogression hbars
  have hbass : OnZero (bassEvents req progression).val := bassEvents_onZero req hprogression
  simp only [orchestrateTracks, Sanitized.val_bind, Sanitized.val_pure]
  constructor
  · -- No other engine makes a track of the name `Violin I`.
    exact (((hviolin.addTrack_of_ne (by decide)).addTrack_of_ne (by decide)).addTrack_of_ne
      (by decide)).addTrack_of_ne (by decide)
  · exact (onChannel_addTrack hbass).addTrack_of_ne (by decide)

/-- Whenever there is a result, violin and bass share channel 0 in it. -/
theorem orchestrate_not_apart {req : OrchestrateRequest} (hpiano : req.pianoInput ≠ [])
    (hbars : 1 ≤ req.bars) : ¬ ChannelsApart (orchestrate req).val := by
  have hmelody := melody_ne_nil hpiano
  have hprogression := progression_ne_nil (separateMelodyHarmony req.pianoInput).2 req.bars
  have hsome : ¬ (req.pianoInput = [] ∨ req.bars < 1) := by
    rintro (h | h)
    · exact hpiano h
    · omega
  obtain ⟨hviolin, hbass⟩ := orchestrateTracks_onChannel hmelody hprogression hbars
  rw [orchestrate, if_neg hsome]
  dsimp only
  rw [if_neg (fun h => hmelody h.1)]
  exact not_channelsApart (hviolin.orderTracks (by decide)) (hbass.orderTracks (by decide))
    (by decide)

/-- The channels of the tracks are kept apart exactly when there are no tracks: without an input
or without bars. -/
theorem channelsApart_iff (req : OrchestrateRequest) :
    ChannelsApart (orchestrate req).val ↔ req.pianoInput = [] ∨ req.bars < 1 := by
  constructor
  · intro h
    by_contra hsome
    exact orchestrate_not_apart (fun hnil => hsome (.inl hnil)) (by omega) h
  · intro hnone
    rw [orchestrate, if_pos hnone]
    exact ⟨fun t ht => absurd ht List.not_mem_nil, fun t ht => absurd ht List.not_mem_nil⟩

/-- One note for one bar. -/
theorem oneNote_not_apart :
    ¬ ChannelsApart (orchestrate ⟨[⟨0, 480, 0, 60, 90, 0⟩], 1, .sparse, 0⟩).val :=
  orchestrate_not_apart (List.cons_ne_nil _ _) (by decide)

end AiMidi.Proofs.Orchestration
