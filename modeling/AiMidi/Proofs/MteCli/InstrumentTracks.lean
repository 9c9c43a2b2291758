import AiMidi.Proofs.BlueprintChannels
import AiMidi.Proofs.MteCli.Composition
import AiMidi.Proofs.MteCli.PartNotes
import AiMidi.Proofs.MteCli.Precedence
import AiMidi.Proofs.TimelineGeometry

/-!
# `AiMidi.Proofs.MteCli.InstrumentTracks`: which track gets which part

`main` looks for the instrument of a part by its role. The interpreter gives the piano the role
`comping` and the drums the role `drum`, and `main` asks for neither. So no track is ever named
`piano` or `drums` (`mem_arrangedTracks`), and the piano part goes to a guitar, whose role is
`rhythm`. Only the bass finds its part (`exists_bassTrack`).

`partsAgree_iff` says for which prompts every part is in the track of its instrument: for those
whose arrangement has neither piano nor drums.

The names and roles of an arrangement come from the table of the interpreter (`generate_fromTable`),
and which of them occur is read off the words of the prompt (`withoutPianoAndDrums_iff`). `main`
places the parts by a recursion over the instruments, whose one step is `arrangedTracks_cons`.
-/

set_option autoImplicit false

namespace AiMidi.Proofs.MteCli

open AiMidi.Lib AiMidi.Theory AiMidi.Tools
open AiMidi.Theory.PromptInterpreter AiMidi.Theory.BlueprintGenerator
open AiMidi.Proofs.PromptPipeline AiMidi.Proofs.BlueprintChannels

/-! ### The property

A part is a list of events, and a track has the name of an instrument. The property compares the
events, so it does not ask how a track came by its name. -/

/-- The parts that are placed in tracks. -/
inductive CorePart where
  | piano
  | bass
  | drums

/-- The name of the instrument of a part. -/
def CorePart.instrument : CorePart → Bytes
  | .piano => bytes "piano"
  | .bass  => bytes "bass"
  | .drums => bytes "drums"

/-- The events of a core part. -/
def CorePart.events (parts : Parts) : CorePart → List MidiEvent
  | .piano => parts.piano
  | .bass  => parts.bass
  | .drums => parts.drums

/-- The events are in the tracks of this name, and in no track that has the name of another
instrument. -/
structure PlacedAs (name : Bytes) (instruments : List BlueprintInstrument)
    (tracks : List MidiTrack) (events : List MidiEvent) : Prop where
  own : ∀ ev ∈ events, ∃ track ∈ tracks, track.name = name ∧ ev ∈ track.events
  no_other : ∀ inst ∈ instruments, inst.name ≠ name → ∀ track ∈ tracks, track.name = inst.name →
    ∀ ev ∈ events, ev ∉ track.events

/-- Every part whose instrument is in the arrangement is placed in the track of the
instrument. -/
def PartsAgree (std : StdSort drumEventLt) (r : Resolved) (tracks : List MidiTrack) : Prop :=
  ∀ arr, r.arrangement = some arr → ∀ part : CorePart,
    part.instrument ∈ arr.allInstruments.map BlueprintInstrument.name →
      PlacedAs part.instrument arr.allInstruments tracks
        (part.events (generateEvents std r.key r.scale r.bars r.seed).val)

/-- The words for piano and drums. -/
def pianoAndDrumWords : List Bytes := [bytes "piano", bytes "keys", bytes "drums", bytes "drum"]

/-- The lower-cased text names an instrument, and neither piano nor drums. -/
structure NamesOthersOnly (lower : Bytes) : Prop where
  named : ∃ entry ∈ instrumentMap, entry.1.any (contains lower) = true
  no_word : ∀ word ∈ pianoAndDrumWords, contains lower word = false

/-- The condition: a prompt that the generator does not accept, or one that names instruments
without piano and drums. A prompt that asks for literal notes gets the default instruments. -/
structure WithoutPianoAndDrums (prompt : Bytes) : Prop where
  not_literal : ¬ hasLiteralNotes (toLowerBytes prompt) = true
  others : ¬ ComposedPrompt prompt ∨ NamesOthersOnly (toLowerBytes prompt)

/-! ### The instruments

The instruments of an arrangement are entries of a table with their names and roles. The generator
changes channels only. -/

/-- Name and role of an instrument. -/
def label (inst : BlueprintInstrument) : Bytes × Bytes := (inst.name, inst.role)

/-- Name and role are those of an instrument that the interpreter knows. -/
def FromTable (inst : BlueprintInstrument) : Prop :=
  label inst ∈ instrumentMap.map fun entry => label entry.2

/-- The assignment of channels keeps names and roles. -/
theorem assignChannels_labels (used : List Int) (insts : List BlueprintInstrument) :
    (assignChannels used insts).map label = insts.map label := by
  have hname : ∀ used inst, (resolveChannel used inst).name = inst.name := by
    intro used inst
    unfold resolveChannel
    dsimp only
    repeat' split
    all_goals rfl
  induction insts generalizing used with
  | nil => rfl
  | cons inst insts ih =>
    show label (resolveChannel used inst) :: (assignChannels _ insts).map label = _
    rw [ih, label, resolveChannel_role, hname]
    rfl

/-- The instruments of the arrangement, by name and role. -/
def labels (prompt : Bytes) (seed : Seed) : List (Bytes × Bytes) :=
  (generate (interpret prompt seed)).instruments.map label

/-- A prompt with literal notes has the default arrangement. -/
theorem labels_of_literal {prompt : Bytes} (h : hasLiteralNotes (toLowerBytes prompt) = true)
    (seed : Seed) :
    labels prompt seed = defaultInstruments.map label := by
  obtain ⟨seed', hreject⟩ := interpret_rejected h seed
  rw [labels, hreject, (generate_default seed').2.1, assignChannels_labels]
  rfl

/-- A prompt that is composed has the instruments it names. -/
theorem labels_of_composed {prompt : Bytes} (h : ComposedPrompt prompt) (seed : Seed) :
    labels prompt seed = (detectInstruments (toLowerBytes prompt)).map label := by
  have hdetect : (interpret prompt seed).instruments = detectInstruments (toLowerBytes prompt) := by
    rw [interpret, if_neg h.not_literal]
  have hvalid := (composedPrompt_iff seed h.not_literal).mp h
  rw [labels, generate_instruments hvalid (by rw [hdetect]; exact detectInstruments_ne_nil _),
    assignChannels_labels, hdetect]

/-- A prompt that is rejected has none. -/
theorem labels_of_not_composed {prompt : Bytes}
    (hliteral : ¬ hasLiteralNotes (toLowerBytes prompt) = true) (h : ¬ ComposedPrompt prompt)
    (seed : Seed) : labels prompt seed = [] := by
  rw [labels, generate, if_neg fun hvalid => h ((composedPrompt_iff seed hliteral).mpr hvalid)]
  rfl

/-- The default instruments are entries of the table. -/
theorem defaultInstruments_fromTable : ∀ inst ∈ defaultInstruments, FromTable inst := by
  unfold FromTable
  decide

/-- So are those of every prompt. -/
theorem detectInstruments_fromTable (lower : Bytes) :
    ∀ inst ∈ detectInstruments lower, FromTable inst := by
  intro inst hinst
  unfold detectInstruments at hinst
  dsimp only at hinst
  split at hinst
  · obtain ⟨entry, hentry, rfl⟩ := List.mem_map.mp hinst
    exact List.mem_map.mpr ⟨entry, List.mem_of_mem_filter hentry, rfl⟩
  · exact defaultInstruments_fromTable inst hinst

/-- All instruments of an arrangement come from the table of the interpreter. -/
theorem generate_fromTable (prompt : Bytes) (seed : Seed) :
    ∀ inst ∈ (generate (interpret prompt seed)).instruments, FromTable inst := by
  intro inst hinst
  have hlabel : label inst ∈ labels prompt seed := List.mem_map_of_mem hinst
  -- The generator changes channels only, so the instrument is one of those it was given.
  have hsource : ∀ insts : List BlueprintInstrument, (∀ i ∈ insts, FromTable i) →
      label inst ∈ insts.map label → FromTable inst := by
    intro insts htable hmem
    obtain ⟨source, hsource, heq⟩ := List.mem_map.mp hmem
    rw [FromTable, ← heq]
    exact htable source hsource
  by_cases hliteral : hasLiteralNotes (toLowerBytes prompt) = true
  · rw [labels_of_literal hliteral] at hlabel
    exact hsource _ defaultInstruments_fromTable hlabel
  · by_cases hcomposed : ComposedPrompt prompt
    · rw [labels_of_composed hcomposed] at hlabel
      exact hsource _ (detectInstruments_fromTable _) hlabel
    · rw [labels_of_not_composed hliteral hcomposed] at hlabel
      exact absurd hlabel List.not_mem_nil

/-- When a word of the table occurs, the instruments are those whose words occur, in the order of
the table. -/
theorem detectInstruments_of_named {lower : Bytes}
    (h : ∃ entry ∈ instrumentMap, entry.1.any (contains lower) = true) :
    detectInstruments lower =
      (instrumentMap.filter fun entry => entry.1.any (contains lower)).map Prod.snd := by
  obtain ⟨entry, hentry, hany⟩ := h
  rw [detectInstruments, if_pos]
  exact List.ne_nil_of_mem (List.mem_map_of_mem (List.mem_filter.mpr ⟨hentry, hany⟩))

/-- When no instrument is named, piano, bass and drums play. -/
theorem detectInstruments_of_not_named {lower : Bytes}
    (h : ¬ ∃ entry ∈ instrumentMap, entry.1.any (contains lower) = true) :
    detectInstruments lower = defaultInstruments := by
  rw [detectInstruments, if_neg]
  rw [not_not, List.map_eq_nil_iff, List.filter_eq_nil_iff]
  intro entry hentry hany
  exact h ⟨entry, hentry, hany⟩

/-- Neither piano nor drums is detected in a text that names other instruments only. -/
theorem not_detected_iff (lower : Bytes) :
    (∀ name ∈ [bytes "piano", bytes "drums"],
        name ∉ (detectInstruments lower).map BlueprintInstrument.name) ↔
      NamesOthersOnly lower := by
  -- The words are those of the two entries of the table.
  have hwords : ∀ entry ∈ instrumentMap, entry.2.name ∈ [bytes "piano", bytes "drums"] →
      ∀ word ∈ entry.1, word ∈ pianoAndDrumWords := by decide
  have hentries : ∀ word ∈ pianoAndDrumWords, ∃ entry ∈ instrumentMap,
      entry.2.name ∈ [bytes "piano", bytes "drums"] ∧ word ∈ entry.1 := by decide
  by_cases hnamed : ∃ entry ∈ instrumentMap, entry.1.any (contains lower) = true
  · rw [detectInstruments_of_named hnamed, List.map_map]
    constructor
    · intro hnone
      refine ⟨hnamed, fun word hword => ?_⟩
      by_contra hcontains
      obtain ⟨entry, hentry, hname, hmem⟩ := hentries word hword
      have hany : entry.1.any (contains lower) = true :=
        List.any_eq_true.mpr ⟨word, hmem, Bool.not_eq_false _ ▸ hcontains⟩
      exact hnone _ hname (List.mem_map_of_mem (f := BlueprintInstrument.name ∘ Prod.snd)
        (List.mem_filter.mpr ⟨hentry, hany⟩))
    · intro hothers name hname hmem
      obtain ⟨entry, hentry, rfl⟩ := List.mem_map.mp hmem
      obtain ⟨hentry, hany⟩ := List.mem_filter.mp hentry
      obtain ⟨word, hword, hcontains⟩ := List.any_eq_true.mp hany
      rw [hothers.no_word word (hwords entry hentry hname word hword)] at hcontains
      exact absurd hcontains Bool.false_ne_true
  · rw [detectInstruments_of_not_named hnamed]
    exact iff_of_false (by decide) fun h => hnamed h.named

/-- The arrangement has neither piano nor drums under the condition. -/
theorem withoutPianoAndDrums_iff (prompt : Bytes) (seed : Seed) :
    (∀ name ∈ [bytes "piano", bytes "drums"],
        name ∉ (generate (interpret prompt seed)).instruments.map BlueprintInstrument.name) ↔
      WithoutPianoAndDrums prompt := by
  have hnames : (generate (interpret prompt seed)).instruments.map BlueprintInstrument.name =
      (labels prompt seed).map Prod.fst := by
    rw [labels, List.map_map]
    rfl
  rw [hnames]
  by_cases hliteral : hasLiteralNotes (toLowerBytes prompt) = true
  · rw [labels_of_literal hliteral]
    exact iff_of_false (by decide) fun h => h.not_literal hliteral
  · by_cases hcomposed : ComposedPrompt prompt
    · rw [labels_of_composed hcomposed, List.map_map]
      rw [show Prod.fst ∘ label = BlueprintInstrument.name from rfl, not_detected_iff]
      constructor
      · exact fun h => ⟨hliteral, .inr h⟩
      · exact fun h => h.others.resolve_left (not_not.mpr hcomposed)
    · rw [labels_of_not_composed hliteral hcomposed]
      exact iff_of_true (fun _ _ => List.not_mem_nil) ⟨hliteral, .inl hcomposed⟩

/-! ### The tracks

The loop of `main` hands out the parts by role. What no instrument takes is added behind all of
them, under the name of the part. -/

/-- A track that is not dropped has its name and its events. -/
theorem mem_trackUnlessEmpty {name : Bytes} {events : List MidiEvent} {track : MidiTrack}
    (h : track ∈ trackUnlessEmpty name events) : track = ⟨name, events⟩ := by
  unfold trackUnlessEmpty at h
  split at h
  · exact absurd h List.not_mem_nil
  · exact List.mem_singleton.mp h

/-- The names of the tracks that no instrument took. -/
def coreNames : List Bytes := [bytes "Piano", bytes "Bass", bytes "Drums"]

/-- The roles that `main` takes for the piano are only that of the guitar, and it takes no
instrument for the drums. -/
theorem FromTable.roles {inst : BlueprintInstrument} (h : FromTable inst) :
    (inst.role ∈ [bytes "piano", bytes "chords", bytes "harmony", bytes "rhythm"] →
        inst.name = bytes "guitar") ∧
      (inst.role = bytes "bass" ↔ inst.name = bytes "bass") ∧
      inst.role ∉ [bytes "drums", bytes "percussion"] ∧ inst.name ∉ coreNames := by
  have htable : ∀ l ∈ instrumentMap.map fun entry => label entry.2,
      (l.2 ∈ [bytes "piano", bytes "chords", bytes "harmony", bytes "rhythm"] →
          l.1 = bytes "guitar") ∧
        (l.2 = bytes "bass" ↔ l.1 = bytes "bass") ∧
        l.2 ∉ [bytes "drums", bytes "percussion"] ∧ l.1 ∉ coreNames := by
    decide
  exact htable _ h

/-- What an instrument takes: a guitar the piano part, the bass its part, and the others
nothing. -/
theorem arrangedTracks_cons (parts : Parts) (assigned : Assigned) {inst : BlueprintInstrument}
    (h : FromTable inst) (insts : List BlueprintInstrument) :
    (inst.name = bytes "guitar" ∧ arrangedTracks parts assigned (inst :: insts) =
        trackUnlessEmpty inst.name parts.piano
          ++ arrangedTracks { parts with piano := [] } { assigned with piano := true } insts) ∨
    (inst.name = bytes "bass" ∧ arrangedTracks parts assigned (inst :: insts) =
        trackUnlessEmpty inst.name parts.bass
          ++ arrangedTracks { parts with bass := [] } { assigned with bass := true } insts) ∨
    ((inst.name = bytes "bass" → assigned.bass = true) ∧
      arrangedTracks parts assigned (inst :: insts) = arrangedTracks parts assigned insts) := by
  obtain ⟨hpiano, hbass, hdrums, -⟩ := h.roles
  rw [arrangedTracks]
  -- The guitar takes the piano part and the bass its own; no name of the table takes the drums.
  split
  case isTrue hrole =>
    rw [Bool.and_eq_true, List.contains_iff_mem] at hrole
    exact .inl ⟨hpiano hrole.2, rfl⟩
  case isFalse =>
    split
    case isTrue hrole =>
      rw [Bool.and_eq_true, beq_iff_eq] at hrole
      exact .inr (.inl ⟨hbass.mp hrole.2, rfl⟩)
    case isFalse hrole =>
      rw [if_neg fun hand => hdrums (List.contains_iff_mem.mp (Bool.and_eq_true .. ▸ hand).2)]
      refine .inr (.inr ⟨fun hname => ?_, rfl⟩)
      by_contra hfree
      exact hrole (by simp [hfree, hbass.mpr hname])

/-- A track is a guitar with piano events, a bass, or a part that no instrument took. -/
theorem mem_arrangedTracks {parts : Parts} {assigned : Assigned}
    {insts : List BlueprintInstrument} (h : ∀ inst ∈ insts, FromTable inst) {track : MidiTrack}
    (htrack : track ∈ arrangedTracks parts assigned insts) :
    (track.name = bytes "guitar" ∧ track.events ⊆ parts.piano) ∨ track.name = bytes "bass" ∨
      track.name ∈ coreNames := by
  induction insts generalizing parts assigned with
  | nil =>
    have hcore : ∀ name ∈ coreNames, ∀ taken : Bool, ∀ events : List MidiEvent,
        track ∈ (if taken then [] else trackUnlessEmpty name events) →
          track.name ∈ coreNames := by
      intro name hname taken events hmem
      cases taken with
      | true => exact absurd hmem List.not_mem_nil
      | false =>
        rw [mem_trackUnlessEmpty hmem]
        exact hname
    simp only [arrangedTracks, List.mem_append] at htrack
    obtain (hmem | hmem) | hmem := htrack
    · exact .inr (.inr (hcore _ (by decide) _ _ hmem))
    · exact .inr (.inr (hcore _ (by decide) _ _ hmem))
    · exact .inr (.inr (hcore _ (by decide) _ _ hmem))
  | cons inst insts ih =>
    have hrest := fun i hi => h i (List.mem_cons_of_mem inst hi)
    obtain ⟨hname, heq⟩ | ⟨hname, heq⟩ | ⟨-, heq⟩ :=
      arrangedTracks_cons parts assigned (h inst List.mem_cons_self) insts
    · rw [heq] at htrack
      obtain hmem | hmem := List.mem_append.mp htrack
      · rw [mem_trackUnlessEmpty hmem]
        exact .inl ⟨hname, List.Subset.refl _⟩
      · -- The piano part has been moved, so a later guitar has nothing of it.
        obtain ⟨hname', hsub⟩ | hother := ih hrest hmem
        · exact .inl ⟨hname', fun ev hev => absurd (hsub hev) List.not_mem_nil⟩
        · exact .inr hother
    · rw [heq] at htrack
      obtain hmem | hmem := List.mem_append.mp htrack
      · rw [mem_trackUnlessEmpty hmem]
        exact .inr (.inl hname)
      · have hlater := ih hrest hmem
        exact hlater
    · rw [heq] at htrack
      exact ih hrest htrack

/-- The bass part is in the track of the bass. -/
theorem exists_bassTrack {parts : Parts} {assigned : Assigned} (hfree : assigned.bass = false)
    {insts : List BlueprintInstrument} (h : ∀ inst ∈ insts, FromTable inst)
    (hbass : bytes "bass" ∈ insts.map BlueprintInstrument.name) {ev : MidiEvent}
    (hev : ev ∈ parts.bass) :
    ∃ track ∈ arrangedTracks parts assigned insts, track.name = bytes "bass" ∧
      ev ∈ track.events := by
  induction insts generalizing parts assigned with
  | nil => exact absurd hbass List.not_mem_nil
  | cons inst insts ih =>
    have hrest := fun i hi => h i (List.mem_cons_of_mem inst hi)
    -- Behind an instrument of another name the bass is still to come.
    have hlater : inst.name ≠ bytes "bass" → bytes "bass" ∈ insts.map BlueprintInstrument.name := by
      intro hname
      rw [List.map_cons, List.mem_cons] at hbass
      exact hbass.resolve_left (Ne.symm hname)
    obtain ⟨hname, heq⟩ | ⟨hname, heq⟩ | ⟨htaken, heq⟩ :=
      arrangedTracks_cons parts assigned (h inst List.mem_cons_self) insts
    · have hkept : ev ∈ ({ parts with piano := [] } : Parts).bass := hev
      have hfree' : ({ assigned with piano := true } : Assigned).bass = false := hfree
      have hother : inst.name ≠ bytes "bass" := by
        rw [hname]
        decide
      obtain ⟨track, htrack, hfound⟩ := ih hfree' hrest (hlater hother) hkept
      rw [heq]
      exact ⟨track, List.mem_append_right _ htrack, hfound⟩
    · rw [heq]
      refine ⟨⟨inst.name, parts.bass⟩, List.mem_append_left _ ?_, hname, hev⟩
      rw [trackUnlessEmpty, if_neg (List.ne_nil_of_mem hev)]
      exact List.mem_singleton_self _
    · rw [heq]
      apply ih hfree hrest (hlater ?_) hev
      intro hname
      rw [htaken hname] at hfree
      exact absurd hfree (by decide)

/-- A part is not placed when no track has the name of its instrument. -/
theorem not_placedAs {parts : Parts} {insts : List BlueprintInstrument}
    (h : ∀ inst ∈ insts, FromTable inst) {name : Bytes} {events : List MidiEvent}
    (hne : events ≠ []) (hname : name ∉ bytes "guitar" :: bytes "bass" :: coreNames) :
    ¬ PlacedAs name insts (arrangedTracks parts {} insts) events := by
  intro hplaced
  obtain ⟨ev, hev⟩ := List.exists_mem_of_ne_nil _ hne
  obtain ⟨track, htrack, heq, -⟩ := hplaced.own ev hev
  rw [← heq] at hname
  obtain ⟨hguitar, -⟩ | hbass | hcore := mem_arrangedTracks h htrack
  · exact hname (by simp [hguitar])
  · exact hname (by simp [hbass])
  · exact hname (by simp [hcore])

/-- The bass is placed whatever the other instruments are. -/
theorem placedAs_bass {parts : Parts} {insts : List BlueprintInstrument}
    (h : ∀ inst ∈ insts, FromTable inst) (hplayed : PlayedParts parts)
    (hbass : bytes "bass" ∈ insts.map BlueprintInstrument.name) :
    PlacedAs (bytes "bass") insts (arrangedTracks parts {} insts) parts.bass where
  own ev hev := exists_bassTrack rfl h hbass hev
  no_other inst hinst hother track htrack hname ev hev hfound := by
    obtain ⟨-, hsub⟩ | hbass | hcore := mem_arrangedTracks h htrack
    · -- The guitar has notes of the piano, and these are above the bass.
      have hlow := hplayed.bass_note ev hev
      have hhigh := hplayed.piano_note ev (hsub hfound)
      omega
    · exact hother (hname.symm.trans hbass)
    · exact (h inst hinst).roles.2.2.2 (hname ▸ hcore)

/-- The parts are placed with their instruments exactly when neither piano nor drums is among
them. -/
theorem placedAs_iff (parts : Parts) {insts : List BlueprintInstrument}
    (h : ∀ inst ∈ insts, FromTable inst) (hplayed : insts ≠ [] → PlayedParts parts) :
    (∀ part : CorePart, part.instrument ∈ insts.map BlueprintInstrument.name →
        PlacedAs part.instrument insts (arrangedTracks parts {} insts) (part.events parts)) ↔
      ∀ name ∈ [bytes "piano", bytes "drums"], name ∉ insts.map BlueprintInstrument.name := by
  have hne : ∀ {name}, name ∈ insts.map BlueprintInstrument.name → insts ≠ [] := by
    rintro name hmem rfl
    exact absurd hmem List.not_mem_nil
  constructor
  · intro hplaced name hname hmem
    have hplayed := hplayed (hne hmem)
    simp only [List.mem_cons, List.not_mem_nil, or_false] at hname
    obtain rfl | rfl := hname
    · exact not_placedAs h hplayed.piano_ne_nil (by decide) (hplaced .piano hmem)
    · exact not_placedAs h hplayed.drums_ne_nil (by decide) (hplaced .drums hmem)
  · intro hnone part hmem
    cases part with
    | piano => exact absurd hmem (hnone _ (by decide))
    | drums => exact absurd hmem (hnone _ (by decide))
    | bass => exact placedAs_bass h (hplayed (hne hmem)) hmem

/-! ### The length

Without a bar there would be no events to place. An arrangement with instruments has sections as
well, so it has a bar. -/

/-- An arrangement with instruments is played for at least one bar. -/
theorem one_le_bars {argv : List Bytes} {args : Args} (hargs : parseArgs argv = some args)
    (hprompt : args.prompt ≠ [])
    (hinsts : (generate (interpret args.prompt args.seed)).instruments ≠ []) :
    1 ≤ (resolve args).bars := by
  have hbars : 0 < args.bars :=
    (numbers_pos_of_parseArgs hargs).2
  rw [resolve, if_pos hprompt]
  dsimp only
  split
  · omega
  · have hvalid : isValid (fillDefaults (interpret args.prompt args.seed)) = true := by
      by_contra hinvalid
      rw [generate, if_neg hinvalid] at hinsts
      exact hinsts rfl
    have hsections := (composed_generate_iff.mpr hvalid).sections_ne_nil
    obtain ⟨s, rest, hcons⟩ := List.exists_cons_of_ne_nil hsections
    have hlt := TimelineGeometry.lt_planFrom 0 0 s rest
    show 1 ≤ (TimelinePlanner.planFrom 0 0
      (generate (interpret args.prompt args.seed)).sections).2.2
    rw [hcons]
    omega

/-! ### The runs

A run is accepted by its arguments alone. What it composes depends on the prompt through the
arrangement. -/

/-- The composition of an accepted run. -/
theorem composition_eq {std : StdSort drumEventLt} {argv : List Bytes} {args : Args}
    {comp : Sanitized SmfComposition} (hargs : parseArgs argv = some args)
    (hok : composition std argv = .ok comp) : comp = compose std (resolve args) := by
  rw [composition, hargs] at hok
  dsimp only at hok
  split at hok
  · exact absurd hok (by simp)
  · split at hok
    · exact absurd hok (by simp)
    · exact (Except.ok.inj hok).symm

/-- In an accepted run with a prompt, the parts are in the tracks of their instruments exactly
when the arrangement has neither piano nor drums. -/
theorem partsAgree_iff_names {std : StdSort drumEventLt} {argv : List Bytes} {args : Args}
    {comp : Sanitized SmfComposition} (hargs : parseArgs argv = some args)
    (hprompt : args.prompt ≠ []) (hok : composition std argv = .ok comp) :
    PartsAgree std (resolve args) comp.val.tracks ↔
      ∀ name ∈ [bytes "piano", bytes "drums"], name ∉
        (generate (interpret args.prompt args.seed)).instruments.map BlueprintInstrument.name := by
  obtain ⟨arr, harr, hinsts⟩ : ∃ arr, (resolve args).arrangement = some arr ∧
      arr.allInstruments = (generate (interpret args.prompt args.seed)).instruments := by
    rw [resolve, if_pos hprompt]
    exact ⟨_, rfl, rfl⟩
  -- With a prompt the tracks are those of the arrangement.
  have htracks : comp.val.tracks = arrangedTracks (generateEvents std (resolve args).key
      (resolve args).scale (resolve args).bars (resolve args).seed).val {} arr.allInstruments := by
    rw [composition_eq hargs hok, compose, Sanitized.val_bind, Sanitized.val_pure, harr]
  rw [← hinsts, htracks]
  have htable : ∀ inst ∈ arr.allInstruments, FromTable inst := by
    rw [hinsts]
    exact generate_fromTable args.prompt args.seed
  rw [← placedAs_iff (generateEvents std (resolve args).key (resolve args).scale
    (resolve args).bars (resolve args).seed).val htable fun hne =>
      generateEvents_played std _ _ (one_le_bars hargs hprompt (hinsts ▸ hne)) _]
  constructor
  · exact fun h => h arr harr
  · intro h arr' harr'
    obtain rfl := Option.some.inj (harr.symm.trans harr')
    exact h

/-- Every part is in the track of its instrument, and in no track of another one, exactly for the
prompts that leave piano and drums out of the arrangement. -/
theorem partsAgree_iff (std : StdSort drumEventLt) {argv : List Bytes} {args : Args}
    {comp : Sanitized SmfComposition} (hargs : parseArgs argv = some args)
    (hprompt : args.prompt ≠ []) (hok : composition std argv = .ok comp) :
    PartsAgree std (resolve args) comp.val.tracks ↔ WithoutPianoAndDrums args.prompt := by
  rw [partsAgree_iff_names hargs hprompt hok, withoutPianoAndDrums_iff]

/-- A run with a prompt. -/
def promptArgv (prompt : Bytes) : List Bytes :=
  [bytes "--prompt", prompt, bytes "--output", bytes "a.mid"]

/-- A prompt that leaves piano and drums out: the parts agree. -/
theorem partsAgree_iff_bass :
    ∃ comp, composition drumSort (promptArgv (bytes "bass and strings")) = .ok comp ∧
      (PartsAgree drumSort
          (resolve { output := bytes "a.mid", prompt := bytes "bass and strings" })
          comp.val.tracks ↔ WithoutPianoAndDrums (bytes "bass and strings")) := by
  have hargs : parseArgs (promptArgv (bytes "bass and strings")) =
      some { output := bytes "a.mid", prompt := bytes "bass and strings" } := by decide
  have hok := composition_ok drumSort hargs (by decide) (by decide)
  exact ⟨_, hok, partsAgree_iff drumSort hargs (by decide) hok⟩

/-- Piano and guitar: the piano part is not in a track of the piano. -/
theorem pianoAndGuitar_not_partsAgree :
    ∃ comp, composition drumSort (promptArgv (bytes "piano and guitar")) = .ok comp ∧
      ¬ PartsAgree drumSort
        (resolve { output := bytes "a.mid", prompt := bytes "piano and guitar" })
        comp.val.tracks := by
  have hargs : parseArgs (promptArgv (bytes "piano and guitar")) =
      some { output := bytes "a.mid", prompt := bytes "piano and guitar" } := by decide
  have hok := composition_ok drumSort hargs (by decide) (by decide)
  refine ⟨_, hok, ?_⟩
  rw [partsAgree_iff_names hargs (by decide) hok]
  exact fun hnone => absurd (hnone (bytes "piano") (by decide)) (by decide)

end AiMidi.Proofs.MteCli
