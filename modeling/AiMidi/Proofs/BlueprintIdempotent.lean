import AiMidi.Proofs.BlueprintChannels

/-!
# `AiMidi.Proofs.BlueprintIdempotent`: a generated blueprint is generated again as it is

Each step of `generate` is a fixpoint on what it leaves. For the channels this is an induction
over the instruments: both passes see the same channels in use, so a channel that was free is
kept, and where none was free the search finds none again (`resolveChannel_idem`).

The three parts of the blueprint are independent of each other: sections are normalised, defaults
are filled in, and channels are assigned. `generate_generate` puts the three fixpoints together.
-/

set_option autoImplicit false

namespace AiMidi.Proofs.BlueprintIdempotent

open AiMidi.Lib AiMidi.Theory AiMidi.Theory.BlueprintGenerator
open AiMidi.Proofs.BlueprintChannels (resolveChannel_role)

/-! ### Channels

The second pass asks for the channels that the first one gave. A channel that was given was free
then, and the same channels are in use now, so it is free again. -/

/-- The drums ask for channel 9, whatever channel they have. -/
theorem resolveChannel_drum_channel (used : List Int) {i : BlueprintInstrument}
    (hrole : i.role = bytes "drum") (channel : Int) :
    resolveChannel used { i with channel } = resolveChannel used i := by
  simp only [resolveChannel, hrole, if_true]

/-- A channel that is not in use is kept. -/
theorem resolveChannel_of_notMem {used : List Int} {i : BlueprintInstrument}
    (hrole : i.role ≠ bytes "drum") (h : i.channel ∉ used) : resolveChannel used i = i := by
  rw [resolveChannel, if_neg hrole]
  dsimp only
  rw [if_neg h]

/-- Only the channel of an instrument changes. -/
theorem resolveChannel_eq (used : List Int) (i : BlueprintInstrument) :
    resolveChannel used i = { i with channel := (resolveChannel used i).channel } := by
  unfold resolveChannel
  dsimp only
  repeat' split
  all_goals rfl

/-- An instrument other than the drums keeps its channel, or it gets one that is not in use. -/
theorem resolveChannel_other_cases (used : List Int) {i : BlueprintInstrument}
    (hrole : i.role ≠ bytes "drum") :
    resolveChannel used i = i ∨ (resolveChannel used i).channel ∉ used := by
  simp only [resolveChannel, if_neg hrole]
  split
  · cases hfind : (List.range 9).find? fun ch : Nat => (ch : Int) ∉ used with
    | none => exact Or.inl rfl
    | some ch =>
      right
      simpa using List.find?_some hfind
  · exact Or.inl rfl

/-- With the same channels in use, an instrument gets the same channel again. -/
theorem resolveChannel_idem (used : List Int) (i : BlueprintInstrument) :
    resolveChannel used (resolveChannel used i) = resolveChannel used i := by
  by_cases hrole : i.role = bytes "drum"
  · rw [resolveChannel_eq used i, resolveChannel_drum_channel used hrole, resolveChannel_eq used i]
  · obtain heq | hfree := resolveChannel_other_cases used hrole
    · rw [heq, heq]
    · apply resolveChannel_of_notMem _ hfree
      rwa [resolveChannel_role]

/-- The second pass over the instruments sees the channels in use that the first one saw. -/
theorem assignChannels_idem (used : List Int) (insts : List BlueprintInstrument) :
    assignChannels used (assignChannels used insts) = assignChannels used insts := by
  induction insts generalizing used with
  | nil => rfl
  | cons i insts ih =>
    simp only [assignChannels, resolveChannel_idem, ih]

/-! ### Sections and defaults

Both passes replace what is empty by a value that is not empty, or by the same empty value. -/

/-- A section that has been normalized stays as it is. -/
theorem normalizeSection_idem (energy : EnergyLevel) (sec : BlueprintSection) :
    normalizeSection energy (normalizeSection energy sec) = normalizeSection energy sec := by
  obtain ⟨name, bars, e, density, complexity⟩ := sec
  cases e with
  | unspecified => cases energy <;> rfl
  | low => rfl
  | mid => rfl
  | high => rfl

/-- A default that is filled in is not filled in anew, or it is filled in again. -/
theorem fill_idem {α : Type} (missing : α → Prop) [DecidablePred missing] (a default : α) :
    (if missing (if missing a then default else a) then default
        else if missing a then default else a)
      = if missing a then default else a := by
  by_cases h : missing a
  · simp only [if_pos h, ite_self]
  · simp only [if_neg h]

/-- A blueprint with its defaults filled in keeps them, also with other sections and
instruments. -/
theorem fillDefaults_fillDefaults (input : MusicBlueprint) {sections : List BlueprintSection}
    {instruments : List BlueprintInstrument} (hsections : sections ≠ [])
    (hinstruments : instruments ≠ []) :
    fillDefaults { fillDefaults input with sections, instruments }
      = { fillDefaults input with sections, instruments } := by
  simp only [fillDefaults, if_neg hsections, if_neg hinstruments, MusicBlueprint.mk.injEq,
    and_true, true_and]
  refine ⟨?_, ?_, ?_⟩
  · exact fill_idem (· = 0) input.seed _
  · exact fill_idem (· = 0) input.ppq 480
  · exact fill_idem (fun emotion => isAllDefaultEmotion emotion = true) input.emotion _

/-! ### The generator

The instruments and the sections are non-empty because the input was accepted, so the second call
accepts its input as well and fills in nothing. -/

/-- Normalized sections are valid when the sections were. -/
theorem isValid_normalized (bp : MusicBlueprint) :
    isValid { bp with
        sections := bp.sections.map (normalizeSection bp.energy)
        instruments := assignChannels [] bp.instruments } = isValid bp := by
  have hinsts : (assignChannels [] bp.instruments).isEmpty = bp.instruments.isEmpty := by
    cases bp.instruments <;> rfl
  simp only [isValid, hinsts, List.isEmpty_map, List.all_map]
  rfl

/-- A valid blueprint has sections and instruments. -/
theorem ne_nil_of_isValid {bp : MusicBlueprint} (h : isValid bp = true) :
    bp.sections ≠ [] ∧ bp.instruments ≠ [] := by
  constructor <;> intro hnil <;> simp [isValid, hnil] at h

/-- Generation is idempotent on the blueprints that it accepts. -/
theorem generate_generate {input : MusicBlueprint} (h : isValid (fillDefaults input) = true) :
    generate (generate input) = generate input := by
  have hout : generate input =
      { fillDefaults input with
        sections := (fillDefaults input).sections.map (normalizeSection (fillDefaults input).energy)
        instruments := assignChannels [] (fillDefaults input).instruments } := by
    -- The output has sections and instruments, so its defaults are not filled again.
    rw [generate, if_pos h]
  obtain ⟨hsections, hinstruments⟩ := ne_nil_of_isValid h
  have hfilled : fillDefaults (generate input) = generate input := by
    rw [hout]
    apply fillDefaults_fillDefaults
    · rwa [ne_eq, List.map_eq_nil_iff]
    · intro hnil
      cases hinsts : (fillDefaults input).instruments with
      | nil => exact hinstruments hinsts
      | cons i insts =>
        rw [hinsts] at hnil
        cases hnil
  rw [generate, hfilled, hout, isValid_normalized, if_pos h]
  simp only [List.map_map, assignChannels_idem]
  -- What is left is that each section is already normalised.
  congr 1
  apply List.map_congr_left
  intro sec _
  exact normalizeSection_idem _ sec

/-- A blueprint without a seed whose lead holds channel 9 in front of the drums. -/
theorem generate_generate_band :
    generate (generate (BlueprintChannels.bandInput 9))
      = generate (BlueprintChannels.bandInput 9) :=
  generate_generate (by decide)

end AiMidi.Proofs.BlueprintIdempotent
