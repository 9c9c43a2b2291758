import AiMidi.Theory.BlueprintGenerator
import AiMidi.Theory.PromptInterpreter
import AiMidi.Theory.TimelinePlanner

/-!
# `AiMidi.Proofs.PromptPipeline`: from the prompt interpreter to the blueprint generator

The generator validates what the interpreter produces. The two agree on the form of the
blueprint: scale, section lengths and instruments are always valid. They disagree on two
values. The interpreter takes tempos from 20 on, the generator from 40 on. The interpreter
spells a key `E#`, which the generator does not know. `composed_iff` shows that a prompt
without literal notes is composed exactly when it does not name a tempo below 40 first
(`SlowTempo`) and is not read as E sharp (`ReadsESharp`).

A prompt with literal notes is rejected with the default blueprint, which the generator
completes to a twelve-bar song (`generate_default`, `plan_default`).

The key takes most of the work, since the interpreter looks for several phrases in a fixed order.
Each search either spells the note that it looked for or reads nothing (`Spelled`), so a reading is
valid as soon as its note is (`KeyValid`). Only the searches around E sharp are looked into, and
those in front of them (`natural_eq_none`).
-/

set_option autoImplicit false

namespace AiMidi.Proofs.PromptPipeline

open AiMidi.Lib AiMidi.Theory
open AiMidi.Theory.PromptInterpreter AiMidi.Theory.BlueprintGenerator

/-! ### Numbers

The scan takes the first number next to `bpm` that is in its range, so a slow tempo counts only when
no other one was found before it. -/

/-- A number is taken within its bounds only. -/
theorem numberIn_range {lo hi n : Int} {ds : Bytes} (h : numberIn lo hi ds = some n) :
    lo ≤ n ∧ n ≤ hi := by
  unfold numberIn at h
  split at h
  · split at h
    · rename_i hv
      obtain rfl := Option.some.inj h
      exact hv
    · exact absurd h (by simp)
  · exact absurd h (by simp)

/-- So is one with a default within the bounds. -/
theorem numberIn_getD_range {lo hi default : Int} {ds : Bytes}
    (h : lo ≤ default ∧ default ≤ hi) :
    lo ≤ (numberIn lo hi ds).getD default ∧ (numberIn lo hi ds).getD default ≤ hi := by
  cases hnum : numberIn lo hi ds with
  | none => exact h
  | some n => exact numberIn_range hnum

/-- A tempo is taken from 20 to 300. -/
theorem tempoAt_range {before after : Bytes} {n : Int} (h : tempoAt before after = some n) :
    20 ≤ n ∧ n ≤ 300 := by
  rw [tempoAt, Option.or_eq_some_iff] at h
  obtain h | ⟨-, h⟩ := h
  · exact numberIn_range h
  · exact numberIn_range h

/-- The first tempo that the text names next to `bpm` is below 40. -/
def SlowTempo (lower : Bytes) : Prop :=
  ∃ n, FirstAt (bytes "bpm") tempoAt lower n ∧ n < 40

/-- The loop over the occurrences of `bpm` finds the first tempo. -/
theorem scan_bpm {lower : Bytes} {n : Int} :
    scan (bytes "bpm") tempoAt 0 [] lower = some n ↔ FirstAt (bytes "bpm") tempoAt lower n :=
  scan_eq_some (by decide)

/-- No text has a higher tempo. -/
theorem detectBpm_le (lower : Bytes) : detectBpm lower ≤ 300 := by
  rw [detectBpm]
  cases hscan : scan (bytes "bpm") tempoAt 0 [] lower with
  | none => exact (by decide : (120 : Int) ≤ 300)
  | some n =>
    obtain ⟨_, _, -, hn, -⟩ := scan_bpm.mp hscan
    exact (tempoAt_range hn).2

/-- A text has a tempo of 40 or more unless it names a slower one. -/
theorem le_detectBpm_iff {lower : Bytes} : 40 ≤ detectBpm lower ↔ ¬ SlowTempo lower := by
  rw [detectBpm]
  cases hscan : scan (bytes "bpm") tempoAt 0 [] lower with
  | none =>
    -- No tempo next to `bpm`: the default is 120.
    refine ⟨fun _ ⟨n, hn, _⟩ => ?_, fun _ => by decide⟩
    rw [scan_bpm.mpr hn] at hscan
    exact absurd hscan (by simp)
  | some n =>
    constructor
    · rintro hle ⟨m, hm, hlt⟩
      rw [scan_bpm.mpr hm] at hscan
      obtain rfl := Option.some.inj hscan
      exact absurd hlt (Int.not_lt.mpr hle)
    · intro hslow
      by_contra hlt
      exact hslow ⟨n, scan_bpm.mp hscan, by simpa using hlt⟩

/-! ### Sections and instruments

Every length that the interpreter writes has been tested or is a constant. The generator asks for no
more than that. -/

/-- The length of a section is one that a plan accepts. -/
theorem extractBarsForSection_range (lower name : Bytes) {defaultBars : Int}
    (h : 1 ≤ defaultBars ∧ defaultBars ≤ 256) :
    1 ≤ extractBarsForSection lower name defaultBars ∧
      extractBarsForSection lower name defaultBars ≤ 256 := by
  unfold extractBarsForSection
  split
  · exact h
  · split
    · rename_i hval
      exact numberIn_range hval
    · dsimp only
      split
      · exact h
      · exact numberIn_getD_range h

/-- A total bar count that is present is between 1 and 256. -/
theorem extractTotalBars_range {lower : Bytes} (h : 0 ≤ extractTotalBars lower) :
    1 ≤ extractTotalBars lower ∧ extractTotalBars lower ≤ 256 := by
  rw [extractTotalBars] at h ⊢
  cases hscan : scan (bytes " bar") (fun before _ => numberIn 1 256 (numberEnding before)) 0 []
      lower with
  | none =>
    rw [hscan] at h
    exact absurd h (by decide)
  | some n =>
    obtain ⟨_, _, hn⟩ := exists_of_scan_eq_some (by decide) hscan
    exact numberIn_range hn

/-- Between 1 and 256 bars. -/
def BarsInRange (sec : BlueprintSection) : Prop := 1 ≤ sec.bars ∧ sec.bars ≤ 256

/-- A section that is named has such a length. -/
theorem namedSection_bars {lower name : Bytes} {defaultBars : Int} {energy : EnergyLevel}
    (h : 1 ≤ defaultBars ∧ defaultBars ≤ 256) :
    ∀ sec ∈ namedSection lower name defaultBars energy, BarsInRange sec := by
  intro sec hsec
  have hbars := extractBarsForSection_range lower name h
  unfold namedSection at hsec
  split at hsec
  · cases energy <;>
    · obtain rfl := List.mem_singleton.mp hsec
      exact hbars
  · exact absurd hsec (by simp)

/-- So have the sections of a song. -/
theorem songSections_bars : ∀ sec ∈ songSections, BarsInRange sec := by
  unfold BarsInRange
  decide

/-- The interpreter builds at least one section. -/
theorem buildSections_ne_nil (lower : Bytes) (energy : EnergyLevel) :
    buildSections lower energy ≠ [] := by
  unfold buildSections
  simp only
  split
  · assumption
  · split
    · decide
    · split
      · simp
      · split
        · decide
        · split <;> simp

/-- Every section that the interpreter builds has between 1 and 256 bars. -/
theorem buildSections_bars (lower : Bytes) (energy : EnergyLevel) :
    ∀ sec ∈ buildSections lower energy, BarsInRange sec := by
  intro sec hsec
  unfold buildSections at hsec
  simp only at hsec
  -- Named sections, no length, a length for one section, or a length with its fill.
  split at hsec
  · simp only [List.mem_append] at hsec
    obtain (((hsec | hsec) | hsec) | hsec) | hsec := hsec <;>
      exact namedSection_bars (by decide) sec hsec
  · split at hsec
    · exact songSections_bars sec hsec
    · rename_i hneg
      have hbars := extractTotalBars_range (Int.not_lt.mp hneg)
      split at hsec
      · obtain rfl := List.mem_singleton.mp hsec
        exact hbars
      · split at hsec
        · exact songSections_bars sec hsec
        · split at hsec
          · obtain rfl | hsec := List.mem_cons.mp hsec
            · exact ⟨by decide, by decide⟩
            · obtain rfl := List.mem_singleton.mp hsec
              exact ⟨by decide, by decide⟩
          · obtain rfl := List.mem_singleton.mp hsec
            exact hbars

/-- A text without instruments gets the default ones. -/
theorem detectInstruments_ne_nil (lower : Bytes) : detectInstruments lower ≠ [] := by
  unfold detectInstruments
  simp only
  split
  · assumption
  · decide

/-! ### The key

The phrases are tried one after the other, and each search stops at the first note that it finds.
Whatever is found is spelled from the table, and one entry of the table of accidentals is unknown to
the generator. -/

/-- The text names the note with a mode: `X minor` or `X major`. -/
def NamesMode (lower note : Bytes) : Prop :=
  contains lower (note ++ bytes " minor") = true ∨ contains lower (note ++ bytes " major") = true

/-- The text is read as E sharp: it has `e# minor` or `e# major`, and none of the phrases
that are looked for before. The five sharps before `e#` in the table are F, C, G, D and A. -/
structure ReadsESharp (lower : Bytes) : Prop where
  no_keyOf : ∀ n ∈ naturalNotes, ¬ contains lower (bytes "key of " ++ n) = true
  no_natural : ∀ n ∈ naturalNotes, ¬ NamesMode lower n
  no_earlier : ∀ p ∈ accidentals.take 5, ¬ NamesMode lower p.1
  eSharp : NamesMode lower (bytes "e#")

/-- A reading spells the note in display form, in major or minor. -/
def Spelled (display : Bytes) (r : Bytes × Bytes) : Prop :=
  r.1 = display ∧ r.2 ∈ [bytes "major", bytes "minor"]

/-- A note is not read when no mode of it is named. -/
theorem noteMode_eq_none_iff {lower note display : Bytes} :
    noteMode lower note display = none ↔ ¬ NamesMode lower note := by
  unfold noteMode NamesMode
  split
  · simp_all
  · split <;> simp_all

/-- A branch that reads the note, in front of branches that read it or nothing. -/
theorem spelled_ite {c : Prop} [Decidable c] {display mode : Bytes}
    {rest : Option (Bytes × Bytes)} {r : Bytes × Bytes}
    (hmode : mode ∈ [bytes "major", bytes "minor"]) (hrest : rest = some r → Spelled display r)
    (h : (if c then some (display, mode) else rest) = some r) : Spelled display r := by
  split at h
  · obtain rfl := Option.some.inj h
    exact ⟨rfl, hmode⟩
  · exact hrest h

/-- Nothing has been read, so there is nothing to spell. -/
theorem spelled_none {display : Bytes} {r : Bytes × Bytes}
    (h : (none : Option (Bytes × Bytes)) = some r) : Spelled display r :=
  absurd h (by simp)

/-- The note that is read is the one that was looked for. -/
theorem noteMode_spelled {lower note display : Bytes} {r : Bytes × Bytes}
    (h : noteMode lower note display = some r) : Spelled display r :=
  spelled_ite (by simp) (spelled_ite (by simp) spelled_none) h

/-- The phrase with `key of` spells the natural note. -/
theorem keyOfNatural_spelled {lower n : Bytes} {r : Bytes × Bytes}
    (h : keyOfNatural lower n = some r) : Spelled (ucfirst n) r :=
  spelled_ite (by simp) (spelled_ite (by simp) spelled_none) h

/-- The phrase with `in` and `minor` spells it. -/
theorem inMinorNatural_spelled {lower n : Bytes} {r : Bytes × Bytes}
    (h : inMinorNatural lower n = some r) : Spelled (ucfirst n) r :=
  spelled_ite (by simp) spelled_none h

/-- The phrase with `in` and `major` spells it. -/
theorem inMajorNatural_spelled {lower n : Bytes} {r : Bytes × Bytes}
    (h : inMajorNatural lower n = some r) : Spelled (ucfirst n) r :=
  spelled_ite (by simp) spelled_none h

/-- The phrases with an accidental spell its display form. -/
theorem keyOrInAccidental_spelled {lower a d : Bytes} {r : Bytes × Bytes}
    (h : keyOrInAccidental lower a d = some r) : Spelled d r :=
  spelled_ite (by simp) (spelled_ite (by simp) (spelled_ite (by simp) spelled_none)) h

/-- Every reading is in major or minor. -/
theorem detectKeyAndScale_scale (lower : Bytes) :
    (detectKeyAndScale lower).2 ∈ [bytes "major", bytes "minor"] := by
  unfold detectKeyAndScale
  generalize hr : Option.or _ _ = r
  cases r with
  | none => decide
  | some p =>
    simp only [Option.or_eq_some_iff] at hr
    obtain (((((h | ⟨-, h⟩) | ⟨-, h⟩) | ⟨-, h⟩) | ⟨-, h⟩) | ⟨-, h⟩) := hr
    all_goals obtain ⟨_, -, hp⟩ := List.exists_of_findSome?_eq_some h
    · exact (keyOfNatural_spelled hp).2
    · exact (noteMode_spelled hp).2
    · exact (noteMode_spelled hp).2
    · exact (inMinorNatural_spelled hp).2
    · exact (inMajorNatural_spelled hp).2
    · exact (keyOrInAccidental_spelled hp).2

/-- The key of a reading, when there is one, is valid. -/
def KeyValid (r : Option (Bytes × Bytes)) : Prop := ∀ p, r = some p → p.1 ∈ kValidKeys

/-- A search that spells natural notes gives a valid key. -/
theorem keyValid_natural {f : Bytes → Option (Bytes × Bytes)}
    (h : ∀ n r, f n = some r → Spelled (ucfirst n) r) : KeyValid (naturalNotes.findSome? f) := by
  have hvalid : ∀ n ∈ naturalNotes, ucfirst n ∈ kValidKeys := by decide
  intro r hr
  obtain ⟨n, hn, hfn⟩ := List.exists_of_findSome?_eq_some hr
  rw [(h n r hfn).1]
  exact hvalid n hn

/-- A search over accidentals other than E sharp gives a valid key. -/
theorem keyValid_accidental {accs : List (Bytes × Bytes)}
    {f : Bytes × Bytes → Option (Bytes × Bytes)}
    (haccs : ∀ p ∈ accs, p.2 ∈ kValidKeys) (h : ∀ p r, f p = some r → Spelled p.2 r) :
    KeyValid (accs.findSome? f) := by
  intro r hr
  obtain ⟨p, hp, hfp⟩ := List.exists_of_findSome?_eq_some hr
  rw [(h p r hfp).1]
  exact haccs p hp

/-- Two searches, one behind the other, read valid keys when both do. -/
theorem KeyValid.or {r s : Option (Bytes × Bytes)} (hr : KeyValid r)
    (hs : r = none → KeyValid s) : KeyValid (r.or s) := by
  intro p hp
  obtain h | ⟨hnone, h⟩ := Option.or_eq_some_iff.mp hp
  · exact hr p h
  · exact hs hnone p h

/-- The table around E sharp. -/
theorem accidentals_eq :
    accidentals = accidentals.take 5 ++ (bytes "e#", bytes "E#") :: accidentals.drop 6 := rfl

/-- A search over the accidentals gives a valid key when it passes over E sharp. -/
theorem keyValid_accidentals {f : Bytes × Bytes → Option (Bytes × Bytes)}
    (hf : ∀ p r, f p = some r → Spelled p.2 r)
    (he : (accidentals.take 5).findSome? f = none → f (bytes "e#", bytes "E#") = none) :
    KeyValid (accidentals.findSome? f) := by
  have hother : ∀ p ∈ accidentals.take 5 ++ accidentals.drop 6, p.2 ∈ kValidKeys := by decide
  rw [accidentals_eq, List.findSome?_append]
  refine (keyValid_accidental (fun p hp => hother p (List.mem_append_left _ hp)) hf).or
    fun hnone => ?_
  rw [List.findSome?_cons, he hnone]
  exact keyValid_accidental (fun p hp => hother p (List.mem_append_right _ hp)) hf

/-- `key of e#` and `in e#` are never reached: `key of e` and `in e` come first. -/
theorem keyOrInAccidental_eSharp {lower : Bytes}
    (hkeyOf : naturalNotes.findSome? (keyOfNatural lower) = none)
    (hin : naturalNotes.findSome? (inMajorNatural lower) = none) :
    keyOrInAccidental lower (bytes "e#") (bytes "E#") = none := by
  have he : bytes "e" ∈ naturalNotes := by decide
  -- A phrase with `e#` has the phrase with `e` in it, which was looked for before.
  have hkeyOf' : ¬ contains lower (bytes "key of " ++ bytes "e") = true := by
    intro h
    have hnone := List.findSome?_eq_none_iff.mp hkeyOf _ he
    rw [keyOfNatural, if_pos h] at hnone
    exact absurd hnone (by simp)
  have hin' : ¬ contains lower (bytes "in " ++ bytes "e") = true := by
    intro h
    have hnone := List.findSome?_eq_none_iff.mp hin _ he
    rw [inMajorNatural, if_pos h] at hnone
    exact absurd hnone (by simp)
  have h1 : ¬ contains lower (bytes "key of " ++ bytes "e#") = true := fun h =>
    hkeyOf' (contains_of_append (bytes "#") h)
  have h2 : ¬ contains lower (bytes "in " ++ bytes "e#" ++ bytes "m") = true := fun h =>
    hin' (contains_of_append (bytes "#m") h)
  have h3 : ¬ contains lower (bytes "in " ++ bytes "e#") = true := fun h =>
    hin' (contains_of_append (bytes "#") h)
  rw [keyOrInAccidental, if_neg h1, if_neg h2, if_neg h3]

/-- The searches before `X minor` and `X major` with an accidental find nothing. -/
theorem natural_eq_none {lower : Bytes} (h : ReadsESharp lower) :
    naturalNotes.findSome? (keyOfNatural lower) = none ∧
      naturalNotes.findSome? (fun n => noteMode lower n (ucfirst n)) = none := by
  refine ⟨List.findSome?_eq_none_iff.mpr fun n hn => ?_,
    List.findSome?_eq_none_iff.mpr fun n hn => ?_⟩
  · have hkeyOf := h.no_keyOf n hn
    have hminor : ¬ contains lower (bytes "key of " ++ n ++ bytes "m") = true := fun hm =>
      hkeyOf (contains_of_append (bytes "m") hm)
    rw [keyOfNatural, if_neg hkeyOf, if_neg hminor]
  · exact noteMode_eq_none_iff.mpr (h.no_natural n hn)

/-- A text that is read as E sharp has the key `E#`. -/
theorem detectKeyAndScale_eSharp {lower : Bytes} (h : ReadsESharp lower) :
    (detectKeyAndScale lower).1 = bytes "E#" := by
  obtain ⟨hkeyOf, hnatural⟩ := natural_eq_none h
  have hearlier : (accidentals.take 5).findSome? (fun p => noteMode lower p.1 p.2) = none :=
    List.findSome?_eq_none_iff.mpr fun p hp => noteMode_eq_none_iff.mpr (h.no_earlier p hp)
  obtain ⟨r, hr⟩ := Option.ne_none_iff_exists'.mp
    fun hnone => noteMode_eq_none_iff.mp hnone h.eSharp
  have hacc : accidentals.findSome? (fun p => noteMode lower p.1 p.2) = some r := by
    rw [accidentals_eq, List.findSome?_append, hearlier, Option.none_or, List.findSome?_cons, hr]
  simp only [detectKeyAndScale, hkeyOf, hnatural, hacc, Option.none_or, Option.some_or,
    Option.getD_some]
  exact (noteMode_spelled hr).1

/-- A text whose searches before `e#` find nothing is read as E sharp when it names it. -/
theorem readsESharp_of_searches {lower : Bytes}
    (hkeyOf : naturalNotes.findSome? (keyOfNatural lower) = none)
    (hnatural : naturalNotes.findSome? (fun n => noteMode lower n (ucfirst n)) = none)
    (hearlier : (accidentals.take 5).findSome? (fun p => noteMode lower p.1 p.2) = none)
    (heSharp : NamesMode lower (bytes "e#")) : ReadsESharp lower where
  no_keyOf n hn hc := by
    have hn' := List.findSome?_eq_none_iff.mp hkeyOf n hn
    rw [keyOfNatural, if_pos hc] at hn'
    exact absurd hn' (by simp)
  no_natural n hn := noteMode_eq_none_iff.mp (List.findSome?_eq_none_iff.mp hnatural n hn)
  no_earlier p hp := noteMode_eq_none_iff.mp (List.findSome?_eq_none_iff.mp hearlier p hp)
  eSharp := heSharp

/-- The key is one that the generator knows unless the text is read as E sharp. -/
theorem detectKeyAndScale_valid_iff {lower : Bytes} :
    (detectKeyAndScale lower).1 ∈ kValidKeys ↔ ¬ ReadsESharp lower := by
  constructor
  · intro hmem h
    rw [detectKeyAndScale_eSharp h] at hmem
    exact absurd hmem (by decide)
  · intro hnot
    -- The six searches in their order. Each one runs only when those before it found nothing.
    have hvalid : KeyValid ((((((naturalNotes.findSome? (keyOfNatural lower)).or
        (naturalNotes.findSome? fun n => noteMode lower n (ucfirst n))).or
        (accidentals.findSome? fun p => noteMode lower p.1 p.2)).or
        (naturalNotes.findSome? (inMinorNatural lower))).or
        (naturalNotes.findSome? (inMajorNatural lower))).or
        (accidentals.findSome? fun p => keyOrInAccidental lower p.1 p.2)) := by
      refine ((((KeyValid.or (keyValid_natural fun _ _ => keyOfNatural_spelled) fun _ =>
        keyValid_natural fun _ _ => noteMode_spelled).or fun hnone => ?_).or fun _ =>
        keyValid_natural fun _ _ => inMinorNatural_spelled).or fun _ =>
        keyValid_natural fun _ _ => inMajorNatural_spelled).or fun hnone => ?_
      · obtain ⟨hkeyOf, hnatural⟩ := Option.or_eq_none_iff.mp hnone
        refine keyValid_accidentals (fun _ _ => noteMode_spelled) fun hearlier => ?_
        refine noteMode_eq_none_iff.mpr fun heSharp => hnot ?_
        exact readsESharp_of_searches hkeyOf hnatural hearlier heSharp
      · simp only [Option.or_eq_none_iff] at hnone
        exact keyValid_accidentals (fun _ _ => keyOrInAccidental_spelled) fun _ =>
          keyOrInAccidental_eSharp hnone.1.1.1.1 hnone.2
    unfold detectKeyAndScale
    generalize hr : Option.or _ _ = r at hvalid ⊢
    cases r with
    -- Nothing found: the default is C.
    | none => decide
    | some p => exact hvalid p rfl

/-! ### The generator

The validation looks at every field, and what the interpreter produces can only fail at two of
them. -/

/-- The generator composes the blueprint: it keeps key, scale and tempo, and there is
something to play. -/
structure Composed (bp out : MusicBlueprint) : Prop where
  rootKey_eq : out.rootKey = bp.rootKey
  scale_eq : out.scale = bp.scale
  bpm_eq : out.bpm = bp.bpm
  sections_ne_nil : out.sections ≠ []
  instruments_ne_nil : out.instruments ≠ []

/-- What the validation asks for. -/
theorem isValid_iff {bp : MusicBlueprint} :
    isValid bp = true ↔ bp.rootKey ∈ kValidKeys ∧ bp.scale ∈ kValidScales ∧
      (40 ≤ bp.bpm ∧ bp.bpm ≤ 300) ∧ (bp.sections ≠ [] ∧ bp.instruments ≠ []) ∧
      ∀ sec ∈ bp.sections, BarsInRange sec := by
  simp [isValid, BarsInRange, and_assoc]

/-- The generator composes exactly what passes its validation. -/
theorem composed_generate_iff {bp : MusicBlueprint} :
    Composed bp (generate bp) ↔ isValid (fillDefaults bp) = true := by
  rw [generate]
  constructor
  · intro h
    by_contra hvalid
    rw [if_neg hvalid] at h
    exact h.sections_ne_nil rfl
  · intro hvalid
    obtain ⟨-, -, -, ⟨hsections, hinstruments⟩, -⟩ := isValid_iff.mp hvalid
    rw [if_pos hvalid]
    refine ⟨rfl, rfl, rfl, fun h => hsections (List.map_eq_nil_iff.mp h), fun h => ?_⟩
    -- The channels are assigned one by one, so an instrument stays an instrument.
    obtain ⟨inst, insts, hinsts⟩ := List.exists_cons_of_ne_nil hinstruments
    simp only [hinsts, assignChannels] at h
    exact absurd h (by simp)

/-- Nothing in a blueprint with sections and instruments is filled in that the validation
looks at. -/
theorem fillDefaults_of_ne_nil (bp : MusicBlueprint) (hsections : bp.sections ≠ [])
    (hinstruments : bp.instruments ≠ []) :
    (fillDefaults bp).sections = bp.sections ∧ (fillDefaults bp).instruments = bp.instruments :=
  ⟨if_neg hsections, if_neg hinstruments⟩

/-- The blueprint of a prompt without literal notes passes when its key and its tempo do. -/
theorem isValid_interpret_iff {prompt : Bytes} {seed : Seed}
    (h : ¬ hasLiteralNotes (toLowerBytes prompt) = true) :
    isValid (fillDefaults (interpret prompt seed)) = true ↔
      (detectKeyAndScale (toLowerBytes prompt)).1 ∈ kValidKeys ∧
        40 ≤ detectBpm (toLowerBytes prompt) := by
  have hboth : ∀ s ∈ [bytes "major", bytes "minor"], s ∈ kValidScales := by decide
  have hinterpret : interpret prompt seed = { interpret prompt seed with
      rootKey := (detectKeyAndScale (toLowerBytes prompt)).1
      scale := (detectKeyAndScale (toLowerBytes prompt)).2
      bpm := detectBpm (toLowerBytes prompt)
      sections := buildSections (toLowerBytes prompt) (detectEnergy (toLowerBytes prompt))
      instruments := detectInstruments (toLowerBytes prompt) } := by
    rw [interpret, if_neg h]
  -- The defaults only fill empty lists, and these are not.
  have hfill := fillDefaults_of_ne_nil (interpret prompt seed)
    (by rw [hinterpret]; exact buildSections_ne_nil _ _)
    (by rw [hinterpret]; exact detectInstruments_ne_nil _)
  rw [isValid_iff, hfill.1, hfill.2]
  show (interpret prompt seed).rootKey ∈ kValidKeys ∧
    (interpret prompt seed).scale ∈ kValidScales ∧
    (40 ≤ (interpret prompt seed).bpm ∧ (interpret prompt seed).bpm ≤ 300) ∧ _ ↔ _
  rw [hinterpret]
  constructor
  · rintro ⟨hkey, -, hbpm, -⟩
    exact ⟨hkey, hbpm.1⟩
  · rintro ⟨hkey, hbpm⟩
    exact ⟨hkey, hboth _ (detectKeyAndScale_scale _), ⟨hbpm, detectBpm_le _⟩,
      ⟨buildSections_ne_nil _ _, detectInstruments_ne_nil _⟩, buildSections_bars _ _⟩

/-- A prompt without literal notes is composed exactly when it names no slow tempo first and
is not read as E sharp. -/
theorem composed_iff {prompt : Bytes} (h : ¬ hasLiteralNotes (toLowerBytes prompt) = true)
    (seed : Seed) :
    Composed (interpret prompt seed) (generate (interpret prompt seed)) ↔
      ¬ SlowTempo (toLowerBytes prompt) ∧ ¬ ReadsESharp (toLowerBytes prompt) := by
  rw [composed_generate_iff, isValid_interpret_iff h, detectKeyAndScale_valid_iff,
    le_detectBpm_iff, and_comm]

/-- The condition for a plain prompt. -/
theorem composed_iff_plain :
    ¬ hasLiteralNotes (toLowerBytes (bytes "pop in C")) = true ∧
      (Composed (interpret (bytes "pop in C") 1) (generate (interpret (bytes "pop in C") 1)) ↔
        ¬ SlowTempo (toLowerBytes (bytes "pop in C")) ∧
          ¬ ReadsESharp (toLowerBytes (bytes "pop in C"))) :=
  ⟨by decide, composed_iff (by decide) 1⟩

/-- The interpreter takes the tempo 30, the generator does not. -/
theorem slowWaltz_not_composed :
    ¬ hasLiteralNotes (toLowerBytes (bytes "waltz at 30 bpm")) = true ∧
      ¬ Composed (interpret (bytes "waltz at 30 bpm") 1)
        (generate (interpret (bytes "waltz at 30 bpm") 1)) := by
  refine ⟨by decide, fun h => h.sections_ne_nil ?_⟩
  decide

/-! ### Prompts with literal notes

The interpreter answers a prompt with literal notes with an empty blueprint. The generator fills in
its defaults as if nothing had been asked for. -/

/-- Nothing to play: no sections, no instruments, no bars. -/
structure Silent (out : MusicBlueprint) : Prop where
  sections_eq : out.sections = []
  instruments_eq : out.instruments = []
  totalBars_eq : (TimelinePlanner.plan out).totalBars = 0

/-- The blueprint of a prompt with literal notes is the default one but for the seed. -/
theorem interpret_rejected {prompt : Bytes}
    (h : hasLiteralNotes (toLowerBytes prompt) = true) (seed : Seed) :
    ∃ seed', interpret prompt seed = { seed := seed' } :=
  ⟨_, by rw [interpret, if_pos h]⟩

/-- The generator completes the default blueprint, whatever its seed, to the default form and
the default instruments in C major at 120. -/
theorem generate_default (seed : Seed) :
    (generate { seed := seed }).sections
        = makeDefaultSections.map (normalizeSection EnergyLevel.mid) ∧
      (generate { seed := seed }).instruments = assignChannels [] makeDefaultInstruments ∧
      (generate { seed := seed }).rootKey = bytes "C" ∧
      (generate { seed := seed }).scale = bytes "major" ∧
      (generate { seed := seed }).bpm = 120 := by
  have hvalid : isValid (fillDefaults { seed := seed }) = true := rfl
  rw [generate, if_pos hvalid]
  exact ⟨rfl, rfl, rfl, rfl, rfl⟩

/-- The timeline of the default form has twelve bars. -/
theorem plan_default (seed : Seed) :
    (TimelinePlanner.plan (generate { seed := seed })).totalBars = 12 := by
  rw [TimelinePlanner.plan, (generate_default seed).1]
  decide

/-- A rejected prompt is composed all the same. -/
theorem rejected_not_silent {prompt : Bytes}
    (h : hasLiteralNotes (toLowerBytes prompt) = true) (seed : Seed) :
    ¬ Silent (generate (interpret prompt seed)) := by
  obtain ⟨seed', hreject⟩ := interpret_rejected h seed
  rw [hreject]
  intro hsilent
  exact absurd ((plan_default seed').symm.trans hsilent.totalBars_eq) (by decide)

/-- A prompt that asks for literal notes still gets an arrangement. -/
theorem rejected_not_silent_writeNotes :
    hasLiteralNotes (toLowerBytes (bytes "Write notes C E G")) = true ∧
      ¬ Silent (generate (interpret (bytes "Write notes C E G") 0)) :=
  ⟨by decide, rejected_not_silent (by decide) 0⟩

/-- Four sections, three instruments and twelve bars for a rejected prompt. -/
theorem midiNotes_not_silent :
    hasLiteralNotes (toLowerBytes (bytes "midi notes")) = true ∧
      (generate (interpret (bytes "midi notes") 1)).sections.length = 4 ∧
      (generate (interpret (bytes "midi notes") 1)).instruments.length = 3 ∧
      (TimelinePlanner.plan (generate (interpret (bytes "midi notes") 1))).totalBars = 12 ∧
      ¬ Silent (generate (interpret (bytes "midi notes") 1)) := by
  refine ⟨by decide, by decide, by decide, by decide, fun h => ?_⟩
  exact absurd h.totalBars_eq (by decide)

end AiMidi.Proofs.PromptPipeline
