import AiMidi.Proofs.PromptPipeline

/-!
# `AiMidi.Proofs.RequestedLength`: how long a piece a prompt gets

A prompt that names no section and one number of bars gets a form that the number selects: one
verse of that length up to seven bars, a verse and a chorus of four bars each up to eleven, and
the song form of twelve bars from there on. The planner adds one bar of fill in front of a
chorus. So the number of bars is the requested one up to seven, nine up to eleven, and thirteen
from twelve on (`plan_requested`).

The interpreter and the planner are followed separately. `buildSections_eq` is the form that the
interpreter selects for a number, and `totalOf_formFor` the length that the planner gives to that
form. In between, the generator changes no length (`totalBars_composed`).
-/

set_option autoImplicit false

namespace AiMidi.Proofs.RequestedLength

open AiMidi.Lib AiMidi.Theory AiMidi.Theory.PromptInterpreter AiMidi.Theory.BlueprintGenerator
open AiMidi.Proofs.PromptPipeline

/-! ### Requests

A prompt that requests a length has one phrase with a number of bars, and no word that names a
section. Such words would give sections of lengths of their own. -/

/-- The number in front of ` bar`, when it is a possible length. -/
def barCount (before : Bytes) : Option Int := numberIn 1 256 (numberEnding before)

/-- The text has one phrase `N bar(s)`, and `N` is the number in it. -/
def OneBarPhrase (lower : Bytes) (n : Int) : Prop :=
  ∃ before after, lower = before ++ bytes " bar" ++ after ∧ barCount before = some n ∧
    ∀ before' after', lower = before' ++ bytes " bar" ++ after' →
      (barCount before').isSome = true → before' = before

/-- The same by position in the text. -/
theorem oneBarPhrase_of_take {lower : Bytes} {n : Int} (k : Nat)
    (hphrase : bytes " bar" <+: lower.drop k) (hn : barCount (lower.take k) = some n)
    (honly : ∀ j ≤ lower.length, (bytes " bar").isPrefixOf (lower.drop j) = true →
      (barCount (lower.take j)).isSome = true → j = k) : OneBarPhrase lower n := by
  obtain ⟨after, hafter⟩ := hphrase
  refine ⟨lower.take k, after, ?_, hn, fun before' after' htext hcount => ?_⟩
  · rw [List.append_assoc, hafter, List.take_append_drop]
  -- The text splits at the place of the phrase, and by assumption there is only one.
  · have htake : lower.take before'.length = before' := by
      rw [htext, List.append_assoc, List.take_left]
    have hdrop : lower.drop before'.length = bytes " bar" ++ after' := by
      rw [htext, List.append_assoc, List.drop_left]
    have hlen : before'.length ≤ lower.length := by
      rw [htext, List.append_assoc, List.length_append]
      exact Nat.le_add_right _ _
    have hk := honly before'.length hlen
      (hdrop ▸ List.isPrefixOf_iff_prefix.mpr (List.prefix_append _ _))
      (by rw [htake]; exact hcount)
    rw [← hk, htake]

/-- The words that name a section; a prompt without any of them requests a length only. -/
def sectionKeywords : List Bytes :=
  [bytes "intro", bytes "verse", bytes "chorus", bytes "bridge", bytes "outro"]

/-- The prompt names no section and asks for `n` bars. -/
structure RequestsLength (prompt : Bytes) (n : Int) : Prop where
  not_rejected : ¬ hasLiteralNotes (toLowerBytes prompt) = true
  no_section : ∀ name ∈ sectionKeywords, ¬ contains (toLowerBytes prompt) name = true
  phrase : OneBarPhrase (toLowerBytes prompt) n

/-- The length that the thresholds of the interpreter and the fills of the planner give. -/
def plannedBars (n : Int) : Int := if n ≤ 7 then n else if n ≤ 11 then 9 else 13

/-- When the planned length is the requested one. -/
theorem plannedBars_eq_iff (n : Int) : plannedBars n = n ↔ n ≤ 7 ∨ n = 9 ∨ n = 13 := by
  unfold plannedBars
  split
  · omega
  · split <;> omega

/-! ### The interpreter

With one phrase there is one number to find. The form follows from the number by two thresholds. -/

/-- The loop over the bar phrases finds the only one. -/
theorem extractTotalBars_eq {lower : Bytes} {n : Int} (h : OneBarPhrase lower n) :
    extractTotalBars lower = n := by
  obtain ⟨before, after, htext, hn, honly⟩ := h
  have hfirst : FirstAt (bytes " bar") (fun before _ => barCount before) lower n := by
    refine ⟨before, after, htext, hn, fun before' after' htext' hlt => ?_⟩
    cases hcount : barCount before' with
    | none => exact hcount
    | some m =>
      have heq := honly before' after' htext' (by rw [hcount]; rfl)
      exact absurd hlt (by rw [heq]; exact Nat.lt_irrefl _)
  have hscan : scan (bytes " bar") (fun before _ => barCount before) 0 [] lower = some n :=
    (scan_eq_some (by decide)).mpr hfirst
  rw [extractTotalBars]
  show (scan (bytes " bar") (fun before _ => barCount before) 0 [] lower).getD (-1) = n
  rw [hscan]
  rfl

/-- The requested number lies between 1 and 256. -/
theorem OneBarPhrase.range {lower : Bytes} {n : Int} (h : OneBarPhrase lower n) :
    1 ≤ n ∧ n ≤ 256 := by
  obtain ⟨before, -, -, hn, -⟩ := h
  exact numberIn_range hn

/-- The form for a number of bars. -/
def formFor (bars : Int) (energy : EnergyLevel) : List BlueprintSection :=
  if bars ≤ 7 then [⟨bytes "verse", bars, energy, 5 / 10, 3 / 10⟩]
  else if bars ≤ 11 then
    [⟨bytes "verse", 4, .mid, 5 / 10, 3 / 10⟩, ⟨bytes "chorus", 4, .high, 8 / 10, 5 / 10⟩]
  else songSections

/-- Without a section keyword the form is that of the number of bars. -/
theorem buildSections_eq {prompt : Bytes} {n : Int} (h : RequestsLength prompt n)
    (energy : EnergyLevel) : buildSections (toLowerBytes prompt) energy = formFor n energy := by
  -- No section is named, so the form follows from the number of bars.
  have hnamed : ∀ name ∈ sectionKeywords, ∀ bars e,
      namedSection (toLowerBytes prompt) name bars e = [] := fun name hname bars e => by
    rw [namedSection, if_neg (h.no_section name hname)]
  have hrange := h.phrase.range
  unfold buildSections formFor
  rw [hnamed _ (by decide), hnamed _ (by decide), hnamed _ (by decide), hnamed _ (by decide),
    hnamed _ (by decide), extractTotalBars_eq h.phrase]
  dsimp only
  rw [if_neg (by simp), if_neg (show ¬ n < 0 by omega)]
  -- One case for each threshold of the form.
  by_cases hfour : n ≤ 4
  · rw [if_pos hfour, if_pos (by omega)]
  · rw [if_neg hfour]
    by_cases htwelve : n ≥ 12
    · rw [if_pos htwelve, if_neg (by omega), if_neg (by omega)]
    · rw [if_neg htwelve]
      by_cases height : n ≥ 8
      · rw [if_pos height, if_neg (by omega), if_pos (by omega)]
      · rw [if_neg height, if_pos (by omega)]

/-! ### The planner

The planner keeps the length of each section and puts a bar of fill in front of a chorus that
follows a quieter verse. The form of a number decides how often that happens. -/

/-- The bars that the planner reaches with the sections of the generator. -/
def totalOf (energy : EnergyLevel) (sections : List BlueprintSection) : Int :=
  (TimelinePlanner.planFrom 0 0 (sections.map (normalizeSection energy))).2.2

/-- The number of bars for a prompt that is composed. -/
theorem totalBars_composed {prompt : Bytes} {seed : Seed}
    (h : ¬ hasLiteralNotes (toLowerBytes prompt) = true)
    (haccepted : isValid (fillDefaults (interpret prompt seed)) = true) :
    (TimelinePlanner.plan (generate (interpret prompt seed))).totalBars =
      totalOf (detectEnergy (toLowerBytes prompt))
        (buildSections (toLowerBytes prompt) (detectEnergy (toLowerBytes prompt))) := by
  -- A prompt without literal notes gives its energy and its sections.
  have hinterpret : (interpret prompt seed).energy = detectEnergy (toLowerBytes prompt) ∧
      (interpret prompt seed).sections =
        buildSections (toLowerBytes prompt) (detectEnergy (toLowerBytes prompt)) := by
    rw [interpret, if_neg h]
    exact ⟨rfl, rfl⟩
  have hne : (interpret prompt seed).sections ≠ [] := by
    rw [hinterpret.2]
    exact buildSections_ne_nil _ _
  rw [TimelinePlanner.plan, generate, if_pos haccepted]
  show totalOf (interpret prompt seed).energy (fillDefaults (interpret prompt seed)).sections = _
  rw [show (fillDefaults (interpret prompt seed)).sections = (interpret prompt seed).sections from
    if_neg hne, hinterpret.1, hinterpret.2]

/-- A single section is planned as it is. -/
theorem totalOf_single (energy : EnergyLevel) {s : BlueprintSection} (h : 1 ≤ s.bars) :
    totalOf energy [s] = s.bars := by
  show (TimelinePlanner.makePlanned (normalizeSection energy s) 0).endBar = s.bars
  show 0 + (if s.bars > 0 then s.bars else 4) = s.bars
  rw [if_pos (by omega), Int.zero_add]

/-- The length of the form for a number of bars. -/
theorem totalOf_formFor (energy energy' : EnergyLevel) {n : Int} (h : 1 ≤ n) :
    totalOf energy (formFor n energy') = plannedBars n := by
  -- The energies of the two longer forms are given, so the global one plays no part.
  have htwo : totalOf energy [⟨bytes "verse", 4, .mid, 5 / 10, 3 / 10⟩,
      ⟨bytes "chorus", 4, .high, 8 / 10, 5 / 10⟩] = 9 := by
    cases energy <;> decide
  have hsong : totalOf energy songSections = 13 := by cases energy <;> decide
  unfold formFor plannedBars
  split
  · exact totalOf_single energy h
  · split
    · exact htwo
    · exact hsong

/-- The length of the piece for a prompt that asks for `n` bars and is composed: `n` up to
seven, 9 up to eleven, 13 from twelve on. -/
theorem plan_requested {prompt : Bytes} {n : Int} {seed : Seed} (h : RequestsLength prompt n)
    (haccepted : isValid (fillDefaults (interpret prompt seed)) = true) :
    (TimelinePlanner.plan (generate (interpret prompt seed))).totalBars = plannedBars n ∧
      (TimelinePlanner.plan (generate (interpret prompt seed))).totalTicks =
        plannedBars n * 1920 ∧
      (plannedBars n = n ↔ n ≤ 7 ∨ n = 9 ∨ n = 13) := by
  have htotal : (TimelinePlanner.plan (generate (interpret prompt seed))).totalBars =
      plannedBars n := by
    rw [totalBars_composed h.not_rejected haccepted, buildSections_eq h]
    exact totalOf_formFor _ _ h.phrase.range.1
  refine ⟨htotal, ?_, plannedBars_eq_iff n⟩
  show (TimelinePlanner.plan (generate (interpret prompt seed))).totalBars * 4 * 480 = _
  rw [htotal, Int.mul_assoc]
  rfl

/-- A prompt that requests six bars and names no section. -/
theorem requestsLength_six : RequestsLength (bytes "jazz 6 bars") 6 where
  not_rejected := by decide
  no_section := by decide
  phrase := oneBarPhrase_of_take 6 (by decide) (by decide) (by decide)

/-- Six requested bars are planned exactly, as six is below the first threshold. -/
theorem plan_requested_six :
    (TimelinePlanner.plan (generate (interpret (bytes "jazz 6 bars") 1))).totalBars
        = plannedBars 6 ∧
      (TimelinePlanner.plan (generate (interpret (bytes "jazz 6 bars") 1))).totalTicks =
        plannedBars 6 * 1920 ∧
      (plannedBars 6 = 6 ↔ (6 : Int) ≤ 7 ∨ (6 : Int) = 9 ∨ (6 : Int) = 13) :=
  plan_requested requestsLength_six (by decide)

/-- A request for sixteen bars gets thirteen. -/
theorem not_plan_requested :
    ¬ ∀ (prompt : Bytes) (n : Int) (seed : Seed), RequestsLength prompt n →
      isValid (fillDefaults (interpret prompt seed)) = true →
      (TimelinePlanner.plan (generate (interpret prompt seed))).totalBars = n ∧
        (TimelinePlanner.plan (generate (interpret prompt seed))).totalTicks = n * 1920 := by
  intro hall
  have hrequest : RequestsLength (bytes "rock 16 bars") 16 :=
    ⟨by decide, by decide, oneBarPhrase_of_take 7 (by decide) (by decide) (by decide)⟩
  have htotal := (hall (bytes "rock 16 bars") 16 1 hrequest (by decide)).1
  exact absurd htotal (by decide)

end AiMidi.Proofs.RequestedLength
