import AiMidi.Proofs.PromptPipeline
import AiMidi.Theory.InputValidation

/-!
# `AiMidi.Proofs.InputValidation`: validator and interpreter agree

Every phrase by which the interpreter refuses a prompt contains a pattern that the validator
forbids (`literal_forbidden`). So a prompt that passes the validator, and the text that the
validator hands on, are interpreted, and the interpreter always has a section and an instrument
for them (`interpreted_of_valid`).
-/

set_option autoImplicit false

namespace AiMidi.Proofs.InputValidation

open AiMidi.Lib AiMidi.Theory AiMidi.Theory.InputValidation
open AiMidi.Theory.PromptInterpreter (hasLiteralNotes literalNotePatterns toLowerBytes interpret)
open AiMidi.Proofs.PromptPipeline (buildSections_ne_nil detectInstruments_ne_nil)

/-- A literal-note phrase contains a forbidden pattern. -/
theorem literal_forbidden :
    ∀ phrase ∈ literalNotePatterns, ∃ pattern ∈ forbiddenPatterns,
      contains phrase pattern = true := by
  decide

/-- What the interpreter refuses the validator forbids. -/
theorem forbidden_of_literal {prompt : Bytes} (h : hasLiteralNotes (toLowerBytes prompt) = true) :
    containsForbiddenPatterns prompt = true := by
  obtain ⟨phrase, hphrase, hfound⟩ := List.any_eq_true.mp h
  obtain ⟨pattern, hpattern, hin⟩ := literal_forbidden phrase hphrase
  have hlower : contains (toLower prompt) pattern = true := by
    rw [contains_iff] at hin hfound ⊢
    exact hin.trans hfound
  exact List.any_eq_true.mpr ⟨pattern, hpattern, hlower⟩

/-- A valid prompt passes the three checks, and is handed on as it is. -/
theorem valid_cases {prompt : Bytes} (h : (validatePrompt prompt).valid = true) :
    containsForbiddenPatterns prompt = false ∧ (validatePrompt prompt).sanitized = prompt := by
  unfold validatePrompt at h ⊢
  by_cases hempty : prompt = []
  · rw [if_pos hempty] at h
    exact absurd h (by decide)
  · by_cases hlong : prompt.length > kMaxPromptLength
    · rw [if_neg hempty, if_pos hlong] at h
      exact absurd h (by decide)
    · rw [if_neg hempty, if_neg hlong] at h ⊢
      cases hforbidden : containsForbiddenPatterns prompt with
      | true =>
        rw [hforbidden, if_pos rfl] at h
        exact absurd h (by decide)
      | false => exact ⟨rfl, List.take_of_length_le (Nat.not_lt.mp hlong)⟩

/-- The interpreter does not refuse the prompt, and has something to play for it. -/
structure Interpreted (prompt : Bytes) (seed : Seed) : Prop where
  not_literal : hasLiteralNotes (toLowerBytes prompt) = false
  sections : (interpret prompt seed).sections ≠ []
  instruments : (interpret prompt seed).instruments ≠ []

/-- Behind the check for literal notes there are always sections and instruments. -/
theorem interpreted_of_not_literal {prompt : Bytes}
    (h : hasLiteralNotes (toLowerBytes prompt) = false) (seed : Seed) :
    Interpreted prompt seed := by
  -- The early return for literal notes is not taken.
  have hbranch : ¬ hasLiteralNotes (toLowerBytes prompt) = true := by
    rw [h]
    decide
  constructor
  case not_literal => exact h
  case sections =>
    unfold interpret
    dsimp only
    rw [if_neg hbranch]
    exact buildSections_ne_nil _ _
  case instruments =>
    unfold interpret
    dsimp only
    rw [if_neg hbranch]
    exact detectInstruments_ne_nil _

/-- A valid prompt is interpreted, and so is what the validator makes of it. -/
theorem interpreted_of_valid {prompt : Bytes} (h : (validatePrompt prompt).valid = true)
    (seed : Seed) :
    Interpreted prompt seed ∧ Interpreted (validatePrompt prompt).sanitized seed := by
  obtain ⟨hforbidden, hsanitized⟩ := valid_cases h
  have hliteral : hasLiteralNotes (toLowerBytes prompt) = false := by
    cases hfound : hasLiteralNotes (toLowerBytes prompt) with
    | false => rfl
    | true => exact absurd ((forbidden_of_literal hfound).symm.trans hforbidden) (by decide)
  rw [hsanitized]
  exact ⟨interpreted_of_not_literal hliteral seed, interpreted_of_not_literal hliteral seed⟩

/-- A prompt of the kind that the validator is for. -/
theorem interpreted_of_valid_pop :
    Interpreted (bytes "upbeat pop song in C major") 7 ∧
      Interpreted (validatePrompt (bytes "upbeat pop song in C major")).sanitized 7 :=
  interpreted_of_valid (by decide +kernel) 7

end AiMidi.Proofs.InputValidation
