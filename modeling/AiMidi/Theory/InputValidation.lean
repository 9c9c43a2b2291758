import AiMidi.Lib.Decimal
import AiMidi.Theory.PromptInterpreter

/-!
# `AiMidi.Theory.InputValidation`: the checks on a prompt

`validatePrompt` refuses an empty prompt, a long one, and one that asks for literal notes. An
accepted prompt is handed on as it is.
-/

set_option autoImplicit false

namespace AiMidi.Theory

open AiMidi.Lib

/-- The result of a validation. The error is empty when the prompt is valid. -/
structure ValidationResult where
  valid : Bool := true
  error : Bytes := []
  sanitized : Bytes := []
  deriving DecidableEq, Repr

namespace InputValidation

/-- The longest accepted prompt, in bytes. -/
def kMaxPromptLength : Nat := 4096

/-- The patterns that ask for literal notes. -/
def forbiddenPatterns : List Bytes :=
  -- Direct note requests
  [bytes "note c", bytes "note d", bytes "note e", bytes "note f", bytes "note g", bytes "note a",
   bytes "note b",
   bytes "notes c", bytes "notes d", bytes "notes e", bytes "notes f", bytes "notes g",
   bytes "notes a", bytes "notes b",
   bytes "midi note", bytes "midi notes",
   bytes "write note", bytes "write notes",
   bytes "generate note", bytes "generate notes",
   bytes "play note", bytes "play notes",
   bytes "create note", bytes "create notes",
   -- Specific note patterns
   bytes "c4 ", bytes "d4 ", bytes "e4 ", bytes "f4 ", bytes "g4 ", bytes "a4 ", bytes "b4 ",
   bytes " c4", bytes " d4", bytes " e4", bytes " f4", bytes " g4", bytes " a4", bytes " b4",
   -- Explicit MIDI
   bytes "midi number", bytes "midi value",
   bytes "note number", bytes "note value",
   bytes "pitch 6", bytes "pitch 7", bytes "pitch 8", bytes "pitch 9",
   -- Velocity requests
   bytes "velocity 12", bytes "velocity 6", bytes "velocity 8",
   -- Explicit chord spelling
   bytes "c e g", bytes "c e g ", bytes "c e g b", bytes "d f a", bytes "e g b",
   bytes "c major chord notes", bytes "c minor chord notes"]

/-- The same function as the interpreter's. -/
def toLower (s : Bytes) : Bytes := PromptInterpreter.toLowerBytes s

/-- Whether the lower-cased prompt contains a forbidden pattern. -/
def containsForbiddenPatterns (prompt : Bytes) : Bool :=
  forbiddenPatterns.any (contains (toLower prompt))

/-- Only the length is cut. -/
def sanitize (prompt : Bytes) : Bytes := prompt.take kMaxPromptLength

/-- The checks of a prompt in the code's order, with its message for the first that fails. -/
def validatePrompt (prompt : Bytes) : ValidationResult :=
  if prompt = [] then { valid := false, error := bytes "Prompt cannot be empty" }
  else if prompt.length > kMaxPromptLength then
    { valid := false
      error := bytes "Prompt exceeds maximum length of " ++ decimal kMaxPromptLength
        ++ bytes " characters" }
  else if containsForbiddenPatterns prompt then
    { valid := false
      error := bytes "Prompt contains forbidden patterns: asking for literal MIDI notes is "
        ++ bytes "not supported. Describe the musical style, mood, and structure instead." }
  else { sanitized := sanitize prompt }

end InputValidation

end AiMidi.Theory
