import AiMidi.Ace.Workflow
import AiMidi.Lib.GoStrings

/-!
# `AiMidi.Ace.Composition`: the composition server

`parsePrompt` finds a key, a scale, a tempo and a length in the text of a prompt. A prompt
arrives in a protobuf string, which is valid UTF-8, so it is given as its runes.
`newCompositionArgs` is the argument vector that `NewComposition` hands to `mte_cli`.
-/

set_option autoImplicit false

namespace AiMidi.Ace

open AiMidi.Lib

/-! ### The parameters in a prompt

Words are separated by blanks, and the text is in lower case. The searches are independent of each
other and begin anew each time. -/

/-- The names of the natural notes, in the order they are looked for. -/
def keyWords : List Char := ['c', 'd', 'e', 'f', 'g', 'a', 'b']

/-- The text names the note as a word. -/
def mentions (lower : Runes) (kw : Char) : Bool :=
  contains lower [' ', kw, ' '] || [kw, ' '].isPrefixOf lower
    || contains lower (" in ".toList ++ [kw, ' '])

/-- Some word starts with `sharp`, or there is a sharp sign. -/
def sharpMark (lower : Runes) : Bool :=
  contains lower " sharp".toList || contains lower "#".toList

/-- Some word starts with `flat`, or some word ends in `b`. -/
def flatMark (lower : Runes) : Bool :=
  contains lower " flat".toList || contains lower "b ".toList

/-- The natural note of the key, C when the text names none. -/
def naturalKey (lower : Runes) : Char := (keyWords.find? (mentions lower)).getD 'c'

/-- A note name with its accidentals. -/
def spellKey (kw : Char) (sharp flat : Bool) : Bytes :=
  kw.toUpper.toNat.toUInt8 :: ((if sharp then bytes "#" else []) ++ if flat then bytes "b" else [])

/-- `parseKey`: the letter of the first phrase that names a key, with its sharp or flat. -/
def parseKey (lower : Runes) : Bytes :=
  spellKey (naturalKey lower) (sharpMark lower) (flatMark lower)

/-- The scale words. -/
def scaleWords : List String :=
  ["major", "minor", "dorian", "phrygian", "lydian", "mixolydian", "aeolian", "locrian"]

/-- `parseScale`: the first word of the list that occurs, and `major` without one. -/
def parseScale (lower : Runes) : Bytes :=
  bytes ((scaleWords.find? fun sw => contains lower sw.toList).getD "major")

/-- A word with the word before it: a number in range before one of the names is taken. -/
def takeNumber (names : List Runes) (lo hi acc : Int) (prev w : Runes) : Int :=
  if w ∈ names then
    match goAtoi prev with
    -- A number out of range leaves an earlier one in place.
    | some n => if lo ≤ n ∧ n ≤ hi then n else acc
    | none   => acc
  else acc

/-- The last number between `lo` and `hi` that stands directly before one of the names. -/
def numberBefore (names : List Runes) (lo hi default : Int) (words : List Runes) : Int :=
  (words.zip words.tail).foldl (fun acc (prev, w) => takeNumber names lo hi acc prev w) default

/-- The parameters of a composition. -/
structure PromptParams where
  key : Bytes
  scale : Bytes
  bpm : Int
  bars : Int
  deriving DecidableEq, Repr

/-- `parsePrompt`, with the Unicode case table. -/
def parsePrompt (table : Char → Char) (prompt : Runes) : PromptParams :=
  let lower := toLower table prompt
  let words := fields lower
  { key := parseKey lower
    scale := parseScale lower
    bpm := numberBefore ["bpm".toList] 40 300 120 words
    bars := numberBefore ["bars".toList, "bar".toList] 1 64 4 words }

/-! ### The request

The seed of the request names the output file. The arguments are the parameters as texts, each
behind its option. -/

/-- What `NewComposition` reads of its request. -/
structure NewCompositionRequest where
  prompt : Runes
  styleHint : Runes
  seed : Int64

/-- The seed of a request. Seed 0 asks for a random one. -/
def NewCompositionRequest.effectiveSeed (req : NewCompositionRequest) (random : UInt64) :
    Int64 :=
  if req.seed = 0 then random.toInt64 else req.seed

/-- The parameters of a request: the style hint overrides key and scale. -/
def NewCompositionRequest.params (table : Char → Char) (req : NewCompositionRequest) :
    PromptParams :=
  let params := parsePrompt table req.prompt
  match fields req.styleHint with
  | []                => params
  -- Neither word is checked here. `mte_cli` refuses what it does not know.
  | [key]             => { params with key := utf8 key }
  | key :: scale :: _ => { params with key := utf8 key, scale := utf8 scale }

/-- The name of the output file of a composition. -/
def outputName (seed : Int64) : Bytes := bytes "output_" ++ sprintD seed ++ bytes ".mid"

/-- The argument vector of the `mte_cli` subprocess. -/
def newCompositionArgs (tmpDir : Bytes) (seed : Int64) (params : PromptParams) : List Bytes :=
  [bytes "--seed", sprintD seed,
   bytes "--key", params.key,
   bytes "--scale", params.scale,
   bytes "--bpm", formatInt params.bpm,
   bytes "--bars", formatInt params.bars,
   bytes "--output", Filepath.join [tmpDir, outputName seed]]

end AiMidi.Ace
