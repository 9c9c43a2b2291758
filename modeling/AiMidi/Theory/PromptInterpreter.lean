import AiMidi.Lib.Cstdlib
import AiMidi.Lib.Text
import AiMidi.Theory.Blueprint
import Mathlib.Data.List.DropRight

/-!
# `AiMidi.Theory.PromptInterpreter`: the rule-based prompt interpreter

`interpret` reads tempo, genre, key, scale, energy, sections and instruments from the
lower-cased prompt, each with its own keyword search. A prompt that asks for literal notes
gets the default blueprint with only the seed set.

The tables keep the order of the source: the first entry that matches decides.

The scans for numbers are stated on the text before and behind an occurrence, without indices. That
the index loops of the source compute the same is shown in `AiMidi.Proofs.PromptNumbers`.
-/

set_option autoImplicit false

namespace AiMidi.Theory.PromptInterpreter

open AiMidi.Lib

/-- `std::tolower` of the C locale. -/
def byteToLower (c : UInt8) : UInt8 := if 0x41 ≤ c && c ≤ 0x5A then c + 0x20 else c

/-- `std::toupper` of the C locale. -/
def byteToUpper (c : UInt8) : UInt8 := if 0x61 ≤ c && c ≤ 0x7A then c - 0x20 else c

/-- The text in lower case, byte by byte. -/
def toLowerBytes (s : Bytes) : Bytes := s.map byteToLower

/-! ### Numbers in the text -/

/-- The digits at the end of the text, spaces behind them left out. -/
def numberEnding (before : Bytes) : Bytes := (before.rdropWhile (· == 0x20)).rtakeWhile isDigit

/-- The digits at the start of the text, spaces before them left out. -/
def numberStarting (after : Bytes) : Bytes := (after.dropWhile (· == 0x20)).takeWhile isDigit

/-- The number that the digits spell when it lies between the bounds. -/
def numberIn (lo hi : Int) (ds : Bytes) : Option Int :=
  match fromChars ds with
  | some v => if lo ≤ v ∧ v ≤ hi then some v else none
  | none   => none

/-- The tempo next to an occurrence of `bpm`: before it (`140 bpm`) or after it
(`bpm 140`). -/
def tempoAt (before after : Bytes) : Option Int :=
  -- A number out of range in front does not hide one behind.
  (numberIn 20 300 (numberEnding before)).or (numberIn 20 300 (numberStarting after))

/-- The first tempo named next to `bpm`, 120 when there is none. -/
def detectBpm (lower : Bytes) : Int := (scan (bytes "bpm") tempoAt 0 [] lower).getD 120

/-- The total bar count of a `N bar(s)` pattern, -1 when there is none. -/
def extractTotalBars (lower : Bytes) : Int :=
  (scan (bytes " bar") (fun before _ => numberIn 1 256 (numberEnding before)) 0 [] lower).getD
    (-1)

/-- The bar count of a section: a number after its name, else a `N bar` pattern in the 20
characters before it. -/
def extractBarsForSection (lower sectionName : Bytes) (defaultBars : Int) : Int :=
  match scan sectionName (fun before after => some (before, after)) 0 [] lower with
  | none => defaultBars
  | some (before, after) =>
    match numberIn 1 256 (numberStarting after) with
    | some val => val
    | none =>
      -- Only the first mention of the section is looked at.
      let window := before.drop (before.length - 20)
      match rfind (bytes " bar") window with
      | none => defaultBars
      | some barP => (numberIn 1 256 (numberEnding (window.take barP))).getD defaultBars

/-! ### Detection helpers -/

/-- The phrases that ask for literal notes. -/
def literalNotePatterns : List Bytes :=
  [bytes "note c4", bytes "note d4", bytes "note e4", bytes "note f4", bytes "note g4",
   bytes "notes c", bytes "notes d", bytes "notes e", bytes "notes f", bytes "notes g",
   bytes "notes a", bytes "notes b", bytes "midi notes", bytes "write notes"]

/-- Whether the text spells out notes. -/
def hasLiteralNotes (lower : Bytes) : Bool := literalNotePatterns.any (contains lower)

/-- The genre keywords. -/
def genreMap : List (Bytes × Bytes) :=
  [(bytes "pop", bytes "pop"), (bytes "rock", bytes "rock"), (bytes "jazz", bytes "jazz"),
   (bytes "blues", bytes "blues"), (bytes "electronic", bytes "electronic"),
   (bytes "edm", bytes "electronic"), (bytes "techno", bytes "electronic"),
   (bytes "hip hop", bytes "hip_hop"), (bytes "rap", bytes "hip_hop"),
   (bytes "rnb", bytes "rnb"), (bytes "r&b", bytes "rnb"), (bytes "funk", bytes "funk"),
   (bytes "soul", bytes "soul"), (bytes "classical", bytes "classical"),
   (bytes "latin", bytes "latin"), (bytes "salsa", bytes "latin"),
   (bytes "bossa", bytes "latin"), (bytes "country", bytes "country"),
   (bytes "metal", bytes "metal"), (bytes "folk", bytes "folk"), (bytes "pop", bytes "pop")]

/-- The first genre of the table that the text contains. -/
def detectGenre (lower : Bytes) : List Bytes :=
  match genreMap.find? fun entry => contains lower entry.1 with
  | some (_, genre) => [genre]
  | none            => []

/-- The text with its first byte in upper case. -/
def ucfirst : Bytes → Bytes
  | []      => []
  | c :: cs => byteToUpper c :: cs

/-- Natural notes. -/
def naturalNotes : List Bytes :=
  [bytes "c", bytes "d", bytes "e", bytes "f", bytes "g", bytes "a", bytes "b"]

/-- Accidentals, each with its display form. -/
def accidentals : List (Bytes × Bytes) :=
  [(bytes "f#", bytes "F#"), (bytes "c#", bytes "C#"), (bytes "g#", bytes "G#"),
   (bytes "d#", bytes "D#"), (bytes "a#", bytes "A#"), (bytes "e#", bytes "E#"),
   (bytes "bb", bytes "Bb"), (bytes "eb", bytes "Eb"), (bytes "ab", bytes "Ab"),
   (bytes "db", bytes "Db"), (bytes "gb", bytes "Gb")]

/-- `key of X` and `key of Xm`, natural. -/
def keyOfNatural (lower n : Bytes) : Option (Bytes × Bytes) :=
  -- The second search extends the first, so it never decides.
  if contains lower (bytes "key of " ++ n) then some (ucfirst n, bytes "major")
  else if contains lower (bytes "key of " ++ n ++ bytes "m") then some (ucfirst n, bytes "minor")
  else none

/-- `X minor` and `X major`, with the note and its display form. -/
def noteMode (lower note display : Bytes) : Option (Bytes × Bytes) :=
  if contains lower (note ++ bytes " minor") then some (display, bytes "minor")
  else if contains lower (note ++ bytes " major") then some (display, bytes "major")
  else none

/-- `in Xm`, natural. -/
def inMinorNatural (lower n : Bytes) : Option (Bytes × Bytes) :=
  if contains lower (bytes "in " ++ n ++ bytes "m") then some (ucfirst n, bytes "minor")
  else none

/-- `in X`, natural. -/
def inMajorNatural (lower n : Bytes) : Option (Bytes × Bytes) :=
  if contains lower (bytes "in " ++ n) then some (ucfirst n, bytes "major") else none

/-- `key of X`, `in Xm` and `in X`, accidental. -/
def keyOrInAccidental (lower a d : Bytes) : Option (Bytes × Bytes) :=
  if contains lower (bytes "key of " ++ a) then some (d, bytes "major")
  else if contains lower (bytes "in " ++ a ++ bytes "m") then some (d, bytes "minor")
  else if contains lower (bytes "in " ++ a) then some (d, bytes "major")
  else none

/-- Root key and scale. -/
def detectKeyAndScale (lower : Bytes) : Bytes × Bytes :=
  -- In the order of the source: each search runs over all notes before the next one starts.
  (((((((naturalNotes.findSome? (keyOfNatural lower)).or
    (naturalNotes.findSome? fun n => noteMode lower n (ucfirst n))).or
    (accidentals.findSome? fun (a, d) => noteMode lower a d)).or
    (naturalNotes.findSome? (inMinorNatural lower))).or
    (naturalNotes.findSome? (inMajorNatural lower))).or
    (accidentals.findSome? fun (a, d) => keyOrInAccidental lower a d))).getD
    (bytes "C", bytes "major")

/-- The words for high, low and middle energy. -/
def highKw : List Bytes := [bytes "upbeat", bytes "energetic", bytes "lively", bytes "fast"]
def lowKw : List Bytes :=
  [bytes "calm", bytes "relaxed", bytes "relaxing", bytes "chill", bytes "slow", bytes "mellow"]
def midKw : List Bytes := [bytes "moderate", bytes "medium", bytes "neutral"]

/-- The energy that the text asks for, high before low. -/
def detectEnergy (lower : Bytes) : EnergyLevel :=
  if highKw.any (contains lower) then .high
  else if lowKw.any (contains lower) then .low
  -- These keywords decide nothing: the default is the same.
  else if midKw.any (contains lower) then .mid
  else .mid

/-- A section that the prompt names, with the number of bars the text gives it. -/
def namedSection (lower : Bytes) (name : Bytes) (defaultBars : Int) (energy : EnergyLevel) :
    List BlueprintSection :=
  if contains lower name then
    let bars := extractBarsForSection lower name defaultBars
    match energy with
    | .high => [⟨name, bars, energy, 8 / 10, 6 / 10⟩]
    | .low  => [⟨name, bars, energy, 3 / 10, 2 / 10⟩]
    | _     => [⟨name, bars, energy, 5 / 10, 3 / 10⟩]
  else []

/-- The form of a whole song. -/
def songSections : List BlueprintSection :=
  [⟨bytes "intro", 2, .low, 3 / 10, 2 / 10⟩, ⟨bytes "verse", 4, .mid, 5 / 10, 3 / 10⟩,
   ⟨bytes "chorus", 4, .high, 8 / 10, 5 / 10⟩, ⟨bytes "outro", 2, .low, 3 / 10, 2 / 10⟩]

/-- The sections: those the prompt names, else a form that its bar count selects. -/
def buildSections (lower : Bytes) (defaultEnergy : EnergyLevel) : List BlueprintSection :=
  let named := namedSection lower (bytes "intro") 2 .low
    ++ namedSection lower (bytes "verse") 4 .mid
    ++ namedSection lower (bytes "chorus") 4 .high
    ++ namedSection lower (bytes "bridge") 4 .mid
    ++ namedSection lower (bytes "outro") 2 .low
  if named ≠ [] then named
  else
    let bars := extractTotalBars lower
    if bars < 0 then songSections
    else if bars ≤ 4 then [⟨bytes "verse", bars, defaultEnergy, 5 / 10, 3 / 10⟩]
    -- From 12 bars on the form does not depend on the count.
    else if bars ≥ 12 then songSections
    else if bars ≥ 8 then
      [⟨bytes "verse", 4, .mid, 5 / 10, 3 / 10⟩, ⟨bytes "chorus", 4, .high, 8 / 10, 5 / 10⟩]
    else [⟨bytes "verse", bars, defaultEnergy, 5 / 10, 3 / 10⟩]

/-- The instruments with the keywords that name them. -/
def instrumentMap : List (List Bytes × BlueprintInstrument) :=
  [([bytes "piano", bytes "keys"], ⟨bytes "piano", bytes "comping", 0, 1⟩),
   ([bytes "bass"], ⟨bytes "bass", bytes "bass", 1, 34⟩),
   ([bytes "drums", bytes "drum"], ⟨bytes "drums", bytes "drum", 9, 1⟩),
   ([bytes "guitar"], ⟨bytes "guitar", bytes "rhythm", 2, 27⟩),
   ([bytes "strings"], ⟨bytes "strings", bytes "pad", 3, 49⟩),
   ([bytes "synth"], ⟨bytes "synth", bytes "pad", 4, 81⟩),
   ([bytes "brass"], ⟨bytes "brass", bytes "lead", 5, 57⟩),
   ([bytes "sax"], ⟨bytes "sax", bytes "lead", 6, 66⟩)]

/-- Piano, bass and drums. -/
def defaultInstruments : List BlueprintInstrument :=
  [⟨bytes "piano", bytes "comping", 0, 1⟩, ⟨bytes "bass", bytes "bass", 1, 34⟩,
   ⟨bytes "drums", bytes "drum", 9, 1⟩]

/-- The instruments that the text names, or the default ones. -/
def detectInstruments (lower : Bytes) : List BlueprintInstrument :=
  let named := (instrumentMap.filter fun entry => entry.1.any (contains lower)).map Prod.snd
  if named ≠ [] then named else defaultInstruments

/-! ### The interpreter -/

/-- A prompt and a seed to a blueprint. Seed 0 stands for the hash of the prompt. -/
def interpret (prompt : Bytes) (seed : Seed) : MusicBlueprint :=
  let seed := if seed = 0 then fnv1a prompt else seed
  let lower := toLowerBytes prompt
  -- No error is raised. Everything but the seed is a default.
  if hasLiteralNotes lower then { seed := seed }
  else
    let genres := detectGenre lower
    let (key, scale) := detectKeyAndScale lower
    let energy := detectEnergy lower
    { seed := seed
      ppq := 480
      bpm := detectBpm lower
      genres := if genres = [] then [bytes "pop"] else genres
      rootKey := key
      scale := scale
      energy := energy
      emotion := emotionFromEnergy energy
      sections := buildSections lower energy
      instruments := detectInstruments lower }

end AiMidi.Theory.PromptInterpreter
