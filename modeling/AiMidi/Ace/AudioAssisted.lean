import AiMidi.Ace.Workflow
import AiMidi.Dsp.IeeeFloat

/-!
# `AiMidi.Ace.AudioAssisted`: the workflow that composes from audio

`AudioAssisted` runs `dsp_cli` on a file, reads the report and calls `runMTE` with the key, the
scale, the tempo and a length that it finds there.

`unmarshal` is `json.Unmarshal` into an `AudioAnalysisResult`. A member is matched with a field by
its name, whatever the case. Members are read in their order, so that a later one of a name replaces
an earlier one. Other members are skipped, and `null` changes nothing.
-/

set_option autoImplicit false

namespace AiMidi.Ace

open AiMidi.Lib AiMidi.Dsp

/-- A chord of the report. -/
structure DetectedChord (N : Type) where
  chord : Bytes
  timeSec : N
  confidence : N

/-- The report. -/
structure AudioAnalysisResult (N : Type) where
  bpm : N
  key : Bytes
  scale : Bytes
  confidence : N
  chords : List (DetectedChord N)
  onsets : List N
  durationSec : N

section

variable {N : Type} [FloatText N] [FloatParse N]

/-! ### `json.Unmarshal`

The decoder matches names without regard to case and skips what it does not know. A value of another
kind is an error for the whole text. -/

/-- The name in upper case. Two other characters fold to a letter: U+017F to S and U+212A to K. -/
def foldName : Bytes → Bytes
  | 0xC5 :: 0xBF :: rest         => 0x53 :: foldName rest
  | 0xE2 :: 0x84 :: 0xAA :: rest => 0x4B :: foldName rest
  | b :: rest                    => (if 0x61 ≤ b ∧ b ≤ 0x7A then b - 0x20 else b) :: foldName rest
  | []                           => []

/-- The name of a member matches a field. -/
def names (field name : Bytes) : Bool := foldName field == foldName name

/-- A number field: `null` leaves the value that is there, and any other kind of value is an
error. -/
def toNumber (old : N) : Json → Option N
  | .null        => some old
  | .number text => FloatParse.parseFloat text
  | _            => none

/-- A string field, with the same rule for `null`. -/
def toText (old : Bytes) : Json → Option Bytes
  | .null     => some old
  | .string s => some s
  | _         => none

/-- A slice: `null` is the nil slice, and an array is read item by item. -/
def toSlice {α : Type} (read : Json → Option α) : Json → Option (List α)
  | .null        => some []
  | .array items => items.mapM read
  | _            => none

/-- The zero value that a chord is read into. -/
def DetectedChord.zero : DetectedChord N := ⟨[], lit 0, lit 0⟩

/-- One member of the object of a chord. Members with another name are skipped. -/
def DetectedChord.setField (c : DetectedChord N) (m : Bytes × Json) : Option (DetectedChord N) :=
  if names (bytes "chord") m.1 then (toText c.chord m.2).map fun chord => { c with chord }
  else if names (bytes "time_sec") m.1 then
    (toNumber c.timeSec m.2).map fun timeSec => { c with timeSec }
  else if names (bytes "confidence") m.1 then
    (toNumber c.confidence m.2).map fun confidence => { c with confidence }
  else some c

/-- An item of `chords`. -/
def DetectedChord.read : Json → Option (DetectedChord N)
  | .null           => some .zero
  | .object members => members.foldlM DetectedChord.setField .zero
  | _               => none

/-- The zero value that the report is read into. -/
def AudioAnalysisResult.zero : AudioAnalysisResult N := ⟨lit 0, [], [], lit 0, [], [], lit 0⟩

/-- One member of the report. Names are matched without regard to case, and unknown ones are
skipped. -/
def AudioAnalysisResult.setField (a : AudioAnalysisResult N) (m : Bytes × Json) :
    Option (AudioAnalysisResult N) :=
  if names (bytes "bpm") m.1 then (toNumber a.bpm m.2).map fun bpm => { a with bpm }
  else if names (bytes "key") m.1 then (toText a.key m.2).map fun key => { a with key }
  else if names (bytes "scale") m.1 then (toText a.scale m.2).map fun scale => { a with scale }
  else if names (bytes "confidence") m.1 then
    (toNumber a.confidence m.2).map fun confidence => { a with confidence }
  else if names (bytes "chords") m.1 then
    (toSlice DetectedChord.read m.2).map fun chords => { a with chords }
  else if names (bytes "onsets") m.1 then
    (toSlice (toNumber (lit 0)) m.2).map fun onsets => { a with onsets }
  else if names (bytes "duration_sec") m.1 then
    (toNumber a.durationSec m.2).map fun durationSec => { a with durationSec }
  else some a

/-- `none` for a text that is no JSON or has a value of another type. -/
def AudioAnalysisResult.unmarshal (text : Bytes) : Option (AudioAnalysisResult N) :=
  (Json.parse text).bind fun v =>
    match v with
    | .null           => some .zero
    | .object members => members.foldlM AudioAnalysisResult.setField .zero
    | _               => none

/-! ### Member by member -/

section

variable {c : DetectedChord N} {a : AudioAnalysisResult N} {text s : Bytes} {items : List Json}

omit [FloatText N] in
/-- The three fields of a chord, each under the name that `dsp_cli` writes. -/
theorem DetectedChord.setField_chord :
    c.setField (bytes "chord", .string s) = some { c with chord := s } := rfl

omit [FloatText N] in
theorem DetectedChord.setField_timeSec : c.setField (bytes "time_sec", .number text)
    = (FloatParse.parseFloat text).map fun timeSec => { c with timeSec } := rfl

omit [FloatText N] in
theorem DetectedChord.setField_confidence : c.setField (bytes "confidence", .number text)
    = (FloatParse.parseFloat text).map fun confidence => { c with confidence } := rfl

/-- The fields of the report, likewise. -/
theorem AudioAnalysisResult.setField_bpm : a.setField (bytes "bpm", .number text)
    = (FloatParse.parseFloat text).map fun bpm => { a with bpm } := rfl

theorem AudioAnalysisResult.setField_key :
    a.setField (bytes "key", .string s) = some { a with key := s } := rfl

theorem AudioAnalysisResult.setField_scale :
    a.setField (bytes "scale", .string s) = some { a with scale := s } := rfl

theorem AudioAnalysisResult.setField_confidence : a.setField (bytes "confidence", .number text)
    = (FloatParse.parseFloat text).map fun confidence => { a with confidence } := rfl

theorem AudioAnalysisResult.setField_chords : a.setField (bytes "chords", .array items)
    = (items.mapM DetectedChord.read).map fun chords => { a with chords } := rfl

theorem AudioAnalysisResult.setField_onsets : a.setField (bytes "onsets", .array items)
    = (items.mapM (toNumber (lit 0))).map fun onsets => { a with onsets } := rfl

theorem AudioAnalysisResult.setField_durationSec :
    a.setField (bytes "duration_sec", .number text)
      = (FloatParse.parseFloat text).map fun durationSec => { a with durationSec } := rfl

end

/-! ### The workflow

The workflow runs `dsp_cli`, reads its report and runs `mte_cli`. Each step has an error of its own,
and the first one ends the workflow. -/

/-- The tempo, 120 when none was found. -/
def AudioAnalysisResult.tempo (a : AudioAnalysisResult N) : N :=
  if FloatOps.lt a.bpm (lit 1) then lit 120 else a.bpm

/-- The number of bars of the audio, 4 when there is none. -/
def AudioAnalysisResult.bars (a : AudioAnalysisResult N) : Int :=
  let bars := FloatOps.toInt
    (FloatText.roundInt (a.durationSec * a.tempo / lit 60 / lit 4))
  if bars < 1 then 4 else bars

end

end AiMidi.Ace
