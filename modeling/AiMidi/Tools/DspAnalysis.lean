import AiMidi.Dsp.ChordDetection
import AiMidi.Dsp.IeeeFloat
import AiMidi.Dsp.KeyDetection
import AiMidi.Dsp.OnsetDetection

/-!
# `AiMidi.Tools.DspAnalysis`: the analysis of `dsp_cli` and its report

`analyse` is `main` behind the reader of the file: the onsets and the tempo, the key and the chords.
`report` is the text that it writes. The detectors are parameters, as they are constructed in
`main`.
-/

set_option autoImplicit false

namespace AiMidi.Tools.DspCli

open AiMidi.Lib AiMidi.Dsp

section

variable {F : Type} [FloatText F]

/-! ### The tempo -/

/-- What `main` reports. -/
structure AudioAnalysis (F : Type) where
  bpm : F
  key : KeyResult F
  chords : List (ChordResult F)
  onsets : List F
  durationSec : F

variable {C : Type} [Add C] [Sub C] [Mul C]

/-- A character of a string. -/
def jsonChar (c : UInt8) : Bytes :=
  if c = 0x22 then [0x5C, 0x22]
  else if c = 0x5C then [0x5C, 0x5C]
  else if c = 0x0A then [0x5C, 0x6E]
  else if c = 0x0D then [0x5C, 0x72]
  else if c = 0x09 then [0x5C, 0x74]
  else [c]

/-- A JSON string with its quotes. -/
def writeJsonString (s : Bytes) : Bytes := 0x22 :: (s.flatMap jsonChar ++ [0x22])

/-- A loop that writes a separator before each entry but the first. -/
def separated (separator : Bytes) : List Bytes → Bytes
  | []        => []
  | x :: rest => x ++ rest.flatMap fun y => separator ++ y

/-- A JSON array of numbers with three decimals. -/
def writeJsonArray (values : List F) : Bytes :=
  0x5B :: (separated [0x2C] (values.map (FloatText.printFixed 3)) ++ [0x5D])

/-- A chord as a JSON object. -/
def writeChord (c : ChordResult F) : Bytes :=
  bytes "    \x7b\"chord\": " ++ writeJsonString c.chord ++ bytes ", \"time_sec\": "
    ++ FloatText.printFixed 3 c.timeSec ++ bytes ", \"confidence\": "
    ++ FloatText.printFixed 3 c.confidence ++ bytes "\x7d"

/-- The chords as a JSON field. -/
def writeChordsJson (chords : List (ChordResult F)) : Bytes :=
  bytes "  \"chords\": [\n" ++ separated (bytes ",\n") (chords.map writeChord) ++ bytes "\n  ],\n"

/-- The text of the report. -/
def report (a : AudioAnalysis F) : Bytes :=
  bytes "\x7b\n" ++ bytes "  \"bpm\": " ++ FloatText.printFixed 1 a.bpm ++ bytes ",\n"
    ++ bytes "  \"key\": " ++ writeJsonString a.key.key ++ bytes ",\n  \"scale\": "
    ++ writeJsonString a.key.scale ++ bytes ",\n  \"confidence\": "
    ++ FloatText.printFixed 4 a.key.confidence ++ bytes ",\n" ++ writeChordsJson a.chords
    ++ bytes "  \"onsets\": " ++ writeJsonArray a.onsets ++ bytes ",\n  \"duration_sec\": "
    ++ FloatText.printFixed 3 a.durationSec ++ bytes "\n" ++ bytes "\x7d\n"

end

end AiMidi.Tools.DspCli
