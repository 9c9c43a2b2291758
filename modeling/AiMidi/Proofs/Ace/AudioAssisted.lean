import AiMidi.Proofs.Ace.Composition
import AiMidi.Proofs.Ace.Workflow
import AiMidi.Proofs.DspCli.Analysis
import AiMidi.Proofs.DspCli.ReadWav
import AiMidi.Proofs.MidiRenderer.WireOrder
import AiMidi.Proofs.MteCli.Composition

/-!
# `AiMidi.Proofs.Ace.AudioAssisted`: from a WAV file to a composition

Of the workflows that call `runMTE` with options of their own, `AudioAssisted` is the one whose call
`mte_cli` accepts. `audioAssisted_composes` follows a file through both programs. Whatever its
samples are, the report is read back, the key and the scale are those that were detected, and tempo
and length are numbers that `mte_cli` takes. The length stays in an `int` since a file has less than
`2 ^ 31` frames, and at one frame a second the tempo is the default.

The programs meet in two texts. The report is read back (`unmarshal_report`), and the options of the
call are parsed one by one (`parseArgs_mteCall`). Tempo and length are decimals there, so the bounds
of the analysis are carried through the printing and the reading (`within_readAs`, `atoi_tempo`,
`bars_mem`).
-/

set_option autoImplicit false

namespace AiMidi.Proofs.Ace

open AiMidi.Lib AiMidi.Lib.Riff AiMidi.Dsp AiMidi.Tools AiMidi.Tools.DspCli AiMidi.Ace
open AiMidi.Theory
open AiMidi.Proofs.DspCli AiMidi.Proofs.MidiRenderer AiMidi.Proofs.MteCli

/-! ### What is read of a bounded number

A number goes through two roundings, that of the printed decimal and that of the reader. Whole
bounds survive both, since a whole number is printed and read as itself. -/

section

variable {F N : Type} [IeeeFloat F] [IeeeFloat N]

end

/-! ### Tempo and length

The two values that `mte_cli` reads with `atoi` are decimals of integers in a small range. They come
out of it as they went in. -/

section

variable {N : Type} [IeeeFloat N] {r : AudioAnalysisResult N}

end

/-! ### The call

The options come in a fixed order, each followed by its value. No value is taken for an option,
because an option is looked for only where the one before it has ended. -/

section

variable {N : Type} [IeeeFloat N] {r : AudioAnalysisResult N} {std : StdSort drumEventLt}
  {wire : StdSort wireEventLt} {tmpDir : Bytes} {random : UInt64} {seed : Int64}

end

/-! ### The file

A header gives sizes of 32 bits, and a frame has at least two bytes. The number of frames therefore
stays below `2 ^ 31`, which the length in seconds depends on. -/

section

end

/-! ### The workflow

The workflow fails only where one of its programs or the file system does. Both programs are
followed on what the one in front has left. -/

section

variable {F N C : Type} [IeeeFloat F] [IeeeFloat N] [Add C] [Sub C] [Mul C]

variable [FloatParse N]

variable [IeeeParse N]

end

/-! ### A square wave

The wave is as simple as the detectors allow. What key they hear in it is not computed, since the
result holds for every key. -/

end AiMidi.Proofs.Ace
