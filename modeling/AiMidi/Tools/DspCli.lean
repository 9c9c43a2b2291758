import AiMidi.Lib.Riff

/-!
# `AiMidi.Tools.DspCli`: the WAV reader of `dsp_cli`

`readWAV` walks the chunks of a RIFF/WAVE file to the `fmt ` and the `data` chunk, checks the
format and reads the samples.

An `std::ifstream` is what is left of the file. A read that comes short sets its failbit, and from
then on nothing is left: later reads get nothing and seeks move nothing. A seek beyond the end is
allowed, and leaves nothing to read either.

A variable without an initial value is `none` until a read fills it. What a comparison with such a
variable gives is a parameter (`Unspecified`).
-/

set_option autoImplicit false

namespace AiMidi.Tools.DspCli

open AiMidi.Lib AiMidi.Lib.Riff

/-! ### The stream -/

/-- `file.read`: the bytes that it gets, at most `n`, and what is left. -/
def ifstreamRead (n : Nat) (file : Bytes) : Bytes × Bytes := (file.take n, file.drop n)

/-- `file.seekg` from the current position. -/
def ifstreamSeekg (n : Nat) (file : Bytes) : Bytes := file.drop n

/-- The value of a variable of `n` bytes without initial value, after a read. -/
def fresh (n : Nat) (got : Bytes) : Option Nat :=
  if got.length = n then some (leNat got) else none

/-- The value of a variable of `n` bytes after a read, which may be short. -/
def overwritten (n old : Nat) (got : Bytes) : Nat :=
  leNat (got ++ (leBytes n old).drop got.length)

/-- What the comparisons with unfilled variables give. -/
structure Unspecified where
  isRiff : Bool
  isWave : Bool
  isPcm : Bool

/-- `std::memcmp(buffer, tag, 4) == 0`. -/
def sameTag (unspecified : Bool) (got tag : Bytes) : Bool :=
  if got.length = 4 then got == tag else unspecified

/-! ### The chunk walk -/

/-- The variables of the chunk walk. -/
structure WavState where
  audioFormat : Option Nat := some 0
  numChannelsTemp : Nat := 0
  sampleRateTemp : Nat := 0
  bitsPerSample : Nat := 0
  dataSize : Nat := 0
  foundFmt : Bool := false
  deriving DecidableEq, Repr

/-- The body of the `fmt ` chunk, and what is left behind it. -/
def readFmt (chunkSize : Nat) (st : WavState) (file : Bytes) : WavState × Bytes :=
  let (formatTag, file) := ifstreamRead 2 file
  let (numChannels, file) := ifstreamRead 2 file
  let (sampleRate, file) := ifstreamRead 4 file
  let file := ifstreamSeekg 6 file
  let (bits, file) := ifstreamRead 2 file
  -- The subtraction is unsigned: a size below 16 wraps.
  let remaining := (chunkSize + 2 ^ 32 - 16) % 2 ^ 32
  ({ st with
      audioFormat := fresh 2 formatTag
      numChannelsTemp := overwritten 2 st.numChannelsTemp numChannels
      sampleRateTemp := overwritten 4 st.sampleRateTemp sampleRate
      bitsPerSample := overwritten 2 st.bitsPerSample bits
      foundFmt := true },
    ifstreamSeekg remaining file)

/-- What one round of the walk does: go on, or leave the loop. -/
inductive Round where
  | next (st : WavState) (file : Bytes)
  | done (st : WavState) (file : Bytes)
  deriving DecidableEq, Repr

/-- One round of the chunk walk: it ends the walk, or reads or skips a chunk. -/
def walkRound (st : WavState) (file : Bytes) : Round :=
  let (chunkId, file) := ifstreamRead 4 file
  let (sizeBytes, file) := ifstreamRead 4 file
  let chunkSize := leNat sizeBytes
  if chunkId.length < 4 ∨ sizeBytes.length < 4 then .done st file
  else if !st.foundFmt && chunkId == bytes "fmt " then
    let (st, file) := readFmt chunkSize st file
    .next st file
  else if chunkId == bytes "data" then .done { st with dataSize := chunkSize } file
  else .next st (ifstreamSeekg chunkSize file)

/-- A round that goes on has read eight bytes. -/
theorem walkRound_next_lt {st st' : WavState} {file file' : Bytes}
    (h : walkRound st file = .next st' file') : file'.length < file.length := by
  unfold walkRound ifstreamRead at h
  dsimp only at h
  split at h
  · cases h
  -- A whole header of eight bytes was read, so what follows it is shorter.
  · rename_i hfull
    rw [List.length_take, List.length_take, List.length_drop] at hfull
    split at h
    · cases h
      simp only [readFmt, ifstreamRead, ifstreamSeekg, List.length_drop]
      omega
    · split at h
      · cases h
      · cases h
        rw [ifstreamSeekg, List.length_drop, List.length_drop, List.length_drop]
        omega

/-- The loop over the chunks. -/
def walkChunks (st : WavState) (file : Bytes) : WavState × Bytes :=
  match _h : walkRound st file with
  | .next st' file' => walkChunks st' file'
  | .done st' file' => (st', file')
termination_by file.length
decreasing_by exact walkRound_next_lt _h

/-! ### Samples -/

/-- Two bytes as an `int16_t`. -/
def toInt16 (got : Bytes) : Int := (leNat got : Int).bmod (2 ^ 16)

/-- The samples of one frame, and what is left. -/
def readSamples : Nat → Bytes → List (Option Int) × Bytes
  | 0,     file => ([], file)
  | n + 1, file =>
    let (got, file) := ifstreamRead 2 file
    let (samples, file) := readSamples n file
    ((if got.length = 2 then some (toInt16 got) else none) :: samples, file)

/-- The value of a frame: its sample, or the mean of the samples of several channels. -/
def mixFrame (samples : List Int) : Float32 :=
  match samples with
  | [sample] => Float32.ofInt sample / 32768
  | _        => samples.foldl (fun sum sample => sum + Float32.ofInt sample / 32768) 0
      / Float32.ofInt samples.length

/-- The loop over the frames. A frame with an unfilled sample has no value. -/
def readFrames (numChannels : Nat) : Nat → Bytes → List (Option Float32)
  | 0,     _    => []
  | n + 1, file =>
    let (samples, file) := readSamples numChannels file
    (samples.mapM id).map mixFrame :: readFrames numChannels n file

/-! ### The reader -/

/-- The messages of `readWAV`, with what they print. -/
inductive WavError where
  /-- `cannot open '%s'` -/
  | cannotOpen
  /-- `not a RIFF/WAVE file` -/
  | notRiffWave
  /-- `no fmt chunk found` -/
  | noFmt
  /-- `only PCM format supported (got format %d)` -/
  | notPcm (format : Option Nat)
  /-- `only 16-bit PCM supported (got %d bits)` -/
  | not16Bit (bits : Nat)
  /-- `no data chunk found` -/
  | noData
  deriving DecidableEq, Repr

/-- What reading a file gives: an error, a division by zero or the audio. -/
inductive WavResult where
  /-- A message and an empty vector. -/
  | error (e : WavError)
  /-- The integer division by the number of channels fails. -/
  | divisionByZero
  | audio (sampleRate : Int) (numChannels : Nat) (frames : List (Option Float32))

/-- `audioFormat == 1`. -/
def isPcm (u : Unspecified) : Option Nat → Bool
  | some format => format == 1
  | none        => u.isPcm

/-- The checks behind the walk, and the audio. -/
def readData (u : Unspecified) (st : WavState) (file : Bytes) : WavResult :=
  if !st.foundFmt then .error .noFmt
  else if !isPcm u st.audioFormat then .error (.notPcm st.audioFormat)
  else if st.bitsPerSample ≠ 16 then .error (.not16Bit st.bitsPerSample)
  else if st.dataSize = 0 then .error .noData
  else
    let totalSamples := st.dataSize / (st.bitsPerSample / 8)
    if st.numChannelsTemp = 0 then .divisionByZero
    else
      let frames := totalSamples / st.numChannelsTemp
      .audio (i32cast st.sampleRateTemp) st.numChannelsTemp
        (readFrames st.numChannelsTemp frames file)

/-- The file behind its RIFF header, `none` for another one. -/
def behindHeader (u : Unspecified) (file : Bytes) : Option Bytes :=
  let (riff, file) := ifstreamRead 4 file
  let (_fileSize, file) := ifstreamRead 4 file
  let (wave, file) := ifstreamRead 4 file
  if !sameTag u.isRiff riff (bytes "RIFF") || !sameTag u.isWave wave (bytes "WAVE") then none
  else some file

/-- `readWAV`, on the contents of the file (`none` when it cannot be opened). -/
def readWAV (u : Unspecified) : Option Bytes → WavResult
  | none      => .error .cannotOpen
  | some file =>
    match behindHeader u file with
    | none      => .error .notRiffWave
    | some body =>
      let (st, file) := walkChunks {} body
      readData u st file

end AiMidi.Tools.DspCli
