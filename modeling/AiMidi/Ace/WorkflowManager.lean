import AiMidi.Ace.Workflow
import AiMidi.Lib.BigEndian
import AiMidi.Lib.GoIo

/-!
# `AiMidi.Ace.WorkflowManager`: the SMF helpers and smart regeneration

`readSMF` splits a file into its header and its track chunks, `mergeSMF` puts the tracks of
two files behind the header of the first. `smartRegeneration` runs workflow W5 with them.

A file system is what opening a path for reading gives: the bytes of the file, or the text
of the error. `mergeSMF` returns the bytes of its output file. Errors of creating and writing
that file do not occur here.
-/

set_option autoImplicit false

namespace AiMidi.Ace

open AiMidi.Lib
open AiMidi.Lib.Smf (beNat)

/-- What `os.Open` gives for each path. -/
abbrev Files := Bytes → Except Bytes Bytes

/-! ### The chunks -/

/-- The fixed-size SMF header. -/
structure SmfHeader where
  magic : FixedBytes 4
  hdrLen : UInt32
  format : UInt16
  numTracks : UInt16
  division : UInt16
  deriving DecidableEq

/-- A track chunk. -/
structure SmfTrack where
  magic : FixedBytes 4
  length : UInt32
  data : Bytes
  deriving DecidableEq

/-- The bytes `binary.Write` makes of a header. -/
def SmfHeader.toBytes (h : SmfHeader) : Bytes :=
  h.magic.val ++ beBytes 4 h.hdrLen.toNat ++ beBytes 2 h.format.toNat
    ++ beBytes 2 h.numTracks.toNat ++ beBytes 2 h.division.toNat

/-- The header `binary.Read` makes of its bytes. -/
def SmfHeader.ofBytes (bs : FixedBytes 14) : SmfHeader where
  magic := ⟨bs.val.take 4, by simp [bs.property]⟩
  hdrLen := .ofNat (beNat ((bs.val.drop 4).take 4))
  format := .ofNat (beNat ((bs.val.drop 8).take 2))
  numTracks := .ofNat (beNat ((bs.val.drop 10).take 2))
  division := .ofNat (beNat ((bs.val.drop 12).take 2))

/-- The bytes of a chunk: magic, length and data. -/
def SmfTrack.toBytes (t : SmfTrack) : Bytes :=
  t.magic.val ++ beBytes 4 t.length.toNat ++ t.data

/-! ### Reading

The chunks are read by `binary.Read` for the fields of fixed size and by one `Read` for the data.
The last one may return fewer bytes than it was asked for. -/

/-- The errors of `readSMF`. -/
inductive ReadSmfError where
  | openFile (cause : Bytes)
  | header (err : ReadError)
  | badMagic (magic : FixedBytes 4)
  | hdrLen (n : UInt32)
  | trackMagic (i : Nat) (err : ReadError)
  | trackBadMagic (i : Nat) (magic : FixedBytes 4)
  | trackLength (i : Nat) (err : ReadError)
  | trackData (i : Nat) (err : ReadError)
  deriving DecidableEq

/-- The text of an error. `quote` is the verb `%q`. -/
def ReadSmfError.text (quote : Bytes → Bytes) : ReadSmfError → Bytes
  | .openFile cause        => cause
  | .header err            => bytes "reading SMF header: " ++ err.text
  | .badMagic magic        => bytes "not an SMF file: bad magic " ++ quote magic.val
  | .hdrLen n              => bytes "unexpected header length " ++ formatInt n.toNat
  | .trackMagic i err      => bytes "reading track " ++ formatInt i ++ bytes " magic: " ++ err.text
  | .trackBadMagic i magic =>
      bytes "track " ++ formatInt i ++ bytes ": bad magic " ++ quote magic.val
  | .trackLength i err     => bytes "reading track " ++ formatInt i ++ bytes " length: " ++ err.text
  | .trackData i err       => bytes "reading track " ++ formatInt i ++ bytes " data: " ++ err.text

/-- Track `i` at the head of what is left of the file. -/
def readTrack (i : Nat) (file : Bytes) : Except ReadSmfError (SmfTrack × Bytes) := do
  let (magic, file) ← (readFull 4 file).mapError (.trackMagic i)
  if magic.val ≠ bytes "MTrk" then .error (.trackBadMagic i magic)
  else do
    let (length, file) ← (readFull 4 file).mapError (.trackLength i)
    -- A single read: what it does not fill stays zero, and its count is not looked at.
    let (data, file) ← (fileRead (beNat length.val) file).mapError (.trackData i)
    .ok (⟨magic, .ofNat (beNat length.val), data⟩, file)

/-- `n` tracks from track `i` on. -/
def readTracks (i : Nat) : Nat → Bytes → Except ReadSmfError (List SmfTrack × Bytes)
  | 0,     file => .ok ([], file)
  | n + 1, file => do
      let (track, file) ← readTrack i file
      let (tracks, file) ← readTracks (i + 1) n file
      .ok (track :: tracks, file)

/-- `readSMF` on an open file. -/
def readOpened (file : Bytes) : Except ReadSmfError (SmfHeader × List SmfTrack) := do
  let (bs, file) ← (readFull 14 file).mapError .header
  let h := SmfHeader.ofBytes bs
  if h.magic.val ≠ bytes "MThd" then .error (.badMagic h.magic)
  else if h.hdrLen ≠ 6 then .error (.hdrLen h.hdrLen)
  else do
    let (tracks, _) ← readTracks 0 h.numTracks.toNat file
    .ok (h, tracks)

/-- `readSMF`: the file is opened and then read to its end. -/
def readSMF (files : Files) (path : Bytes) : Except ReadSmfError (SmfHeader × List SmfTrack) := do
  let file ← (files path).mapError .openFile
  readOpened file

/-! ### Merging

The output is the header of the base with the count of all tracks, and behind it all chunks. The
files themselves are not changed. -/

/-- The errors of `mergeSMF`. -/
inductive MergeSmfError where
  | base (err : ReadSmfError)
  | overlay (err : ReadSmfError)
  deriving DecidableEq

/-- The texts of the errors, which say which of the two files could not be read. -/
def MergeSmfError.text (quote : Bytes → Bytes) : MergeSmfError → Bytes
  | .base err    => bytes "read base SMF: " ++ err.text quote
  | .overlay err => bytes "read overlay SMF: " ++ err.text quote

/-- A chunk as it is written: the length field is computed anew. -/
def writeTrack (t : SmfTrack) : Bytes := { t with length := .ofNat t.data.length }.toBytes

/-- The output file of a merge. -/
def mergeSMF (files : Files) (basePath overlayPath : Bytes) : Except MergeSmfError Bytes := do
  let (baseH, baseTracks) ← (readSMF files basePath).mapError .base
  -- The header of the overlay is dropped.
  let (_, overlayTracks) ← (readSMF files overlayPath).mapError .overlay
  let merged := baseTracks ++ overlayTracks
  let baseH := { baseH with numTracks := .ofNat merged.length }
  .ok (baseH.toBytes ++ merged.flatMap writeTrack)

/-! ### W5: smart regeneration

The workflow validates its request, calls the generator and merges. What it returns is the path of
the merged file. -/

/-- W5 output. -/
structure SmartRegenerationResponse where
  smfPath : Bytes
  regionBars : Int64
  durationMs : Int64
  deriving DecidableEq

/-- What a successful `runMTE` leaves: the path of the new file, and the file system. -/
structure Generation where
  newSMFPath : Bytes
  files : Files

/-- The errors of `SmartRegeneration`. -/
inductive SmartRegenerationError where
  | invalid (text : Bytes)
  | parse (err : ReadSmfError)
  | regeneration (cause : Bytes)
  | merge (err : MergeSmfError)

/-- The texts of the errors, each with that of its cause. -/
def SmartRegenerationError.text (quote : Bytes → Bytes) : SmartRegenerationError → Bytes
  | .invalid text       => text
  | .parse err          => bytes "parse existing SMF: " ++ err.text quote
  | .regeneration cause => bytes "regeneration failed: " ++ cause
  | .merge err          => bytes "merge SMF failed: " ++ err.text quote

/-- Where the merged file goes. -/
def mergedPath (tmpDir : Bytes) (seed : Int64) (unixNano : UInt64) : Bytes :=
  Filepath.join [tmpDir, bytes "merged_" ++ sprintD seed ++ bytes "_" ++ sprintX unixNano
    ++ bytes ".mid"]

/-- `SmartRegeneration`: its response, and the bytes of the merged file. -/
def smartRegeneration (tmpDir : Bytes) (files : Files)
    (runMTE : MteCall → Except Bytes Generation) (unixNano : UInt64) (elapsedMs : Int64)
    (req : SmartRegenerationRequest) :
    Except SmartRegenerationError (SmartRegenerationResponse × Bytes) := do
  req.validate.mapError .invalid
  let (_, _) ← (readSMF files req.smfPath).mapError .parse
  -- The one call of this workflow. Its arguments say nothing of the bars that are locked.
  let generation ← (runMTE (req.mteCalls.head (List.cons_ne_nil _ _))).mapError .regeneration
  let merged ← (mergeSMF generation.files req.smfPath generation.newSMFPath).mapError .merge
  .ok (⟨mergedPath tmpDir req.seed unixNano, req.regionEnd - req.regionStart, elapsedMs⟩, merged)

end AiMidi.Ace
