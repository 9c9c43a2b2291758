import AiMidi.Proofs.Ace.MergeSmf

/-!
# `AiMidi.Proofs.Ace.SmartRegeneration`: locked bars in a regenerated file

`SmartRegeneration` merges the existing file with the generated one
(`smartRegeneration_eq`), all tracks of both. So a merged file keeps the notes of a locked
bar only if nothing was generated there, and it is rid of the notes of the region outside
the locks only if the existing file had none (`preservesLocks_iff`).

`bar` gives the bar of a tick of the merged file, in whatever metre. What a note lock
covers is not said by the code, so `noteLock` is arbitrary.

A lock is a filter on the placed notes, and the merge appends a list to another one. So each of the
two demands is about a filter of an appended list (`preservesLocks_append_iff`). When the 16-bit
count of the tracks wraps, some of the existing notes are dropped with everything that was
generated, which is the second case (`preservesLocks_kept_iff`).
-/

set_option autoImplicit false

namespace AiMidi.Proofs.Ace

open AiMidi.Lib
open AiMidi.Ace
open AiMidi.Lib.Smf (decode)

/-! ### Notes

A note event is taken with the name of its track and its tick. The order of the notes is that of the
tracks, so notes of two files in one are those of the first and then those of the second. -/

/-- A note event, and the name of the track it is on. -/
structure PlacedNote where
  track : Option Bytes
  event : Smf.TrackEvent
  deriving DecidableEq

/-- The events that begin or end a note. -/
def isNote : Smf.Event → Bool
  | .noteOn _ _ _  => true
  | .noteOff _ _ _ => true
  | _              => false

/-- The name that a track carries, from its first name event. -/
def nameOf (track : List Smf.TrackEvent) : Option Bytes :=
  track.findSome? fun e =>
    match e.event with
    | .metaEvent 0x03 name => some name
    | _                    => none

/-- The note events of some tracks. -/
def notesOf (tracks : List (List Smf.TrackEvent)) : List PlacedNote :=
  tracks.flatMap fun track =>
    (track.filter fun e => isNote e.event).map fun e => ⟨nameOf track, e⟩

/-- The notes of all tracks are those of the first and of the others. -/
@[simp] theorem notesOf_append (ts us : List (List Smf.TrackEvent)) :
    notesOf (ts ++ us) = notesOf ts ++ notesOf us := List.flatMap_append

/-- A filter finds nothing in what is appended exactly when nothing there passes it. -/
theorem filter_append_eq_iff {p : PlacedNote → Bool} {ns ms : List PlacedNote} :
    (ns ++ ms).filter p = ns.filter p ↔ ∀ n ∈ ms, p n = false := by
  rw [List.filter_append, List.append_right_eq_self, List.filter_eq_nil_iff]
  simp only [Bool.not_eq_true]

/-! ### Locks

A lock covers bars, and a note is in the bar of its tick. Of the notes in a locked bar the result
should have the existing ones and no others. -/

section
variable (bar : Nat → Int) (noteLock : Lock → PlacedNote → Bool)

/-- The note is in the bars of a lock. -/
def inBars (l : Lock) (n : PlacedNote) : Bool :=
  l.barStart.toInt ≤ bar n.event.tick && bar n.event.tick < l.barEnd.toInt

/-- The lock covers the note. -/
def covers (l : Lock) (n : PlacedNote) : Bool :=
  if l.type = bytes "bar" then inBars bar l n
  else if l.type = bytes "instrument" then n.track == some l.instrument
  else noteLock l n

/-- The note is in the region to be regenerated, and no lock covers it. -/
def isFree (req : SmartRegenerationRequest) (n : PlacedNote) : Bool :=
  req.regionStart.toInt ≤ bar n.event.tick && bar n.event.tick < req.regionEnd.toInt
    && req.locks.all fun l => !covers bar noteLock l n

/-- No note is in a bar that a bar lock covers. -/
def NoneLocked (req : SmartRegenerationRequest) (notes : List PlacedNote) : Prop :=
  ∀ l ∈ req.locks, l.type = bytes "bar" → ∀ n ∈ notes, inBars bar l n = false

/-- No note is in the region outside all locks. -/
def NoneFree (req : SmartRegenerationRequest) (notes : List PlacedNote) : Prop :=
  ∀ n ∈ notes, isFree bar noteLock req n = false

/-- The merged notes respect the locks: in a locked bar they are the existing ones, and in the
region outside all locks they are generated ones and no existing ones. -/
structure PreservesLocks (req : SmartRegenerationRequest)
    (existing generated merged : List PlacedNote) : Prop where
  locked : ∀ l ∈ req.locks, l.type = bytes "bar" →
    merged.filter (inBars bar l) = existing.filter (inBars bar l)
  free : ∀ n ∈ merged, isFree bar noteLock req n = true → n ∉ existing ∧ n ∈ generated

variable {bar noteLock}

/-- Appending the generated notes respects the locks when none of them is in a locked bar, and
none of the existing ones is in the region outside the locks. -/
theorem preservesLocks_append_iff {req : SmartRegenerationRequest}
    {existing generated : List PlacedNote} :
    PreservesLocks bar noteLock req existing generated (existing ++ generated)
      ↔ NoneLocked bar req generated ∧ NoneFree bar noteLock req existing := by
  constructor
  · intro h
    refine ⟨?_, ?_⟩
    · intro l hl hbar n hn
      exact filter_append_eq_iff.mp (h.locked l hl hbar) n hn
    -- A free note of the existing ones would be in the merge.
    · intro n hn
      by_contra hfree
      have hfree : isFree bar noteLock req n = true := Bool.eq_true_of_not_eq_false hfree
      exact (h.free n (List.mem_append_left _ hn) hfree).1 hn
  · rintro ⟨hlocked, hfree⟩
    refine ⟨?_, ?_⟩
    · intro l hl hbar
      exact filter_append_eq_iff.mpr (hlocked l hl hbar)
    · intro n hn hn'
      have hne : n ∉ existing := fun h => by
        rw [hfree n h] at hn'
        exact absurd hn' Bool.false_ne_true
      exact ⟨hne, (List.mem_append.mp hn).resolve_left hne⟩

/-- Dropping some of the existing notes and everything generated respects the locks when none
of the dropped ones was in a locked bar, and none of the kept ones is outside the locks. -/
theorem preservesLocks_kept_iff {req : SmartRegenerationRequest}
    {kept dropped generated : List PlacedNote} :
    PreservesLocks bar noteLock req (kept ++ dropped) generated kept
      ↔ NoneLocked bar req dropped ∧ NoneFree bar noteLock req kept := by
  constructor
  · intro h
    refine ⟨?_, ?_⟩
    -- A note that was dropped is missing in its locked bar.
    · intro l hl hbar n hn
      exact filter_append_eq_iff.mp (h.locked l hl hbar).symm n hn
    · intro n hn
      by_contra hfree
      have hfree : isFree bar noteLock req n = true := Bool.eq_true_of_not_eq_false hfree
      exact (h.free n hn hfree).1 (List.mem_append_left _ hn)
  · rintro ⟨hlocked, hfree⟩
    refine ⟨?_, ?_⟩
    · intro l hl hbar
      exact (filter_append_eq_iff.mpr (hlocked l hl hbar)).symm
    · intro n hn hn'
      rw [hfree n hn] at hn'
      exact absurd hn' Bool.false_ne_true

end

/-! ### A run

The merge does not look at the locks of the request. Whether they are respected is thus a question
about what the two files hold. -/

/-- A run of the workflow on a valid request: what it reads before and after the generation,
and what the two files hold. -/
structure RegenerationRun (files : Files) (runMTE : MteCall → Except Bytes Generation)
    (req : SmartRegenerationRequest) (existing generated : Smf.File) where
  /-- The existing file, before and after the generation. -/
  base : Bytes
  /-- The file that was generated. -/
  overlay : Bytes
  generation : Generation
  valid : req.validate = .ok ()
  opens : files req.smfPath = .ok base
  runs : runMTE (req.mteCalls.head (List.cons_ne_nil _ _)) = .ok generation
  keeps : generation.files req.smfPath = .ok base
  makes : generation.files generation.newSMFPath = .ok overlay
  decodesBase : ∃ rest, decode base = some (existing, rest)
  decodesOverlay : ∃ rest, decode overlay = some (generated, rest)

/-- Such a run succeeds, and its output is the merge of the two files. -/
theorem smartRegeneration_eq {files : Files} {runMTE : MteCall → Except Bytes Generation}
    {req : SmartRegenerationRequest} {existing generated : Smf.File} (tmpDir : Bytes)
    (unixNano : UInt64) (elapsedMs : Int64)
    (run : RegenerationRun files runMTE req existing generated) :
    ∃ out rest, smartRegeneration tmpDir files runMTE unixNano elapsedMs req
        = .ok (⟨mergedPath tmpDir req.seed unixNano, req.regionEnd - req.regionStart, elapsedMs⟩,
            out)
      ∧ decode out = some (mergedFile existing generated, rest) := by
  obtain ⟨_, hdecode⟩ := run.decodesBase
  obtain ⟨hdr, tracks, hread, -⟩ := readSMF_of_decode run.opens hdecode
  obtain ⟨out, rest, hmerge, hout⟩ :=
    decode_mergeSMF run.keeps run.makes run.decodesBase run.decodesOverlay
  refine ⟨out, rest, ?_, hout⟩
  rw [smartRegeneration, run.valid, hread, run.runs]
  simp only [Except.mapError, bind, Except.bind, hmerge]

/-- The condition on the two files. A merge of more tracks than the header counts announces
only the first of the existing ones, and drops the others and everything generated. -/
def Preserving (bar : Nat → Int) (noteLock : Lock → PlacedNote → Bool)
    (req : SmartRegenerationRequest) (existing generated : Smf.File) : Prop :=
  if existing.tracks.length + generated.tracks.length ≤ 65535 then
    NoneLocked bar req (notesOf generated.tracks)
      ∧ NoneFree bar noteLock req (notesOf existing.tracks)
  else
    let kept := existing.tracks.length + generated.tracks.length - 65536
    NoneLocked bar req (notesOf (existing.tracks.drop kept))
      ∧ NoneFree bar noteLock req (notesOf (existing.tracks.take kept))

/-- A decoded file has at most as many tracks as 16 bits count. -/
theorem tracks_length_le {bs rest : Bytes} {file : Smf.File} (h : decode bs = some (file, rest)) :
    file.tracks.length ≤ 65535 := by
  obtain ⟨hdr, tracks, hat, -, -, rfl⟩ := decode_inv h
  have hlt := hdr.numTracks.toNat_lt
  rw [contents, List.length_map, ← hat.count]
  omega

/-- The merge of two files respects the locks under exactly this condition. -/
theorem preservesLocks_mergedFile_iff (bar : Nat → Int) (noteLock : Lock → PlacedNote → Bool)
    (req : SmartRegenerationRequest) {existing generated : Smf.File}
    (hexisting : existing.tracks.length ≤ 65535) (hgenerated : generated.tracks.length ≤ 65535) :
    PreservesLocks bar noteLock req (notesOf existing.tracks) (notesOf generated.tracks)
        (notesOf (mergedFile existing generated).tracks)
      ↔ Preserving bar noteLock req existing generated := by
  by_cases hfits : existing.tracks.length + generated.tracks.length ≤ 65535
  · rw [mergedFile, announcedTracks_eq hfits, notesOf_append, preservesLocks_append_iff,
      Preserving, if_pos hfits]
  · -- The count wraps: what is left of it is less than the number of the existing tracks.
    let kept := existing.tracks.length + generated.tracks.length - 65536
    have hkept : (existing.tracks.length + generated.tracks.length) % 65536 = kept := by
      omega
    have hle : kept ≤ existing.tracks.length := by omega
    have htracks : announcedTracks existing generated = existing.tracks.take kept := by
      rw [announcedTracks, hkept, List.take_append_of_le_length hle]
    have hsplit : notesOf existing.tracks
        = notesOf (existing.tracks.take kept) ++ notesOf (existing.tracks.drop kept) := by
      rw [← notesOf_append, List.take_append_drop]
    rw [mergedFile, htracks, hsplit, preservesLocks_kept_iff, Preserving, if_neg hfits]

/-- A regenerated file respects the locks of a valid request exactly when nothing was generated
in a locked bar and nothing existed in the region outside the locks. -/
theorem preservesLocks_iff {files : Files} {runMTE : MteCall → Except Bytes Generation}
    {req : SmartRegenerationRequest} {existing generated : Smf.File} (tmpDir : Bytes)
    (unixNano : UInt64) (elapsedMs : Int64)
    (run : RegenerationRun files runMTE req existing generated) (bar : Nat → Int)
    (noteLock : Lock → PlacedNote → Bool) :
    ∃ response out merged rest,
      smartRegeneration tmpDir files runMTE unixNano elapsedMs req = .ok (response, out)
        ∧ decode out = some (merged, rest)
        ∧ (PreservesLocks bar noteLock req (notesOf existing.tracks) (notesOf generated.tracks)
              (notesOf merged.tracks)
            ↔ Preserving bar noteLock req existing generated) := by
  obtain ⟨out, rest, hrun, hdecode⟩ := smartRegeneration_eq tmpDir unixNano elapsedMs run
  obtain ⟨_, hbase⟩ := run.decodesBase
  obtain ⟨_, hoverlay⟩ := run.decodesOverlay
  exact ⟨_, out, _, rest, hrun, hdecode, preservesLocks_mergedFile_iff bar noteLock req
    (tracks_length_le hbase) (tracks_length_le hoverlay)⟩

/-! ### A locked bar that is written to

The smallest such request has one locked bar, and the generator puts a note there. -/

/-- Regenerate the first two bars, the first of them locked. -/
def lockedBarRequest : SmartRegenerationRequest where
  blueprintJSON := bytes "{}"
  seed := 1
  regionStart := 0
  regionEnd := 2
  locks := [⟨bytes "bar", 0, 1, []⟩]
  smfPath := bytes "base.mid"

/-- The generator writes one note. -/
def oneNoteMTE (_call : MteCall) : Except Bytes Generation := .ok ⟨bytes "new.mid", oneNoteFiles⟩

/-- A run over two files with one note each. -/
def lockedBarRun :
    RegenerationRun oneNoteFiles oneNoteMTE lockedBarRequest (oneNote 96 96) (oneNote 48 48) where
  base := encodeSMF (oneNoteHeader 96) [oneNoteTrack 96]
  overlay := encodeSMF (oneNoteHeader 48) [oneNoteTrack 48]
  generation := ⟨bytes "new.mid", oneNoteFiles⟩
  valid := rfl
  opens := rfl
  runs := rfl
  keeps := rfl
  makes := rfl
  decodesBase := wellFormed_oneNote.1.decodes
  decodesOverlay := wellFormed_oneNote.2.decodes

/-- The run in four-four time at 96 ticks a quarter note, with note locks that cover nothing. -/
theorem preservesLocks_iff_lockedBar :
    ∃ response out merged rest,
      smartRegeneration (bytes "/tmp") oneNoteFiles oneNoteMTE 0 0 lockedBarRequest
          = .ok (response, out)
        ∧ decode out = some (merged, rest)
        ∧ (PreservesLocks (fun tick => tick / 384) (fun _ _ => false) lockedBarRequest
              (notesOf (oneNote 96 96).tracks) (notesOf (oneNote 48 48).tracks)
              (notesOf merged.tracks)
            ↔ Preserving (fun tick => tick / 384) (fun _ _ => false) lockedBarRequest
                (oneNote 96 96) (oneNote 48 48)) :=
  preservesLocks_iff (bytes "/tmp") 0 0 lockedBarRun _ _

/-- The generated note ends up in the locked bar. -/
theorem lockedBar_not_preserved :
    ∃ response out merged rest,
      smartRegeneration (bytes "/tmp") oneNoteFiles oneNoteMTE 0 0 lockedBarRequest
          = .ok (response, out)
        ∧ decode out = some (merged, rest)
        ∧ ¬ PreservesLocks (fun tick => tick / 384) (fun _ _ => false) lockedBarRequest
              (notesOf (oneNote 96 96).tracks) (notesOf (oneNote 48 48).tracks)
              (notesOf merged.tracks) := by
  obtain ⟨out, rest, hrun, hdecode⟩ := smartRegeneration_eq (bytes "/tmp") 0 0 lockedBarRun
  refine ⟨_, out, _, rest, hrun, hdecode, ?_⟩
  intro h
  have hlocked := h.locked ⟨bytes "bar", 0, 1, []⟩ List.mem_cons_self rfl
  exact absurd hlocked (by decide)

end AiMidi.Proofs.Ace
