import AiMidi.Lib.Transition
import AiMidi.Proofs.Ace.SmartRegeneration
import AiMidi.Proofs.PianoRoll

/-!
# `AiMidi.Proofs.Ace.RegeneratedPieces`: a piece that is regenerated again and again

The generator renders a piece, `SmartRegeneration` merges one more rendered piece into the file at
every call, and the piano roll shows the notes of the file. The three agree on the format: after any
number of regenerations the file holds the tracks of all pieces, in the order in which they were
rendered, and the piano roll shows what it would show of each of them (`regenerated_run`). So no
regeneration removes a note of an earlier one. This holds for pieces that fit the file format
(`Renderable`), and as long as the chunks of all of them can be counted in 16 bits.

The invariant of a run is what its file decodes to: the chunks of all pieces so far (`decode_run`).
One step is a theorem about `mergeSMF`, and the piano roll shows the chunks one by one, so that
nothing needs to be known of their contents.
-/

set_option autoImplicit false

namespace AiMidi.Proofs.Ace

open AiMidi.Lib AiMidi.Lib.System
open AiMidi.Ace AiMidi.Theory AiMidi.Plugin
open AiMidi.Lib.Smf (decode TrackEvent)
open AiMidi.Proofs.MidiRenderer (FitsLength tempoChunk trackChunk decode_render_tracks tickDeltas
  wireSort twoNotes roundTripInput_twoNotes fitsLength_twoNotes)
open AiMidi.Proofs.PianoRoll (intMin smfReader)

section

variable (std : StdSort wireEventLt)

/-! ### One regeneration

A call succeeds when the generator has left a file and the two files could be merged. The condition
on the generator is that it renders the piece and leaves the old file alone. -/

/-- A regeneration, and the piece that its generator renders. -/
structure Regeneration where
  req : SmartRegenerationRequest
  piece : SmfComposition

/-- The generator leaves the existing file alone, and writes the piece to a new one. -/
def Renders (s : Bytes) (a : Regeneration) (runMTE : MteCall → Except Bytes Generation) : Prop :=
  ∀ call generation, runMTE call = .ok generation →
    generation.files a.req.smfPath = .ok s ∧
      generation.files generation.newSMFPath = .ok (render std a.piece)

/-- The file of a piece, under any successful regenerations. -/
def regenerations (piece : SmfComposition) : System Bytes Regeneration where
  init s := s = render std piece
  step s a s' := ∃ tmpDir files runMTE unixNano elapsedMs response, Renders std s a runMTE ∧
    smartRegeneration tmpDir files runMTE unixNano elapsedMs a.req = .ok (response, s')

/-- A piece that the renderer can write: its tracks can be counted, its names, velocities and
distances between ticks fit their fields, and so does the length of each track. -/
structure Renderable (piece : SmfComposition) : Prop where
  tracks_le : piece.tracks.length ≤ 65534
  name_le : ∀ track ∈ piece.tracks, track.name.length ≤ 127
  velocity_le : ∀ track ∈ piece.tracks, ∀ ev ∈ track.events, ev.velocity ≤ 127
  delta_lt : ∀ track ∈ piece.tracks, ∀ d ∈ tickDeltas 0 (wireOrder std track), d < 2 ^ 28
  fits : FitsLength std piece

/-- The chunks of a rendered piece. -/
def chunksOf (piece : SmfComposition) : List (List TrackEvent) :=
  tempoChunk piece :: piece.tracks.map (trackChunk std)

/-- The bytes of a rendered piece are decoded to its chunks. -/
theorem Renderable.decode {piece : SmfComposition} (h : Renderable std piece) :
    decode (render std piece) = some (⟨1, (u16cast piece.ppq).toNat, chunksOf std piece⟩, []) :=
  decode_render_tracks std piece h.tracks_le h.name_le h.velocity_le h.delta_lt h.fits

/-- A successful call returns what `mergeSMF` makes of the two files. -/
theorem mergeSMF_of_smartRegeneration {tmpDir : Bytes} {files : Files}
    {runMTE : MteCall → Except Bytes Generation} {unixNano : UInt64} {elapsedMs : Int64}
    {req : SmartRegenerationRequest} {response : SmartRegenerationResponse} {out : Bytes}
    (h : smartRegeneration tmpDir files runMTE unixNano elapsedMs req = .ok (response, out)) :
    ∃ call generation, runMTE call = .ok generation ∧
      mergeSMF generation.files req.smfPath generation.newSMFPath = .ok out := by
  -- Every step that fails ends the call, so only the last case returns bytes.
  unfold smartRegeneration at h
  cases hvalid : req.validate with
  | error text =>
    rw [hvalid] at h
    exact nomatch h
  | ok =>
    cases hread : readSMF files req.smfPath with
    | error err =>
      rw [hvalid, hread] at h
      exact nomatch h
    | ok file =>
      cases hruns : runMTE (req.mteCalls.head (List.cons_ne_nil _ _)) with
      | error cause =>
        rw [hvalid, hread, hruns] at h
        exact nomatch h
      | ok generation =>
        refine ⟨_, generation, hruns, ?_⟩
        cases hmerge : mergeSMF generation.files req.smfPath generation.newSMFPath with
        | error err =>
          rw [hvalid, hread, hruns] at h
          simp only [Except.mapError, bind, Except.bind, hmerge] at h
          exact nomatch h
        | ok merged =>
          rw [hvalid, hread, hruns] at h
          simp only [Except.mapError, bind, Except.bind, hmerge] at h
          exact congrArg Except.ok (Prod.mk.inj (Except.ok.inj h)).2

/-- A step appends the chunks of its piece, as long as they can be counted. -/
theorem decode_step {s s' rest : Bytes} {a : Regeneration} {piece : SmfComposition}
    {file : Smf.File} (hstep : (regenerations std piece).step s a s')
    (ha : Renderable std a.piece) (hdecode : decode s = some (file, rest))
    (hcount : file.tracks.length + (chunksOf std a.piece).length ≤ 65535) :
    ∃ rest', decode s' = some (⟨file.format, file.division, file.tracks ++ chunksOf std a.piece⟩,
      rest') := by
  obtain ⟨_, _, runMTE, _, _, _, hrenders, hcall⟩ := hstep
  obtain ⟨call, generation, hruns, hmerge⟩ := mergeSMF_of_smartRegeneration hcall
  obtain ⟨hkeeps, hmakes⟩ := hrenders call generation hruns
  obtain ⟨out, rest', hout, hmerged⟩ :=
    decode_mergeSMF hkeeps hmakes ⟨rest, hdecode⟩ ⟨[], ha.decode⟩
  obtain rfl : s' = out := Except.ok.inj (hmerge.symm.trans hout)
  refine ⟨rest', ?_⟩
  rw [hmerged, mergedFile, announcedTracks_eq hcount]

/-! ### Runs

The tracks of the pieces pile up in the file. None is ever removed or moved, as a merge writes the
old chunks in front of the new ones. -/

/-- The pieces of a run, in the order in which they were rendered. -/
def pieces (piece : SmfComposition) : List (Regeneration × Bytes) → List SmfComposition
  | []             => [piece]
  | (a, _) :: past => pieces piece past ++ [a.piece]

/-- The chunks of some pieces. -/
def allChunks (ps : List SmfComposition) : List (List TrackEvent) := ps.flatMap (chunksOf std)

/-- So are those of all pieces together, behind any number of regenerations. -/
theorem decode_run {piece : SmfComposition} {past : List (Regeneration × Bytes)} {s : Bytes}
    (h : Run (regenerations std piece) past s) (hpieces : ∀ p ∈ pieces piece past, Renderable std p)
    (hcount : (allChunks std (pieces piece past)).length ≤ 65535) :
    ∃ rest, decode s
      = some (⟨1, (u16cast piece.ppq).toNat, allChunks std (pieces piece past)⟩, rest) := by
  induction h with
  | start hs =>
    obtain rfl := hs
    refine ⟨[], (hpieces piece List.mem_cons_self).decode.trans ?_⟩
    rw [allChunks, pieces, List.flatMap_singleton]
  | @snoc past s s' a hrun hstep ih =>
    -- The new piece comes behind all others, so the bounds for them follow from those for all.
    have hsplit : allChunks std (pieces piece ((a, s') :: past))
        = allChunks std (pieces piece past) ++ chunksOf std a.piece := by
      rw [allChunks, pieces, List.flatMap_append, List.flatMap_singleton]
      rfl
    rw [hsplit, List.length_append] at hcount
    have hbefore : ∀ p ∈ pieces piece past, Renderable std p :=
      fun p hp => hpieces p (List.mem_append_left _ hp)
    obtain ⟨rest, hdecode⟩ := ih hbefore (Nat.le_trans (Nat.le_add_right _ _) hcount)
    have ha := hpieces a.piece (List.mem_append_right _ List.mem_cons_self)
    rw [hsplit]
    exact decode_step std hstep ha hdecode hcount

/-- The piano roll of a file that decodes. -/
theorem parse_of_decode {midiFile : MidiFileReader}
    (hreads : ∀ bs, (decode bs).isSome → midiFile bs = smfReader bs) (beyond : BeyondInt)
    (ppq : Int) {bs rest : Bytes} {file : Smf.File} (h : decode bs = some (file, rest)) :
    PianoRoll.parseSmfToNotes beyond midiFile bs ppq = file.tracks.flatMap fun track =>
      PianoRoll.notesOf beyond ppq (PianoRoll.nameOf track) track := by
  have hread : midiFile bs = some file.tracks := by
    rw [hreads bs (by rw [h]; rfl), smfReader, h]
    rfl
  rw [PianoRoll.parseSmfToNotes, hread]

/-- After any number of regenerations the file decodes to the chunks of all pieces, under the format
and the division of the first one, and the piano roll shows the notes of all pieces. -/
theorem regenerated_run {piece : SmfComposition} {past : List (Regeneration × Bytes)} {s : Bytes}
    (h : Run (regenerations std piece) past s) (hpieces : ∀ p ∈ pieces piece past, Renderable std p)
    (hcount : (allChunks std (pieces piece past)).length ≤ 65535) {midiFile : MidiFileReader}
    (hreads : ∀ bs, (decode bs).isSome → midiFile bs = smfReader bs) (beyond : BeyondInt)
    (ppq : Int) :
    (∃ rest, decode s
        = some (⟨1, (u16cast piece.ppq).toNat, allChunks std (pieces piece past)⟩, rest))
      ∧ PianoRoll.parseSmfToNotes beyond midiFile s ppq
        = (pieces piece past).flatMap fun p =>
            PianoRoll.parseSmfToNotes beyond midiFile (render std p) ppq := by
  obtain ⟨rest, hdecode⟩ := decode_run std h hpieces hcount
  refine ⟨⟨rest, hdecode⟩, ?_⟩
  rw [parse_of_decode hreads beyond ppq hdecode, allChunks, List.flatMap_assoc]
  exact List.flatMap_congr fun p hp =>
    (parse_of_decode hreads beyond ppq (hpieces p hp).decode).symm

end

/-! ### A piece of two notes

The file of the first piece is rendered once more by the call. The result is computed on the pieces,
without running the reader on the bytes. -/

/-- A file system where every file holds the two notes. -/
def twoNotesFiles : Files := fun _ => .ok (render wireSort twoNotes)

/-- A run of `mte_cli` that always leaves this file. -/
def twoNotesMTE (_call : MteCall) : Except Bytes Generation := .ok ⟨bytes "new.mid", twoNotesFiles⟩

/-- The two notes meet what rendering asks for. -/
theorem renderable_twoNotes : Renderable wireSort twoNotes where
  tracks_le := roundTripInput_twoNotes.tracks_le
  name_le := roundTripInput_twoNotes.name_le
  velocity_le := roundTripInput_twoNotes.velocity_le
  delta_lt := roundTripInput_twoNotes.delta_lt
  fits := fitsLength_twoNotes

/-- The request names a file and a region. -/
theorem lockedBarRequest_valid : lockedBarRequest.validate = .ok () := rfl

/-- And its one call is answered with the file. -/
theorem twoNotesMTE_runs : twoNotesMTE (lockedBarRequest.mteCalls.head (List.cons_ne_nil _ _))
    = .ok ⟨bytes "new.mid", twoNotesFiles⟩ := rfl

/-- The two notes are generated again. -/
def twoNotesAgain : RegenerationRun twoNotesFiles twoNotesMTE lockedBarRequest
    ⟨1, (u16cast twoNotes.ppq).toNat, chunksOf wireSort twoNotes⟩
    ⟨1, (u16cast twoNotes.ppq).toNat, chunksOf wireSort twoNotes⟩ where
  base := render wireSort twoNotes
  overlay := render wireSort twoNotes
  generation := ⟨bytes "new.mid", twoNotesFiles⟩
  valid := lockedBarRequest_valid
  opens := rfl
  runs := twoNotesMTE_runs
  keeps := rfl
  makes := rfl
  decodesBase := ⟨[], renderable_twoNotes.decode⟩
  decodesOverlay := ⟨[], renderable_twoNotes.decode⟩

/-- Behind one regeneration the roll shows the two notes twice. -/
theorem regenerated_run_twoNotes : ∃ past s, Run (regenerations wireSort twoNotes) past s ∧
    PianoRoll.parseSmfToNotes intMin smfReader s 480
      = PianoRoll.parseSmfToNotes intMin smfReader (render wireSort twoNotes) 480
        ++ PianoRoll.parseSmfToNotes intMin smfReader (render wireSort twoNotes) 480 := by
  -- One regeneration of the locked bar, by an engine that renders the same two notes.
  obtain ⟨out, -, hcall, -⟩ := smartRegeneration_eq (bytes "/tmp") 0 0 twoNotesAgain
  have hstart : Run (regenerations wireSort twoNotes) [] _ := .start rfl
  have hrenders : Renders wireSort (render wireSort twoNotes) ⟨lockedBarRequest, twoNotes⟩
      twoNotesMTE := by
    intro call generation hruns
    obtain rfl := Except.ok.inj hruns
    exact ⟨rfl, rfl⟩
  have hstep : (regenerations wireSort twoNotes).step (render wireSort twoNotes)
      ⟨lockedBarRequest, twoNotes⟩ out :=
    ⟨bytes "/tmp", twoNotesFiles, twoNotesMTE, 0, 0, _, hrenders, hcall⟩
  have hrun := hstart.snoc hstep
  refine ⟨_, out, hrun, ?_⟩
  have hpieces : ∀ p ∈ [twoNotes, twoNotes], Renderable wireSort p := by
    simp only [List.forall_mem_cons, renderable_twoNotes, true_and]
    exact fun p hp => absurd hp List.not_mem_nil
  have hcount : (allChunks wireSort [twoNotes, twoNotes]).length ≤ 65535 := by decide
  have hroll := (regenerated_run wireSort hrun hpieces hcount (fun _ _ => rfl) intMin 480).2
  refine hroll.trans ?_
  show List.flatMap _ [twoNotes, twoNotes] = _
  rw [List.flatMap_cons, List.flatMap_singleton]

end AiMidi.Proofs.Ace
