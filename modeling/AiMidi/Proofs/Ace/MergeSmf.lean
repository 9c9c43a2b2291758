import AiMidi.Proofs.Ace.ReadSmf
import Mathlib.Data.Rat.Cast.Order

/-!
# `AiMidi.Proofs.Ace.MergeSmf`: what a merged file says

`mergeSMF` writes the tracks of both files behind the header of the base
(`mergeSMF_eq`). Read back by `readSMF`, they are the concatenation (`readSMF_mergeSMF`).

For the musical content, both files are read by `Smf.decode`. A file it decodes is one that
`readSMF` splits into the same chunks (`decode_inv`), so the merged file decodes to the
tracks of both under the format and the division of the base (`decode_mergeSMF`). The count
of tracks has 16 bits, and a file with more tracks announces the first few of them.
`quarterNotes_mergeSMF_iff` states when all events keep their place in quarter notes.

Two readers meet here: `readSMF`, which splits a file into chunks, and `Smf.decode`, which reads the
events in them. `contents` is what the second one finds in the chunks of the first. When the merge
has more tracks than a 16-bit count can hold, `announcedTracks` says which of them are left.
-/

set_option autoImplicit false

namespace AiMidi.Proofs.Ace

open AiMidi.Lib
open AiMidi.Ace
open AiMidi.Lib.Smf (beNat decode demand splitBytes readEvents)

/-! ### The merged bytes

The merge takes the header of the base and changes its count. Chunks are copied as they were read,
with the length that their data has. -/

/-- The header of a merge: that of the base, with the count of all tracks. -/
def mergedHeader (h : SmfHeader) (tracks : List SmfTrack) : SmfHeader :=
  { h with numTracks := .ofNat tracks.length }

/-- A whole track is written as it was read. -/
theorem writeTrack_eq {t : SmfTrack} (h : Whole t) : writeTrack t = t.toBytes := by
  obtain ⟨magic, length, data⟩ := t
  obtain ⟨-, hlength⟩ := h
  rw [writeTrack, ← hlength, UInt32.ofNat_toNat]

/-- Tracks whose lengths fit are written with their data. -/
theorem flatMap_writeTrack {ts : List SmfTrack} (h : ∀ t ∈ ts, Whole t) :
    ts.flatMap writeTrack = ts.flatMap SmfTrack.toBytes := by
  induction ts with
  | nil => rfl
  | cons t ts ih =>
    rw [List.flatMap_cons, List.flatMap_cons, writeTrack_eq (h t List.mem_cons_self),
      ih fun u hu => h u (List.mem_cons_of_mem t hu)]

/-- Old and new tracks together are whole when all of them are. -/
theorem whole_append {ts us : List SmfTrack} (ht : ∀ t ∈ ts, Whole t) (hu : ∀ t ∈ us, Whole t) :
    ∀ t ∈ ts ++ us, Whole t := by
  intro t h
  rcases List.mem_append.mp h with h | h
  · exact ht t h
  · exact hu t h

/-- The tracks that `readSMF` returns are the announced ones. -/
theorem announced_of_readSMF {files : Files} {path : Bytes} {h : SmfHeader}
    {tracks : List SmfTrack} (hread : readSMF files path = .ok (h, tracks)) :
    Announced h tracks := by
  rw [readSMF, bind_mapError_ok_iff] at hread
  obtain ⟨file, -, hread⟩ := hread
  exact (readOpened_cases hread).1

/-- The output of a merge of two files that `readSMF` accepts. -/
theorem mergeSMF_eq {files : Files} {basePath overlayPath : Bytes} {hb ho : SmfHeader}
    {bts ots : List SmfTrack} (hbase : readSMF files basePath = .ok (hb, bts))
    (hover : readSMF files overlayPath = .ok (ho, ots)) :
    mergeSMF files basePath overlayPath
      = .ok (encodeSMF (mergedHeader hb (bts ++ ots)) (bts ++ ots)) := by
  have hwhole := whole_append (announced_of_readSMF hbase).whole (announced_of_readSMF hover).whole
  rw [mergeSMF, hbase, hover]
  simp only [Except.mapError, bind, Except.bind, flatMap_writeTrack hwhole]
  rfl

/-- The header of a merge announces all tracks, when they can be counted in 16 bits. -/
theorem announced_merged {hb : SmfHeader} {tracks : List SmfTrack} (hgood : GoodHeader hb)
    (hwhole : ∀ t ∈ tracks, Whole t) (hfits : tracks.length ≤ 65535) :
    Announced (mergedHeader hb tracks) tracks where
  good := ⟨hgood.magic, hgood.hdrLen⟩
  count := UInt16.toNat_ofNat_of_lt' (Nat.lt_of_le_of_lt hfits (by decide))
  whole := hwhole

/-- A merged file is read as the concatenation: the header of the base with the number of all
tracks, and the tracks of both, each as long as it says. -/
theorem readSMF_mergeSMF {files : Files} {basePath overlayPath : Bytes} {hb ho : SmfHeader}
    {bts ots : List SmfTrack} (hbase : readSMF files basePath = .ok (hb, bts))
    (hover : readSMF files overlayPath = .ok (ho, ots)) (hfits : bts.length + ots.length ≤ 65535) :
    ∃ out, mergeSMF files basePath overlayPath = .ok out
      ∧ (∀ (files' : Files) (path : Bytes), files' path = .ok out →
          readSMF files' path
            = .ok ({ hb with numTracks := .ofNat (bts.length + ots.length) }, bts ++ ots))
      ∧ (UInt16.ofNat (bts.length + ots.length)).toNat = bts.length + ots.length
      ∧ ∀ t ∈ bts ++ ots, t.length.toNat = t.data.length := by
  have hab := announced_of_readSMF hbase
  have hwhole := whole_append hab.whole (announced_of_readSMF hover).whole
  have hlength : (bts ++ ots).length = bts.length + ots.length := List.length_append
  have hat := announced_merged hab.good hwhole (by rw [hlength]; exact hfits)
  refine ⟨_, mergeSMF_eq hbase hover, ?_, ?_, fun t ht => (hwhole t ht).length⟩
  -- The merged bytes are those of its header and its chunks, so they are read back as these.
  · intro files' path hopen
    have hread := readOpened_encode hat []
    rw [List.append_nil] at hread
    rw [readSMF_eq hopen, hread, mergedHeader, hlength]
  · rw [← hlength]
    exact hat.count

/-- A header that announces one track. -/
def oneNoteHeader (division : UInt16) : SmfHeader := ⟨mthd, 6, 0, 1, division⟩

/-- A track with a note: it begins after `delta` ticks and is as long. -/
def oneNoteTrack (delta : UInt8) : SmfTrack :=
  ⟨mtrk, 12, [delta, 0x90, 60, 64, delta, 0x80, 60, 0, 0, 0xFF, 0x2F, 0]⟩

/-- A file system where every file has one note, `base.mid` in another resolution. -/
def oneNoteFiles : Files := fun path =>
  if path = bytes "base.mid" then .ok (encodeSMF (oneNoteHeader 96) [oneNoteTrack 96])
  else .ok (encodeSMF (oneNoteHeader 48) [oneNoteTrack 48])

/-- The two files are read back. -/
theorem readSMF_oneNote :
    readSMF oneNoteFiles (bytes "base.mid") = .ok (oneNoteHeader 96, [oneNoteTrack 96])
      ∧ readSMF oneNoteFiles (bytes "new.mid") = .ok (oneNoteHeader 48, [oneNoteTrack 48]) := by
  decide

/-- The merge of the two files is read back. -/
theorem readSMF_mergeSMF_oneNote :
    ∃ out, mergeSMF oneNoteFiles (bytes "base.mid") (bytes "new.mid") = .ok out
      ∧ (∀ (files' : Files) (path : Bytes), files' path = .ok out →
          readSMF files' path = .ok ({ oneNoteHeader 96 with numTracks := .ofNat 2 },
            [oneNoteTrack 96, oneNoteTrack 48]))
      ∧ (UInt16.ofNat 2).toNat = 2
      ∧ ∀ t ∈ [oneNoteTrack 96, oneNoteTrack 48], t.length.toNat = t.data.length :=
  readSMF_mergeSMF readSMF_oneNote.1 readSMF_oneNote.2 (by decide)

/-! ### The events of a chunk

A chunk is whole when its length is that of its data, and readable when the data is a track body.
The format asks for both, and `readSMF` for the first only. -/

/-- The events of a chunk, none when its data is no track body. -/
def events (t : SmfTrack) : List Smf.TrackEvent :=
  (readEvents t.data.length none 0 t.data).getD []

/-- The data of a chunk is a track body. -/
def Readable (t : SmfTrack) : Prop := readEvents t.data.length none 0 t.data = some (events t)

/-- Data that the format reads as events to their end are a readable track. -/
theorem readable_of_readEvents {t : SmfTrack} {es : List Smf.TrackEvent}
    (h : readEvents t.data.length none 0 t.data = some es) : Readable t ∧ events t = es := by
  have hevents : events t = es := by rw [events, h, Option.getD_some]
  exact ⟨by rw [Readable, h, hevents], hevents⟩

/-- A whole chunk with a track body decodes to its events. -/
theorem readTrack_toBytes {t : SmfTrack} (hwhole : Whole t) (hread : Readable t) (rest : Bytes) :
    Smf.readTrack (t.toBytes ++ rest) = some (events t, rest) := by
  have hlen : beNat (beBytes 4 t.length.toNat) = t.data.length := by
    rw [beNat_beBytes_uint32, hwhole.length]
  rw [SmfTrack.toBytes, hwhole.magic]
  exact Smf.readTrack_chunk (length_beBytes _ _) hlen hread rest

/-- What the reader of a chunk consumed is a whole chunk with a track body. -/
theorem readTrack_inv {bs rest : Bytes} {es : List Smf.TrackEvent}
    (h : Smf.readTrack bs = some (es, rest)) :
    ∃ t, Whole t ∧ Readable t ∧ events t = es ∧ bs = t.toBytes ++ rest := by
  simp only [Smf.readTrack, Option.bind_eq_bind, Option.bind_eq_some_iff, Prod.exists,
    Option.some.injEq, Prod.mk.injEq] at h
  obtain ⟨magic, bs1, h1, _, hmagic, len, bs2, h2, body, bs3, h3, es', hes, rfl, rfl⟩ := h
  have hmtrk : magic = bytes "MTrk" := by simpa [demand] using hmagic
  -- The length field is what the reader has followed, so the chunk is whole.
  have hlen := beBytes_toNat_uint32 (Smf.splitBytes_length h2).1
  have hnat : (UInt32.ofNat (beNat len)).toNat = beNat len := by
    rw [← hlen, beNat_beBytes_uint32, UInt32.ofNat_toNat]
  refine ⟨⟨mtrk, .ofNat (beNat len), body⟩, ⟨rfl, ?_⟩, ?_, ?_, ?_⟩
  · rw [hnat, (Smf.splitBytes_length h3).1]
  · exact (readable_of_readEvents hes).1
  · exact (readable_of_readEvents hes).2
  · rw [SmfTrack.toBytes, hlen, Smf.splitBytes_eq h1, Smf.splitBytes_eq h2, Smf.splitBytes_eq h3,
      hmtrk, List.append_assoc, List.append_assoc]
    rfl

/-- What the reader of `n` chunks consumed is `n` such chunks. -/
theorem readTracks_inv {n : Nat} {bs rest : Bytes} {tracks : List (List Smf.TrackEvent)}
    (h : Smf.readTracks n bs = some (tracks, rest)) :
    ∃ ts : List SmfTrack, ts.length = n ∧ (∀ t ∈ ts, Whole t ∧ Readable t) ∧ ts.map events = tracks
      ∧ bs = ts.flatMap SmfTrack.toBytes ++ rest := by
  induction n generalizing bs tracks with
  | zero =>
    simp only [Smf.readTracks, Option.some.injEq, Prod.mk.injEq] at h
    obtain ⟨rfl, rfl⟩ := h
    exact ⟨[], rfl, by simp, rfl, rfl⟩
  | succ n ih =>
    simp only [Smf.readTracks, Option.bind_eq_bind, Option.bind_eq_some_iff, Prod.exists,
      Option.some.injEq, Prod.mk.injEq] at h
    obtain ⟨es, bs', hes, tracks', _, htracks, rfl, rfl⟩ := h
    obtain ⟨t, hwhole, hread, rfl, rfl⟩ := readTrack_inv hes
    obtain ⟨ts, rfl, hts, rfl, rfl⟩ := ih htracks
    refine ⟨t :: ts, rfl, ?_, rfl, ?_⟩
    -- Whole and readable are both properties of each chunk.
    · intro u hu
      rcases List.mem_cons.mp hu with rfl | hu
      · exact ⟨hwhole, hread⟩
      · exact hts u hu
    · rw [List.flatMap_cons, List.append_assoc]

/-! ### The content of a file

Decoding a file and splitting it are two ways to read the same bytes. Behind the header both take as
many chunks as it announces. -/

/-- The file that a header and its chunks hold. -/
def contents (h : SmfHeader) (tracks : List SmfTrack) : Smf.File :=
  ⟨h.format.toNat, h.division.toNat, tracks.map events⟩

/-- Behind a header, as many chunks are read as it announces. -/
theorem decode_header {h : SmfHeader} (hgood : GoodHeader h) (body : Bytes) :
    decode (h.toBytes ++ body)
      = (Smf.readTracks h.numTracks.toNat body).bind fun p =>
          some (⟨h.format.toNat, h.division.toNat, p.1⟩, p.2) := by
  have hsix : beBytes 4 (6 : UInt32).toNat = [0, 0, 0, 6] := by decide
  have hhdr : h.toBytes ++ body = bytes "MThd" ++ [0, 0, 0, 6] ++ beBytes 2 h.format.toNat
      ++ beBytes 2 h.numTracks.toNat ++ beBytes 2 h.division.toNat ++ body := by
    rw [SmfHeader.toBytes, hgood.magic, hgood.hdrLen, hsix]
  rw [hhdr, Smf.decode_header_eq (length_beBytes _ _) (length_beBytes _ _) (length_beBytes _ _),
    beNat_beBytes_uint16, beNat_beBytes_uint16, beNat_beBytes_uint16]

/-- The chunks that a header announces decode to its contents, whatever stands behind them. -/
theorem decode_encode {h : SmfHeader} {tracks : List SmfTrack} (hat : Announced h tracks)
    (hread : ∀ t ∈ tracks, Readable t) (rest : Bytes) :
    decode (encodeSMF h tracks ++ rest) = some (contents h tracks, rest) := by
  have htracks := Smf.readTracks_flatMap
    (fun t ht rest => readTrack_toBytes (hat.whole t ht) (hread t ht) rest) rest
  rw [encodeSMF, List.append_assoc, decode_header hat.good, hat.count, htracks]
  rfl

/-- A file that decodes is a header with the chunks it announces. -/
theorem decode_inv {bs rest : Bytes} {file : Smf.File} (h : decode bs = some (file, rest)) :
    ∃ hdr tracks, Announced hdr tracks ∧ (∀ t ∈ tracks, Readable t)
      ∧ bs = encodeSMF hdr tracks ++ rest ∧ file = contents hdr tracks := by
  -- The reader is a chain of demands on the first fourteen bytes, and then the tracks.
  simp only [decode, Option.bind_eq_bind, Option.bind_eq_some_iff, Prod.exists,
    Option.some.injEq, Prod.mk.injEq] at h
  obtain ⟨magic, bs1, h1, _, hmagic, len, bs2, h2, _, hlen, format, bs3, h3, ntrks, bs4, h4,
    division, bs5, h5, tracks, bs6, h6, rfl, rfl⟩ := h
  have hmthd : magic = bytes "MThd" := by simpa [demand] using hmagic
  have hsix : beNat len = 6 := by simpa [demand] using hlen
  have hlength : beBytes 4 (6 : UInt32).toNat = len := by
    rw [← beBytes_beNat len, (Smf.splitBytes_length h2).1, hsix]
    rfl
  have hformat := beBytes_toNat_uint16 (Smf.splitBytes_length h3).1
  have hntrks := beBytes_toNat_uint16 (Smf.splitBytes_length h4).1
  have hdivision := beBytes_toNat_uint16 (Smf.splitBytes_length h5).1
  have hnat {field : Bytes} (hf : field.length = 2) :
      (UInt16.ofNat (beNat field)).toNat = beNat field := by
    rw [← beBytes_toNat_uint16 hf, beNat_beBytes_uint16, UInt16.ofNat_toNat]
  obtain ⟨ts, hcount, hts, rfl, hbody⟩ := readTracks_inv h6
  -- The header of the bytes, with its fields as the Go struct keeps them.
  let hdr : SmfHeader := ⟨mthd, 6, .ofNat (beNat format), .ofNat (beNat ntrks),
    .ofNat (beNat division)⟩
  refine ⟨hdr, ts, ⟨⟨rfl, rfl⟩, ?_, fun t ht => (hts t ht).1⟩, fun t ht => (hts t ht).2, ?_, ?_⟩
  · rw [hcount, hnat (Smf.splitBytes_length h4).1]
  · rw [Smf.splitBytes_eq h1, Smf.splitBytes_eq h2, Smf.splitBytes_eq h3, Smf.splitBytes_eq h4,
      Smf.splitBytes_eq h5, hbody, hmthd]
    simp only [hdr, encodeSMF, SmfHeader.toBytes, mthd_val, hlength, hformat, hntrks, hdivision,
      List.append_assoc]
  · rw [contents, hnat (Smf.splitBytes_length h3).1, hnat (Smf.splitBytes_length h5).1]

/-! ### The content of a merge

Since the chunks are untouched their events are. The header decides how many of them are announced
and in what division their ticks are read. -/

/-- A file that decodes is read by `readSMF`, as the header and the chunks it holds. -/
theorem readSMF_of_decode {files : Files} {path bs rest : Bytes} {file : Smf.File}
    (hopen : files path = .ok bs) (h : decode bs = some (file, rest)) :
    ∃ hdr tracks, readSMF files path = .ok (hdr, tracks) ∧ Announced hdr tracks
      ∧ (∀ t ∈ tracks, Readable t) ∧ file = contents hdr tracks := by
  obtain ⟨hdr, tracks, hat, hread, rfl, hfile⟩ := decode_inv h
  exact ⟨hdr, tracks, by rw [readSMF_eq hopen, readOpened_encode hat], hat, hread, hfile⟩

/-- The tracks that a merge of two files announces. The count has 16 bits. -/
def announcedTracks (base overlay : Smf.File) : List (List Smf.TrackEvent) :=
  (base.tracks ++ overlay.tracks).take ((base.tracks.length + overlay.tracks.length) % 65536)

/-- The file that a merge makes of two files. -/
def mergedFile (base overlay : Smf.File) : Smf.File :=
  ⟨base.format, base.division, announcedTracks base overlay⟩

/-- With few enough tracks, all of them are announced. -/
theorem announcedTracks_eq {base overlay : Smf.File}
    (h : base.tracks.length + overlay.tracks.length ≤ 65535) :
    announcedTracks base overlay = base.tracks ++ overlay.tracks := by
  rw [announcedTracks, Nat.mod_eq_of_lt (Nat.lt_of_le_of_lt h (by decide)),
    List.take_of_length_le (by rw [List.length_append])]

/-- The merge of two files decodes to the tracks of both, under the format and the division of
the base. -/
theorem decode_mergeSMF {files : Files} {basePath overlayPath base overlay : Bytes}
    {fb fo : Smf.File} (hbase : files basePath = .ok base)
    (hover : files overlayPath = .ok overlay) (hfb : ∃ rest, decode base = some (fb, rest))
    (hfo : ∃ rest, decode overlay = some (fo, rest)) :
    ∃ out rest, mergeSMF files basePath overlayPath = .ok out
      ∧ decode out = some (mergedFile fb fo, rest) := by
  obtain ⟨_, hfb⟩ := hfb
  obtain ⟨_, hfo⟩ := hfo
  obtain ⟨hb, bts, hreadb, hatb, hb', rfl⟩ := readSMF_of_decode hbase hfb
  obtain ⟨ho, ots, hreado, hato, ho', rfl⟩ := readSMF_of_decode hover hfo
  -- The header announces the first `k` of the chunks.
  let k := (bts ++ ots).length % 65536
  have hle : k ≤ (bts ++ ots).length := Nat.mod_le _ _
  have hwhole := whole_append hatb.whole hato.whole
  have hat : Announced (mergedHeader hb (bts ++ ots)) ((bts ++ ots).take k) :=
    ⟨⟨hatb.good.magic, hatb.good.hdrLen⟩, (List.length_take_of_le hle).symm,
      fun t ht => hwhole t (List.mem_of_mem_take ht)⟩
  have hread : ∀ t ∈ (bts ++ ots).take k, Readable t := by
    intro t ht
    rcases List.mem_append.mp (List.mem_of_mem_take ht) with ht | ht
    · exact hb' t ht
    · exact ho' t ht
  have hsplit : encodeSMF (mergedHeader hb (bts ++ ots)) (bts ++ ots)
      = encodeSMF (mergedHeader hb (bts ++ ots)) ((bts ++ ots).take k)
        ++ ((bts ++ ots).drop k).flatMap SmfTrack.toBytes := by
    rw [encodeSMF, encodeSMF, List.append_assoc, ← List.flatMap_append, List.take_append_drop]
  refine ⟨_, ((bts ++ ots).drop k).flatMap SmfTrack.toBytes, mergeSMF_eq hreadb hreado, ?_⟩
  rw [hsplit, decode_encode hat hread]
  simp only [contents, mergedFile, announcedTracks, mergedHeader, List.map_take, List.map_append,
    List.length_map, k, List.length_append]

/-! ### Musical time

A tick is a fraction of a quarter note, and the division is its denominator. Events at tick zero are
at the start in any division. -/

/-- A well-formed file: it decodes, and a quarter note has ticks. -/
structure WellFormed (bs : Bytes) (file : Smf.File) : Prop where
  decodes : ∃ rest, decode bs = some (file, rest)
  division : 0 < file.division

/-- The events of each track, with their positions in quarter notes. -/
def quarterNotes (file : Smf.File) : List (List (Smf.Event × ℚ)) :=
  file.tracks.map fun track => track.map fun e => (e.event, (e.tick : ℚ) / file.division)

/-- A tick is the same number of quarter notes in two resolutions only if they agree or if it
is the first one. -/
theorem tick_div_eq_iff {tick d d' : Nat} (hd : 0 < d) (hd' : 0 < d') :
    (tick : ℚ) / d = (tick : ℚ) / d' ↔ d = d' ∨ tick = 0 := by
  have h0 : (d : ℚ) ≠ 0 := Nat.cast_ne_zero.mpr (Nat.ne_of_gt hd)
  have h0' : (d' : ℚ) ≠ 0 := Nat.cast_ne_zero.mpr (Nat.ne_of_gt hd')
  rw [div_eq_div_iff h0 h0', ← Nat.cast_mul, ← Nat.cast_mul, Nat.cast_inj, mul_eq_mul_left_iff,
    eq_comm]

/-- The events of some tracks keep their positions in another resolution, if it is the same or
if all of them are at the start. -/
theorem map_div_eq_iff {tracks : List (List Smf.TrackEvent)} {d d' : Nat} (hd : 0 < d)
    (hd' : 0 < d') :
    (tracks.map fun track => track.map fun e => (e.event, (e.tick : ℚ) / d))
        = (tracks.map fun track => track.map fun e => (e.event, (e.tick : ℚ) / d'))
      ↔ d = d' ∨ ∀ track ∈ tracks, ∀ e ∈ track, e.tick = 0 := by
  simp only [List.map_inj_left, Prod.mk.injEq, true_and, tick_div_eq_iff hd hd']
  constructor
  · intro h
    by_cases heq : d = d'
    · exact Or.inl heq
    · exact Or.inr fun track ht e he => (h track ht e he).resolve_left heq
  · rintro (heq | hzero) track ht e he
    · exact Or.inl heq
    · exact Or.inr (hzero track ht e he)

/-- In the merge of two well-formed files all events of both are at the positions they had, in
quarter notes, exactly when the header can count the tracks and the files have one resolution,
or the overlay has nothing behind its first tick. -/
theorem quarterNotes_mergeSMF_iff {files : Files} {basePath overlayPath base overlay : Bytes}
    {fb fo : Smf.File} (hbase : files basePath = .ok base)
    (hover : files overlayPath = .ok overlay) (hfb : WellFormed base fb)
    (hfo : WellFormed overlay fo) :
    ∃ out merged rest, mergeSMF files basePath overlayPath = .ok out
      ∧ decode out = some (merged, rest)
      ∧ (quarterNotes merged = quarterNotes fb ++ quarterNotes fo
          ↔ fb.tracks.length + fo.tracks.length ≤ 65535
            ∧ (fb.division = fo.division ∨ ∀ track ∈ fo.tracks, ∀ e ∈ track, e.tick = 0)) := by
  obtain ⟨out, rest, hmerge, hdecode⟩ := decode_mergeSMF hbase hover hfb.decodes hfo.decodes
  refine ⟨out, _, rest, hmerge, hdecode, ?_⟩
  by_cases hfits : fb.tracks.length + fo.tracks.length ≤ 65535
  · -- All tracks are announced, so those of the base are as before.
    rw [quarterNotes, mergedFile, announcedTracks_eq hfits, List.map_append, quarterNotes,
      quarterNotes, List.append_cancel_left_eq, map_div_eq_iff hfb.division hfo.division]
    exact (and_iff_right hfits).symm
  · constructor
    · intro heq
      -- Fewer tracks are announced than there were.
      have hlen := congrArg List.length heq
      simp only [quarterNotes, mergedFile, announcedTracks, List.length_map, List.length_append,
        List.length_take] at hlen
      omega
    · intro h
      exact absurd h.1 hfits

/-- What a file with one note says. -/
def oneNote (division delta : Nat) : Smf.File :=
  ⟨0, division, [[⟨delta, .noteOn 0 60 64⟩, ⟨2 * delta, .noteOff 0 60 0⟩, ⟨2 * delta, Smf.eot⟩]]⟩

/-- Both are files of the format. -/
theorem wellFormed_oneNote :
    WellFormed (encodeSMF (oneNoteHeader 96) [oneNoteTrack 96]) (oneNote 96 96)
      ∧ WellFormed (encodeSMF (oneNoteHeader 48) [oneNoteTrack 48]) (oneNote 48 48) :=
  ⟨⟨⟨[], by decide⟩, by decide⟩, ⟨⟨[], by decide⟩, by decide⟩⟩

/-- Two files of one note each, in two resolutions. -/
theorem quarterNotes_mergeSMF_iff_oneNote :
    ∃ out merged rest, mergeSMF oneNoteFiles (bytes "base.mid") (bytes "new.mid") = .ok out
      ∧ decode out = some (merged, rest)
      ∧ (quarterNotes merged = quarterNotes (oneNote 96 96) ++ quarterNotes (oneNote 48 48)
          ↔ (oneNote 96 96).tracks.length + (oneNote 48 48).tracks.length ≤ 65535
            ∧ ((oneNote 96 96).division = (oneNote 48 48).division
              ∨ ∀ track ∈ (oneNote 48 48).tracks, ∀ e ∈ track, e.tick = 0)) :=
  quarterNotes_mergeSMF_iff rfl rfl wellFormed_oneNote.1 wellFormed_oneNote.2

/-- The note of the overlay moves: in both files it is a quarter note in, in the merge an
eighth. -/
theorem quarterNotes_oneNote_moved :
    WellFormed (encodeSMF (oneNoteHeader 96) [oneNoteTrack 96]) (oneNote 96 96)
      ∧ WellFormed (encodeSMF (oneNoteHeader 48) [oneNoteTrack 48]) (oneNote 48 48)
      ∧ ∃ out merged rest, mergeSMF oneNoteFiles (bytes "base.mid") (bytes "new.mid") = .ok out
        ∧ decode out = some (merged, rest)
        ∧ quarterNotes merged ≠ quarterNotes (oneNote 96 96) ++ quarterNotes (oneNote 48 48) := by
  refine ⟨wellFormed_oneNote.1, wellFormed_oneNote.2, ?_⟩
  obtain ⟨out, rest, hmerge, hdecode⟩ := @decode_mergeSMF oneNoteFiles (bytes "base.mid")
    (bytes "new.mid") _ _ _ _ rfl rfl wellFormed_oneNote.1.decodes wellFormed_oneNote.2.decodes
  refine ⟨out, _, rest, hmerge, hdecode, ?_⟩
  intro heq
  rw [quarterNotes, mergedFile, announcedTracks_eq (by decide), List.map_append, quarterNotes,
    quarterNotes, List.append_cancel_left_eq, map_div_eq_iff (by decide) (by decide)] at heq
  exact absurd heq (by decide)

end AiMidi.Proofs.Ace
