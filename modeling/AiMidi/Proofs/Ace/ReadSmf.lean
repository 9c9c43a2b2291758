import AiMidi.Ace.WorkflowManager

/-!
# `AiMidi.Proofs.Ace.ReadSmf`: what `readSMF` accepts

`readSMF` accepts a file that begins with a header and the chunks it announces
(`readOpened_encode`), and a file cut within the data of the last of them
(`readOpened_cut`): the data is read with a single call, which may come back short, and
nothing behind it shows that the file has ended. It accepts no other file
(`readOpened_cases`). `readSMF_complete_iff` states when an accepted file is complete, and when
a truncated one is rejected.

At each level there are two forward rules, for what is whole and for what is cut, and one inversion
that says from which bytes a result was read (`readTrack_cases`, `readTracks_cases`,
`readOpened_cases`). The inversion for the tracks is an induction on their number: once a chunk is
cut, nothing is left for another one.
-/

set_option autoImplicit false

namespace AiMidi.Proofs.Ace

open AiMidi.Lib
open AiMidi.Ace
open AiMidi.Lib.Smf (beNat)

/-! ### Headers and chunks

A header has six bytes behind its length, and a chunk its magic and its length. The fields are
big-endian, and their bytes are those of the numbers. -/

/-- A header that `readSMF` goes on from. -/
structure GoodHeader (h : SmfHeader) : Prop where
  magic : h.magic.val = bytes "MThd"
  hdrLen : h.hdrLen = 6

/-- A track chunk with its magic, whose length field is the length of its data. -/
structure Whole (t : SmfTrack) : Prop where
  magic : t.magic.val = bytes "MTrk"
  length : t.length.toNat = t.data.length

/-- The header takes fourteen bytes. -/
@[simp] theorem header_length_toBytes (h : SmfHeader) : h.toBytes.length = 14 := by
  simp [SmfHeader.toBytes, h.magic.property]

/-- The fields of the bytes of a header. -/
theorem header_ofBytes_toBytes (h : SmfHeader) (hlen : h.toBytes.length = 14) :
    SmfHeader.ofBytes ⟨h.toBytes, hlen⟩ = h := by
  obtain ⟨⟨magic, hmagic⟩, hdrLen, format, numTracks, division⟩ := h
  simp only [SmfHeader.toBytes, SmfHeader.ofBytes]
  congr 1 <;>
    simp [List.drop_append, List.take_of_length_le, List.drop_of_length_le,
      hmagic, beNat_beBytes_uint16, beNat_beBytes_uint32]

/-- The bytes of the header that fourteen bytes hold. -/
theorem header_toBytes_ofBytes (bs : FixedBytes 14) : (SmfHeader.ofBytes bs).toBytes = bs.val := by
  obtain ⟨bs, hbs⟩ := bs
  have hfield (i n : Nat) (hn : i + n ≤ 14) : ((bs.drop i).take n).length = n := by
    rw [List.length_take, List.length_drop]
    omega
  simp only [SmfHeader.toBytes, SmfHeader.ofBytes, beBytes_toNat_uint32 (hfield 4 4 (by decide)),
    beBytes_toNat_uint16 (hfield 8 2 (by decide)), beBytes_toNat_uint16 (hfield 10 2 (by decide)),
    beBytes_toNat_uint16 (hfield 12 2 (by decide))]
  -- The fields stand behind one another, and the last one ends the header.
  have hend : bs.drop 14 = [] := List.drop_of_length_le (Nat.le_of_eq hbs)
  have hjoin (i n : Nat) : bs.take i ++ (bs.drop i).take n = bs.take (i + n) :=
    List.take_add.symm
  rw [hjoin, hjoin, hjoin, hjoin, List.take_of_length_le (Nat.le_of_eq hbs)]

/-! ### One track

The data of a chunk is read by one call, which returns what there is. A chunk that is cut within its
data is therefore read as a whole one with zeros at its end. -/

/-- The magic of a header and of a track chunk. -/
def mthd : FixedBytes 4 := ⟨bytes "MThd", rfl⟩

/-- The magic of a track. -/
def mtrk : FixedBytes 4 := ⟨bytes "MTrk", rfl⟩

/-- The bytes that a file begins with. -/
@[simp] theorem mthd_val : mthd.val = bytes "MThd" := rfl

/-- The bytes that a track begins with. -/
@[simp] theorem mtrk_val : mtrk.val = bytes "MTrk" := rfl

/-- The start of a chunk whose data is cut within. -/
def cutTrack (length : UInt32) (part : Bytes) : Bytes :=
  bytes "MTrk" ++ beBytes 4 length.toNat ++ part

/-- The track that such a chunk is read as: the missing data is zero. -/
def paddedTrack (length : UInt32) (part : Bytes) : SmfTrack where
  magic := mtrk
  length := length
  data := part ++ List.replicate (length.toNat - part.length) 0

/-- What is left of the data of a chunk of this length: some of it, and not all. -/
structure Cut (length : UInt32) (part : Bytes) : Prop where
  ne : part ≠ []
  lt : part.length < length.toNat

/-- A chunk is read up to the data by its two fixed-size fields. -/
theorem readTrack_fields (i : Nat) (length : UInt32) (tail : Bytes) :
    readTrack i (bytes "MTrk" ++ beBytes 4 length.toNat ++ tail)
      = ((fileRead length.toNat tail).mapError (.trackData i)).bind fun p =>
          .ok (⟨mtrk, length, p.1⟩, p.2) := by
  have hmagic : readFull 4 (bytes "MTrk" ++ (beBytes 4 length.toNat ++ tail))
      = .ok (mtrk, beBytes 4 length.toNat ++ tail) := readFull_ok_iff.mpr rfl
  have hlength : readFull 4 (beBytes 4 length.toNat ++ tail)
      = .ok (⟨beBytes 4 length.toNat, length_beBytes _ _⟩, tail) := readFull_ok_iff.mpr rfl
  rw [List.append_assoc, readTrack, hmagic]
  simp only [Except.mapError, bind, Except.bind, mtrk_val, ne_eq, not_true_eq_false, if_false,
    hlength, beNat_beBytes_uint32, UInt32.ofNat_toNat]

/-- A whole track is read back, whatever follows it. -/
theorem readTrack_append (i : Nat) {t : SmfTrack} (h : Whole t) (rest : Bytes) :
    readTrack i (t.toBytes ++ rest) = .ok (t, rest) := by
  obtain ⟨⟨magic, hmagic⟩, length, data⟩ := t
  obtain ⟨rfl, hlength⟩ := h
  rw [SmfTrack.toBytes, List.append_assoc, readTrack_fields, hlength, fileRead_append]
  rfl

/-- A chunk cut within its data is read as if the rest of it were zero. -/
theorem readTrack_cut (i : Nat) {length : UInt32} {part : Bytes} (h : Cut length part) :
    readTrack i (cutTrack length part) = .ok (paddedTrack length part, []) := by
  rw [cutTrack, readTrack_fields, fileRead_short h.ne h.lt]
  rfl

/-- What a track was read from: its bytes, or a chunk that the end of the file cut. -/
theorem readTrack_cases {i : Nat} {file rest : Bytes} {t : SmfTrack}
    (h : readTrack i file = .ok (t, rest)) :
    Whole t ∧ (file = t.toBytes ++ rest
      ∨ rest = [] ∧ ∃ length part, Cut length part ∧ file = cutTrack length part) := by
  -- Magic, length and data are three reads, and each splits the file where it stops.
  rw [readTrack, bind_mapError_ok_iff] at h
  obtain ⟨⟨magic, tail⟩, hmagic, h⟩ := h
  have hfile := readFull_ok_iff.mp hmagic
  dsimp only at h
  split at h
  case isTrue => cases h
  case isFalse hmtrk =>
    rw [bind_mapError_ok_iff] at h
    obtain ⟨⟨length, tail'⟩, hlength, h⟩ := h
    have htail := readFull_ok_iff.mp hlength
    rw [bind_mapError_ok_iff] at h
    obtain ⟨⟨data, rest'⟩, hdata, h⟩ := h
    cases h
    dsimp only at hdata ⊢
    obtain ⟨hlen, hcases⟩ := fileRead_cases hdata
    have hmtrk : magic.val = bytes "MTrk" := Decidable.not_not.mp hmtrk
    have hfield := beBytes_toNat_uint32 length.property
    have hnat : (UInt32.ofNat (beNat length.val)).toNat = beNat length.val := by
      rw [← hfield, beNat_beBytes_uint32, UInt32.ofNat_toNat]
    refine ⟨⟨hmtrk, by rw [hnat, hlen]⟩, ?_⟩
    -- The data is all there, or the file ends inside it and the rest is empty.
    rcases hcases with hall | ⟨hne, hlt, hrest⟩
    · left
      rw [hfile, htail, hall, SmfTrack.toBytes, hfield, List.append_assoc, List.append_assoc]
    · right
      refine ⟨hrest, .ofNat (beNat length.val), tail', ⟨hne, by rw [hnat]; exact hlt⟩, ?_⟩
      rw [hfile, htail, cutTrack, hfield, hmtrk, List.append_assoc]

/-! ### All tracks

The chunks are read until the announced number is reached. Behind a cut chunk the file is empty, so
a cut can be in the last chunk only. -/

/-- Whole tracks are read one after the other, and the count goes on behind them. -/
theorem readTracks_append (i n : Nat) {pre : List SmfTrack} (h : ∀ t ∈ pre, Whole t)
    (tail : Bytes) :
    readTracks i (pre.length + n) (pre.flatMap SmfTrack.toBytes ++ tail)
      = (readTracks (i + pre.length) n tail).map fun p => (pre ++ p.1, p.2) := by
  induction pre generalizing i with
  | nil =>
    simp only [List.length_nil, Nat.zero_add, List.flatMap_nil, List.nil_append, Nat.add_zero]
    cases readTracks i n tail <;> rfl
  | cons t pre ih =>
    have ht := readTrack_append i (h t List.mem_cons_self) (pre.flatMap SmfTrack.toBytes ++ tail)
    have hpre := ih (i + 1) fun u hu => h u (List.mem_cons_of_mem t hu)
    -- The first track counts for the index of those behind it.
    have hcount : (t :: pre).length + n = (pre.length + n) + 1 := by
      rw [List.length_cons]
      omega
    have hindex : i + 1 + pre.length = i + (t :: pre).length := by
      rw [List.length_cons]
      omega
    rw [List.flatMap_cons, List.append_assoc, hcount, readTracks, ht, ← hindex]
    simp only [bind, Except.bind, hpre]
    cases readTracks (i + 1 + pre.length) n tail <;> rfl

/-- The end of the file has no track. -/
theorem readTracks_nil {i n : Nat} {ts : List SmfTrack} {rest : Bytes}
    (h : readTracks i n [] = .ok (ts, rest)) : n = 0 ∧ ts = [] := by
  cases n with
  | zero =>
    cases h
    exact ⟨rfl, rfl⟩
  | succ n =>
    have heof : readTrack i [] = .error (.trackMagic i .eof) := rfl
    rw [readTracks, heof] at h
    cases h

/-- The first of several tracks is read from the head of the file. -/
theorem readTracks_succ {i n : Nat} {file rest : Bytes} {ts : List SmfTrack}
    (h : readTracks i (n + 1) file = .ok (ts, rest)) :
    ∃ t ts' file', readTrack i file = .ok (t, file')
      ∧ readTracks (i + 1) n file' = .ok (ts', rest) ∧ ts = t :: ts' := by
  rw [readTracks] at h
  -- An error in the first track or behind it is an error of the whole.
  cases ht : readTrack i file with
  | error err =>
    rw [ht] at h
    cases h
  | ok p =>
    simp only [ht, bind, Except.bind] at h
    cases hts : readTracks (i + 1) n p.2 with
    | error err =>
      rw [hts] at h
      cases h
    | ok q =>
      rw [hts] at h
      cases h
      exact ⟨p.1, q.1, p.2, rfl, hts, rfl⟩

/-- What `n` tracks were read from: their bytes, or the last chunk was cut. -/
theorem readTracks_cases {i n : Nat} {file rest : Bytes} {ts : List SmfTrack}
    (h : readTracks i n file = .ok (ts, rest)) :
    ts.length = n ∧ (∀ t ∈ ts, Whole t) ∧ (file = ts.flatMap SmfTrack.toBytes ++ rest
      ∨ ∃ (pre : List SmfTrack) (length : UInt32) (part : Bytes), n = pre.length + 1
          ∧ (∀ t ∈ pre, Whole t) ∧ Cut length part
          ∧ file = pre.flatMap SmfTrack.toBytes ++ cutTrack length part) := by
  induction n generalizing i file ts with
  | zero =>
    cases h
    exact ⟨rfl, by simp, Or.inl rfl⟩
  | succ n ih =>
    obtain ⟨t, ts', file', ht, hts, rfl⟩ := readTracks_succ h
    obtain ⟨hcount, hwhole, hcases⟩ := ih hts
    obtain ⟨hfirst, hfile⟩ := readTrack_cases ht
    refine ⟨by rw [List.length_cons, hcount], List.forall_mem_cons.mpr ⟨hfirst, hwhole⟩, ?_⟩
    rcases hfile with hfile | ⟨rfl, length, part, hcut, hfile⟩
    · -- The first chunk is there, so a cut is in one of those behind it.
      rcases hcases with hcases | ⟨pre, length, part, hn, hpre, hcut, hcases⟩
      · left
        rw [hfile, hcases, List.flatMap_cons, List.append_assoc]
      · right
        refine ⟨t :: pre, length, part, by rw [hn, List.length_cons],
          List.forall_mem_cons.mpr ⟨hfirst, hpre⟩, hcut, ?_⟩
        rw [hfile, hcases, List.flatMap_cons, List.append_assoc]
    · -- The first chunk is cut, so it was the last one due.
      right
      obtain ⟨rfl, rfl⟩ := readTracks_nil hts
      exact ⟨[], length, part, rfl, by simp, hcut, by simpa using hfile⟩

/-! ### A file

A file is put together from a header and its chunks. Bytes behind the announced chunks are never
read, so they may be anything. -/

/-- The header and the chunks, as they stand at the head of a file. -/
def encodeSMF (h : SmfHeader) (tracks : List SmfTrack) : Bytes :=
  h.toBytes ++ tracks.flatMap SmfTrack.toBytes

/-- The header announces these tracks, and all of them are whole. -/
structure Announced (h : SmfHeader) (tracks : List SmfTrack) : Prop where
  good : GoodHeader h
  count : h.numTracks.toNat = tracks.length
  whole : ∀ t ∈ tracks, Whole t

/-- The file begins with the header and with the chunks it announces, each as long as it
declares and with the data of its track. -/
structure Complete (file : Bytes) (h : SmfHeader) (tracks : List SmfTrack) : Prop
    extends Announced h tracks where
  begins : encodeSMF h tracks <+: file

/-- The file ends within the data of the last chunk that its header announces, behind the
first byte of this data. -/
def CutInLastData (file : Bytes) : Prop :=
  ∃ (h : SmfHeader) (pre : List SmfTrack) (length : UInt32) (part : Bytes),
    GoodHeader h ∧ h.numTracks.toNat = pre.length + 1 ∧ (∀ t ∈ pre, Whole t) ∧ Cut length part
      ∧ file = encodeSMF h pre ++ cutTrack length part

/-- Behind a header, the tracks it announces are read. -/
theorem readOpened_header {h : SmfHeader} (hh : GoodHeader h) (tail : Bytes) :
    readOpened (h.toBytes ++ tail)
      = (readTracks 0 h.numTracks.toNat tail).map fun p => (h, p.1) := by
  have hread : readFull 14 (h.toBytes ++ tail) = .ok (⟨h.toBytes, header_length_toBytes h⟩, tail) :=
    readFull_ok_iff.mpr rfl
  rw [readOpened, hread]
  simp only [Except.mapError, bind, Except.bind, header_ofBytes_toBytes h, hh.magic, hh.hdrLen,
    ne_eq, not_true_eq_false, if_false]
  cases readTracks 0 h.numTracks.toNat tail <;> rfl

/-- A complete file is read as its header and its tracks. -/
theorem readOpened_encode {h : SmfHeader} {tracks : List SmfTrack} (hat : Announced h tracks)
    (rest : Bytes) : readOpened (encodeSMF h tracks ++ rest) = .ok (h, tracks) := by
  have htracks := readTracks_append 0 0 hat.whole rest
  rw [encodeSMF, List.append_assoc, readOpened_header hat.good, hat.count]
  rw [Nat.add_zero] at htracks
  rw [htracks]
  simp [readTracks, Except.map]

/-- A complete file is read back. -/
theorem Complete.readOpened {file : Bytes} {h : SmfHeader} {tracks : List SmfTrack}
    (hc : Complete file h tracks) : readOpened file = .ok (h, tracks) := by
  obtain ⟨rest, rfl⟩ := hc.begins
  exact readOpened_encode hc.toAnnounced rest

/-- A file cut within its last chunk is accepted, and its last track padded. -/
theorem readOpened_cut {h : SmfHeader} {pre : List SmfTrack} {length : UInt32} {part : Bytes}
    (hh : GoodHeader h) (hcount : h.numTracks.toNat = pre.length + 1) (hpre : ∀ t ∈ pre, Whole t)
    (hcut : Cut length part) :
    readOpened (encodeSMF h pre ++ cutTrack length part)
      = .ok (h, pre ++ [paddedTrack length part]) := by
  have htracks := readTracks_append 0 1 hpre (cutTrack length part)
  have hlast : readTracks (0 + pre.length) 1 (cutTrack length part)
      = .ok ([paddedTrack length part], []) := by
    rw [readTracks, readTrack_cut _ hcut]
    rfl
  rw [encodeSMF, List.append_assoc, readOpened_header hh, hcount, htracks, hlast]
  rfl

/-- What `readSMF` accepts: a complete file, or one cut within the data of its last chunk. In
either case it returns whole tracks, as many as the header says. -/
theorem readOpened_cases {file : Bytes} {h : SmfHeader} {tracks : List SmfTrack}
    (hread : readOpened file = .ok (h, tracks)) :
    Announced h tracks ∧ (encodeSMF h tracks <+: file ∨ CutInLastData file) := by
  rw [AiMidi.Ace.readOpened, bind_mapError_ok_iff] at hread
  obtain ⟨⟨bs, tail⟩, hhdr, hread⟩ := hread
  have hfile := readFull_ok_iff.mp hhdr
  dsimp only at hread
  split at hread
  case isTrue => cases hread
  case isFalse hmagic =>
    split at hread
    case isTrue => cases hread
    case isFalse hlen =>
      -- A good header, then as many chunks as it announces.
      cases hts : readTracks 0 (SmfHeader.ofBytes bs).numTracks.toNat tail with
      | error err =>
        rw [hts] at hread
        cases hread
      | ok p =>
        obtain ⟨ts, rest⟩ := p
        rw [hts] at hread
        cases hread
        obtain ⟨hcount, hwhole, hcases⟩ := readTracks_cases hts
        have hgood : GoodHeader (SmfHeader.ofBytes bs) :=
          ⟨Decidable.not_not.mp hmagic, Decidable.not_not.mp hlen⟩
        refine ⟨⟨hgood, hcount.symm, hwhole⟩, ?_⟩
        rw [hfile, ← header_toBytes_ofBytes bs]
        -- The chunks are all there, or the last one is cut.
        rcases hcases with htail | ⟨pre, length, part, hn, hpre, hcut, htail⟩
        · left
          rw [htail, encodeSMF, ← List.append_assoc]
          exact List.prefix_append _ rest
        · right
          refine ⟨_, pre, length, part, hgood, hn, hpre, hcut, ?_⟩
          rw [htail, encodeSMF, List.append_assoc]

/-- Behind the opening `readSMF` reads the file. -/
theorem readSMF_eq {files : Files} {path file : Bytes} (hopen : files path = .ok file) :
    readSMF files path = readOpened file := by
  rw [readSMF, hopen]
  rfl

/-! ### Complete files

The two kinds of accepted files exclude each other: a complete one has all bytes of its chunks, and
a cut one is shorter than that. -/

/-- A cut file is shorter than the bytes its padded tracks would take. -/
theorem not_complete_cut {h : SmfHeader} {pre : List SmfTrack} {length : UInt32} {part : Bytes}
    (hcut : Cut length part) :
    ¬ Complete (encodeSMF h pre ++ cutTrack length part) h (pre ++ [paddedTrack length part]) := by
  intro hc
  have hle := hc.begins.length_le
  have hlt := hcut.lt
  simp only [encodeSMF, List.flatMap_append, List.flatMap_singleton, SmfTrack.toBytes, cutTrack,
    paddedTrack, mtrk_val, List.length_append, length_beBytes, List.length_replicate] at hle
  omega

/-- Whatever `readSMF` makes of a file, the file holds it, unless it is cut in its last chunk. -/
theorem readOpened_complete {file : Bytes} {h : SmfHeader} {tracks : List SmfTrack}
    (hcut : ¬ CutInLastData file) (hread : readOpened file = .ok (h, tracks)) :
    Complete file h tracks := by
  obtain ⟨hat, hbegins | hcut'⟩ := readOpened_cases hread
  · exact ⟨hat, hbegins⟩
  · exact absurd hcut' hcut

/-- A file that ends before its announced chunks do has no reading as a complete file. -/
theorem Complete.not_of_prefix {full file : Bytes} {h h' : SmfHeader}
    {tracks tracks' : List SmfTrack} (hfull : Complete full h tracks) (hpre : file <+: full)
    (hlt : file.length < (encodeSMF h tracks).length) : ¬ Complete file h' tracks' := by
  intro hc
  -- What the shorter file begins with, the longer one begins with too.
  have hc' : Complete full h' tracks' := ⟨hc.toAnnounced, hc.begins.trans hpre⟩
  have heq := hfull.readOpened.symm.trans hc'.readOpened
  cases heq
  exact absurd hc.begins.length_le (Nat.not_le_of_lt hlt)

/-- What `readSMF` accepts is complete, and what is left of a complete file that was cut before
the end of its chunks is rejected, exactly when the file is not cut within the data of its last
chunk. -/
theorem readSMF_complete_iff {files : Files} {path file : Bytes} (hopen : files path = .ok file) :
    ((∀ h tracks, readSMF files path = .ok (h, tracks) → Complete file h tracks)
        ↔ ¬ CutInLastData file)
      ∧ ∀ full h tracks, Complete full h tracks → file <+: full →
          file.length < (encodeSMF h tracks).length →
          ((∃ err, readSMF files path = .error err) ↔ ¬ CutInLastData file) := by
  rw [readSMF_eq hopen]
  constructor
  · constructor
    -- A cut file is read without an error, and what is read is not complete.
    · intro hall hcutin
      obtain ⟨h, pre, length, part, hh, hcount, hpre, hcut, rfl⟩ := hcutin
      exact not_complete_cut hcut (hall _ _ (readOpened_cut hh hcount hpre hcut))
    · intro hcut h tracks hread
      exact readOpened_complete hcut hread
  · intro full h tracks hfull hprefix hlt
    constructor
    · intro herr hcutin
      obtain ⟨err, herr⟩ := herr
      obtain ⟨h, pre, length, part, hh, hcount, hpre, hcut, rfl⟩ := hcutin
      rw [readOpened_cut hh hcount hpre hcut] at herr
      cases herr
    · intro hcut
      cases hread : readOpened file with
      | error err => exact ⟨err, rfl⟩
      | ok p => exact absurd (readOpened_complete hcut hread) (hfull.not_of_prefix hprefix hlt)

/-- A file with one track of four data bytes, all but the first of them cut off. -/
def cutFile : Bytes :=
  bytes "MThd" ++ [0, 0, 0, 6, 0, 0, 0, 1, 1, 0xE0] ++ bytes "MTrk" ++ [0, 0, 0, 4, 0]

/-- The header of the cut file. -/
def cutFileHeader : SmfHeader := ⟨mthd, 6, 0, 1, 480⟩

/-- The whole file is complete, and `readSMF` accepts the cut one, which is not. -/
theorem readSMF_cutFile :
    Complete (cutFile ++ [0xFF, 0x2F, 0]) cutFileHeader [⟨mtrk, 4, [0, 0xFF, 0x2F, 0]⟩]
      ∧ readSMF (fun _ => .ok cutFile) [] = .ok (cutFileHeader, [⟨mtrk, 4, [0, 0, 0, 0]⟩])
      ∧ ¬ Complete cutFile cutFileHeader [⟨mtrk, 4, [0, 0, 0, 0]⟩] := by
  refine ⟨⟨⟨⟨rfl, rfl⟩, rfl, ?_⟩, ?_⟩, by decide, ?_⟩
  · intro t ht
    rw [List.mem_singleton.mp ht]
    exact ⟨rfl, rfl⟩
  · exact ⟨[], by decide⟩
  · intro hc
    exact absurd hc.begins.length_le (by decide)

/-- The cut file is one such file, so that the condition fails for it. -/
theorem readSMF_complete_iff_cutFile :
    ((∀ h tracks, readSMF (fun _ => .ok cutFile) [] = .ok (h, tracks) → Complete cutFile h tracks)
        ↔ ¬ CutInLastData cutFile)
      ∧ ∀ full h tracks, Complete full h tracks → cutFile <+: full →
          cutFile.length < (encodeSMF h tracks).length →
          ((∃ err, readSMF (fun _ => .ok cutFile) [] = .error err) ↔ ¬ CutInLastData cutFile) :=
  readSMF_complete_iff rfl

end AiMidi.Proofs.Ace
