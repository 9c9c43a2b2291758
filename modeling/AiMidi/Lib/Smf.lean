import AiMidi.Lib.Vlq

/-!
# `AiMidi.Lib.Smf`: a reader for Standard MIDI Files

`decode` reads an MThd chunk and then the number of MTrk chunks that the header announces.
It returns the file and the bytes it did not consume. A track is read event by event: a
variable-length delta time of at most four bytes, then a meta event, a system exclusive
event or a channel message, with running status for channel messages. Meta and system
exclusive events cancel the running status. The data bytes of a channel message must be
below `0x80`. The End of Track meta event must be the last event of its chunk, and the chunk
must end with it.

Ticks are absolute and unbounded: the sum of the deltas up to the event.

The rules for what was written are stated for any bytes behind the part that is read, so they are
applied one after the other without cutting the text. A track body ends with the End of Track and
with nothing behind it, which is why `readEvents_eot` is the only rule that ends one.
-/

set_option autoImplicit false

namespace AiMidi.Lib.Smf

/-- One event of a track. `voice` stands for the channel messages other than note on and
note off. -/
inductive Event where
  | noteOff (channel key velocity : UInt8)
  | noteOn (channel key velocity : UInt8)
  | voice (status : UInt8) (data : Bytes)
  | sysex (status : UInt8) (data : Bytes)
  | metaEvent (type : UInt8) (data : Bytes)
  deriving DecidableEq, Repr

/-- An event at its absolute tick. -/
structure TrackEvent where
  tick : Nat
  event : Event
  deriving DecidableEq, Repr

/-- A decoded file. -/
structure File where
  format : Nat
  division : Nat
  tracks : List (List TrackEvent)
  deriving DecidableEq, Repr

/-- The End of Track meta event. -/
def eot : Event := .metaEvent 0x2F []

/-- The Sequence/Track Name meta event. -/
def trackName (name : Bytes) : Event := .metaEvent 0x03 name

/-! ### The reader

The reader follows the format and nothing else. It takes quantities of at most four bytes, and the
status byte of a message may be missing when the running status stands for it. -/

/-- What the format demands of the bytes read so far. -/
def demand (ok : Bool) : Option Unit := if ok then some () else none

/-- A demand that is met goes on. -/
@[simp] theorem demand_true : demand true = some () := rfl

/-- The value of a big-endian field. -/
def beNat (bs : Bytes) : Nat := bs.foldl (fun acc b => acc * 256 + b.toNat) 0

/-- The first `n` bytes and the rest. -/
def splitBytes (n : Nat) (bs : Bytes) : Option (Bytes × Bytes) :=
  if n ≤ bs.length then some (bs.take n, bs.drop n) else none

/-- A variable-length quantity of at most `n` bytes, on top of the groups read so far. -/
def readVlqGroups : Nat → Nat → Bytes → Option (Nat × Bytes)
  | 0,     _,   _       => none
  | _ + 1, _,   []      => none
  | n + 1, acc, b :: bs =>
      -- The top bit of a group says that another one follows.
      if b < 0x80 then some (acc * 128 + b.toNat, bs)
      else readVlqGroups n (acc * 128 + (b.toNat - 128)) bs

/-- A variable-length quantity. The format allows four bytes. -/
def readVlq (bs : Bytes) : Option (Nat × Bytes) := readVlqGroups 4 0 bs

/-- A length-prefixed block. -/
def readBlock (bs : Bytes) : Option (Bytes × Bytes) := do
  let (len, rest) ← readVlq bs
  splitBytes len rest

/-- The data bytes of a channel message with status byte `status`. -/
def readVoice (status : UInt8) (bs : Bytes) : Option (Event × Bytes) := do
  let kind := status &&& 0xF0
  -- Program change and channel pressure carry one data byte, the others two.
  let (data, rest) ← splitBytes (if kind = 0xC0 ∨ kind = 0xD0 then 1 else 2) bs
  demand (data.all fun d => d < 0x80)
  match kind, data with
  | 0x80, [key, velocity] => some (.noteOff (status &&& 0x0F) key velocity, rest)
  | 0x90, [key, velocity] => some (.noteOn (status &&& 0x0F) key velocity, rest)
  | _,    data            => some (.voice status data, rest)

/-- One event, with the running status before and after it. -/
def readEvent (running : Option UInt8) : Bytes → Option (Event × Option UInt8 × Bytes)
  | []      => none
  | b :: bs =>
      if b = 0xFF then
        match bs with
        | []            => none
        | type :: bs => do
            let (data, rest) ← readBlock bs
            demand (type < 0x80)
            some (.metaEvent type data, none, rest)
      else if b = 0xF0 ∨ b = 0xF7 then do
        let (data, rest) ← readBlock bs
        some (.sysex b data, none, rest)
      -- System common and real-time messages do not occur in files.
      else if 0xF0 < b then none
      else if 0x80 ≤ b then do
        let (event, rest) ← readVoice b bs
        some (event, some b, rest)
      else do
        -- A data byte where a status is due: the running status, or an error when it was cancelled.
        let status ← running
        let (event, rest) ← readVoice status (b :: bs)
        some (event, some status, rest)

/-- The events of a track body. Every event takes at least one byte, so the length of the
body is fuel enough. -/
def readEvents : Nat → Option UInt8 → Nat → Bytes → Option (List TrackEvent)
  | 0,     _,       _,    _  => none
  | n + 1, running, tick, bs => do
      let (delta, bs) ← readVlq bs
      let (event, running, bs) ← readEvent running bs
      let here : TrackEvent := ⟨tick + delta, event⟩
      if event = eot then
        -- Nothing may stand behind the End of Track event in its chunk.
        if bs = [] then some [here] else none
      else
        let rest ← readEvents n running (tick + delta) bs
        some (here :: rest)

/-- One MTrk chunk. -/
def readTrack (bs : Bytes) : Option (List TrackEvent × Bytes) := do
  let (magic, bs) ← splitBytes 4 bs
  demand (magic = bytes "MTrk")
  let (len, bs) ← splitBytes 4 bs
  let (body, rest) ← splitBytes (beNat len) bs
  let events ← readEvents body.length none 0 body
  some (events, rest)

/-- `n` MTrk chunks. -/
def readTracks : Nat → Bytes → Option (List (List TrackEvent) × Bytes)
  | 0,     bs => some ([], bs)
  | n + 1, bs => do
      let (track, bs) ← readTrack bs
      let (tracks, bs) ← readTracks n bs
      some (track :: tracks, bs)

/-- A Standard MIDI File at the head of `bs`, and the bytes behind it. -/
def decode (bs : Bytes) : Option (File × Bytes) := do
  let (magic, bs) ← splitBytes 4 bs
  demand (magic = bytes "MThd")
  let (len, bs) ← splitBytes 4 bs
  demand (beNat len = 6)
  let (format, bs) ← splitBytes 2 bs
  let (ntrks, bs) ← splitBytes 2 bs
  let (division, bs) ← splitBytes 2 bs
  let (tracks, bs) ← readTracks (beNat ntrks) bs
  some (⟨beNat format, beNat division, tracks⟩, bs)

/-! ### Reading what was written

One rule per reader function: what it returns on bytes of the shape it expects, followed by
an arbitrary rest. -/

/-- What stands in front is split off again. -/
theorem splitBytes_append (xs rest : Bytes) :
    splitBytes xs.length (xs ++ rest) = some (xs, rest) := by
  simp [splitBytes]

/-- The same for a length that is only known to be equal. -/
theorem splitBytes_of_length {n : Nat} {xs : Bytes} (h : xs.length = n) (rest : Bytes) :
    splitBytes n (xs ++ rest) = some (xs, rest) := by
  rw [← h, splitBytes_append]

/-- A quantity of at most `n` bytes is a quantity that takes at most `n` bytes. -/
theorem readVlqGroups_iff {n acc value : Nat} {bs rest : Bytes} :
    readVlqGroups n acc bs = some (value, rest) ↔
      Vlq.decodeFrom acc bs = some (value, rest) ∧ bs.length ≤ n + rest.length := by
  induction n generalizing acc bs with
  | zero =>
    refine iff_of_false (by simp [readVlqGroups]) ?_
    rintro ⟨hdecode, hlength⟩
    obtain ⟨k, hk, htaken, -⟩ := Vlq.decodeFrom_bound hdecode
    omega
  | succ n ih =>
    cases bs with
    | nil => simp [readVlqGroups, Vlq.decodeFrom]
    | cons b bs =>
      rw [readVlqGroups, Vlq.decodeFrom, List.length_cons]
      split
      -- The last group is the first byte of at least one.
      case isTrue =>
        refine ⟨fun h => ⟨h, ?_⟩, fun h => h.1⟩
        obtain ⟨-, rfl⟩ := Prod.mk.inj (Option.some.inj h)
        omega
      case isFalse =>
        rw [ih]
        refine and_congr_right fun _ => ?_
        omega

/-- A single byte below `0x80` is a variable-length quantity. -/
theorem readVlq_single {b : UInt8} (h : b < 0x80) (rest : Bytes) :
    readVlq (b :: rest) = some (b.toNat, rest) := by
  simp [readVlq, readVlqGroups, h]

/-- A meta event whose data is shorter than 128 bytes. It cancels the running status. -/
theorem readEvent_meta (running : Option UInt8) {type len : UInt8} {data : Bytes}
    (htype : type < 0x80) (hlen : len < 0x80) (hdata : data.length = len.toNat)
    (rest : Bytes) :
    readEvent running (0xFF :: type :: len :: (data ++ rest))
      = some (.metaEvent type data, none, rest) := by
  simp [readEvent, readBlock, readVlq_single hlen, splitBytes_of_length hdata, htype]

/-- A note off with two data bytes is read with the channel of its status. -/
theorem readVoice_noteOff {status key velocity : UInt8} (hkind : status &&& 0xF0 = 0x80)
    (hkey : key < 0x80) (hvel : velocity < 0x80) (rest : Bytes) :
    readVoice status (key :: velocity :: rest)
      = some (.noteOff (status &&& 0x0F) key velocity, rest) := by
  simp [readVoice, hkind, splitBytes, hkey, hvel]

/-- A note on likewise. -/
theorem readVoice_noteOn {status key velocity : UInt8} (hkind : status &&& 0xF0 = 0x90)
    (hkey : key < 0x80) (hvel : velocity < 0x80) (rest : Bytes) :
    readVoice status (key :: velocity :: rest)
      = some (.noteOn (status &&& 0x0F) key velocity, rest) := by
  simp [readVoice, hkind, splitBytes, hkey, hvel]

/-- A channel message with its status byte. The status byte becomes the running status. -/
theorem readEvent_status (running : Option UInt8) {status : UInt8} {bs rest : Bytes}
    {event : Event} (h0 : 0x80 ≤ status) (h1 : status < 0xF0)
    (h : readVoice status bs = some (event, rest)) :
    readEvent running (status :: bs) = some (event, some status, rest) := by
  -- A status below `0xF0` passes the meta, system exclusive and system tests of `readEvent`.
  have hff : status ≠ 0xFF := by rintro rfl; exact absurd h1 (by decide)
  have hf0 : status ≠ 0xF0 := by rintro rfl; exact absurd h1 (by decide)
  have hf7 : status ≠ 0xF7 := by rintro rfl; exact absurd h1 (by decide)
  have hle : ¬ 0xF0 < status := fun hlt => UInt8.lt_irrefl _ (UInt8.lt_trans h1 hlt)
  simp [readEvent, hff, hf0, hf7, hle, h0, h]

/-- A channel message without a status byte takes the running status. -/
theorem readEvent_running {status b : UInt8} {bs rest : Bytes} {event : Event}
    (hb : b < 0x80) (h : readVoice status (b :: bs) = some (event, rest)) :
    readEvent (some status) (b :: bs) = some (event, some status, rest) := by
  -- A byte below `0x80` fails every test of `readEvent`, so the last branch is taken.
  have hff : b ≠ 0xFF := by rintro rfl; exact absurd hb (by decide)
  have hf0 : b ≠ 0xF0 := by rintro rfl; exact absurd hb (by decide)
  have hf7 : b ≠ 0xF7 := by rintro rfl; exact absurd hb (by decide)
  have hle : ¬ 0xF0 < b := fun hlt =>
    absurd (UInt8.lt_trans hlt hb) (by decide)
  have hnot : ¬ 0x80 ≤ b := UInt8.not_le.mpr hb
  simp [readEvent, hff, hf0, hf7, hle, hnot, h]

/-- The End of Track meta event closes a track body. -/
theorem readEvents_eot {n tick delta : Nat} {running running' : Option UInt8}
    {bs bs' : Bytes} (hdelta : readVlq bs = some (delta, bs'))
    (hevent : readEvent running bs' = some (eot, running', [])) :
    readEvents (n + 1) running tick bs = some [⟨tick + delta, eot⟩] := by
  simp [readEvents, hdelta, hevent]

/-- One event in front of a track body that reads well. -/
theorem readEvents_cons {n tick delta : Nat} {running running' : Option UInt8}
    {bs bs' bs'' : Bytes} {event : Event} {events : List TrackEvent}
    (hdelta : readVlq bs = some (delta, bs'))
    (hevent : readEvent running bs' = some (event, running', bs'')) (hne : event ≠ eot)
    (hrest : readEvents n running' (tick + delta) bs'' = some events) :
    readEvents (n + 1) running tick bs = some (⟨tick + delta, event⟩ :: events) := by
  simp [readEvents, hdelta, hevent, hne, hrest]

/-- A chunk with a correct length field. -/
theorem readTrack_chunk {len body : Bytes} {events : List TrackEvent}
    (hlen : len.length = 4) (hbody : beNat len = body.length)
    (hevents : readEvents body.length none 0 body = some events) (rest : Bytes) :
    readTrack (bytes "MTrk" ++ len ++ body ++ rest) = some (events, rest) := by
  have hmagic : (bytes "MTrk").length = 4 := rfl
  simp only [readTrack, List.append_assoc, splitBytes_of_length hmagic, hbody,
    splitBytes_of_length hlen, splitBytes_append, Option.bind_eq_bind, Option.bind_some,
    hevents, decide_true, demand_true]

/-- A sequence of chunks, each readable whatever follows it. -/
theorem readTracks_flatMap {α : Type} {chunk : α → Bytes} {events : α → List TrackEvent}
    {xs : List α} (h : ∀ x ∈ xs, ∀ rest, readTrack (chunk x ++ rest) = some (events x, rest))
    (rest : Bytes) :
    readTracks xs.length (xs.flatMap chunk ++ rest) = some (xs.map events, rest) := by
  induction xs with
  | nil => rfl
  | cons x xs ih =>
    -- The chunks behind the first one are part of what follows it.
    have hx := h x List.mem_cons_self (xs.flatMap chunk ++ rest)
    have hxs := ih fun y hy => h y (List.mem_cons_of_mem x hy)
    simp [readTracks, hx, hxs]

/-- Behind a header with length 6 there are as many chunks as it announces. -/
theorem decode_header_eq {format ntrks division body : Bytes} (hformat : format.length = 2)
    (hntrks : ntrks.length = 2) (hdivision : division.length = 2) :
    decode (bytes "MThd" ++ [0, 0, 0, 6] ++ format ++ ntrks ++ division ++ body)
      = (readTracks (beNat ntrks) body).bind fun p =>
          some (⟨beNat format, beNat division, p.1⟩, p.2) := by
  have hmagic : (bytes "MThd").length = 4 := rfl
  have hlen : ([0, 0, 0, 6] : Bytes).length = 4 := rfl
  have hsix : beNat [0, 0, 0, 6] = 6 := by decide
  simp only [decode, List.append_assoc, splitBytes_of_length hmagic, splitBytes_of_length hlen,
    splitBytes_of_length hformat, splitBytes_of_length hntrks, splitBytes_of_length hdivision,
    Option.bind_eq_bind, Option.bind_some, hsix, decide_true, demand_true]

/-! ### The size of what was read

The length field of a chunk has 32 bits, so a file of `n` chunks has a bounded length. -/

/-- A part that was split off has the length that was asked for, and the rest has the others. -/
theorem splitBytes_length {n : Nat} {bs xs rest : Bytes}
    (h : splitBytes n bs = some (xs, rest)) : xs.length = n ∧ bs.length = n + rest.length := by
  unfold splitBytes at h
  split at h
  · simp only [Option.some.injEq, Prod.mk.injEq] at h
    obtain ⟨rfl, rfl⟩ := h
    rw [List.length_take, List.length_drop]
    omega
  · exact absurd h (by simp)

/-- A split puts the bytes back together. -/
theorem splitBytes_eq {n : Nat} {bs xs rest : Bytes} (h : splitBytes n bs = some (xs, rest)) :
    bs = xs ++ rest := by
  unfold splitBytes at h
  split at h
  · obtain ⟨rfl, rfl⟩ := Prod.mk.inj (Option.some.inj h)
    exact (List.take_append_drop n bs).symm
  · exact absurd h (by simp)

/-- A big-endian field of `n` bytes is below `256 ^ n`. -/
theorem beNat_lt (bs : Bytes) : beNat bs < 256 ^ bs.length := by
  suffices h : ∀ acc : Nat,
      -- The bound at `acc = 0`, generalised over the value read so far.
      bs.foldl (fun acc b => acc * 256 + b.toNat) acc < (acc + 1) * 256 ^ bs.length by
    simpa [beNat] using h 0
  induction bs with
  | nil => intro acc; simp
  | cons b bs ih =>
    intro acc
    have hb : b.toNat < 256 := b.toNat_lt
    have hpow : (acc + 1) * 256 ^ (bs.length + 1) = (acc * 256 + 256) * 256 ^ bs.length := by
      rw [Nat.pow_succ, Nat.mul_comm _ 256, ← Nat.mul_assoc, Nat.add_mul, Nat.one_mul]
    rw [List.foldl_cons, List.length_cons, hpow]
    refine Nat.lt_of_lt_of_le (ih (acc * 256 + b.toNat)) (Nat.mul_le_mul_right _ ?_)
    omega

/-- A chunk takes its eight bytes of magic and length, and at most `2 ^ 32 - 1` more. -/
theorem readTrack_length {bs rest : Bytes} {events : List TrackEvent}
    (h : readTrack bs = some (events, rest)) : bs.length < 8 + 2 ^ 32 + rest.length := by
  simp only [readTrack, Option.bind_eq_bind, Option.bind_eq_some_iff, Prod.exists,
    Option.some.injEq, Prod.mk.injEq] at h
  obtain ⟨magic, bs1, h1, -, -, len, bs2, h2, body, bs3, h3, events', -, rfl, rfl⟩ := h
  -- The body is as long as its length field says, and that field has four bytes.
  have hlen := beNat_lt len
  rw [(splitBytes_length h2).1] at hlen
  have e1 := (splitBytes_length h1).2
  have e2 := (splitBytes_length h2).2
  have e3 := (splitBytes_length h3).2
  omega

/-- The tracks that were read are as many as the header says, and no track is longer than its length
field can say. -/
theorem readTracks_length {n : Nat} {bs rest : Bytes} {tracks : List (List TrackEvent)}
    (h : readTracks n bs = some (tracks, rest)) :
    tracks.length = n ∧ bs.length ≤ n * (8 + 2 ^ 32) + rest.length := by
  induction n generalizing bs tracks with
  | zero =>
    simp only [readTracks, Option.some.injEq, Prod.mk.injEq] at h
    obtain ⟨rfl, rfl⟩ := h
    simp
  | succ n ih =>
    simp only [readTracks, Option.bind_eq_bind, Option.bind_eq_some_iff, Prod.exists,
      Option.some.injEq, Prod.mk.injEq] at h
    obtain ⟨track, bs1, h1, tracks', bs2, h2, rfl, rfl⟩ := h
    obtain ⟨hcount, hbound⟩ := ih h2
    -- The first track is bounded by its length field, the others by the induction.
    have hlt := readTrack_length h1
    refine ⟨by rw [List.length_cons, hcount], ?_⟩
    rw [Nat.add_mul, Nat.one_mul]
    omega

/-- What `decode` consumes is bounded by the number of tracks it returns. -/
theorem decode_length {bs rest : Bytes} {file : File} (h : decode bs = some (file, rest)) :
    bs.length ≤ 14 + file.tracks.length * (8 + 2 ^ 32) + rest.length := by
  simp only [decode, Option.bind_eq_bind, Option.bind_eq_some_iff, Prod.exists,
    Option.some.injEq, Prod.mk.injEq] at h
  obtain ⟨magic, bs1, h1, -, -, len, bs2, h2, -, -, format, bs3, h3, ntrks, bs4, h4, division,
    bs5, h5, tracks, bs6, h6, rfl, rfl⟩ := h
  obtain ⟨hcount, hbound⟩ := readTracks_length h6
  have e1 := (splitBytes_length h1).2
  have e2 := (splitBytes_length h2).2
  have e3 := (splitBytes_length h3).2
  have e4 := (splitBytes_length h4).2
  have e5 := (splitBytes_length h5).2
  rw [hcount]
  omega

end AiMidi.Lib.Smf
