import AiMidi.Lib.SmfSize
import AiMidi.Proofs.MidiRenderer.RoundTrip

/-!
# `AiMidi.Proofs.MidiRenderer.WellFormed`: which compositions give a well-formed file

`render` takes names of any length, any velocity and any tick. The format does not: a velocity
is a data byte, a delta has four bytes, and the length field of a chunk has 32 bits. The name
length is written as one byte where the format has a variable-length quantity, so a name of 128
bytes or more is not read as the name.

`parsesAsWritten_iff` says that the output reads as the events written into it exactly when
every track is `Representable`. For one direction the chunks are read from the front. For the
other one, a chunk that reads as its events is as long as the format requires for them
(`minLength`), and the writer uses no byte more than that. So a reader that found the events
cannot have stopped early, and it cannot have taken a longer length field for the name.
-/

set_option autoImplicit false

namespace AiMidi.Proofs.MidiRenderer

open AiMidi.Lib AiMidi.Lib.Smf
open AiMidi.Theory

/-! ### The property -/

/-- The compositions that `render` is given. -/
structure Accepted (comp : SmfComposition) : Prop where
  bpm_pos : 1 ≤ comp.bpm
  tracks_lt : comp.tracks.length < 65535
  name_lt : ∀ track ∈ comp.tracks, track.name.length < 2 ^ 28

/-- A reader gets to the end of the output, and finds the chunks that were written. Every
length field it followed was right, and every data byte was below `0x80`. -/
def ParsesAsWritten (std : StdSort wireEventLt) (comp : SmfComposition) : Prop :=
  ∃ file, decode (render std comp) = some (file, []) ∧
    file.tracks = tempoChunk comp :: comp.tracks.map (trackChunk std)

/-- A track that the renderer writes as an SMF chunk. A tick is close to the start of the track
or to an earlier tick of it, and the events fit a chunk at all. Notes above 127 are not
rendered and do not count. -/
structure Representable (std : StdSort wireEventLt) (track : MidiTrack) : Prop where
  name_le : track.name.length ≤ 127
  velocity_le : ∀ ev ∈ track.events, ev.note ≤ 127 → ev.velocity ≤ 127
  tick_close : ∀ e ∈ track.events.flatMap noteEvents, e.tick < 2 ^ 28 ∨
    ∃ e' ∈ track.events.flatMap noteEvents, e'.tick < e.tick ∧ e.tick < e'.tick + 2 ^ 28
  minLength_lt : minLength none 0 (trackChunk std track) < 2 ^ 32

/-! ### The bytes of a track

The bounds are from above: no track has more bytes than its events need. With the bounds of a reader
from below they leave no byte to spare. -/

/-- An encoding has no leading group of zeros. -/
theorem length_encodeVlq_le_vlqLength (value : UInt32) :
    (encodeVlq value).length ≤ vlqLength value.toNat := by
  rw [encodeVlq_eq, vlqLength]
  exact (Vlq.length_encode_le_iff _ _).mpr (Nat.lt_pow_succ_log_self (by decide) _)

/-- The message of a valid wire event is a channel message under its status byte. -/
theorem running_wireMessage {we : WireEvent} (h : Valid we) :
    (wireMessage we).running = some we.status := by
  have hkind := h.kind
  unfold wireMessage
  cases hoff : we.isNoteOff with
  | true =>
    rw [hoff] at hkind
    exact congrArg some (eq_noteOff_status hkind)
  | false =>
    rw [hoff] at hkind
    exact congrArg some (eq_noteOn_status hkind)

/-- The data bytes of a wire event. -/
theorem dataBytes_wireMessage (we : WireEvent) :
    (wireMessage we).dataBytes = [we.data1, we.data2] := by
  unfold wireMessage
  split <;> rfl

/-- The status byte is left out exactly where the running status stands for it. -/
theorem length_messageBytes {we : WireEvent} (h : Valid we) (lastStatus : UInt8) :
    (messageBytes lastStatus we).length = (wireMessage we).size (runningOf lastStatus) := by
  have hne := h.status_ne_zero
  have hsame : runningOf lastStatus = some we.status ↔ we.status = lastStatus := by
    unfold runningOf
    split
    case isTrue h0 => simp [h0, hne]
    case isFalse => rw [Option.some.injEq, eq_comm]
  rw [Event.size_of_running (running_wireMessage h), dataBytes_wireMessage, messageBytes,
    List.length_append]
  by_cases heq : we.status = lastStatus
  · rw [if_pos (hsame.mpr heq), if_neg (by simp [← heq, hne])]
    rfl
  · rw [if_neg (mt hsame.mp heq), if_pos (Or.inl heq)]
    rfl

/-- The delta loop and the End of Track take the fewest bytes for their events. Induction on the
events: the running status of `minLength` is `last_status`. -/
theorem length_writeWireEvents_le_minLength (ws : List WireEvent) (lastTick : UInt32)
    (lastStatus : UInt8) (hvalid : ∀ we ∈ ws, Valid we) (hfirst : ∀ we ∈ ws, lastTick ≤ we.tick)
    (hsorted : ws.Pairwise fun a b => a.tick ≤ b.tick) :
    (writeWireEvents lastTick lastStatus ws ++ endOfTrack).length
      ≤ minLength (runningOf lastStatus) lastTick.toNat
          (ws.map wireTrackEvent ++ [⟨(lastTickAfter lastTick ws).toNat, eot⟩]) := by
  induction ws generalizing lastTick lastStatus with
  | nil =>
    rw [writeWireEvents, List.nil_append, List.map_nil, List.nil_append, endOfTrack,
      encodeVlq_zero]
    simp [minLength, vlqLength, Event.size, eot, lastTickAfter]
  -- The delta takes its least length, and the message one byte less under running status.
  | cons we ws ih =>
    have hwe : Valid we := hvalid we List.mem_cons_self
    obtain ⟨hnext, hsorted'⟩ := List.pairwise_cons.mp hsorted
    have hrest := ih we.tick we.status (fun w hw => hvalid w (List.mem_cons_of_mem we hw)) hnext
      hsorted'
    have hvlq := length_encodeVlq_le_vlqLength (we.tick - lastTick)
    rw [toNat_delta (hfirst we List.mem_cons_self)] at hvlq
    have hmsg := length_messageBytes hwe lastStatus
    have hrunning : runningOf we.status = (wireMessage we).running := by
      rw [running_wireMessage hwe, runningOf_status hwe]
    rw [hrunning] at hrest
    rw [writeWireEvents_cons, List.append_assoc, List.append_assoc, List.length_append,
      List.length_append, List.map_cons, List.cons_append, minLength]
    simp only [wireTrackEvent, lastTickAfter, List.foldl_cons] at hrest ⊢
    omega

variable (std : StdSort wireEventLt) (track : MidiTrack)

/-- A track takes the fewest bytes for its events, but for a name whose length needs more than
the one byte that is written for it. -/
theorem length_trackEvents_le (hvel : ∀ ev ∈ track.events, ev.note ≤ 127 → ev.velocity ≤ 127) :
    (trackEvents std track).length + vlqLength track.name.length
      ≤ minLength none 0 (trackChunk std track) + 1 := by
  have hwire := length_writeWireEvents_le_minLength (wireOrder std track) 0 0
    (fun we hwe => valid_of_mem_wireOrder std track hvel hwe)
    (fun we _ => UInt32.le_iff_toNat_le.mpr (Nat.zero_le _)) (pairwise_tick_wireOrder std track)
  have hname : (nameBytes track.name).length = 4 + track.name.length := by
    simp only [nameBytes, encodeVlq_zero, List.length_append, List.length_cons, List.length_nil]
  have hsize : (trackName track.name).size none
      = 2 + vlqLength track.name.length + track.name.length := rfl
  have hzero : vlqLength 0 = 1 := by rw [vlqLength, Nat.log_zero_right]
  -- Behind the name the reader has no running status, and the loop starts with `last_status` 0.
  have hnone : (trackName track.name).running = runningOf 0 := rfl
  rw [trackChunk, minLength, Nat.sub_self, hzero, hsize, hnone, trackEvents, List.append_assoc,
    List.length_append, hname]
  dsimp only
  simp only [UInt32.reduceToNat] at hwire
  omega

/-! ### The ticks of a track

The ticks of a track are sorted before they are written. A delta is small when each tick is close to
an earlier one, in whatever order the notes are given. -/

/-- The deltas that are written are those between the events of the track. -/
theorem tickDeltas_eq_deltas (ws : List WireEvent) (lastTick : UInt32) :
    tickDeltas lastTick ws = deltas lastTick.toNat (ws.map wireTrackEvent) := by
  induction ws generalizing lastTick with
  | nil => rfl
  | cons we ws ih => rw [tickDeltas, List.map_cons, deltas, ih]; rfl

/-- The deltas of the sorted track, from its notes in any order. -/
theorem tickDeltas_lt_iff {bound : Nat} :
    (∀ d ∈ tickDeltas 0 (wireOrder std track), d < bound) ↔
      ∀ e ∈ track.events.flatMap noteEvents, e.tick < bound ∨
        ∃ e' ∈ track.events.flatMap noteEvents, e'.tick < e.tick ∧ e.tick < e'.tick + bound := by
  have hsorted : ((wireOrder std track).map wireTrackEvent).Pairwise fun a b => a.tick ≤ b.tick :=
    List.pairwise_map.mpr ((pairwise_tick_wireOrder std track).imp UInt32.le_iff_toNat_le.mp)
  rw [tickDeltas_eq_deltas]
  refine (deltas_lt_iff (fun e _ => Nat.zero_le e.tick) hsorted).trans ?_
  simp only [Nat.zero_add, (map_wireOrder_perm std track).mem_iff]

/-! ### Chunks

A chunk that is read as its events has a delta of at most four bytes for each, data bytes below 128,
and the name that was written. -/

/-- The chunk of a representable track reads as its events. -/
theorem readTrack_of_representable {std : StdSort wireEventLt} {track : MidiTrack}
    (h : Representable std track) (rest : Bytes) :
    readTrack (buildInstrumentTrack std track ++ rest) = some (trackChunk std track, rest) := by
  have hlen := length_trackEvents_le std track h.velocity_le
  have hfits := h.minLength_lt
  have hpos : 1 ≤ vlqLength track.name.length := Nat.le_add_left 1 _
  exact readTrack_buildInstrumentTrack std track h.name_le h.velocity_le
    ((tickDeltas_lt_iff std track).mpr h.tick_close) (by omega) rest

/-- The message of a rendered note is in the chunk, so its velocity was read as a data byte. -/
theorem velocity_le_of_dataBytes {ev : MidiEvent} (hev : ev ∈ track.events)
    (hnote : ev.note ≤ 127)
    (hlow : ∀ e ∈ trackChunk std track, ∀ b ∈ e.event.dataBytes, b < 0x80) :
    ev.velocity ≤ 127 := by
  have hmem : (⟨ev.tickOn.toNat, .noteOn (ev.channel &&& 0x0F) ev.note ev.velocity⟩ : TrackEvent)
      ∈ track.events.flatMap noteEvents := by
    refine List.mem_flatMap.mpr ⟨ev, hev, ?_⟩
    rw [noteEvents, if_neg (UInt8.not_lt.mpr hnote)]
    exact List.mem_cons_self
  have hchunk := (map_wireOrder_perm std track).mem_iff.mpr hmem
  exact lt_0x80_iff.mp (hlow _ (List.mem_cons_of_mem _ (List.mem_append_left _ hchunk)) ev.velocity
    (List.mem_cons_of_mem _ List.mem_cons_self))

/-- A conversion to 32 bits never makes a number larger. -/
theorem u32cast_toNat_le (n : Nat) : (u32cast n).toNat ≤ n := by
  have hmod : (n : Int) % 2 ^ 32 = (n % 2 ^ 32 : Nat) := by omega
  rw [u32cast, UInt32.ofInt, hmod, Int.toNat_natCast, UInt32.toNat_ofNat']
  exact Nat.le_trans (Nat.mod_le _ _) (Nat.mod_le _ _)

/-- A chunk that reads as the events of the track is that of a representable track, and the
reader is behind it. -/
theorem representable_of_readTrack {rest rest' : Bytes}
    (h : readTrack (buildInstrumentTrack std track ++ rest)
      = some (trackChunk std track, rest')) :
    Representable std track ∧ rest' = rest := by
  rw [buildInstrumentTrack, writeMTrk, List.append_assoc] at h
  obtain ⟨body, htail, hbody, hevents⟩ := readTrack_inv (length_writeBe32 _) h
  have hvel : ∀ ev ∈ track.events, ev.note ≤ 127 → ev.velocity ≤ 127 := fun ev hev hnote =>
    velocity_le_of_dataBytes std track hev hnote (dataBytes_lt_of_readEvents hevents)
  have hdelta : ∀ d ∈ tickDeltas 0 (wireOrder std track), d < 2 ^ 28 := by
    intro d hd
    rw [tickDeltas_eq_deltas] at hd
    exact deltas_lt_of_readEvents hevents d (List.mem_cons_of_mem _ (mem_deltas_append hd))
  -- The writer took no byte more than the events need, the reader no byte less, and the length
  -- field says at most what was written. So the three lengths are one.
  have hwritten := length_trackEvents_le std track hvel
  have hread := minLength_le_of_readEvents hevents
  have hfield : body.length ≤ (trackEvents std track).length := by
    rw [hbody, beNat_writeBe32]
    exact u32cast_toNat_le _
  have hlt : body.length < 2 ^ 32 := by
    rw [hbody, beNat_writeBe32]
    exact UInt32.toNat_lt _
  have hpos : 1 ≤ vlqLength track.name.length := Nat.le_add_left 1 _
  have hname : track.name.length < 128 := by
    refine Nat.not_le.mp fun hge => ?_
    have hlog : 1 ≤ Nat.log 128 track.name.length := Nat.log_pos (by decide) hge
    have hlong : 2 ≤ vlqLength track.name.length := Nat.succ_le_succ hlog
    omega
  have hsame : (trackEvents std track).length = body.length := by omega
  refine ⟨⟨Nat.le_of_lt_succ hname, hvel, (tickDeltas_lt_iff std track).mp hdelta, by omega⟩, ?_⟩
  exact (List.append_inj_right htail hsame).symm

/-! ### Files

The tracks are compared chunk by chunk. The header and the tempo track are always read as they were
written. -/

/-- The output reads as the events written into it exactly when every track is
representable. -/
theorem parsesAsWritten_iff {comp : SmfComposition} (h : Accepted comp) :
    ParsesAsWritten std comp ↔ ∀ track ∈ comp.tracks, Representable std track := by
  have hdecode := decode_render std comp (Nat.le_of_lt_succ h.tracks_lt)
  constructor
  · rintro ⟨file, hfile, htracks⟩
    rw [hdecode] at hfile
    obtain ⟨⟨chunks, rest⟩, hread, hsome⟩ := Option.bind_eq_some_iff.mp hfile
    obtain ⟨rfl, rfl⟩ := Prod.mk.inj (Option.some.inj hsome)
    -- The tempo chunk stands in front in both lists, so the others agree.
    obtain ⟨-, rfl⟩ := List.cons.inj htracks
    rw [← List.append_nil (comp.tracks.flatMap _)] at hread
    exact readTracks_flatMap_inv
      (fun track _ _ _ hchunk => representable_of_readTrack std track hchunk) hread
  · intro hrep
    have hread := readTracks_flatMap
      (fun track ht rest => readTrack_of_representable (hrep track ht) rest) []
    rw [List.append_nil] at hread
    rw [hread, Option.bind_some] at hdecode
    exact ⟨_, hdecode, rfl⟩

/-- Two short tracks with notes, one of them above 127. -/
def skippedNote : SmfComposition :=
  { tracks := [⟨bytes "Piano", [⟨0, 480, 0, 60, 100, 0⟩, ⟨0, 480, 0, 200, 255, 0⟩]⟩,
               ⟨bytes "Bass", [⟨960, 1440, 1, 36, 90, 0⟩]⟩] }

/-- The condition for a piece with a note that is skipped. -/
theorem parsesAsWritten_iff_skippedNote :
    Accepted skippedNote ∧ (ParsesAsWritten wireSort skippedNote ↔
      ∀ track ∈ skippedNote.tracks, Representable wireSort track) :=
  have h : Accepted skippedNote :=
    { bpm_pos := by decide
      tracks_lt := by decide
      name_lt := by decide }
  ⟨h, parsesAsWritten_iff wireSort h⟩

/-- A track without events, and a name of 128 letters. -/
def longName : SmfComposition :=
  { tracks := [⟨List.replicate 128 0x61, []⟩] }

/-- The length byte 128 has the continuation bit, so a reader takes the first letter for the
rest of the length, and there is no event behind the 97 letters of that length. -/
theorem longName_not_parsed :
    Accepted longName ∧ ¬ ∃ file, decode (render wireSort longName) = some (file, []) := by
  constructor
  · refine { bpm_pos := by decide, tracks_lt := by decide, name_lt := fun track ht => ?_ }
    rw [List.mem_singleton.mp ht, List.length_replicate]
    decide
  · rintro ⟨file, hfile⟩
    -- The name length 128 is read as the first byte of a longer number.
    have hnone : readTracks longName.tracks.length
        (longName.tracks.flatMap (buildInstrumentTrack wireSort)) = none := by
      have hbytes : longName.tracks.flatMap (buildInstrumentTrack wireSort)
          = writeMTrk ([0x00, 0xFF, 0x03, 128] ++ List.replicate 128 0x61
            ++ [0x00, 0xFF, 0x2F, 0x00]) := by
        simp only [longName, List.flatMap_singleton, buildInstrumentTrack, trackEvents,
          nameBytes, endOfTrack, encodeVlq_zero, List.length_replicate]
        rfl
      rw [hbytes]
      decide +kernel
    rw [decode_render wireSort longName (by decide), hnone] at hfile
    exact absurd hfile (by simp)

end AiMidi.Proofs.MidiRenderer
