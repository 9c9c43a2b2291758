import AiMidi.Proofs.MidiRenderer.Vlq
import AiMidi.Proofs.MidiRenderer.WireOrder

/-!
# `AiMidi.Proofs.MidiRenderer.RoundTrip`: the rendered file reads back

`render` followed by `Smf.decode` gives the composition back: one chunk for the tempo track
and one for each instrument track, with the track name and, as a multiset, the note on and
note off of every event (`SmfRoundTrip`).

The delta loop is the core. `readEvents_writeWireEvents` is an induction on the sorted wire
events. Its invariant ties the two loop variables of the writer to the two of the reader:
`last_tick` is the tick reached so far, and `last_status` is the running status, with 0 for
none (`runningOf`).

The length field of an MTrk chunk has 32 bits. `render` narrows the byte count of a track to
it without a check, so the round trip needs `FitsLength`, and `render_overlong` shows that
it fails without.

Around the loop everything is a rule for one piece of the format: a length field, a chunk, the
header (`readTrack_writeMTrk`, `decode_render`). The multiset of a track is that of its sorted wire
events, as sorting only permutes them (`carriesTrack_trackChunk`).
-/

set_option autoImplicit false

namespace AiMidi.Proofs.MidiRenderer

open AiMidi.Lib AiMidi.Lib.Smf
open AiMidi.Theory

/-! ### The delta loop

The writer leaves out a status byte that repeats the one before. The reader keeps a running status,
and the two agree after every event. -/

/-- The running status that `last_status` stands for. -/
def runningOf (lastStatus : UInt8) : Option UInt8 :=
  if lastStatus = 0 then none else some lastStatus

/-- The deltas of the delta-time loop: the difference of consecutive ticks, from
`last_tick` on. -/
def tickDeltas (lastTick : UInt32) : List WireEvent → List Nat
  | []       => []
  | we :: ws => (we.tick.toNat - lastTick.toNat) :: tickDeltas we.tick ws

/-- The value of `last_tick` after the loop. -/
def lastTickAfter (lastTick : UInt32) (ws : List WireEvent) : UInt32 :=
  ws.foldl (fun _ we => we.tick) lastTick

/-- The bytes of one wire event behind its delta. -/
def messageBytes (lastStatus : UInt8) (we : WireEvent) : Bytes :=
  (if we.status ≠ lastStatus ∨ lastStatus = 0 then [we.status] else []) ++ [we.data1, we.data2]

/-- One round of the loop. Whether or not the status byte is omitted, `last_status` is the
status of this event afterwards. -/
theorem writeWireEvents_cons (lastTick : UInt32) (lastStatus : UInt8) (we : WireEvent)
    (ws : List WireEvent) :
    writeWireEvents lastTick lastStatus (we :: ws)
      = encodeVlq (we.tick - lastTick) ++ messageBytes lastStatus we
        ++ writeWireEvents we.tick we.status ws := by
  have hlast : (if we.status ≠ lastStatus ∨ lastStatus = 0 then we.status else lastStatus)
      = we.status := by
    split
    · rfl
    · rename_i h
      exact (by simpa using h : we.status = lastStatus ∧ _).1.symm
  simp only [writeWireEvents, hlast, messageBytes, List.append_assoc]

/-- A valid event leaves its own status as the running one. -/
theorem runningOf_status {we : WireEvent} (h : Valid we) :
    runningOf we.status = some we.status :=
  if_neg h.status_ne_zero

/-- The status byte is there or the running status replaces it: the reader sees the
message either way. -/
theorem readEvent_messageBytes {we : WireEvent} (h : Valid we) (lastStatus : UInt8)
    (rest : Bytes) :
    readEvent (runningOf lastStatus) (messageBytes lastStatus we ++ rest)
      = some (wireMessage we, runningOf we.status, rest) := by
  have hvoice := readVoice_wire h rest
  unfold messageBytes
  split
  -- The status byte is written.
  · rw [runningOf_status h]
    exact readEvent_status _ h.status_range.1 h.status_range.2 hvoice
  · rename_i hsame
    -- It is omitted, and the running status is the status of this event.
    obtain ⟨heq, -⟩ : we.status = lastStatus ∧ _ := by simpa using hsame
    rw [← heq, runningOf_status h]
    exact readEvent_running h.key hvoice

/-- The delta of a sorted step is the exact difference. -/
theorem toNat_delta {a b : UInt32} (h : a ≤ b) : (b - a).toNat = b.toNat - a.toNat :=
  UInt32.toNat_sub_of_le _ _ h

/-- The bytes of the delta loop read as the wire events. Induction on the events: after each
round `last_tick` and `last_status` are the reader's tick and running status. -/
theorem readEvents_writeWireEvents (ws : List WireEvent) (lastTick : UInt32)
    (lastStatus : UInt8) (n : Nat) (hvalid : ∀ we ∈ ws, Valid we)
    (hfirst : ∀ we ∈ ws, lastTick ≤ we.tick)
    (hsorted : ws.Pairwise fun a b => a.tick ≤ b.tick)
    (hdelta : ∀ d ∈ tickDeltas lastTick ws, d < 2 ^ 28)
    (hn : (writeWireEvents lastTick lastStatus ws ++ endOfTrack).length ≤ n) :
    readEvents n (runningOf lastStatus) lastTick.toNat
        (writeWireEvents lastTick lastStatus ws ++ endOfTrack)
      = some (ws.map wireTrackEvent ++ [⟨(lastTickAfter lastTick ws).toNat, eot⟩]) := by
  induction ws generalizing lastTick lastStatus n with
  | nil =>
    -- Only the End of Track is left. The writer does not use the running status for it.
    have hbytes : writeWireEvents lastTick lastStatus [] ++ endOfTrack
        = 0x00 :: 0xFF :: 0x2F :: 0x00 :: ([] ++ []) := by
      simp [writeWireEvents, endOfTrack]
    rw [hbytes] at hn ⊢
    obtain ⟨m, rfl⟩ : ∃ m, n = m + 1 := ⟨n - 1, by simp at hn; omega⟩
    have hevent : readEvent (runningOf lastStatus) (0xFF :: 0x2F :: 0x00 :: ([] ++ []))
        = some (eot, none, []) :=
      readEvent_meta (runningOf lastStatus) (by decide) (by decide) rfl []
    exact readEvents_eot (readVlq_single (by decide) _) hevent
  | cons we ws ih =>
    rw [writeWireEvents_cons, List.append_assoc, List.append_assoc] at hn ⊢
    have hwe : Valid we := hvalid we List.mem_cons_self
    have hle : lastTick ≤ we.tick := hfirst we List.mem_cons_self
    -- Sorted ticks, so the 32-bit subtraction is exact and the delta fits four bytes.
    have hsmall : (we.tick - lastTick).toNat < 2 ^ 28 := by
      rw [toNat_delta hle]
      exact hdelta _ List.mem_cons_self
    obtain ⟨hnext, hsorted'⟩ := List.pairwise_cons.mp hsorted
    have htick : lastTick.toNat + (we.tick - lastTick).toNat = we.tick.toNat := by
      rw [toNat_delta hle]
      have := UInt32.le_iff_toNat_le.mp hle
      omega
    -- A round writes at least the two data bytes, so a smaller fuel is left for the rest.
    have hround : 2 ≤ (messageBytes lastStatus we).length := by
      simp [messageBytes]
    obtain ⟨m, rfl⟩ : ∃ m, n = m + 1 :=
      ⟨n - 1, by rw [List.length_append, List.length_append] at hn; omega⟩
    have hrest := ih we.tick we.status m (fun w hw => hvalid w (List.mem_cons_of_mem we hw))
      hnext hsorted' (fun d hd => hdelta d (List.mem_cons_of_mem _ hd))
      (by rw [List.length_append, List.length_append] at hn; omega)
    rw [← htick] at hrest
    have hread := readEvents_cons
      (readVlq_encodeVlq _ hsmall (messageBytes lastStatus we
        ++ (writeWireEvents we.tick we.status ws ++ endOfTrack)))
      (readEvent_messageBytes hwe lastStatus _) (wireMessage_ne_eot we) hrest
    rw [hread, htick]
    rfl

/-! ### Chunks

A chunk is its magic, a length and a body. The reader takes as many bytes as the length says and
reads events from them up to the last byte. -/

/-- Four bytes. -/
theorem length_writeBe32 (v : UInt32) : (writeBe32 v).length = 4 := rfl

/-- Two bytes. -/
theorem length_writeBe16 (v : UInt16) : (writeBe16 v).length = 2 := rfl

/-- The four bytes of a length field read as the value. -/
theorem beNat_writeBe32 (v : UInt32) : beNat (writeBe32 v) = v.toNat := by
  have hlt := v.toNat_lt
  have hmask : ∀ n : Nat, n &&& 255 = n % 256 := fun n =>
    Nat.and_two_pow_sub_one_eq_mod n 8
  simp only [writeBe32, beNat, List.foldl_cons, List.foldl_nil, UInt32.toNat_toUInt8,
    UInt32.toNat_and, UInt32.toNat_shiftRight, UInt32.reduceToNat, Nat.reduceMod, hmask,
    Nat.shiftRight_eq_div_pow, Nat.reducePow]
  omega

/-- The bytes of a 16-bit number are read back. -/
theorem beNat_writeBe16 (v : UInt16) : beNat (writeBe16 v) = v.toNat := by
  have hlt := v.toNat_lt
  have hmask : ∀ n : Nat, n &&& 255 = n % 256 := fun n =>
    Nat.and_two_pow_sub_one_eq_mod n 8
  simp only [writeBe16, beNat, List.foldl_cons, List.foldl_nil, UInt16.toNat_toUInt8,
    UInt16.toNat_and, UInt16.toNat_shiftRight, UInt16.reduceToNat, Nat.reduceMod, hmask,
    Nat.shiftRight_eq_div_pow, Nat.reducePow]
  omega

/-- An MTrk chunk reads as its body when the body fits the length field. -/
theorem readTrack_writeMTrk {body : Bytes} {events : List TrackEvent}
    (hfits : body.length < 2 ^ 32) (hevents : readEvents body.length none 0 body = some events)
    (rest : Bytes) : readTrack (writeMTrk body ++ rest) = some (events, rest) := by
  have hlen : beNat (writeBe32 (u32cast body.length)) = body.length := by
    rw [beNat_writeBe32, u32cast_toNat (by omega) (by exact_mod_cast hfits), Int.toNat_natCast]
  exact readTrack_chunk (length_writeBe32 _) hlen hevents rest

/-- The chunk a reader sees for an instrument track. -/
def trackChunk (std : StdSort wireEventLt) (track : MidiTrack) : List TrackEvent :=
  ⟨0, trackName track.name⟩ :: ((wireOrder std track).map wireTrackEvent
    ++ [⟨(lastTickAfter 0 (wireOrder std track)).toNat, eot⟩])

/-- An instrument track reads as its name, its wire events and the End of Track. -/
theorem readTrack_buildInstrumentTrack (std : StdSort wireEventLt) (track : MidiTrack)
    (hname : track.name.length ≤ 127)
    (hvel : ∀ ev ∈ track.events, ev.note ≤ 127 → ev.velocity ≤ 127)
    (hdelta : ∀ d ∈ tickDeltas 0 (wireOrder std track), d < 2 ^ 28)
    (hfits : (trackEvents std track).length < 2 ^ 32) (rest : Bytes) :
    readTrack (buildInstrumentTrack std track ++ rest) = some (trackChunk std track, rest) := by
  refine readTrack_writeMTrk hfits ?_ rest
  -- The length of the name is one byte, which a reader takes for a quantity below 128.
  have hcast : (u8cast track.name.length).toNat = track.name.length := by
    rw [u8cast_toNat (by omega) (by omega), Int.toNat_natCast]
  have hlen : u8cast track.name.length < 0x80 := by
    rw [UInt8.lt_iff_toNat_lt, hcast]
    exact Nat.lt_succ_of_le hname
  -- The name event comes first, then the delta loop from tick 0 without a running status.
  have hbytes : trackEvents std track
      = 0x00 :: 0xFF :: 0x03 :: u8cast track.name.length :: (track.name
        ++ (writeWireEvents 0 0 (wireOrder std track) ++ endOfTrack)) := by
    simp [trackEvents, nameBytes]
  obtain ⟨m, hm⟩ : ∃ m, (trackEvents std track).length = m + 1 := by
    rw [hbytes]
    exact ⟨_, List.length_cons⟩
  have hfuel : (writeWireEvents 0 0 (wireOrder std track) ++ endOfTrack).length ≤ m := by
    rw [hbytes] at hm
    simp only [List.length_cons, List.length_append] at hm ⊢
    omega
  have hwire := readEvents_writeWireEvents (wireOrder std track) 0 0 m
    (fun we hwe => valid_of_mem_wireOrder std track hvel hwe)
    (fun we _ => UInt32.le_iff_toNat_le.mpr (Nat.zero_le _))
    (pairwise_tick_wireOrder std track) hdelta hfuel
  rw [hm, hbytes]
  exact readEvents_cons (readVlq_single (by decide) _)
    (readEvent_meta none (by decide) hlen hcast.symm _)
    (by simp [trackName, eot]) hwire

/-- The chunk a reader sees for the tempo track. -/
def tempoChunk (comp : SmfComposition) : List TrackEvent :=
  [⟨0, .metaEvent 0x51 ((tempoEvent comp.bpm).drop 4)⟩,
   ⟨0, .metaEvent 0x58 ((timeSignatureEvent comp.timeSigNum comp.timeSigDen).drop 4)⟩,
   ⟨0, .metaEvent 0x59 ((keySignatureEvent comp.key comp.scale).drop 4)⟩,
   ⟨0, eot⟩]

/-- The tempo track reads as its three meta events and the End of Track. -/
theorem readTrack_buildTempoTrack (comp : SmfComposition) (rest : Bytes) :
    readTrack (buildTempoTrack comp ++ rest) = some (tempoChunk comp, rest) := by
  -- All three meta events are at delta 0. Read them from the last one forwards.
  have hmeta : ∀ (type len : UInt8) (data tail : Bytes) (n : Nat) (events : List TrackEvent),
      type < 0x80 → len < 0x80 → data.length = len.toNat → (.metaEvent type data : Event) ≠ eot →
      readEvents n none 0 tail = some events →
      readEvents (n + 1) none 0 (0x00 :: 0xFF :: type :: len :: (data ++ tail))
        = some (⟨0, .metaEvent type data⟩ :: events) := by
    intro type len data tail n events htype hlen hdata hne hrest
    exact readEvents_cons (readVlq_single (by decide) _)
      (readEvent_meta none htype hlen hdata tail) hne hrest
  have hlength : (tempoEvents comp).length = 25 := rfl
  refine readTrack_writeMTrk (by rw [hlength]; decide) ?_ rest
  have hevent : readEvent none (0xFF :: 0x2F :: 0x00 :: ([] ++ [])) = some (eot, none, []) :=
    readEvent_meta none (by decide) (by decide) rfl []
  have heot : readEvents 22 none 0 [0x00, 0xFF, 0x2F, 0x00] = some [⟨0, eot⟩] :=
    readEvents_eot (readVlq_single (by decide) _) hevent
  have hkey := hmeta 0x59 0x02 ((keySignatureEvent comp.key comp.scale).drop 4) _ 22 _
    (by decide) (by decide) rfl (by simp [eot]) heot
  have htime := hmeta 0x58 0x04
    ((timeSignatureEvent comp.timeSigNum comp.timeSigDen).drop 4) _ 23 _
    (by decide) (by decide) rfl (by simp [eot]) hkey
  exact hmeta 0x51 0x03 ((tempoEvent comp.bpm).drop 4) _ 24 _
    (by decide) (by decide) rfl (by simp [eot]) htime

/-! ### The file

The file is a header and one chunk for each track, with the tempo track in front. The conditions on
a composition are those under which each field holds its value. -/

/-- The compositions of the round trip. The deltas are those of the sorted ticks of a
track, from tick 0 on. -/
structure RoundTripInput (std : StdSort wireEventLt) (comp : SmfComposition) : Prop where
  ppq_pos : 1 ≤ comp.ppq
  ppq_le : comp.ppq ≤ 32767
  bpm_ge : 4 ≤ comp.bpm
  tracks_le : comp.tracks.length ≤ 65534
  name_le : ∀ track ∈ comp.tracks, track.name.length ≤ 127
  velocity_le : ∀ track ∈ comp.tracks, ∀ ev ∈ track.events, ev.velocity ≤ 127
  delta_lt : ∀ track ∈ comp.tracks, ∀ d ∈ tickDeltas 0 (wireOrder std track), d < 2 ^ 28

/-- Every track fits the 32-bit length field of its chunk. -/
def FitsLength (std : StdSort wireEventLt) (comp : SmfComposition) : Prop :=
  ∀ track ∈ comp.tracks, (trackEvents std track).length < 2 ^ 32

/-- A chunk carries a track: its name first, then, as a multiset, the note on and the note
off of every event, then the End of Track and nothing else, with non-decreasing ticks. -/
def CarriesTrack (track : MidiTrack) (chunk : List TrackEvent) : Prop :=
  ∃ (notes : List TrackEvent) (endTick : Nat),
    chunk = ⟨0, trackName track.name⟩ :: (notes ++ [⟨endTick, eot⟩]) ∧
    notes.Perm (track.events.flatMap noteEvents) ∧
    chunk.Pairwise fun a b => a.tick ≤ b.tick

/-- Decoding the output consumes all of it and yields a tempo chunk and one chunk for each
track that carries the track. -/
def SmfRoundTrip (std : StdSort wireEventLt) (comp : SmfComposition) : Prop :=
  ∃ (file : File) (tempo : List TrackEvent) (chunks : List (List TrackEvent)),
    decode (render std comp) = some (file, []) ∧ file.format = 1 ∧
    (file.division : Int) = comp.ppq ∧ file.tracks = tempo :: chunks ∧
    List.Forall₂ CarriesTrack comp.tracks chunks

/-- The last tick of a sorted list bounds every tick of it. -/
theorem le_lastTickAfter (ws : List WireEvent) (lastTick : UInt32)
    (hfirst : ∀ we ∈ ws, lastTick ≤ we.tick)
    (hsorted : ws.Pairwise fun a b => a.tick ≤ b.tick) :
    lastTick ≤ lastTickAfter lastTick ws ∧ ∀ we ∈ ws, we.tick ≤ lastTickAfter lastTick ws := by
  induction ws generalizing lastTick with
  | nil => exact ⟨UInt32.le_refl _, by simp⟩
  | cons we ws ih =>
    obtain ⟨hnext, hsorted'⟩ := List.pairwise_cons.mp hsorted
    obtain ⟨hwe, hws⟩ := ih we.tick hnext hsorted'
    refine ⟨UInt32.le_trans (hfirst we List.mem_cons_self) hwe, fun w hw => ?_⟩
    rcases List.mem_cons.mp hw with rfl | hw
    · exact hwe
    · exact hws w hw

/-- The chunk of an instrument track carries it. -/
theorem carriesTrack_trackChunk (std : StdSort wireEventLt) (track : MidiTrack) :
    CarriesTrack track (trackChunk std track) := by
  refine ⟨_, _, rfl, map_wireOrder_perm std track, ?_⟩
  have hsorted := pairwise_tick_wireOrder std track
  obtain ⟨-, hlast⟩ := le_lastTickAfter (wireOrder std track) 0
    (fun we _ => UInt32.le_iff_toNat_le.mpr (Nat.zero_le _)) hsorted
  refine List.pairwise_cons.mpr ⟨fun _ _ => Nat.zero_le _, ?_⟩
  refine List.pairwise_append.mpr ⟨?_, List.pairwise_singleton _ _, ?_⟩
  · exact List.pairwise_map.mpr (hsorted.imp UInt32.le_iff_toNat_le.mp)
  · intro a ha b hb
    obtain ⟨we, hwe, rfl⟩ := List.mem_map.mp ha
    rw [List.mem_singleton.mp hb]
    exact UInt32.le_iff_toNat_le.mp (hlast we hwe)

/-- The track count of the header, the tempo track included. -/
theorem ntrks_toNat {n : Nat} (h : n ≤ 65534) :
    (u16cast (i32cast n + 1)).toNat = n + 1 := by
  have h32 : i32cast n = n := i32cast_of_range (by omega) (by omega)
  rw [h32, u16cast, UInt16.ofInt]
  have hmod : ((n : Int) + 1) % 2 ^ 16 = (n + 1 : Nat) := by omega
  rw [hmod, Int.toNat_natCast, UInt16.toNat_ofNat_of_lt' (by simp [UInt16.size]; omega)]

/-- A resolution in range is written as it is. -/
theorem division_toNat {ppq : Int} (h0 : 1 ≤ ppq) (h1 : ppq ≤ 32767) :
    ((u16cast ppq).toNat : Int) = ppq := by
  have hmod : ppq % 2 ^ 16 = ppq := by omega
  rw [u16cast, UInt16.ofInt, hmod,
    UInt16.toNat_ofNat_of_lt' (by simp [UInt16.size]; omega)]
  omega

/-- A reader of the output comes to the instrument tracks, behind the header and the tempo
track. -/
theorem decode_render (std : StdSort wireEventLt) (comp : SmfComposition)
    (h : comp.tracks.length ≤ 65534) :
    decode (render std comp)
      = (readTracks comp.tracks.length (comp.tracks.flatMap (buildInstrumentTrack std))).bind
          fun p => some (⟨1, (u16cast comp.ppq).toNat, tempoChunk comp :: p.1⟩, p.2) := by
  have hrender : render std comp
      = bytes "MThd" ++ [0, 0, 0, 6] ++ writeBe16 1
        ++ writeBe16 (u16cast (i32cast comp.tracks.length + 1)) ++ writeBe16 (u16cast comp.ppq)
        ++ (buildTempoTrack comp ++ comp.tracks.flatMap (buildInstrumentTrack std)) := by
    simp only [render, writeMThd, List.append_assoc]
    rfl
  have hformat : beNat (writeBe16 1) = 1 := beNat_writeBe16 1
  -- The header announces the tempo track and the instrument tracks.
  have hcount : beNat (writeBe16 (u16cast (i32cast comp.tracks.length + 1)))
      = comp.tracks.length + 1 := by
    rw [beNat_writeBe16, ntrks_toNat h]
  rw [hrender, decode_header_eq (length_writeBe16 1) (length_writeBe16 _) (length_writeBe16 _),
    hcount, hformat, beNat_writeBe16]
  simp only [readTracks, readTrack_buildTempoTrack, Option.bind_eq_bind, Option.bind_some,
    Option.bind_assoc]

/-- The chunks of the instrument tracks are read up to the end of the file. -/
theorem decode_render_tracks (std : StdSort wireEventLt) (comp : SmfComposition)
    (htracks : comp.tracks.length ≤ 65534)
    (hname : ∀ track ∈ comp.tracks, track.name.length ≤ 127)
    (hvel : ∀ track ∈ comp.tracks, ∀ ev ∈ track.events, ev.velocity ≤ 127)
    (hdelta : ∀ track ∈ comp.tracks, ∀ d ∈ tickDeltas 0 (wireOrder std track), d < 2 ^ 28)
    (hfits : FitsLength std comp) :
    decode (render std comp) = some (⟨1, (u16cast comp.ppq).toNat,
      tempoChunk comp :: comp.tracks.map (trackChunk std)⟩, []) := by
  have hread : ∀ track ∈ comp.tracks, ∀ rest,
      readTrack (buildInstrumentTrack std track ++ rest) = some (trackChunk std track, rest) :=
    fun track ht rest => readTrack_buildInstrumentTrack std track (hname track ht)
      (fun ev hev _ => hvel track ht ev hev) (hdelta track ht) (hfits track ht) rest
  have hbody := readTracks_flatMap hread []
  rw [List.append_nil] at hbody
  rw [decode_render std comp htracks, hbody, Option.bind_some]

/-- The rendered file reads back as the composition, when every track fits the length field
of its chunk. -/
theorem render_roundTrip (std : StdSort wireEventLt) (comp : SmfComposition)
    (h : RoundTripInput std comp) (hfits : FitsLength std comp) : SmfRoundTrip std comp := by
  have hdecode := decode_render_tracks std comp h.tracks_le h.name_le h.velocity_le h.delta_lt hfits
  refine ⟨_, _, _, hdecode, rfl, division_toNat h.ppq_pos h.ppq_le, rfl, ?_⟩
  exact List.forall₂_map_right_iff.mpr
    (List.forall₂_same.mpr fun track _ => carriesTrack_trackChunk std track)

/-! ### Tracks that fit

Few notes and short names are enough for a track to fit. The bound counts the bytes of an event as
the worst case of a delta and a message. -/

/-- An encoding has at most five bytes. -/
theorem length_encodeVlq_le (value : UInt32) : (encodeVlq value).length ≤ 5 := by
  have hlt := value.toNat_lt
  rw [encodeVlq_eq]
  exact (Vlq.length_encode_le_iff value.toNat 4).mpr (by omega)

/-- An event takes eight bytes at most: five for its delta and three for its message. -/
theorem length_writeWireEvents_le (ws : List WireEvent) (lastTick : UInt32)
    (lastStatus : UInt8) :
    (writeWireEvents lastTick lastStatus ws).length ≤ 8 * ws.length := by
  induction ws generalizing lastTick lastStatus with
  | nil => simp [writeWireEvents]
  | cons we ws ih =>
    have hvlq := length_encodeVlq_le (we.tick - lastTick)
    have hmsg : (messageBytes lastStatus we).length ≤ 3 := by
      unfold messageBytes
      split <;> simp
    have hws := ih we.tick we.status
    rw [writeWireEvents_cons, List.length_append, List.length_append, List.length_cons]
    omega

/-- A track has two wire events for each of its events at most. -/
theorem length_wireOrder_le (std : StdSort wireEventLt) (track : MidiTrack) :
    (wireOrder std track).length ≤ 2 * track.events.length := by
  rw [wireOrder, std.length_sort, wireEvents]
  induction track.events with
  | nil => simp
  | cons ev events ih =>
    -- Two wire events for a note, none for a note above 127.
    have hpair : (wirePair ev).length ≤ 2 := by
      unfold wirePair
      split <;> simp
    rw [List.flatMap_cons, List.length_append, List.length_cons]
    omega

/-- Tracks of fewer than `2 ^ 27` events with short names fit the length field. -/
theorem fitsLength_of_events_lt (std : StdSort wireEventLt) (comp : SmfComposition)
    (hname : ∀ track ∈ comp.tracks, track.name.length ≤ 127)
    (hevents : ∀ track ∈ comp.tracks, track.events.length < 2 ^ 27) : FitsLength std comp := by
  intro track ht
  have hn := hname track ht
  have he := hevents track ht
  have hwire := length_writeWireEvents_le (wireOrder std track) 0 0
  have horder := length_wireOrder_le std track
  simp only [trackEvents, nameBytes, endOfTrack, encodeVlq_zero, List.length_append,
    List.length_cons, List.length_nil]
  omega

/-- The composition of one quarter note on each of two tracks. -/
def twoNotes : SmfComposition :=
  { tracks := [⟨bytes "Piano", [⟨0, 480, 0, 60, 100, 0⟩]⟩,
               ⟨bytes "Bass", [⟨960, 1440, 1, 36, 90, 0⟩]⟩] }

/-- The two notes meet all conditions of the round trip. -/
theorem roundTripInput_twoNotes : RoundTripInput wireSort twoNotes where
  ppq_pos := by decide
  ppq_le := by decide
  bpm_ge := by decide
  tracks_le := by decide
  name_le := by decide
  velocity_le := by decide
  delta_lt := by decide

/-- Their bytes fit a track. -/
theorem fitsLength_twoNotes : FitsLength wireSort twoNotes :=
  fitsLength_of_events_lt wireSort twoNotes (by decide) (by decide)

/-- The round trip at two short tracks. -/
theorem render_roundTrip_twoNotes : SmfRoundTrip wireSort twoNotes :=
  render_roundTrip wireSort twoNotes roundTripInput_twoNotes fitsLength_twoNotes

/-! ### Tracks that do not fit

A track of so many notes is never computed. Its size is bounded from below by counting, and no
length field can hold that size. -/

/-- The loop writes at least the two data bytes of each event and one byte of delta. -/
theorem le_length_writeWireEvents (ws : List WireEvent) (lastTick : UInt32)
    (lastStatus : UInt8) :
    3 * ws.length ≤ (writeWireEvents lastTick lastStatus ws).length := by
  induction ws generalizing lastTick lastStatus with
  | nil => simp [writeWireEvents]
  | cons we ws ih =>
    have hvlq : 1 ≤ (encodeVlq (we.tick - lastTick)).length := by simp [encodeVlq]
    have hmsg : 2 ≤ (messageBytes lastStatus we).length := by simp [messageBytes]
    have hws := ih we.tick we.status
    rw [writeWireEvents_cons, List.length_append, List.length_append, List.length_cons]
    omega

/-- No delta is larger than the largest tick. -/
theorem tickDeltas_le {B : Nat} (ws : List WireEvent) (lastTick : UInt32)
    (h : ∀ we ∈ ws, we.tick.toNat ≤ B) : ∀ d ∈ tickDeltas lastTick ws, d ≤ B := by
  induction ws generalizing lastTick with
  | nil => simp [tickDeltas]
  | cons we ws ih =>
    intro d hd
    rcases List.mem_cons.mp hd with rfl | hd
    · exact Nat.le_trans (Nat.sub_le _ _) (h we List.mem_cons_self)
    · exact ih we.tick (fun w hw => h w (List.mem_cons_of_mem we hw)) d hd

/-- One nameless track of `n` equal quarter notes. -/
def repeatedNote (n : Nat) : SmfComposition :=
  { tracks := [⟨[], List.replicate n ⟨0, 480, 0, 60, 64, 0⟩⟩] }

/-- However long the track, it is an input of the round trip. -/
theorem roundTripInput_repeatedNote (std : StdSort wireEventLt) (n : Nat) :
    RoundTripInput std (repeatedNote n) where
  ppq_pos := show (1 : Int) ≤ 480 by decide
  ppq_le := show (480 : Int) ≤ 32767 by decide
  bpm_ge := show (4 : Int) ≤ 120 by decide
  tracks_le := show 1 ≤ 65534 by decide
  name_le track ht := by
    rw [List.mem_singleton.mp ht]
    exact Nat.zero_le _
  velocity_le track ht ev hev := by
    rw [List.mem_singleton.mp ht] at hev
    rw [List.eq_of_mem_replicate hev]
    decide
  -- All events are one and the same note, so each delta is at most its length.
  delta_lt track ht d hd := by
    rw [List.mem_singleton.mp ht] at hd
    refine Nat.lt_of_le_of_lt (tickDeltas_le (B := 480) _ _ (fun we hwe => ?_) d hd) (by decide)
    obtain ⟨ev, hev, hmem⟩ := (mem_wireOrder std _).mp hwe
    rw [List.eq_of_mem_replicate hev] at hmem
    exact (by decide : ∀ we ∈ wirePair ⟨0, 480, 0, 60, 64, 0⟩, we.tick.toNat ≤ 480) we hmem

/-- The size of the output: six bytes for each note. -/
theorem le_length_render_repeatedNote (std : StdSort wireEventLt) (n : Nat) :
    6 * n ≤ (render std (repeatedNote n)).length := by
  -- Two wire events for each note, and at least three bytes for each of them.
  have hwire : (wireEvents (List.replicate n ⟨0, 480, 0, 60, 64, 0⟩)).length = 2 * n := by
    rw [wireEvents]
    induction n with
    | zero => rfl
    | succ n ih =>
      rw [List.replicate_succ, List.flatMap_cons, List.length_append, ih]
      exact Nat.add_comm 2 (2 * n)
  have hloop := le_length_writeWireEvents
    (std.sort (wireEvents (List.replicate n ⟨0, 480, 0, 60, 64, 0⟩))) 0 0
  rw [std.length_sort, hwire] at hloop
  simp only [render, repeatedNote, List.flatMap_cons, List.flatMap_nil, List.append_nil,
    List.length_append, buildInstrumentTrack, writeMTrk, trackEvents, wireOrder]
  omega

/-- A file of two chunks is shorter than the output of a track of `2 ^ 31` notes. -/
theorem not_smfRoundTrip_repeatedNote (std : StdSort wireEventLt) {n : Nat} (h : 2 ^ 31 ≤ n) :
    ¬ SmfRoundTrip std (repeatedNote n) := by
  rintro ⟨file, tempo, chunks, hdecode, -, -, htracks, hforall⟩
  have hchunks : chunks.length = 1 := hforall.length_eq.symm
  have hcount : file.tracks.length = 2 := by rw [htracks, List.length_cons, hchunks]
  -- The whole output is consumed, so it is no longer than two full chunks.
  have hle := decode_length hdecode
  have hge := le_length_render_repeatedNote std n
  rw [hcount, List.length_nil] at hle
  omega

/-- A track of `2 ^ 31` notes is an input of the round trip, and does not survive it: the
length field of its chunk has 32 bits. -/
theorem render_overlong :
    RoundTripInput wireSort (repeatedNote (2 ^ 31)) ∧
      ¬ SmfRoundTrip wireSort (repeatedNote (2 ^ 31)) :=
  ⟨roundTripInput_repeatedNote wireSort _, not_smfRoundTrip_repeatedNote wireSort (Nat.le_refl _)⟩

end AiMidi.Proofs.MidiRenderer
