import AiMidi.Proofs.MidiRenderer.RoundTrip

/-!
# `AiMidi.Proofs.MidiRenderer.Injective`: a file has one composition

Two compositions with the same file have the same tempo track (`render_eq_iff`) and, track by
track, the same name and the same notes (`instrumentTracks_unique`). Unlike the round trip this
needs no bound on the length of a track: the End of Track event ends it, whatever the length
field says.

`writeWireEvents_unique` is the core, an induction on the wire events of both tracks.
-/

set_option autoImplicit false

namespace AiMidi.Proofs.MidiRenderer

open AiMidi.Lib AiMidi.Lib.Smf
open AiMidi.Theory

/-! ### The delta loop

Both writers start from the same tick and the same running status. Each event that is written leads
both to the same state again, so the comparison goes on behind it. -/

/-- Wire events that can be written from `lastTick` on and read back. -/
structure Writable (lastTick : UInt32) (ws : List WireEvent) : Prop where
  valid : ∀ we ∈ ws, Valid we
  first : ∀ we ∈ ws, lastTick ≤ we.tick
  sorted : ws.Pairwise fun a b => a.tick ≤ b.tick
  delta : ∀ d ∈ tickDeltas lastTick ws, d < 2 ^ 28

/-- Behind its first event a writable list is writable from that event on. -/
theorem Writable.tail {lastTick : UInt32} {we : WireEvent} {ws : List WireEvent}
    (h : Writable lastTick (we :: ws)) : Writable we.tick ws where
  valid w hw := h.valid w (List.mem_cons_of_mem we hw)
  first := (List.pairwise_cons.mp h.sorted).1
  sorted := (List.pairwise_cons.mp h.sorted).2
  delta d hd := h.delta d (List.mem_cons_of_mem _ hd)

/-- A delta and an event, with the running status behind them. -/
def readDeltaEvent (running : Option UInt8) (bs : Bytes) :
    Option (Nat × Event × Option UInt8 × Bytes) := do
  let (delta, bs) ← readVlq bs
  let (event, running, bs) ← readEvent running bs
  some (delta, event, running, bs)

/-- The end of a track is read as such, with the delta zero in front of it. -/
theorem readDeltaEvent_eot (running : Option UInt8) (rest : Bytes) :
    readDeltaEvent running (endOfTrack ++ rest) = some (0, eot, none, rest) := by
  have hbytes : endOfTrack ++ rest = 0x00 :: 0xFF :: 0x2F :: 0x00 :: ([] ++ rest) := by
    simp [endOfTrack]
  have hevent : readEvent running (0xFF :: 0x2F :: 0x00 :: ([] ++ rest))
      = some (eot, none, rest) :=
    readEvent_meta running (by decide) (by decide) rfl rest
  rw [hbytes, readDeltaEvent, readVlq_single (by decide), Option.bind_eq_bind, Option.bind_some]
  dsimp only
  rw [hevent]
  rfl

/-- The first event that was written is the first one read, with its delta and the running status
that it leaves. -/
theorem readDeltaEvent_cons {lastTick : UInt32} {we : WireEvent} {ws : List WireEvent}
    (h : Writable lastTick (we :: ws)) (lastStatus : UInt8) (rest : Bytes) :
    readDeltaEvent (runningOf lastStatus) (writeWireEvents lastTick lastStatus (we :: ws) ++ rest)
      = some (we.tick.toNat - lastTick.toNat, wireMessage we, runningOf we.status,
          writeWireEvents we.tick we.status ws ++ rest) := by
  have hdelta := toNat_delta (h.first we List.mem_cons_self)
  have hsmall : (we.tick - lastTick).toNat < 2 ^ 28 := by
    rw [hdelta]
    exact h.delta _ List.mem_cons_self
  rw [writeWireEvents_cons, List.append_assoc, List.append_assoc, readDeltaEvent,
    readVlq_encodeVlq _ hsmall]
  simp [readEvent_messageBytes (h.valid we List.mem_cons_self), hdelta]

/-- The running status remembers the status. -/
theorem runningOf_injective : Function.Injective runningOf := by
  intro a b h
  unfold runningOf at h
  split at h
  case isTrue ha =>
    split at h
    case isTrue hb => rw [ha, hb]
    case isFalse => exact absurd h (by simp)
  case isFalse =>
    split at h
    case isTrue => exact absurd h (by simp)
    case isFalse => exact Option.some.inj h

/-- Equal bytes come from equal events, whatever follows the End of Track. Induction on both
lists: the two writers have the same `last_tick` and `last_status` after every round. -/
theorem writeWireEvents_unique {ws ws' : List WireEvent} {lastTick : UInt32} {lastStatus : UInt8}
    {rest rest' : Bytes} (h : Writable lastTick ws) (h' : Writable lastTick ws')
    (heq : writeWireEvents lastTick lastStatus ws ++ (endOfTrack ++ rest)
      = writeWireEvents lastTick lastStatus ws' ++ (endOfTrack ++ rest')) :
    ws.map wireTrackEvent = ws'.map wireTrackEvent ∧ rest = rest' := by
  have hread := congrArg (readDeltaEvent (runningOf lastStatus)) heq
  induction ws generalizing ws' lastTick lastStatus with
  | nil =>
    rw [writeWireEvents, List.nil_append, readDeltaEvent_eot] at hread
    cases ws' with
    | nil => exact ⟨rfl, List.append_cancel_left heq⟩
    | cons we' ws' =>
      rw [readDeltaEvent_cons h'] at hread
      -- One writer has ended: its End of Track would have to be a note message of the other one.
      have hmessage : eot = wireMessage we' := congrArg (fun p => p.2.1) (Option.some.inj hread)
      exact absurd hmessage.symm (wireMessage_ne_eot we')
  | cons we ws ih =>
    rw [readDeltaEvent_cons h] at hread
    cases ws' with
    | nil =>
      rw [writeWireEvents, List.nil_append, readDeltaEvent_eot] at hread
      have hmessage : wireMessage we = eot := congrArg (fun p => p.2.1) (Option.some.inj hread)
      exact absurd hmessage (wireMessage_ne_eot we)
    | cons we' ws' =>
      rw [readDeltaEvent_cons h'] at hread
      obtain ⟨hdelta, hread⟩ := Prod.mk.inj (Option.some.inj hread)
      obtain ⟨hmessage, hread⟩ := Prod.mk.inj hread
      obtain ⟨hstatus, hrest⟩ := Prod.mk.inj hread
      have hle := UInt32.le_iff_toNat_le.mp (h.first we List.mem_cons_self)
      have hle' := UInt32.le_iff_toNat_le.mp (h'.first we' List.mem_cons_self)
      -- Both deltas start from `lastTick`, so equal deltas are equal ticks.
      have htick : we.tick = we'.tick := UInt32.toNat_inj.mp (by omega)
      have hstatus' := runningOf_injective hstatus
      have htail := h'.tail
      rw [← htick, ← hstatus'] at hrest
      rw [← htick] at htail
      obtain ⟨hmap, hend⟩ := ih h.tail htail hrest (congrArg _ hrest)
      refine ⟨?_, hend⟩
      rw [List.map_cons, List.map_cons, hmap, wireTrackEvent, wireTrackEvent, htick, hmessage]

/-! ### Tracks

The name of a track is its first event, and its length is one byte. Behind it stand the wire events,
which are compared as a whole. -/

/-- The tracks have the same name and, as multisets, the same note ons and note offs. -/
def SameTrack (track track' : MidiTrack) : Prop :=
  track.name = track'.name ∧
    (track.events.flatMap noteEvents).Perm (track'.events.flatMap noteEvents)

/-- An instrument track that the renderer writes readably. -/
structure ReadableTrack (std : StdSort wireEventLt) (track : MidiTrack) : Prop where
  name_le : track.name.length ≤ 127
  velocity_le : ∀ ev ∈ track.events, ev.velocity ≤ 127
  delta_lt : ∀ d ∈ tickDeltas 0 (wireOrder std track), d < 2 ^ 28

variable {std : StdSort wireEventLt}

/-- The wire events of a readable track are writable. -/
theorem ReadableTrack.writable {track : MidiTrack} (h : ReadableTrack std track) :
    Writable 0 (wireOrder std track) where
  valid _ hwe := valid_of_mem_wireOrder std track (fun ev hev _ => h.velocity_le ev hev) hwe
  first _ _ := UInt32.le_iff_toNat_le.mpr (Nat.zero_le _)
  sorted := pairwise_tick_wireOrder std track
  delta := h.delta_lt

/-- The name is behind its length. -/
theorem nameBytes_unique {name name' rest rest' : Bytes} (h : name.length ≤ 127)
    (h' : name'.length ≤ 127) (heq : nameBytes name ++ rest = nameBytes name' ++ rest') :
    name = name' ∧ rest = rest' := by
  simp only [nameBytes, encodeVlq_zero, List.cons_append, List.nil_append, List.cons.injEq,
    true_and] at heq
  obtain ⟨hlen, heq⟩ := heq
  have hlength : name.length = name'.length := by
    have hnat := congrArg UInt8.toNat hlen
    rw [u8cast_toNat (by omega) (by omega), u8cast_toNat (by omega) (by omega)] at hnat
    omega
  exact List.append_inj heq hlength

/-- Two tracks that begin a file with the same bytes are the same, and so is what follows. -/
theorem buildInstrumentTrack_unique {track track' : MidiTrack} {rest rest' : Bytes}
    (h : ReadableTrack std track) (h' : ReadableTrack std track')
    (heq : buildInstrumentTrack std track ++ rest = buildInstrumentTrack std track' ++ rest') :
    SameTrack track track' ∧ rest = rest' := by
  simp only [buildInstrumentTrack, writeMTrk, trackEvents, List.append_assoc] at heq
  have heq := List.append_cancel_left heq
  -- The length fields have four bytes each. Their values play no part.
  have heq := List.append_inj_right heq (by simp only [length_writeBe32])
  obtain ⟨hname, heq⟩ := nameBytes_unique h.name_le h'.name_le heq
  obtain ⟨hmap, hrest⟩ := writeWireEvents_unique h.writable h'.writable heq
  refine ⟨⟨hname, ?_⟩, hrest⟩
  have hperm := map_wireOrder_perm std track
  rw [hmap] at hperm
  exact hperm.symm.trans (map_wireOrder_perm std track')

/-- Equal bytes of all tracks make the tracks equal, one by one. -/
theorem instrumentTracks_unique {tracks tracks' : List MidiTrack}
    (h : ∀ track ∈ tracks, ReadableTrack std track)
    (h' : ∀ track ∈ tracks', ReadableTrack std track)
    (heq : tracks.flatMap (buildInstrumentTrack std) = tracks'.flatMap (buildInstrumentTrack std)) :
    List.Forall₂ SameTrack tracks tracks' := by
  have hne : ∀ (track : MidiTrack) (rest : Bytes), buildInstrumentTrack std track ++ rest ≠ [] :=
    fun _ _ =>
      List.append_ne_nil_of_left_ne_nil (by simp [buildInstrumentTrack, writeMTrk, bytes]) _
  -- No chunk is empty, so the lists of tracks end together.
  induction tracks generalizing tracks' with
  | nil =>
    cases tracks' with
    | nil => exact .nil
    | cons track' tracks' => exact absurd heq.symm (hne track' _)
  | cons track tracks ih =>
    cases tracks' with
    | nil => exact absurd heq (hne track _)
    | cons track' tracks' =>
      rw [List.flatMap_cons, List.flatMap_cons] at heq
      obtain ⟨hsame, hrest⟩ := buildInstrumentTrack_unique (h track List.mem_cons_self)
        (h' track' List.mem_cons_self) heq
      exact .cons hsame (ih (fun t ht => h t (List.mem_cons_of_mem _ ht))
        (fun t ht => h' t (List.mem_cons_of_mem _ ht)) hrest)

/-! ### Files

What stands in front of the instrument tracks has the same length in both files, so equal files have
equal parts. -/

/-- The tempo track has a fixed length. -/
theorem length_tempoEvents (comp : SmfComposition) : (tempoEvents comp).length = 25 := rfl

/-- With its header it is eight bytes longer. -/
theorem length_buildTempoTrack (comp : SmfComposition) : (buildTempoTrack comp).length = 33 := by
  rw [buildTempoTrack, writeMTrk, List.length_append, List.length_append, length_tempoEvents,
    length_writeBe32]
  rfl

/-- The header and the tempo track have a fixed length. -/
theorem render_eq_iff {comp comp' : SmfComposition} (hppq : comp.ppq = comp'.ppq)
    (htracks : comp.tracks.length = comp'.tracks.length) :
    render std comp = render std comp' ↔ tempoEvents comp = tempoEvents comp' ∧
      comp.tracks.flatMap (buildInstrumentTrack std)
        = comp'.tracks.flatMap (buildInstrumentTrack std) := by
  have hheader : writeMThd comp = writeMThd comp' := by rw [writeMThd, writeMThd, hppq, htracks]
  rw [render, render, hheader, List.append_assoc, List.append_assoc, List.append_cancel_left_eq]
  constructor
  · intro h
    -- The tempo track has the same length in both, so the bytes split at one place.
    obtain ⟨htempo, hrest⟩ := List.append_inj h (by simp only [length_buildTempoTrack])
    rw [buildTempoTrack, buildTempoTrack, writeMTrk, writeMTrk] at htempo
    have hlength : (tempoEvents comp).length = (tempoEvents comp').length := by
      simp only [length_tempoEvents]
    rw [hlength] at htempo
    exact ⟨List.append_cancel_left htempo, hrest⟩
  · rintro ⟨htempo, hrest⟩
    rw [buildTempoTrack, buildTempoTrack, htempo, hrest]

end AiMidi.Proofs.MidiRenderer
