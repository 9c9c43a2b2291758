import AiMidi.Lib.Smf
import AiMidi.Theory.MidiRenderer

/-!
# `AiMidi.Proofs.MidiRenderer.WireOrder`: the sorted wire events of a track

A wire event is `Valid` when its status byte is a note message and its data bytes are below
`0x80`. Every wire event of a `MidiEvent` with a velocity below 128 is. `wireMessage` reads
a valid wire event as an SMF event, and `map_wirePair` says that the pair of one `MidiEvent`
reads as one note on at `tick_on` and one note off at `tick_off`.

The sort orders by tick, and by note off before note on at one tick
(`pairwise_tick_wireOrder`, `wireOrder_off_before_on`). Both hold for every `StdSort`.
-/

set_option autoImplicit false

namespace AiMidi.Proofs.MidiRenderer

open AiMidi.Lib AiMidi.Lib.Smf
open AiMidi.Theory

/-! ### Status bytes

The four low bits of a status are the channel. The kind stands in the other ones and is not touched
by it. -/

/-- The status of a note on, whatever the channel. -/
theorem noteOn_kind (channel : UInt8) : (0x90 ||| (channel &&& 0x0F)) &&& 0xF0 = 0x90 :=
  forall_byte (P := fun c => (0x90 ||| (c &&& 0x0F)) &&& 0xF0 = 0x90) (by decide +kernel) channel

/-- The status of a note off, whatever the channel. -/
theorem noteOff_kind (channel : UInt8) : (0x80 ||| (channel &&& 0x0F)) &&& 0xF0 = 0x80 :=
  forall_byte (P := fun c => (0x80 ||| (c &&& 0x0F)) &&& 0xF0 = 0x80) (by decide +kernel) channel

/-- The low half of the status of a note on is the channel. -/
theorem noteOn_channel (channel : UInt8) :
    (0x90 ||| (channel &&& 0x0F)) &&& 0x0F = channel &&& 0x0F :=
  forall_byte (P := fun c => (0x90 ||| (c &&& 0x0F)) &&& 0x0F = c &&& 0x0F)
    (by decide +kernel) channel

/-- The low half of the status of a note off is the channel. -/
theorem noteOff_channel (channel : UInt8) :
    (0x80 ||| (channel &&& 0x0F)) &&& 0x0F = channel &&& 0x0F :=
  forall_byte (P := fun c => (0x80 ||| (c &&& 0x0F)) &&& 0x0F = c &&& 0x0F)
    (by decide +kernel) channel

/-- A status byte of a note message lies in the range of channel messages. -/
theorem status_range {status : UInt8}
    (h : status &&& 0xF0 = 0x80 ∨ status &&& 0xF0 = 0x90) : 0x80 ≤ status ∧ status < 0xF0 :=
  forall_byte (P := fun s => s &&& 0xF0 = 0x80 ∨ s &&& 0xF0 = 0x90 → 0x80 ≤ s ∧ s < 0xF0)
    (by decide +kernel) status h

/-! ### Wire events as SMF events

A note off is written with the velocity of its note. The reading of a pair is its note on and its
note off, each with its tick. -/

/-- A wire event that is a note message with data bytes below `0x80`. -/
structure Valid (we : WireEvent) : Prop where
  kind : we.status &&& 0xF0 = if we.isNoteOff then 0x80 else 0x90
  key : we.data1 < 0x80
  velocity : we.data2 < 0x80

/-- The status of a valid event is that of a channel message. -/
theorem Valid.status_range {we : WireEvent} (h : Valid we) :
    0x80 ≤ we.status ∧ we.status < 0xF0 := by
  apply MidiRenderer.status_range
  rw [h.kind]
  cases we.isNoteOff
  · exact Or.inr rfl
  · exact Or.inl rfl

/-- A valid event has a status, so the running status of the start never stands for it. -/
theorem Valid.status_ne_zero {we : WireEvent} (h : Valid we) : we.status ≠ 0 := by
  intro h0
  exact absurd h.status_range.1 (by rw [h0]; decide)

/-- A data byte, by its top bit and by the largest value. -/
theorem lt_0x80_iff {b : UInt8} : b < 0x80 ↔ b ≤ 127 := by
  rw [UInt8.lt_iff_toNat_lt, UInt8.le_iff_toNat_le]
  exact Nat.lt_succ_iff

/-- The message of a wire event. -/
def wireMessage (we : WireEvent) : Event :=
  if we.isNoteOff then .noteOff (we.status &&& 0x0F) we.data1 we.data2
  else .noteOn (we.status &&& 0x0F) we.data1 we.data2

/-- A wire event as a track event. -/
def wireTrackEvent (we : WireEvent) : TrackEvent := ⟨we.tick.toNat, wireMessage we⟩

/-- The track events of one `MidiEvent`: a note on and a note off, or nothing for a note
above 127. -/
def noteEvents (ev : MidiEvent) : List TrackEvent :=
  if ev.note > 127 then []
  else
    [⟨ev.tickOn.toNat, .noteOn (ev.channel &&& 0x0F) ev.note ev.velocity⟩,
     ⟨ev.tickOff.toNat, .noteOff (ev.channel &&& 0x0F) ev.note ev.velocity⟩]

/-- A wire event is not the end of the track. -/
theorem wireMessage_ne_eot (we : WireEvent) : wireMessage we ≠ eot := by
  unfold wireMessage eot
  split <;> simp

/-- A valid wire event reads as its message. -/
theorem readVoice_wire {we : WireEvent} (h : Valid we) (rest : Bytes) :
    readVoice we.status (we.data1 :: we.data2 :: rest) = some (wireMessage we, rest) := by
  have hkind := h.kind
  unfold wireMessage
  cases hoff : we.isNoteOff with
  | true =>
    rw [hoff] at hkind
    exact readVoice_noteOff hkind h.key h.velocity rest
  | false =>
    rw [hoff] at hkind
    exact readVoice_noteOn hkind h.key h.velocity rest

/-- The wire events of a note are its two track events. -/
theorem map_wirePair (ev : MidiEvent) : (wirePair ev).map wireTrackEvent = noteEvents ev := by
  unfold wirePair noteEvents
  split
  · rfl
  -- The channel survives the masks of the status byte.
  · simp [wireTrackEvent, wireMessage, noteOn_channel, noteOff_channel]

/-- The wire events of a note with a velocity below 128 are valid. A note above 127 has none. -/
theorem valid_of_mem_wirePair {ev : MidiEvent} (hvel : ev.note ≤ 127 → ev.velocity ≤ 127)
    {we : WireEvent} (h : we ∈ wirePair ev) : Valid we := by
  unfold wirePair at h
  split at h
  · exact absurd h (by simp)
  · rename_i hnote
    have hle : ev.note ≤ 127 := UInt8.not_lt.mp hnote
    have hkey : ev.note < 0x80 := lt_0x80_iff.mpr hle
    have hvel' : ev.velocity < 0x80 := lt_0x80_iff.mpr (hvel hle)
    simp only [List.mem_cons, List.not_mem_nil, or_false] at h
    rcases h with rfl | rfl
    · exact ⟨noteOn_kind _, hkey, hvel'⟩
    · exact ⟨noteOff_kind _, hkey, hvel'⟩

/-! ### The pair of one event

A note on and a note off belong together by channel and note, which is all that the wire keeps of
the event. -/

/-- The channel and the note of a wire event. -/
def wireKey (we : WireEvent) : UInt8 × UInt8 := (we.status &&& 0x0F, we.data1)

/-- The channel and the note of an event, as the wire carries them. -/
def eventKey (ev : MidiEvent) : UInt8 × UInt8 := (ev.channel &&& 0x0F, ev.note)

/-- A wire event of `ev` carries its key, and the tick of its kind. -/
theorem mem_wirePair {ev : MidiEvent} {we : WireEvent} (h : we ∈ wirePair ev) :
    ev.note ≤ 127 ∧ wireKey we = eventKey ev ∧
      we.tick = if we.isNoteOff then ev.tickOff else ev.tickOn := by
  unfold wirePair at h
  split at h
  · exact absurd h (by simp)
  · rename_i hnote
    refine ⟨UInt8.not_lt.mp hnote, ?_⟩
    simp only [List.mem_cons, List.not_mem_nil, or_false] at h
    rcases h with rfl | rfl
    · exact ⟨by simp [wireKey, eventKey, noteOn_channel], rfl⟩
    · exact ⟨by simp [wireKey, eventKey, noteOff_channel], rfl⟩

/-- A rendered event has a wire event of each kind. -/
theorem exists_mem_wirePair {ev : MidiEvent} (hnote : ev.note ≤ 127) (off : Bool) :
    ∃ we ∈ wirePair ev, we.isNoteOff = off := by
  unfold wirePair
  rw [if_neg (UInt8.not_lt.mpr hnote)]
  cases off
  · exact ⟨_, List.mem_cons_self, rfl⟩
  · exact ⟨_, List.mem_cons_of_mem _ List.mem_cons_self, rfl⟩

/-! ### The order

The sort is any sort by the comparator. What is used of it is that it permutes, and that no later
event is smaller than an earlier one. -/

/-- Not smaller under the comparator: a later tick, or the same tick and not a note on
before a note off. -/
theorem wireEventLt_eq_false_iff {a b : WireEvent} :
    wireEventLt b a = false ↔
      a.tick < b.tick ∨ a.tick = b.tick ∧ (b.isNoteOff = true → a.isNoteOff = true) := by
  unfold wireEventLt
  by_cases heq : b.tick = a.tick
  · simp [heq]
  · have hne : a.tick ≠ b.tick := fun h => heq h.symm
    simp only [heq, hne, ne_eq, not_false_eq_true, if_true, false_and, or_false,
      decide_eq_false_iff_not, UInt32.not_lt]
    exact ⟨fun h => UInt32.lt_of_le_of_ne h hne, UInt32.le_of_lt⟩

/-- A concrete sort for the wire events. -/
def wireSort : StdSort wireEventLt :=
  StdSort.ofInsertionSort wireEventLt
    (fun a b c hab hbc => by
      rw [wireEventLt_eq_false_iff] at hab hbc ⊢
      -- Transitive: a later tick on either side decides, and at one tick the kinds chain.
      rcases hab with hab | ⟨hab, hab'⟩ <;> rcases hbc with hbc | ⟨hbc, hbc'⟩
      · exact Or.inl (UInt32.lt_trans hab hbc)
      · exact Or.inl (hbc ▸ hab)
      · exact Or.inl (hab ▸ hbc)
      · exact Or.inr ⟨hab.trans hbc, fun hc => hab' (hbc' hc)⟩)
    (fun a b => by
      rw [wireEventLt_eq_false_iff, wireEventLt_eq_false_iff]
      -- Total: at one tick the kind of `a` decides.
      rcases Nat.lt_trichotomy a.tick.toNat b.tick.toNat with h | h | h
      · exact Or.inl (Or.inl (UInt32.lt_iff_toNat_lt.mpr h))
      · have heq : a.tick = b.tick := UInt32.toNat_inj.mp h
        cases ha : a.isNoteOff
        · exact Or.inr (Or.inr ⟨heq.symm, fun h' => absurd h' (by simp)⟩)
        · exact Or.inl (Or.inr ⟨heq, fun _ => rfl⟩)
      · exact Or.inr (Or.inl (UInt32.lt_iff_toNat_lt.mpr h)))

variable (std : StdSort wireEventLt) (track : MidiTrack)

/-- The sorted wire events are, as a multiset, the events of the track. -/
theorem map_wireOrder_perm :
    ((wireOrder std track).map wireTrackEvent).Perm (track.events.flatMap noteEvents) := by
  have h := (std.perm (wireEvents track.events)).map wireTrackEvent
  have hmap : (wireEvents track.events).map wireTrackEvent
      = track.events.flatMap noteEvents := by
    rw [wireEvents, List.map_flatMap]
    exact List.flatMap_congr fun ev _ => map_wirePair ev
  rwa [hmap] at h

/-- The wire events of a track are those of its notes, in another order. -/
theorem mem_wireOrder {we : WireEvent} :
    we ∈ wireOrder std track ↔ ∃ ev ∈ track.events, we ∈ wirePair ev := by
  rw [wireOrder, std.mem_sort, wireEvents, List.mem_flatMap]

/-- They are valid when the notes that are written have valid velocities. -/
theorem valid_of_mem_wireOrder
    (hvel : ∀ ev ∈ track.events, ev.note ≤ 127 → ev.velocity ≤ 127) {we : WireEvent}
    (h : we ∈ wireOrder std track) : Valid we := by
  obtain ⟨ev, hev, hmem⟩ := (mem_wireOrder std track).mp h
  exact valid_of_mem_wirePair (hvel ev hev) hmem

/-- Ticks do not decrease along the order. -/
theorem pairwise_tick_wireOrder :
    (wireOrder std track).Pairwise fun a b => a.tick ≤ b.tick :=
  (std.sorted _).imp fun h => by
    rcases wireEventLt_eq_false_iff.mp h with hlt | ⟨heq, -⟩
    · exact UInt32.le_of_lt hlt
    · exact heq ▸ UInt32.le_refl _

/-- At one tick, a note off does not come after a note on. -/
theorem wireOrder_off_before_on :
    (wireOrder std track).Pairwise fun a b =>
      a.tick = b.tick → b.isNoteOff = true → a.isNoteOff = true :=
  (std.sorted _).imp fun {a b} h heq => by
    rcases wireEventLt_eq_false_iff.mp h with hlt | ⟨-, hoff⟩
    · exact absurd heq (UInt32.ne_of_lt hlt)
    · exact hoff

end AiMidi.Proofs.MidiRenderer
