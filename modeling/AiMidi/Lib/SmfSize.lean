import AiMidi.Lib.Smf
import Mathlib.Data.Nat.Log

/-!
# `AiMidi.Lib.SmfSize`: what a track body can hold

The format bounds what a reader can have read. A delta has four bytes of seven bits, so it is
below `2 ^ 28` (`deltas_lt_of_readEvents`). The data bytes of a channel message are below `0x80`
(`dataBytes_lt_of_readEvents`). And a body that reads as given events has at least `minLength`
bytes (`minLength_le_of_readEvents`): no delta has fewer bytes than its value needs, and a
status byte is left out only where the running status stands for it.

Each bound is an induction on the fuel of `readEvents` over `readEvents_cases`, which says what
one round of the reader consumes.

The inversion of the reader is done once: `readEvent_cases` and `readEvents_cases` list the shapes
of what was read, and the bounds only look at these. A delta is bounded by its bytes
(`readVlq_bounds`), and a sorted track by its largest gap (`deltas_lt_iff`).
-/

set_option autoImplicit false

namespace AiMidi.Lib.Smf

/-! ### Sizes

The sizes are those of the shortest way to write an event. Leading groups of zeros are not counted,
in a delta as in the length of a block. -/

/-- The bytes of a variable-length quantity without leading groups of zeros. -/
def vlqLength (value : Nat) : Nat := Nat.log 128 value + 1

/-- The running status behind an event. -/
def Event.running : Event → Option UInt8
  | .noteOff channel _ _ => some (0x80 ||| channel)
  | .noteOn channel _ _  => some (0x90 ||| channel)
  | .voice status _      => some status
  | .sysex _ _           => none
  | .metaEvent _ _       => none

/-- The data bytes of a channel message. -/
def Event.dataBytes : Event → Bytes
  | .noteOff _ key velocity => [key, velocity]
  | .noteOn _ key velocity  => [key, velocity]
  | .voice _ data           => data
  | .sysex _ _              => []
  | .metaEvent _ _          => []

/-- The bytes of an event behind its delta. The status byte of a channel message is not
counted when it is the running status. -/
def Event.size (running : Option UInt8) : Event → Nat
  | .sysex _ data     => 1 + vlqLength data.length + data.length
  | .metaEvent _ data => 2 + vlqLength data.length + data.length
  | event             => (if running = event.running then 0 else 1) + event.dataBytes.length

/-- The deltas of the events, from `tick` on. -/
def deltas (tick : Nat) : List TrackEvent → List Nat
  | []      => []
  | e :: es => (e.tick - tick) :: deltas e.tick es

/-- The fewest bytes of a track body with these events, from `tick` on under the running
status. -/
def minLength (running : Option UInt8) (tick : Nat) : List TrackEvent → Nat
  | []      => 0
  | e :: es =>
      vlqLength (e.tick - tick) + e.event.size running + minLength e.event.running e.tick es

/-! ### One quantity, one event

What a reader took for a quantity or an event is at least as long as its shortest form. The lemmas
go through the kinds of events once. -/

/-- A quantity that was read took between one and `n` bytes, of seven bits each. -/
theorem readVlqGroups_length {n acc value : Nat} {bs rest : Bytes}
    (h : readVlqGroups n acc bs = some (value, rest)) :
    ∃ k, 1 ≤ k ∧ k ≤ n ∧ bs.length = k + rest.length ∧ value < (acc + 1) * 128 ^ k := by
  obtain ⟨hdecode, hlength⟩ := readVlqGroups_iff.mp h
  obtain ⟨k, hk, htaken, hvalue⟩ := Vlq.decodeFrom_bound hdecode
  exact ⟨k, hk, by omega, htaken, hvalue⟩

/-- `k` bytes hold a value of at most `k` groups. -/
theorem vlqLength_le {value k : Nat} (hk : 1 ≤ k) (h : value < 128 ^ k) : vlqLength value ≤ k := by
  rw [vlqLength]
  rcases Nat.eq_zero_or_pos value with rfl | hpos
  · rw [Nat.log_zero_right]
    exact hk
  · exact Nat.log_lt_of_lt_pow (Nat.pos_iff_ne_zero.mp hpos) h

/-- A variable-length quantity that was read is below `2 ^ 28`, and its shortest encoding is not
longer than what was read. -/
theorem readVlq_bounds {value : Nat} {bs rest : Bytes} (h : readVlq bs = some (value, rest)) :
    value < 2 ^ 28 ∧ vlqLength value + rest.length ≤ bs.length := by
  obtain ⟨k, hk, hk4, hlen, hvalue⟩ := readVlqGroups_length h
  rw [Nat.zero_add, Nat.one_mul] at hvalue
  have hpow : 128 ^ k ≤ 128 ^ 4 := Nat.pow_le_pow_right (by decide) hk4
  have hle := vlqLength_le hk hvalue
  exact ⟨Nat.lt_of_lt_of_le hvalue hpow, by omega⟩

/-- A block takes at least its data and the shortest form of their length. -/
theorem readBlock_length {bs data rest : Bytes} (h : readBlock bs = some (data, rest)) :
    vlqLength data.length + data.length + rest.length ≤ bs.length := by
  simp only [readBlock, Option.bind_eq_bind, Option.bind_eq_some_iff, Prod.exists] at h
  obtain ⟨len, bs', hvlq, hsplit⟩ := h
  have hle := (readVlq_bounds hvlq).2
  obtain ⟨hdata, hlen⟩ := splitBytes_length hsplit
  rw [hdata]
  omega

/-- The status of a note off is put together again from its channel. -/
theorem eq_noteOff_status {status : UInt8} (h : status &&& 0xF0 = 0x80) :
    0x80 ||| (status &&& 0x0F) = status :=
  forall_byte (P := fun s => s &&& 0xF0 = 0x80 → 0x80 ||| (s &&& 0x0F) = s)
    (by decide +kernel) status h

/-- That of a note on likewise. -/
theorem eq_noteOn_status {status : UInt8} (h : status &&& 0xF0 = 0x90) :
    0x90 ||| (status &&& 0x0F) = status :=
  forall_byte (P := fun s => s &&& 0xF0 = 0x90 → 0x90 ||| (s &&& 0x0F) = s)
    (by decide +kernel) status h

/-- The size of a channel message, from its status byte. -/
theorem Event.size_of_running {event : Event} {status : UInt8} (h : event.running = some status)
    (running : Option UInt8) :
    event.size running = (if running = some status then 0 else 1) + event.dataBytes.length := by
  cases event with
  | noteOff channel key velocity => rw [← h]; rfl
  | noteOn channel key velocity => rw [← h]; rfl
  | voice status' data => rw [← h]; rfl
  | sysex status' data => exact absurd h (by simp [Event.running])
  | metaEvent type data => exact absurd h (by simp [Event.running])

/-- A channel message that was read carries its status, and data bytes below `0x80`. -/
theorem readVoice_spec {status : UInt8} {bs rest : Bytes} {event : Event}
    (h : readVoice status bs = some (event, rest)) :
    event.running = some status ∧ (∀ b ∈ event.dataBytes, b < 0x80) ∧
      bs.length = event.dataBytes.length + rest.length := by
  simp only [readVoice, Option.bind_eq_bind, Option.bind_eq_some_iff, Prod.exists] at h
  obtain ⟨data, rest', hsplit, _, hdemand, h⟩ := h
  obtain ⟨hdata, hlen⟩ := splitBytes_length hsplit
  have hlow : ∀ b ∈ data, b < 0x80 := by
    unfold demand at hdemand
    split at hdemand
    case isTrue hall => simpa using hall
    case isFalse => exact absurd hdemand (by simp)
  -- A note is split off by its kind, the other messages keep their data as it was read.
  split at h
  case h_1 key velocity hkind =>
    obtain ⟨rfl, rfl⟩ := Prod.mk.inj (Option.some.inj h)
    exact ⟨congrArg some (eq_noteOff_status hkind), hlow, by rw [hlen, ← hdata]; rfl⟩
  case h_2 key velocity hkind =>
    obtain ⟨rfl, rfl⟩ := Prod.mk.inj (Option.some.inj h)
    exact ⟨congrArg some (eq_noteOn_status hkind), hlow, by rw [hlen, ← hdata]; rfl⟩
  case h_3 =>
    obtain ⟨rfl, rfl⟩ := Prod.mk.inj (Option.some.inj h)
    exact ⟨rfl, hlow, by rw [hlen, ← hdata]; rfl⟩

/-- What an event was read from: a block behind a meta or a system exclusive status, or a channel
message behind its status byte or under the running status. -/
theorem readEvent_cases {running running' : Option UInt8} {bs rest : Bytes} {event : Event}
    (h : readEvent running bs = some (event, running', rest)) :
    (∃ bs' data, readBlock bs' = some (data, rest) ∧ running' = none ∧
      ((∃ type, bs = 0xFF :: type :: bs' ∧ event = .metaEvent type data) ∨
        ∃ status, bs = status :: bs' ∧ event = .sysex status data)) ∨
    ∃ bs' status, readVoice status bs' = some (event, rest) ∧ running' = some status ∧
      (bs = status :: bs' ∨ (bs = bs' ∧ running = some status)) := by
  cases bs with
  | nil => exact absurd h (by simp [readEvent])
  | cons b bs =>
    -- The branches of the status byte: meta, system exclusive, a byte the format leaves undefined,
    -- a voice status, and a data byte under running status.
    unfold readEvent at h
    dsimp only at h
    split at h
    case isTrue hff =>
      cases bs with
      | nil => exact absurd h (by simp)
      | cons type bs =>
        simp only [Option.bind_eq_bind, Option.bind_eq_some_iff, Prod.exists, Option.some.injEq,
          Prod.mk.injEq] at h
        obtain ⟨data, rest', hblock, -, -, rfl, rfl, rfl⟩ := h
        exact .inl ⟨bs, data, hblock, rfl, .inl ⟨type, by rw [hff], rfl⟩⟩
    case isFalse =>
    split at h
    case isTrue =>
      simp only [Option.bind_eq_bind, Option.bind_eq_some_iff, Prod.exists, Option.some.injEq,
        Prod.mk.injEq] at h
      obtain ⟨data, rest', hblock, rfl, rfl, rfl⟩ := h
      exact .inl ⟨bs, data, hblock, rfl, .inr ⟨b, rfl, rfl⟩⟩
    case isFalse =>
    split at h
    case isTrue => exact absurd h (by simp)
    case isFalse =>
    split at h
    case isTrue =>
      simp only [Option.bind_eq_bind, Option.bind_eq_some_iff, Prod.exists, Option.some.injEq,
        Prod.mk.injEq] at h
      obtain ⟨event', rest', hvoice, rfl, rfl, rfl⟩ := h
      exact .inr ⟨bs, b, hvoice, rfl, .inl rfl⟩
    case isFalse =>
      simp only [Option.bind_eq_bind, Option.bind_eq_some_iff, Prod.exists, Option.some.injEq,
        Prod.mk.injEq] at h
      obtain ⟨status, rfl, event', rest', hvoice, rfl, rfl, rfl⟩ := h
      exact .inr ⟨b :: bs, status, hvoice, rfl, .inr ⟨rfl, rfl⟩⟩

/-- An event that was read took at least its size, and leaves its running status. -/
theorem readEvent_spec {running running' : Option UInt8} {bs rest : Bytes} {event : Event}
    (h : readEvent running bs = some (event, running', rest)) :
    running' = event.running ∧ (∀ b ∈ event.dataBytes, b < 0x80) ∧
      event.size running + rest.length ≤ bs.length := by
  rcases readEvent_cases h with ⟨bs', data, hblock, rfl, hevent⟩ | ⟨bs', status, hvoice, rfl, hbs⟩
  · have hle := readBlock_length hblock
    rcases hevent with ⟨type, rfl, rfl⟩ | ⟨status, rfl, rfl⟩
    · refine ⟨rfl, by simp [Event.dataBytes], ?_⟩
      simp only [Event.size, List.length_cons]
      omega
    · refine ⟨rfl, by simp [Event.dataBytes], ?_⟩
      simp only [Event.size, List.length_cons]
      omega
  · obtain ⟨hrunning, hlow, hlen⟩ := readVoice_spec hvoice
    refine ⟨hrunning.symm, hlow, ?_⟩
    rw [Event.size_of_running hrunning]
    rcases hbs with rfl | ⟨rfl, rfl⟩
    -- The status byte may be there although the running status stands for it.
    · rw [List.length_cons]
      split <;> omega
    · rw [if_pos rfl]
      omega

/-! ### A track body

The body of a track is read event by event, so its bounds are sums over the events. The running
status is carried along, since it decides on one byte of each. -/

/-- One round of the reader: a delta, an event, and the End of Track or the rest of the body. -/
theorem readEvents_cases {n tick : Nat} {running : Option UInt8} {bs : Bytes}
    {events : List TrackEvent} (h : readEvents (n + 1) running tick bs = some events) :
    ∃ delta event bs' bs'' rest,
      readVlq bs = some (delta, bs') ∧ readEvent running bs' = some (event, event.running, bs'') ∧
      events = ⟨tick + delta, event⟩ :: rest ∧
      (rest = [] ∨ readEvents n event.running (tick + delta) bs'' = some rest) := by
  simp only [readEvents, Option.bind_eq_bind, Option.bind_eq_some_iff, Prod.exists] at h
  obtain ⟨delta, bs', hvlq, event, running', bs'', hevent, h⟩ := h
  obtain ⟨rfl, -, -⟩ := readEvent_spec hevent
  refine ⟨delta, event, bs', bs'', ?_⟩
  -- The End of Track closes the body, and nothing may stand behind it.
  split at h
  case isTrue =>
    split at h
    case isTrue => exact ⟨[], hvlq, hevent, (Option.some.inj h).symm, Or.inl rfl⟩
    case isFalse => exact absurd h (by simp)
  case isFalse =>
    obtain ⟨rest, hrest, h⟩ := Option.bind_eq_some_iff.mp h
    exact ⟨rest, hvlq, hevent, (Option.some.inj h).symm, Or.inr hrest⟩

/-- No body is shorter than the fewest bytes of its events. -/
theorem minLength_le_of_readEvents {n tick : Nat} {running : Option UInt8} {bs : Bytes}
    {events : List TrackEvent} (h : readEvents n running tick bs = some events) :
    minLength running tick events ≤ bs.length := by
  induction n generalizing running tick bs events with
  | zero => exact absurd h (by simp [readEvents])
  | succ n ih =>
    obtain ⟨delta, event, bs', bs'', rest, hvlq, hevent, rfl, hrest⟩ := readEvents_cases h
    -- One round takes a delta and an event, each at least as long as its shortest form.
    have hdelta := (readVlq_bounds hvlq).2
    have hsize := (readEvent_spec hevent).2.2
    have htail : minLength event.running (tick + delta) rest ≤ bs''.length := by
      rcases hrest with rfl | hrest
      · exact Nat.zero_le _
      · exact ih hrest
    rw [minLength]
    dsimp only
    rw [Nat.add_sub_cancel_left]
    omega

/-- A delta has at most four bytes of seven bits. -/
theorem deltas_lt_of_readEvents {n tick : Nat} {running : Option UInt8} {bs : Bytes}
    {events : List TrackEvent} (h : readEvents n running tick bs = some events) :
    ∀ d ∈ deltas tick events, d < 2 ^ 28 := by
  induction n generalizing running tick bs events with
  | zero => exact absurd h (by simp [readEvents])
  | succ n ih =>
    obtain ⟨delta, event, bs', bs'', rest, hvlq, -, rfl, hrest⟩ := readEvents_cases h
    intro d hd
    rcases List.mem_cons.mp hd with rfl | hd
    · show tick + delta - tick < 2 ^ 28
      rw [Nat.add_sub_cancel_left]
      exact (readVlq_bounds hvlq).1
    · rcases hrest with rfl | hrest
      · exact absurd hd (by simp [deltas])
      · exact ih hrest d hd

/-- The data bytes of every channel message are below `0x80`. -/
theorem dataBytes_lt_of_readEvents {n tick : Nat} {running : Option UInt8} {bs : Bytes}
    {events : List TrackEvent} (h : readEvents n running tick bs = some events) :
    ∀ e ∈ events, ∀ b ∈ e.event.dataBytes, b < 0x80 := by
  induction n generalizing running tick bs events with
  | zero => exact absurd h (by simp [readEvents])
  | succ n ih =>
    obtain ⟨delta, event, bs', bs'', rest, -, hevent, rfl, hrest⟩ := readEvents_cases h
    intro e he
    rcases List.mem_cons.mp he with rfl | he
    · exact (readEvent_spec hevent).2.1
    · rcases hrest with rfl | hrest
      · exact absurd he List.not_mem_nil
      · exact ih hrest e he

/-! ### Deltas

The deltas of sorted events are the differences of neighbours. That all of them are small can be
said of the events in any order. -/

/-- The deltas of a track stay when events are added behind it. -/
theorem mem_deltas_append {tick d : Nat} {es es' : List TrackEvent} (h : d ∈ deltas tick es) :
    d ∈ deltas tick (es ++ es') := by
  induction es generalizing tick with
  | nil => exact absurd h (by simp [deltas])
  | cons e es ih =>
    rcases List.mem_cons.mp h with rfl | h
    · exact List.mem_cons_self
    · exact List.mem_cons_of_mem _ (ih h)

/-- The deltas of a sorted track are below a bound when every event has an earlier one, or the
start of the track, less than the bound before it. The order within one tick plays no part. -/
theorem deltas_lt_iff {bound tick : Nat} {es : List TrackEvent}
    (hfirst : ∀ e ∈ es, tick ≤ e.tick) (hsorted : es.Pairwise fun a b => a.tick ≤ b.tick) :
    (∀ d ∈ deltas tick es, d < bound) ↔
      ∀ e ∈ es, e.tick < tick + bound ∨
        ∃ e' ∈ es, e'.tick < e.tick ∧ e.tick < e'.tick + bound := by
  induction es generalizing tick with
  | nil => simp [deltas]
  | cons e es ih =>
    obtain ⟨hnext, hsorted'⟩ := List.pairwise_cons.mp hsorted
    have hle := hfirst e List.mem_cons_self
    rw [deltas, List.forall_mem_cons, List.forall_mem_cons, ih hnext hsorted']
    constructor
    · rintro ⟨hdelta, htail⟩
      refine ⟨Or.inl (by omega), fun f hf => ?_⟩
      rcases htail f hf with hlt | ⟨e', he', hbefore, hclose⟩
      -- `f` is close to `e`, which is earlier or at the same tick.
      · rcases Nat.lt_or_eq_of_le (hnext f hf) with hlt' | heq
        · exact Or.inr ⟨e, List.mem_cons_self, hlt', hlt⟩
        · exact Or.inl (by omega)
      · exact Or.inr ⟨e', List.mem_cons_of_mem e he', hbefore, hclose⟩
    · rintro ⟨hhead, htail⟩
      constructor
      -- Nothing is earlier than the first event.
      · rcases hhead with hlt | ⟨e', he', hbefore, -⟩
        · omega
        · rcases List.mem_cons.mp he' with rfl | he'
          · exact absurd hbefore (Nat.lt_irrefl _)
          · exact absurd (hnext e' he') (Nat.not_le_of_lt hbefore)
      · intro f hf
        rcases htail f hf with hlt | ⟨e', he', hbefore, hclose⟩
        · exact Or.inl (by omega)
        · rcases List.mem_cons.mp he' with rfl | he'
          · exact Or.inl hclose
          · exact Or.inr ⟨e', he', hbefore, hclose⟩

/-! ### Chunks

The reader of a chunk takes as many bytes as the length field says. The rule for a sequence of
chunks is for any property of one chunk. -/

/-- What stands in front of the rest of a chunk is its body, as long as the length field says. -/
theorem readTrack_inv {len tail rest : Bytes} {events : List TrackEvent} (hlen : len.length = 4)
    (h : readTrack (bytes "MTrk" ++ len ++ tail) = some (events, rest)) :
    ∃ body, tail = body ++ rest ∧ body.length = beNat len ∧
      readEvents body.length none 0 body = some events := by
  have hmagic : (bytes "MTrk").length = 4 := rfl
  simp only [readTrack, List.append_assoc, splitBytes_of_length hmagic,
    splitBytes_of_length hlen, Option.bind_eq_bind, Option.bind_some, decide_true, demand_true,
    Option.bind_eq_some_iff, Prod.exists, Option.some.injEq, Prod.mk.injEq] at h
  obtain ⟨body, rest', hsplit, events', hevents, rfl, rfl⟩ := h
  have hbody := (splitBytes_length hsplit).1
  unfold splitBytes at hsplit
  split at hsplit
  case isTrue =>
    obtain ⟨htake, hdrop⟩ := Prod.mk.inj (Option.some.inj hsplit)
    exact ⟨body, by rw [← htake, ← hdrop, List.take_append_drop], hbody, hevents⟩
  case isFalse => exact absurd hsplit (by simp)

/-- A sequence of chunks that reads as `events`, when a chunk that reads so is `ok` and leaves
what follows it. -/
theorem readTracks_flatMap_inv {α : Type} {chunk : α → Bytes} {events : α → List TrackEvent}
    {ok : α → Prop} {xs : List α} {rest rest' : Bytes}
    (h : ∀ x ∈ xs, ∀ rest rest', readTrack (chunk x ++ rest) = some (events x, rest') →
      ok x ∧ rest' = rest)
    (hread : readTracks xs.length (xs.flatMap chunk ++ rest) = some (xs.map events, rest')) :
    ∀ x ∈ xs, ok x := by
  induction xs with
  | nil => exact fun x hx => absurd hx List.not_mem_nil
  | cons x xs ih =>
    simp only [List.length_cons, List.flatMap_cons, List.append_assoc, readTracks,
      Option.bind_eq_bind, Option.bind_eq_some_iff, Prod.exists, List.map_cons,
      Option.some.injEq, Prod.mk.injEq, List.cons.injEq] at hread
    obtain ⟨track, bs, hx, tracks, bs', hxs, ⟨rfl, rfl⟩, rfl⟩ := hread
    obtain ⟨hok, rfl⟩ := h x List.mem_cons_self _ _ hx
    have htail := ih (fun y hy => h y (List.mem_cons_of_mem x hy)) hxs
    exact List.forall_mem_cons.mpr ⟨hok, htail⟩

end AiMidi.Lib.Smf
