import AiMidi.Lib.BoundedQueue
import AiMidi.Lib.Transition
import Mathlib.Algebra.Group.Nat.Defs
import Mathlib.Logic.Function.Basic

/-!
# `AiMidi.Plugin.MidiFifo`: the SPSC ring between message thread and audio thread

`MidiFifo<Capacity>` has one producer that executes `push` and one consumer that executes
`pop`. `Step` splits both operations at their atomic accesses: two index loads, the slot
access and the index store. The steps of the two threads interleave in any order. Between its
loads and its store a thread acts on a copy of the other side's index, which can be stale.

`std::size_t` has 64 bits, so indices and their difference are `UInt64`. `accepted` and
`returned` are history: the events of the pushes that stored `write_pos_`, and of the pops
that stored `read_pos_`. No step reads them.
-/

set_option autoImplicit false

namespace AiMidi.Plugin

open AiMidi.Lib

/-- A single MIDI event in the FIFO. -/
structure FifoMidiEvent where
  samplePosition : UInt32
  channel : UInt8
  note : UInt8
  velocity : UInt8
  isNoteOn : Bool
  deriving DecidableEq, Repr, Inhabited

/-- The template parameter: a power of two, at least 2, that fits `std::size_t`. -/
structure Capacity where
  log2 : Nat
  pos : 1 ≤ log2
  lt : log2 < 64

/-- The number of slots. -/
def Capacity.slots (c : Capacity) : Nat := 2 ^ c.log2

/-- The capacity as a `std::size_t`. -/
def Capacity.size (c : Capacity) : UInt64 := UInt64.ofNat c.slots

/-- The slots can be counted in a `std::size_t`. -/
theorem Capacity.slots_lt (c : Capacity) : c.slots < 2 ^ 64 :=
  Nat.pow_lt_pow_right (by decide) c.lt

/-- No slot is lost in the conversion. -/
theorem Capacity.toNat_size (c : Capacity) : c.size.toNat = c.slots :=
  UInt64.toNat_ofNat_of_lt' c.slots_lt

/-- There is a slot. -/
theorem Capacity.one_le_slots (c : Capacity) : 1 ≤ c.slots := Nat.one_le_two_pow

/-- The mask `Capacity - 1` keeps the low bits of an index. -/
theorem Capacity.toNat_and_mask (c : Capacity) (i : UInt64) :
    (i &&& (c.size - 1)).toNat = i.toNat % c.slots := by
  have hle : (1 : UInt64) ≤ c.size := by
    rw [UInt64.le_iff_toNat_le, c.toNat_size]
    exact c.one_le_slots
  rw [UInt64.toNat_and, UInt64.toNat_sub_of_le _ _ hle, c.toNat_size]
  exact Nat.and_two_pow_sub_one_eq_mod i.toNat c.log2

/-- The slot of an index: `index & (Capacity - 1)`. -/
def Capacity.slot (c : Capacity) (i : UInt64) : Fin c.slots :=
  ⟨(i &&& (c.size - 1)).toNat, by
    rw [c.toNat_and_mask]
    exact Nat.mod_lt _ c.one_le_slots⟩

/-- Where the producer is inside `push`, with the locals it has loaded. -/
inductive Producer where
  | idle
  | loadedWrite (ev : FifoMidiEvent) (w : UInt64)
  | loadedRead (ev : FifoMidiEvent) (w r : UInt64)
  | wroteSlot (ev : FifoMidiEvent) (w : UInt64)

/-- Where the consumer is inside `pop`, with the locals it has loaded. -/
inductive Consumer where
  | idle
  | loadedRead (r : UInt64)
  | loadedWrite (r w : UInt64)
  | readSlot (r : UInt64) (out : FifoMidiEvent)

/-- The ring, the two program counters and the history. -/
structure FifoState (c : Capacity) where
  buffer : Fin c.slots → FifoMidiEvent
  writePos : UInt64
  readPos : UInt64
  producer : Producer
  consumer : Consumer
  accepted : List FifoMidiEvent
  returned : List FifoMidiEvent

/-- The atomic steps. `pushReject` and `popReject` return false, `pushStoreWrite` and
`popStoreRead` return true. -/
inductive Action where
  | pushLoadWrite (ev : FifoMidiEvent)
  | pushLoadRead
  | pushReject
  | pushWriteSlot
  | pushStoreWrite
  | popLoadRead
  | popLoadWrite
  | popReject
  | popReadSlot
  | popStoreRead

/-- One atomic step of one of the two threads. -/
inductive Step (c : Capacity) : FifoState c → Action → FifoState c → Prop where
  | pushLoadWrite {s : FifoState c} (ev : FifoMidiEvent) (hp : s.producer = .idle) :
      Step c s (.pushLoadWrite ev) { s with producer := .loadedWrite ev s.writePos }
  -- const auto r = read_pos_.load(std::memory_order_acquire)
  | pushLoadRead {s : FifoState c} {ev : FifoMidiEvent} {w : UInt64}
      (hp : s.producer = .loadedWrite ev w) :
      Step c s .pushLoadRead { s with producer := .loadedRead ev w s.readPos }
  -- if ((w - r) >= Capacity) return false
  | pushReject {s : FifoState c} {ev : FifoMidiEvent} {w r : UInt64}
      (hp : s.producer = .loadedRead ev w r) (hfull : w - r ≥ c.size) :
      Step c s .pushReject { s with producer := .idle }
  | pushWriteSlot {s : FifoState c} {ev : FifoMidiEvent} {w r : UInt64}
      (hp : s.producer = .loadedRead ev w r) (hroom : ¬ w - r ≥ c.size) :
      Step c s .pushWriteSlot
        { s with buffer := Function.update s.buffer (c.slot w) ev, producer := .wroteSlot ev w }
  | pushStoreWrite {s : FifoState c} {ev : FifoMidiEvent} {w : UInt64}
      (hp : s.producer = .wroteSlot ev w) :
      Step c s .pushStoreWrite
        { s with writePos := w + 1, producer := .idle, accepted := s.accepted ++ [ev] }
  | popLoadRead {s : FifoState c} (hc : s.consumer = .idle) :
      Step c s .popLoadRead { s with consumer := .loadedRead s.readPos }
  | popLoadWrite {s : FifoState c} {r : UInt64} (hc : s.consumer = .loadedRead r) :
      Step c s .popLoadWrite { s with consumer := .loadedWrite r s.writePos }
  -- if (r == w) return false
  | popReject {s : FifoState c} {r w : UInt64} (hc : s.consumer = .loadedWrite r w)
      (hempty : r = w) : Step c s .popReject { s with consumer := .idle }
  | popReadSlot {s : FifoState c} {r w : UInt64} (hc : s.consumer = .loadedWrite r w)
      (hne : r ≠ w) :
      Step c s .popReadSlot { s with consumer := .readSlot r (s.buffer (c.slot r)) }
  | popStoreRead {s : FifoState c} {r : UInt64} {out : FifoMidiEvent}
      (hc : s.consumer = .readSlot r out) :
      Step c s .popStoreRead
        { s with readPos := r + 1, consumer := .idle, returned := s.returned ++ [out] }

/-- A fresh ring: both indices at 0, both threads idle. -/
def initialFifo (c : Capacity) : FifoState c where
  buffer _ := default
  writePos := 0
  readPos := 0
  producer := .idle
  consumer := .idle
  accepted := []
  returned := []

/-- The ring under one producer and one consumer. -/
def midiFifo (c : Capacity) : System (FifoState c) Action where
  init s := s = initialFifo c
  step := Step c

/-! ### What an observer says about a state

The history of a state has all pushes and pops so far. What is in the ring is what was accepted and
has not been returned. -/

variable {c : Capacity}

/-- The number of events in the ring. -/
def FifoState.occupancy (s : FifoState c) : Nat := s.accepted.length - s.returned.length

/-- The events in the ring, oldest first. -/
def FifoState.contents (s : FifoState c) : List FifoMidiEvent :=
  s.accepted.drop s.returned.length

/-- A call of `push` begins with the load of `write_pos_`. -/
def Action.beginsPush : Action → Prop
  | .pushLoadWrite _ => True
  | _                => False

/-- A call of `pop` begins with the load of `read_pos_`. -/
def Action.beginsPop : Action → Prop
  | .popLoadRead => True
  | _            => False

/-- The step `a` from `s` writes the slot `i`. -/
def FifoState.writesSlot (s : FifoState c) (a : Action) (i : Fin c.slots) : Prop :=
  a = .pushWriteSlot ∧ ∃ ev w r, s.producer = .loadedRead ev w r ∧ c.slot w = i

/-- What a step does to the queue of events in the ring. -/
def FifoState.queueOp (s : FifoState c) : Action → QueueOp FifoMidiEvent
  | .pushStoreWrite => match s.producer with
    | .wroteSlot ev _ => .enqueue ev
    | _               => .stutter
  | .popStoreRead => match s.consumer with
    | .readSlot _ out => .dequeue out
    | _               => .stutter
  | _ => .stutter

end AiMidi.Plugin
