import AiMidi.Plugin.MidiFifo

/-!
# `AiMidi.Plugin.MidiFifoClear`: the ring with `clear` on the message thread

`prepareToPlay` and `releaseResources` call `clear` on the message thread, so `read_pos_` has
a second writer. `ClearStep` adds the two accesses of `clear`, the load of `write_pos_` and
the store to `read_pos_`, to the steps of `push` and `pop`. One thread executes `push` and
`clear`, so they exclude each other. A `pop` can be at any of its accesses when they happen.

`ClearHistory` is history, which no step reads. Pushes are numbered in the order they
complete, from 0. `readCount` is the push number that `read_pos_` stands for, without the
wrap of the index.
-/

set_option autoImplicit false

namespace AiMidi.Plugin

open AiMidi.Lib

/-- What an observer records. -/
structure ClearHistory (c : Capacity) where
  /-- The push number that `read_pos_` stands for. -/
  readCount : Nat
  /-- `readCount` when the current `pop` loaded `read_pos_`. -/
  popStart : Nat
  /-- The pushes completed when the last `clear` began. -/
  clearBegan : Nat
  /-- `clearBegan` of the last `clear` that has ended. -/
  clearFloor : Nat
  /-- `clearFloor` when the current `pop` began. -/
  popFloor : Nat
  /-- The push that last wrote a slot. -/
  slotPush : Fin c.slots → Option Nat
  /-- The push that wrote what the current `pop` has read. -/
  popPush : Option Nat

/-- The ring, the index that a running `clear` has loaded, and the history. -/
structure ClearState (c : Capacity) where
  ring : FifoState c
  clearing : Option UInt64
  history : ClearHistory c

/-- A step of `push` or `pop`, or one of the two accesses of `clear`. -/
inductive ClearAction where
  | fifo (a : Action)
  | clearLoadWrite
  | clearStoreRead

variable {c : Capacity}

/-- What the observer records of a step of `push` or `pop`. -/
def ClearHistory.after (h : ClearHistory c) (ring : FifoState c) : Action → ClearHistory c
  | .pushWriteSlot => match ring.producer with
    | .loadedRead _ w _ =>
        { h with slotPush := Function.update h.slotPush (c.slot w) (some ring.accepted.length) }
    | _ => h
  | .popLoadRead => { h with popStart := h.readCount, popFloor := h.clearFloor }
  | .popReadSlot => match ring.consumer with
    | .loadedWrite r _ => { h with popPush := h.slotPush (c.slot r) }
    | _                => h
  | .popStoreRead => { h with readCount := h.popStart + 1 }
  | _ => h

/-- One atomic step of one of the two threads. -/
inductive ClearStep (c : Capacity) : ClearState c → ClearAction → ClearState c → Prop where
  -- The message thread is in one call at a time: no `push` begins inside a `clear`.
  | fifo {s : ClearState c} {a : Action} {ring : FifoState c}
      (hthread : a.beginsPush → s.clearing = none) (hstep : Step c s.ring a ring) :
      ClearStep c s (.fifo a) { s with ring := ring, history := s.history.after s.ring a }
  | clearLoadWrite {s : ClearState c} (hp : s.ring.producer = .idle) (hc : s.clearing = none) :
      ClearStep c s .clearLoadWrite
        { s with
          clearing := some s.ring.writePos
          history := { s.history with clearBegan := s.ring.accepted.length } }
  | clearStoreRead {s : ClearState c} {w : UInt64} (hc : s.clearing = some w) :
      ClearStep c s .clearStoreRead
        { ring := { s.ring with readPos := w }
          clearing := none
          history :=
            { s.history with
              clearFloor := s.history.clearBegan
              readCount := s.history.clearBegan } }

/-- A fresh ring, no `clear` and no `pop` so far. -/
def initialClear (c : Capacity) : ClearState c where
  ring := initialFifo c
  clearing := none
  history := ⟨0, 0, 0, 0, 0, fun _ => none, none⟩

/-- The ring under one audio thread that pops and one message thread that pushes and
clears. -/
def midiFifoClear (c : Capacity) : System (ClearState c) ClearAction where
  init s := s = initialClear c
  step := ClearStep c

end AiMidi.Plugin
