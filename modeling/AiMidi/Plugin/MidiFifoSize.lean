import AiMidi.Plugin.MidiFifo

/-!
# `AiMidi.Plugin.MidiFifoSize`: the ring with `size` on both threads

`size` loads `write_pos_` and then `read_pos_`, and returns the difference. `SizedStep` adds these
two accesses, on either thread, to the steps of `push` and `pop`. A thread executes one call at a
time.

`room` and `available` are history, which no step reads: what the message thread knows of the free
slots from its last `size`, and the audio thread of the waiting events. A push or a pop of the
thread itself uses up one of them.
-/

set_option autoImplicit false

namespace AiMidi.Plugin

open AiMidi.Lib

/-- The two threads of the ring. -/
inductive FifoThread where
  | message
  | audio
  deriving DecidableEq

/-- The thread that executes a step. -/
def Action.thread : Action → FifoThread
  | .pushLoadWrite _ | .pushLoadRead | .pushReject | .pushWriteSlot | .pushStoreWrite => .message
  | .popLoadRead | .popLoadWrite | .popReject | .popReadSlot | .popStoreRead          => .audio

variable {c : Capacity}

/-- The thread is in neither `push` nor `pop`. -/
def FifoState.idle (s : FifoState c) : FifoThread → Prop
  | .message => s.producer = .idle
  | .audio   => s.consumer = .idle

/-- The ring, the index that a running `size` of each thread has loaded, and the history. -/
structure SizedState (c : Capacity) where
  ring : FifoState c
  sizing : FifoThread → Option UInt64
  room : Nat
  available : Nat

/-- A step of `push` or `pop`, or one of the two accesses of `size`. The second one returns. -/
inductive SizedAction where
  | fifo (a : Action)
  | sizeLoadWrite (t : FifoThread)
  | sizeLoadRead (t : FifoThread) (size : UInt64)

/-- The free slots that the message thread knows of. -/
def SizedAction.roomAfter (c : Capacity) (room : Nat) : SizedAction → Nat
  | .fifo .pushStoreWrite        => room - 1
  | .sizeLoadRead .message size  => c.slots - size.toNat
  | _                            => room

/-- The waiting events that the audio thread knows of. -/
def SizedAction.availableAfter (available : Nat) : SizedAction → Nat
  | .fifo .popStoreRead        => available - 1
  | .sizeLoadRead .audio size  => size.toNat
  | _                          => available

/-- The next state, with the history. -/
def SizedState.after (s : SizedState c) (a : SizedAction) (ring : FifoState c)
    (sizing : FifoThread → Option UInt64) : SizedState c where
  ring := ring
  sizing := sizing
  room := a.roomAfter c s.room
  available := a.availableAfter s.available

/-- One atomic step of one of the two threads. -/
inductive SizedStep (c : Capacity) : SizedState c → SizedAction → SizedState c → Prop where
  | fifo {s : SizedState c} {a : Action} {ring : FifoState c} (hthread : s.sizing a.thread = none)
      (hstep : Step c s.ring a ring) : SizedStep c s (.fifo a) (s.after (.fifo a) ring s.sizing)
  | sizeLoadWrite {s : SizedState c} {t : FifoThread} (hidle : s.ring.idle t)
      (hthread : s.sizing t = none) :
      SizedStep c s (.sizeLoadWrite t)
        (s.after (.sizeLoadWrite t) s.ring (Function.update s.sizing t (some s.ring.writePos)))
  -- return w - r
  | sizeLoadRead {s : SizedState c} {t : FifoThread} {w : UInt64} (hw : s.sizing t = some w) :
      SizedStep c s (.sizeLoadRead t (w - s.ring.readPos))
        (s.after (.sizeLoadRead t (w - s.ring.readPos)) s.ring (Function.update s.sizing t none))

/-- A fresh ring. Nothing is known of it. -/
def initialSized (c : Capacity) : SizedState c where
  ring := initialFifo c
  sizing _ := none
  room := 0
  available := 0

/-- The ring under two threads that also ask for its size. -/
def midiFifoSized (c : Capacity) : System (SizedState c) SizedAction where
  init s := s = initialSized c
  step := SizedStep c

end AiMidi.Plugin
