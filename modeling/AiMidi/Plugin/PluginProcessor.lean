import AiMidi.Lib.Bytes
import AiMidi.Plugin.MidiFifo

/-!
# `AiMidi.Plugin.PluginProcessor`: from `enqueueMidiEvents` to `midi.addEvent`

The message thread calls `enqueueMidiEvents`, which pushes a batch event by event and drops
the rest of the batch at the first push that fails. The audio thread calls `processBlock`,
which pops until the ring is empty and hands each event to the host.

`ProcessorStep` puts the two loops around the atomic steps of the ring (`Step`), so that a
`processBlock` may take events while a batch is still being pushed. A sequence of calls that
do not overlap is one of its runs.

`batches` and `addedEvents` are history: the batches of the calls that have returned, each
split where its loop ended, and the calls of `midi.addEvent`.
-/

set_option autoImplicit false

namespace AiMidi.Plugin

open AiMidi.Lib

/-- The ring of the processor: `MidiFifo<4096>`. -/
def standardMidiFifo : Capacity := ⟨12, by decide, by decide⟩

/-- The messages that `processBlock` builds. -/
inductive MidiMessage where
  | noteOn (channel note : Int) (velocity : UInt8)
  | noteOff (channel note : Int)
  deriving DecidableEq, Repr

/-- The message for an event. The host counts channels from 1. -/
def FifoMidiEvent.message (ev : FifoMidiEvent) : MidiMessage :=
  let channel : Int := ev.channel.toNat + 1
  if ev.isNoteOn then .noteOn channel ev.note.toNat ev.velocity
  else .noteOff channel ev.note.toNat

/-- `buffer.getNumSamples()`: an `int` that is not negative. -/
abbrev BlockSize := Fin (2 ^ 31)

/-- `std::min<std::size_t>(ev.sample_position, num_samples - 1)` as an `int`, for a block that
has samples. -/
def FifoMidiEvent.position (ev : FifoMidiEvent) (numSamples : BlockSize) : Int :=
  i32cast (min ev.samplePosition.toNat (numSamples.val - 1) : Nat)

/-- A call of `midi.addEvent`, with the size of the block it happened in. -/
structure AddedEvent where
  message : MidiMessage
  position : Int
  numSamples : BlockSize

/-- A batch in the loop of `enqueueMidiEvents`: what has been pushed, and the rest. -/
structure Batch where
  pushed : List FifoMidiEvent
  rest : List FifoMidiEvent

/-- The events of a batch. -/
def Batch.events (b : Batch) : List FifoMidiEvent := b.pushed ++ b.rest

/-- The ring, the loop of each thread, and the history. -/
structure ProcessorState (c : Capacity) where
  midiOutFifo : FifoState c
  batch : Option Batch
  block : Option BlockSize
  batches : List Batch
  addedEvents : List AddedEvent

/-- A call, an atomic step inside a call, or the return of `enqueueMidiEvents`. -/
inductive ProcessorAction where
  | enqueueMidiEvents (events : List FifoMidiEvent)
  | enqueueReturns
  | processBlock (numSamples : BlockSize)
  | fifo (a : Action)

/-- The accesses of `push` and `pop` between their first and their last. -/
def Action.isInner : Action → Bool
  | .pushLoadRead | .pushWriteSlot | .popLoadWrite | .popReadSlot => true
  | _ => false

variable {c : Capacity}

/-- One step of one of the two threads. -/
inductive ProcessorStep (c : Capacity) :
    ProcessorState c → ProcessorAction → ProcessorState c → Prop where
  | enqueueMidiEvents {s : ProcessorState c} (events : List FifoMidiEvent)
      (hidle : s.batch = none) :
      ProcessorStep c s (.enqueueMidiEvents events) { s with batch := some ⟨[], events⟩ }
  -- for (const auto& ev : events) push(ev)
  | pushBegins {s : ProcessorState c} {pushed rest : List FifoMidiEvent} {ev : FifoMidiEvent}
      {fifo : FifoState c} (hb : s.batch = some ⟨pushed, ev :: rest⟩)
      (hstep : Step c s.midiOutFifo (.pushLoadWrite ev) fifo) :
      ProcessorStep c s (.fifo (.pushLoadWrite ev)) { s with midiOutFifo := fifo }
  | pushTrue {s : ProcessorState c} {pushed rest : List FifoMidiEvent} {ev : FifoMidiEvent}
      {fifo : FifoState c} (hb : s.batch = some ⟨pushed, ev :: rest⟩)
      (hstep : Step c s.midiOutFifo .pushStoreWrite fifo) :
      ProcessorStep c s (.fifo .pushStoreWrite)
        { s with midiOutFifo := fifo, batch := some ⟨pushed ++ [ev], rest⟩ }
  -- break: the rest of the batch is dropped
  | pushFalse {s : ProcessorState c} {b : Batch} {fifo : FifoState c} (hb : s.batch = some b)
      (hstep : Step c s.midiOutFifo .pushReject fifo) :
      ProcessorStep c s (.fifo .pushReject)
        { s with midiOutFifo := fifo, batch := none, batches := s.batches ++ [b] }
  | enqueueReturns {s : ProcessorState c} {pushed : List FifoMidiEvent}
      (hb : s.batch = some ⟨pushed, []⟩) :
      ProcessorStep c s .enqueueReturns
        { s with batch := none, batches := s.batches ++ [⟨pushed, []⟩] }
  | processBlock {s : ProcessorState c} (numSamples : BlockSize) (hidle : s.block = none) :
      ProcessorStep c s (.processBlock numSamples) { s with block := some numSamples }
  -- while (midi_out_fifo_.pop(ev))
  | popBegins {s : ProcessorState c} {n : BlockSize} {fifo : FifoState c}
      (hb : s.block = some n) (hstep : Step c s.midiOutFifo .popLoadRead fifo) :
      ProcessorStep c s (.fifo .popLoadRead) { s with midiOutFifo := fifo }
  | popTrue {s : ProcessorState c} {n : BlockSize} {r : UInt64} {ev : FifoMidiEvent}
      {fifo : FifoState c} (hb : s.block = some n) (hn : n.val ≠ 0)
      (hc : s.midiOutFifo.consumer = .readSlot r ev)
      (hstep : Step c s.midiOutFifo .popStoreRead fifo) :
      ProcessorStep c s (.fifo .popStoreRead)
        { s with
          midiOutFifo := fifo
          addedEvents := s.addedEvents ++ [⟨ev.message, ev.position n, n⟩] }
  -- if (num_samples == 0) break: the event is no longer in the ring
  | popTrueNoSamples {s : ProcessorState c} {n : BlockSize} {fifo : FifoState c}
      (hb : s.block = some n) (hn : n.val = 0)
      (hstep : Step c s.midiOutFifo .popStoreRead fifo) :
      ProcessorStep c s (.fifo .popStoreRead) { s with midiOutFifo := fifo, block := none }
  | popFalse {s : ProcessorState c} {n : BlockSize} {fifo : FifoState c} (hb : s.block = some n)
      (hstep : Step c s.midiOutFifo .popReject fifo) :
      ProcessorStep c s (.fifo .popReject) { s with midiOutFifo := fifo, block := none }
  | inner {s : ProcessorState c} {a : Action} {fifo : FifoState c} (ha : a.isInner)
      (hstep : Step c s.midiOutFifo a fifo) :
      ProcessorStep c s (.fifo a) { s with midiOutFifo := fifo }

/-- A fresh processor: no call so far. -/
def initialProcessor (c : Capacity) : ProcessorState c := ⟨initialFifo c, none, none, [], []⟩

/-- The processor between its message thread and its audio thread. -/
def pluginProcessor (c : Capacity) : System (ProcessorState c) ProcessorAction where
  init s := s = initialProcessor c
  step := ProcessorStep c

/-! ### What an observer says about a state -/

/-- The events pushed so far. -/
def ProcessorState.pushed (s : ProcessorState c) : List FifoMidiEvent :=
  s.batches.flatMap Batch.pushed ++ s.batch.elim [] Batch.pushed

/-- The concatenation of the enqueued batches. -/
def ProcessorState.enqueued (s : ProcessorState c) : List FifoMidiEvent :=
  s.batches.flatMap Batch.events ++ s.batch.elim [] Batch.events

/-- The messages given to the host. -/
def ProcessorState.delivered (s : ProcessorState c) : List MidiMessage :=
  s.addedEvents.map AddedEvent.message

/-- No call of `enqueueMidiEvents` is running, and the ring is empty. -/
structure ProcessorState.Drained (s : ProcessorState c) : Prop where
  no_batch : s.batch = none
  empty : s.midiOutFifo.writePos = s.midiOutFifo.readPos

end AiMidi.Plugin
