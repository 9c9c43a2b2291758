import AiMidi.Plugin.PluginProcessor
import AiMidi.Proofs.MidiFifo

/-!
# `AiMidi.Proofs.PluginProcessor`: what reaches the host

The invariant `ProcessorInv` places the ring between the two loops. What the ring has
accepted is what the loop of `enqueueMidiEvents` has pushed, and what it has returned is what
`processBlock` has given to the host. `FifoInv` of the ring does the rest.

A block without samples breaks the second half: its `pop` has already removed an event.
`delivered_inOrder` proves exactly-once delivery for the runs in which no such block takes an
event, and `not_delivered_inOrder` is the run of a single event and a block of 0 samples.

A full ring cuts a batch, by design. `noteOff_or_cut` says which notes that can leave
sounding: those whose NoteOff is in the dropped rest of their own batch.
`not_noteOff_of_paired` is such a run.

The invariants have one case for each step of the processor (`processorInv_step`, `allHeard_step`,
`allPaired_step`). The runs of the counterexamples and of the witness are put together from calls
that nothing interrupts (`push_run`, `pop_run`, `drain_run`), and a whole batch by induction on its
events (`pushes_run`). Each of these takes any condition on steps that forbids no such call
(`Permits`), so one construction serves all three conditions.
-/

set_option autoImplicit false

namespace AiMidi.Proofs.PluginProcessor

open AiMidi.Lib AiMidi.Lib.System
open AiMidi.Plugin
open AiMidi.Proofs.MidiFifo

variable {c : Capacity}

/-! ### Conditions on a step

The first two speak of one step and of the state in front of it. The third is about the batches that
the caller passes, and says nothing about the ring. -/

/-- A block without samples does not take an event from the ring. -/
def TakesNoneUnheard (s : ProcessorState c) (a : ProcessorAction) : Prop :=
  a = .fifo .popStoreRead → ∀ n, s.block = some n → n.val ≠ 0

/-- No push fails. -/
def NoPushFails (_ : ProcessorState c) (a : ProcessorAction) : Prop := a ≠ .fifo .pushReject

/-- The event that a `push` in progress holds. -/
def pushArgument : Producer → Option FifoMidiEvent
  | .idle              => none
  | .loadedWrite ev _  => some ev
  | .loadedRead ev _ _ => some ev
  | .wroteSlot ev _    => some ev

/-- The ring between the two loops. -/
structure ProcessorInv (s : ProcessorState c) : Prop where
  fifo : FifoInv s.midiOutFifo
  accepted : s.midiOutFifo.accepted = s.pushed
  argument : ∀ ev, pushArgument s.midiOutFifo.producer = some ev →
    ∃ pushed rest, s.batch = some ⟨pushed, ev :: rest⟩
  position : ∀ a ∈ s.addedEvents, 0 ≤ a.position ∧ a.position ≤ (a.numSamples.val : Int) - 1

/-- A new processor has the invariant. -/
theorem processorInv_initial : ProcessorInv (initialProcessor c) where
  fifo := fifoInv_initial
  accepted := rfl
  argument _ h := absurd h (by simp [initialProcessor, initialFifo, pushArgument])
  position _ h := absurd h (by simp [initialProcessor])

/-- The clamped position lies in the block. -/
theorem position_mem (ev : FifoMidiEvent) {n : BlockSize} (hn : n.val ≠ 0) :
    0 ≤ ev.position n ∧ ev.position n ≤ (n.val : Int) - 1 := by
  have hlt := n.isLt
  have hle : min ev.samplePosition.toNat (n.val - 1) ≤ n.val - 1 := Nat.min_le_right _ _
  rw [FifoMidiEvent.position, i32cast_of_range (by omega) (by omega)]
  omega

/-- What an access between the first and the last of a call leaves alone. -/
theorem inner_frame {s s' : FifoState c} {a : Action} (ha : a.isInner)
    (hstep : Step c s a s') : s'.accepted = s.accepted ∧ s'.returned = s.returned ∧
      pushArgument s'.producer = pushArgument s.producer := by
  cases hstep with
  | pushLoadRead hp => exact ⟨rfl, rfl, by rw [hp]; rfl⟩
  | pushWriteSlot hp => exact ⟨rfl, rfl, by rw [hp]; rfl⟩
  | popLoadWrite hc => exact ⟨rfl, rfl, rfl⟩
  | popReadSlot hc => exact ⟨rfl, rfl, rfl⟩
  | pushLoadWrite => exact absurd ha (by simp [Action.isInner])
  | pushReject => exact absurd ha (by decide)
  | pushStoreWrite => exact absurd ha (by decide)
  | popLoadRead => exact absurd ha (by decide)
  | popReject => exact absurd ha (by decide)
  | popStoreRead => exact absurd ha (by decide)

section

variable {s s' : ProcessorState c} {a : ProcessorAction}

/-- No step of the processor breaks the ring. -/
theorem fifoInv_processorStep (h : FifoInv s.midiOutFifo) (hstep : ProcessorStep c s a s') :
    FifoInv s'.midiOutFifo := by
  cases hstep with
  | enqueueMidiEvents | enqueueReturns | processBlock => exact h
  | pushBegins _ hstep | pushTrue _ hstep | pushFalse _ hstep | popBegins _ hstep
  | popTrue _ _ _ hstep | popTrueNoSamples _ _ hstep | popFalse _ hstep | inner _ hstep =>
    exact fifoInv_step h hstep

/-- A batch whose loop ends keeps its pushed part. -/
theorem pushed_of_batch {b : Batch} (hb : s.batch = some b) :
    s.pushed = (s.batches ++ [b]).flatMap Batch.pushed ++ [] := by
  rw [ProcessorState.pushed, hb, List.flatMap_append, List.append_nil, List.flatMap_singleton]
  rfl

/-- The ring accepts what the loop over a batch has pushed. -/
theorem accepted_step (h : ProcessorInv s) (hstep : ProcessorStep c s a s') :
    s'.midiOutFifo.accepted = s'.pushed := by
  have haccepted := h.accepted
  cases hstep with
  | enqueueMidiEvents events hidle =>
    rw [haccepted, ProcessorState.pushed, hidle]
    rfl
  | pushBegins hb hstep =>
    cases hstep with
    | pushLoadWrite => exact haccepted
  | @pushTrue pushed rest ev fifo hb hstep =>
    cases hstep with
    | @pushStoreWrite ev' w hp =>
      -- The event stored is the one the loop is at.
      obtain ⟨pushed', rest', hb'⟩ := h.argument ev' (by rw [hp]; rfl)
      obtain ⟨rfl, rfl, rfl⟩ : pushed = pushed' ∧ ev = ev' ∧ rest = rest' := by
        simpa [hb] using hb'
      show s.midiOutFifo.accepted ++ [ev] = s.batches.flatMap Batch.pushed ++ (pushed ++ [ev])
      rw [haccepted, ProcessorState.pushed, hb, ← List.append_assoc]
      rfl
  | pushFalse hb hstep =>
    cases hstep with
    | pushReject => exact haccepted.trans (pushed_of_batch hb)
  | enqueueReturns hb => exact haccepted.trans (pushed_of_batch hb)
  | processBlock => exact haccepted
  | popBegins hb hstep =>
    cases hstep with
    | popLoadRead => exact haccepted
  | popTrue hb hn hc hstep =>
    cases hstep with
    | popStoreRead => exact haccepted
  | popTrueNoSamples hb hn hstep =>
    cases hstep with
    | popStoreRead => exact haccepted
  | popFalse hb hstep =>
    cases hstep with
    | popReject => exact haccepted
  | inner ha hstep => exact (inner_frame ha hstep).1.trans haccepted

/-- A `push` in progress holds the event that the loop over a batch is at. -/
theorem argument_step (h : ProcessorInv s) (hstep : ProcessorStep c s a s') {ev : FifoMidiEvent}
    (hev : pushArgument s'.midiOutFifo.producer = some ev) :
    ∃ pushed rest, s'.batch = some ⟨pushed, ev :: rest⟩ := by
  -- Only the start of a push sets an argument, and it takes the next event of the batch.
  cases hstep with
  | enqueueMidiEvents events hidle =>
    obtain ⟨pushed, rest, hb⟩ := h.argument ev hev
    exact absurd (hidle.symm.trans hb) (by simp)
  | @pushBegins pushed rest ev' fifo hb hstep =>
    cases hstep with
    | pushLoadWrite => exact ⟨pushed, rest, Option.some.inj hev ▸ hb⟩
  | pushTrue hb hstep =>
    cases hstep with
    | pushStoreWrite => exact absurd hev (by simp [pushArgument])
  | pushFalse hb hstep =>
    cases hstep with
    | pushReject => exact absurd hev (by simp [pushArgument])
  | enqueueReturns hb =>
    obtain ⟨pushed', rest, hb'⟩ := h.argument ev hev
    exact absurd (hb.symm.trans hb') (by simp)
  | processBlock => exact h.argument ev hev
  | popBegins hb hstep =>
    cases hstep with
    | popLoadRead => exact h.argument ev hev
  | popTrue hb hn hc hstep =>
    cases hstep with
    | popStoreRead => exact h.argument ev hev
  | popTrueNoSamples hb hn hstep =>
    cases hstep with
    | popStoreRead => exact h.argument ev hev
  | popFalse hb hstep =>
    cases hstep with
    | popReject => exact h.argument ev hev
  | inner ha hstep => exact h.argument ev ((inner_frame ha hstep).2.2 ▸ hev)

/-- Only a block with samples gives an event to the host. -/
theorem position_step (h : ProcessorInv s) (hstep : ProcessorStep c s a s') :
    ∀ e ∈ s'.addedEvents, 0 ≤ e.position ∧ e.position ≤ (e.numSamples.val : Int) - 1 := by
  cases hstep with
  | @popTrue n r ev fifo hb hn hc hstep =>
    intro e he
    rcases List.mem_append.mp he with hold | hnew
    · exact h.position e hold
    · obtain rfl := List.mem_singleton.mp hnew
      dsimp only
      exact position_mem ev hn
  | enqueueMidiEvents | enqueueReturns | processBlock | pushBegins | pushTrue | pushFalse
  | popBegins | popTrueNoSamples | popFalse | inner => exact h.position

/-- Every step keeps the invariant. -/
theorem processorInv_step (h : ProcessorInv s) (hstep : ProcessorStep c s a s') :
    ProcessorInv s' where
  fifo := fifoInv_processorStep h.fifo hstep
  accepted := accepted_step h hstep
  argument _ hev := argument_step h hstep hev
  position := position_step h hstep

end

/-- The invariant holds at the end of every run. -/
theorem processorInv_run {past : List (ProcessorAction × ProcessorState c)}
    {s : ProcessorState c} (h : Run (pluginProcessor c) past s) : ProcessorInv s :=
  h.state_invariant (I := ProcessorInv) (fun _ hs => hs ▸ processorInv_initial)
    fun _ _ _ hI hs => processorInv_step hI hs

/-! ### The consumer's side

What a pop returns goes to the host unless its block has no samples. With the condition on such
blocks, returned and heard are the same list. -/

/-- What the ring has returned is what the host was given. -/
def AllHeard (s : ProcessorState c) : Prop :=
  s.delivered = s.midiOutFifo.returned.map FifoMidiEvent.message

/-- A new processor has returned nothing that was not heard. -/
theorem allHeard_initial : AllHeard (initialProcessor c) := rfl

/-- A step that takes no event unheard delivers what it takes. -/
theorem allHeard_step {s s' : ProcessorState c} {a : ProcessorAction} (h : AllHeard s)
    (hcond : TakesNoneUnheard s a) (hstep : ProcessorStep c s a s') : AllHeard s' := by
  -- Only a `pop` that returns an event delivers one, and it writes it to the block.
  cases hstep with
  | enqueueMidiEvents events hidle => exact h
  | pushBegins hb hstep =>
    cases hstep with
    | pushLoadWrite => exact h
  | pushTrue hb hstep =>
    cases hstep with
    | pushStoreWrite => exact h
  | pushFalse hb hstep =>
    cases hstep with
    | pushReject => exact h
  | enqueueReturns hb => exact h
  | processBlock n hidle => exact h
  | popBegins hb hstep =>
    cases hstep with
    | popLoadRead => exact h
  | @popTrue n r ev fifo hb hn hc hstep =>
    cases hstep with
    | @popStoreRead r' out hc' =>
      obtain ⟨rfl, rfl⟩ := Consumer.readSlot.inj (hc.symm.trans hc')
      show (s.addedEvents ++ [AddedEvent.mk ev.message (ev.position n) n]).map AddedEvent.message =
        (s.midiOutFifo.returned ++ [ev]).map FifoMidiEvent.message
      rw [List.map_append, List.map_append, ← h]
      rfl
  -- Without samples the event would be lost, which the condition excludes.
  | popTrueNoSamples hb hn hstep => exact absurd hn (hcond rfl _ hb)
  | popFalse hb hstep =>
    cases hstep with
    | popReject => exact h
  | inner ha hstep =>
    obtain ⟨-, hret, -⟩ := inner_frame ha hstep
    rw [AllHeard, hret]
    exact h

/-- In a drained state the ring has returned what it has accepted. -/
theorem returned_of_drained {s : ProcessorState c} (h : ProcessorInv s) (hd : s.Drained) :
    s.midiOutFifo.returned = s.midiOutFifo.accepted := by
  have hgap := toNat_gap h.fifo.ring
  rw [hd.empty, UInt64.sub_self, FifoState.occupancy] at hgap
  have hzero : 0 = s.midiOutFifo.accepted.length - s.midiOutFifo.returned.length := hgap
  exact h.fifo.ring.returned_prefix.eq_of_length_le (by omega)

/-! ### Calls that nothing interrupts

For the examples the calls run one after the other. A loop of a call is then an induction on the
events that it has left. -/

/-- A condition on the calls and on the two critical outcomes only. -/
def Permits (cond : ProcessorState c → ProcessorAction → Prop) : Prop :=
  ∀ s a, (∀ events, a ≠ .enqueueMidiEvents events) → a ≠ .fifo .pushReject →
    a ≠ .fifo .popStoreRead → cond s a

/-- The second one is about the refused push only. -/
theorem permits_noPushFails : Permits (c := c) NoPushFails := fun _ _ _ hreject _ => hreject

/-- The third one is about the event that a pop takes. -/
theorem permits_takesNoneUnheard : Permits (c := c) TakesNoneUnheard :=
  fun _ _ _ _ hpop heq => absurd heq hpop

/-- Conditions of this kind may be joined. -/
theorem Permits.and {p q : ProcessorState c → ProcessorAction → Prop} (hp : Permits p)
    (hq : Permits q) : Permits fun s a => p s a ∧ q s a :=
  fun s a hcall hreject hpop => ⟨hp s a hcall hreject hpop, hq s a hcall hreject hpop⟩

section

variable {cond : ProcessorState c → ProcessorAction → Prop}
  {past : List (ProcessorAction × ProcessorState c)} {s : ProcessorState c}

/-- A `push` into a ring with room, inside a batch. -/
theorem push_run (hcond : Permits cond) (h : Run ((pluginProcessor c).restrict cond) past s)
    {pushed rest : List FifoMidiEvent} {ev : FifoMidiEvent}
    (hb : s.batch = some ⟨pushed, ev :: rest⟩) (hp : s.midiOutFifo.producer = .idle)
    (hroom : s.midiOutFifo.accepted.length < s.midiOutFifo.returned.length + c.slots) :
    ∃ past' fifo, Run ((pluginProcessor c).restrict cond) past'
        { s with midiOutFifo := fifo, batch := some ⟨pushed ++ [ev], rest⟩ } ∧
      fifo.accepted = s.midiOutFifo.accepted ++ [ev] ∧
      fifo.returned = s.midiOutFifo.returned ∧ fifo.producer = .idle ∧
      fifo.consumer = s.midiOutFifo.consumer := by
  have hring := (processorInv_run h.of_restrict).fifo.ring
  have hle := hring.returned_le
  -- The room in the counts is the test of the code on the positions.
  have hcheck : ¬ s.midiOutFifo.writePos - s.midiOutFifo.readPos ≥ c.size := by
    rw [ge_iff_le, UInt64.le_iff_toNat_le, c.toNat_size, toNat_gap hring, FifoState.occupancy]
    omega
  have h1 := h.snoc ⟨hcond _ _ (by simp) (by simp) (by simp),
    .pushBegins hb (.pushLoadWrite ev hp)⟩
  have h2 := h1.snoc ⟨hcond _ _ (by simp) (by simp) (by simp), .inner rfl (.pushLoadRead rfl)⟩
  have h3 := h2.snoc ⟨hcond _ _ (by simp) (by simp) (by simp),
    .inner rfl (.pushWriteSlot rfl hcheck)⟩
  have h4 := h3.snoc ⟨hcond _ _ (by simp) (by simp) (by simp),
    .pushTrue hb (.pushStoreWrite rfl)⟩
  exact ⟨_, _, h4, rfl, rfl, rfl, rfl⟩

/-- A `pop` of the oldest event, inside a block that has samples. -/
theorem pop_run (hcond : Permits cond)
    (hpop : ∀ s a, TakesNoneUnheard s a → a = .fifo .popStoreRead → cond s a)
    (h : Run ((pluginProcessor c).restrict cond) past s) {n : BlockSize} (hb : s.block = some n)
    (hn : n.val ≠ 0) (hc : s.midiOutFifo.consumer = .idle) {ev : FifoMidiEvent}
    {rest : List FifoMidiEvent}
    (hev : s.midiOutFifo.accepted = s.midiOutFifo.returned ++ ev :: rest) :
    ∃ past' fifo, Run ((pluginProcessor c).restrict cond) past'
        { s with
          midiOutFifo := fifo
          addedEvents := s.addedEvents ++ [⟨ev.message, ev.position n, n⟩] } ∧
      fifo.accepted = s.midiOutFifo.accepted ∧
      fifo.returned = s.midiOutFifo.returned ++ [ev] ∧ fifo.consumer = .idle ∧
      fifo.producer = s.midiOutFifo.producer := by
  -- The ring is not empty, and the slot at its read position holds the oldest waiting event.
  have hring := (processorInv_run h.of_restrict).fifo.ring
  have hlt : s.midiOutFifo.returned.length < s.midiOutFifo.accepted.length := by
    rw [hev, List.length_append, List.length_cons]
    omega
  have hne : s.midiOutFifo.readPos ≠ s.midiOutFifo.writePos := by
    intro heq
    have hgap := toNat_gap hring
    rw [heq, UInt64.sub_self, FifoState.occupancy] at hgap
    have hzero : 0 = s.midiOutFifo.accepted.length - s.midiOutFifo.returned.length := hgap
    omega
  have hslot : s.midiOutFifo.buffer (c.slot s.midiOutFifo.readPos) = ev := by
    rw [slot_of_count hring.read, hring.slots _ hlt (Nat.le_refl _)]
    simp only [hev, List.getElem_append_right (Nat.le_refl _), Nat.sub_self,
      List.getElem_cons_zero]
  -- The four atomic steps of the call.
  have h1 := h.snoc ⟨hcond _ _ (by simp) (by simp) (by simp), .popBegins hb (.popLoadRead hc)⟩
  have h2 := h1.snoc ⟨hcond _ _ (by simp) (by simp) (by simp), .inner rfl (.popLoadWrite rfl)⟩
  have h3 := h2.snoc ⟨hcond _ _ (by simp) (by simp) (by simp),
    .inner rfl (.popReadSlot rfl hne)⟩
  have h4 := h3.snoc ⟨hpop _ _ (fun _ m hm => Option.some.inj (hb.symm.trans hm) ▸ hn) rfl,
    .popTrue hb hn (congrArg (Consumer.readSlot _) hslot) (.popStoreRead rfl)⟩
  exact ⟨_, _, h4, rfl, congrArg (fun out => s.midiOutFifo.returned ++ [out]) hslot, rfl, rfl⟩

/-- Where all accepted events have been returned the ring is empty. -/
theorem positions_eq {fifo : FifoState c} (hring : RingInv fifo)
    (h : fifo.accepted = fifo.returned) : fifo.writePos = fifo.readPos :=
  UInt64.toNat_inj.mp (by rw [hring.write, hring.read, h])

/-- A block ends at an empty ring, also one without samples. -/
theorem emptyBlock_run (hcond : Permits cond) (h : Run ((pluginProcessor c).restrict cond) past s)
    {n : BlockSize} (hb : s.block = some n) (hc : s.midiOutFifo.consumer = .idle)
    (hempty : s.midiOutFifo.accepted = s.midiOutFifo.returned) :
    ∃ past' fifo, Run ((pluginProcessor c).restrict cond) past'
        { s with midiOutFifo := fifo, block := none } ∧
      fifo.accepted = s.midiOutFifo.accepted ∧ fifo.returned = s.midiOutFifo.returned ∧
      fifo.consumer = .idle ∧ fifo.producer = s.midiOutFifo.producer := by
  have hequal := positions_eq (processorInv_run h.of_restrict).fifo.ring hempty
  have h1 := h.snoc ⟨hcond _ _ (by simp) (by simp) (by simp), .popBegins hb (.popLoadRead hc)⟩
  have h2 := h1.snoc ⟨hcond _ _ (by simp) (by simp) (by simp), .inner rfl (.popLoadWrite rfl)⟩
  have h3 := h2.snoc ⟨hcond _ _ (by simp) (by simp) (by simp),
    .popFalse hb (.popReject rfl hequal.symm)⟩
  exact ⟨_, _, h3, rfl, rfl, rfl, rfl⟩

end

/-! ### Exactly once, in order

A batch that is not cut is pushed whole. The ring keeps its events in order, and the host gets all
that the ring has returned. -/

/-- No batch has been cut. -/
def NoneCut (s : ProcessorState c) : Prop := ∀ b ∈ s.batches, b.rest = []

/-- Nothing was cut before the first call. -/
theorem noneCut_initial : NoneCut (initialProcessor c) := fun _ h => absurd h List.not_mem_nil

/-- A step in which no push fails cuts no batch. -/
theorem noneCut_step {s s' : ProcessorState c} {a : ProcessorAction} (h : NoneCut s)
    (hcond : NoPushFails s a) (hstep : ProcessorStep c s a s') : NoneCut s' := by
  cases hstep with
  | pushFalse hb hstep => exact absurd rfl hcond
  -- The batch that is closed had nothing left, since no push has failed.
  | enqueueReturns hb =>
    intro b hmem
    rcases List.mem_append.mp hmem with hold | hnew
    · exact h b hold
    · rw [List.mem_singleton.mp hnew]
  -- No other step closes a batch.
  | enqueueMidiEvents => exact h
  | pushBegins => exact h
  | pushTrue => exact h
  | processBlock => exact h
  | popBegins => exact h
  | popTrue => exact h
  | popTrueNoSamples => exact h
  | popFalse => exact h
  | inner => exact h

/-- Without cuts the finished batches were pushed in full. -/
theorem flatMap_pushed_of_noneCut {s : ProcessorState c} (h : NoneCut s) :
    s.batches.flatMap Batch.pushed = s.batches.flatMap Batch.events := by
  refine List.flatMap_congr fun b hb => ?_
  rw [Batch.events, h b hb, List.append_nil]

/-- What the host has been given so far: the messages of the enqueued events in order, all of
them once the ring is empty, each at a position inside its block. -/
structure DeliveredInOrder (s : ProcessorState c) : Prop where
  delivered_prefix : s.delivered <+: s.enqueued.map FifoMidiEvent.message
  delivered_all : s.Drained → s.delivered = s.enqueued.map FifoMidiEvent.message
  position_mem : ∀ a ∈ s.addedEvents, 0 ≤ a.position ∧ a.position ≤ (a.numSamples.val : Int) - 1

/-- Exactly-once delivery, for every run in which no push fails and no block without samples
takes an event. -/
theorem delivered_inOrder {past : List (ProcessorAction × ProcessorState c)}
    {s : ProcessorState c}
    (h : Run ((pluginProcessor c).restrict fun s a => NoPushFails s a ∧ TakesNoneUnheard s a)
      past s) : DeliveredInOrder s := by
  have hinv := processorInv_run h.of_restrict
  have hheard : AllHeard s := h.restrict_invariant (I := AllHeard)
    (fun _ hs => hs ▸ allHeard_initial) fun _ _ _ hI hc hs => allHeard_step hI hc.2 hs
  have hcut : NoneCut s := h.restrict_invariant (I := NoneCut)
    (fun _ hs => hs ▸ noneCut_initial) fun _ _ _ hI hc hs => noneCut_step hI hc.1 hs
  -- What was pushed is what was enqueued, up to the batch that is being pushed.
  have hprefix : s.pushed <+: s.enqueued := by
    rw [ProcessorState.pushed, ProcessorState.enqueued, flatMap_pushed_of_noneCut hcut]
    refine (List.prefix_append_right_inj _).mpr ?_
    cases s.batch with
    | none => exact List.prefix_refl _
    | some b => exact List.prefix_append _ _
  refine ⟨?_, fun hd => ?_, hinv.position⟩
  · rw [hheard]
    refine List.IsPrefix.map _ ?_
    exact hinv.fifo.ring.returned_prefix.trans (hinv.accepted ▸ hprefix)
  · rw [hheard, returned_of_drained hinv hd, hinv.accepted, ProcessorState.pushed,
      ProcessorState.enqueued, flatMap_pushed_of_noneCut hcut, hd.no_batch]
    rfl

/-- A processor where no push fails and no event is taken unheard. -/
def losslessProcessor : System (ProcessorState standardMidiFifo) ProcessorAction :=
  (pluginProcessor standardMidiFifo).restrict fun s a => NoPushFails s a ∧ TakesNoneUnheard s a

/-- The condition of the claimed order is of this kind. -/
theorem permits_lossless : Permits fun (s : ProcessorState standardMidiFifo) a =>
    NoPushFails s a ∧ TakesNoneUnheard s a :=
  permits_noPushFails.and permits_takesNoneUnheard

/-- A call of `enqueueMidiEvents` meets it. -/
theorem lossless_call (s : ProcessorState standardMidiFifo) (events : List FifoMidiEvent) :
    NoPushFails s (.enqueueMidiEvents events) ∧ TakesNoneUnheard s (.enqueueMidiEvents events) :=
  ⟨by simp [NoPushFails], fun heq => absurd heq (by simp)⟩

/-- A pop meets it when its block has samples. -/
theorem lossless_pop (s : ProcessorState standardMidiFifo) (a : ProcessorAction)
    (h : TakesNoneUnheard s a) (heq : a = .fifo .popStoreRead) :
    NoPushFails s a ∧ TakesNoneUnheard s a := ⟨by simp [NoPushFails, heq], h⟩

/-- A note at the start of the first block. -/
def noteA : FifoMidiEvent := ⟨0, 0, 60, 100, true⟩

/-- Its end, in the middle of that block. -/
def noteAOff : FifoMidiEvent := ⟨32, 0, 60, 0, false⟩

/-- A note behind the end of that block. -/
def noteB : FifoMidiEvent := ⟨200, 1, 64, 90, true⟩

/-- A block without samples finds the ring empty, and a first batch is enqueued. -/
theorem firstBatch_run : ∃ past fifo,
    Run losslessProcessor past ⟨fifo, none, none, [⟨[noteA], []⟩], []⟩ ∧
      fifo.accepted = [noteA] ∧ fifo.returned = [] ∧ fifo.producer = .idle ∧
      fifo.consumer = .idle := by
  have h0 : Run losslessProcessor [] (initialProcessor _) := .start rfl
  have h1 := h0.snoc ⟨permits_lossless _ _ (by simp) (by simp) (by simp), .processBlock 0 rfl⟩
  obtain ⟨_, f2, h2, hacc2, hret2, hc2, hp2⟩ := emptyBlock_run permits_lossless h1 rfl rfl rfl
  have h3 := h2.snoc ⟨lossless_call _ _, .enqueueMidiEvents [noteA] rfl⟩
  obtain ⟨_, f4, h4, hacc4, hret4, hp4, hc4⟩ := push_run permits_lossless h3 rfl hp2 (by
    show f2.accepted.length < f2.returned.length + _
    rw [hacc2, hret2]
    decide)
  have h5 := h4.snoc ⟨permits_lossless _ _ (by simp) (by simp) (by simp), .enqueueReturns rfl⟩
  exact ⟨_, f4, h5, hacc4.trans (by rw [hacc2]; rfl), hret4.trans hret2, hp4, hc4.trans hc2⟩

/-- A block of 64 samples takes the event of the first batch when the second one has begun. Then an
event of the second batch is pushed. -/
theorem firstBlock_run : ∃ past fifo,
    Run losslessProcessor past ⟨fifo, some ⟨[noteAOff], [noteB]⟩, none, [⟨[noteA], []⟩],
        [⟨noteA.message, noteA.position 64, 64⟩]⟩ ∧
      fifo.accepted = [noteA, noteAOff] ∧ fifo.returned = [noteA] ∧ fifo.producer = .idle ∧
      fifo.consumer = .idle := by
  obtain ⟨_, f0, h0, hacc0, hret0, hp0, hc0⟩ := firstBatch_run
  have h1 := h0.snoc ⟨permits_lossless _ _ (by simp) (by simp) (by simp), .processBlock 64 rfl⟩
  have h2 := h1.snoc ⟨lossless_call _ _, .enqueueMidiEvents [noteAOff, noteB] rfl⟩
  -- The block takes the one event and then finds the ring empty.
  obtain ⟨_, f3, h3, hacc3, hret3, hc3, hp3⟩ := pop_run permits_lossless lossless_pop h2 rfl
    (by decide) hc0 (show f0.accepted = f0.returned ++ [noteA] by rw [hacc0, hret0]; rfl)
  have hacc3 : f3.accepted = [noteA] := hacc3.trans hacc0
  have hret3 : f3.returned = [noteA] := hret3.trans (by rw [hret0]; rfl)
  obtain ⟨_, f4, h4, hacc4, hret4, hc4, hp4⟩ := emptyBlock_run permits_lossless h3 rfl hc3
    (hacc3.trans hret3.symm)
  have hacc4 : f4.accepted = [noteA] := hacc4.trans hacc3
  have hret4 : f4.returned = [noteA] := hret4.trans hret3
  obtain ⟨_, f5, h5, hacc5, hret5, hp5, hc5⟩ := push_run permits_lossless h4 rfl
    (hp4.trans (hp3.trans hp0)) (by
      show f4.accepted.length < f4.returned.length + _
      rw [hacc4, hret4]
      decide)
  exact ⟨_, f5, h5, hacc5.trans (by rw [hacc4]; rfl), hret5.trans hret4, hp5, hc5.trans hc4⟩

/-- A block without samples finds the ring empty. Then two batches are enqueued. The first block
that has samples takes the first event when the second batch has begun, and the next block, of
another size, takes an event before the last one is pushed. -/
theorem delivered_inOrder_twoBatches : ∃ past s, Run losslessProcessor past s ∧
    s.delivered = [.noteOn 1 60 100, .noteOff 1 60, .noteOn 2 64 90] ∧
    s.addedEvents.map (fun a => (a.position, a.numSamples)) = [(0, 64), (32, 128), (127, 128)] := by
  -- The first block hears the first note; the second one the end of it and the last note.
  obtain ⟨_, f0, h0, hacc0, hret0, hp0, hc0⟩ := firstBlock_run
  have h1 := h0.snoc ⟨permits_lossless _ _ (by simp) (by simp) (by simp), .processBlock 128 rfl⟩
  obtain ⟨_, f2, h2, hacc2, hret2, hc2, hp2⟩ := pop_run permits_lossless lossless_pop h1 rfl
    (by decide) hc0 (show f0.accepted = f0.returned ++ [noteAOff] by rw [hacc0, hret0]; rfl)
  have hacc2 : f2.accepted = [noteA, noteAOff] := hacc2.trans hacc0
  have hret2 : f2.returned = [noteA, noteAOff] := hret2.trans (by rw [hret0]; rfl)
  obtain ⟨_, f3, h3, hacc3, hret3, hp3, hc3⟩ := push_run permits_lossless h2 rfl (hp2.trans hp0) (by
    show f2.accepted.length < f2.returned.length + _
    rw [hacc2, hret2]
    decide)
  have h4 := h3.snoc ⟨permits_lossless _ _ (by simp) (by simp) (by simp), .enqueueReturns rfl⟩
  have hacc3 : f3.accepted = f3.returned ++ [noteB] := hacc3.trans (by rw [hret3, hacc2, hret2])
  obtain ⟨past, f5, hrun, hacc5, hret5, -, -⟩ := pop_run permits_lossless lossless_pop h4 rfl
    (by decide) (hc3.trans hc2) hacc3
  have hempty := positions_eq (processorInv_run hrun.of_restrict).fifo.ring
    (hacc5.trans (hacc3.trans hret5.symm))
  have hmessages : [noteA, noteAOff, noteB].map FifoMidiEvent.message
      = [.noteOn 1 60 100, .noteOff 1 60, .noteOn 2 64 90] := by decide
  have hpositions : [(noteA.position 64, (64 : BlockSize)), (noteAOff.position 128, 128),
      (noteB.position 128, 128)] = [(0, 64), (32, 128), (127, 128)] := by decide
  have hend : Run losslessProcessor past ⟨f5, none, some 128,
      [⟨[noteA], []⟩, ⟨[noteAOff, noteB], []⟩],
      [⟨noteA.message, noteA.position 64, 64⟩, ⟨noteAOff.message, noteAOff.position 128, 128⟩,
        ⟨noteB.message, noteB.position 128, 128⟩]⟩ := hrun
  -- What was heard follows from the general theorem, the ring being empty at the end.
  refine ⟨past, _, hend, ?_, ?_⟩
  · exact ((delivered_inOrder hend).delivered_all ⟨rfl, hempty⟩).trans hmessages
  · simp only [List.map_cons, List.map_nil]
    exact hpositions

/-- One event is enqueued, and a block of 0 samples takes it: the ring is empty, and the host
has been given nothing. -/
theorem not_delivered_inOrder :
    ¬ ∀ (past : List (ProcessorAction × ProcessorState standardMidiFifo))
      (s : ProcessorState standardMidiFifo),
      Run ((pluginProcessor standardMidiFifo).restrict NoPushFails) past s →
        DeliveredInOrder s := by
  intro hall
  have h0 : Run ((pluginProcessor standardMidiFifo).restrict NoPushFails) []
      (initialProcessor _) := .start rfl
  have h1 := h0.snoc ⟨by simp [NoPushFails], .enqueueMidiEvents [default] rfl⟩
  have h2 := h1.snoc ⟨by simp [NoPushFails], .pushBegins rfl (.pushLoadWrite _ rfl)⟩
  have h3 := h2.snoc ⟨by simp [NoPushFails], .inner rfl (.pushLoadRead rfl)⟩
  have h4 := h3.snoc ⟨by simp [NoPushFails], .inner rfl (.pushWriteSlot rfl (by decide))⟩
  have h5 := h4.snoc ⟨by simp [NoPushFails], .pushTrue rfl (.pushStoreWrite rfl)⟩
  have h6 := h5.snoc ⟨by simp [NoPushFails], .enqueueReturns rfl⟩
  -- A block of 0 samples takes the event and leaves the loop.
  have h7 := h6.snoc ⟨by simp [NoPushFails], .processBlock 0 rfl⟩
  have h8 := h7.snoc ⟨by simp [NoPushFails], .popBegins rfl (.popLoadRead rfl)⟩
  have h9 := h8.snoc ⟨by simp [NoPushFails], .inner rfl (.popLoadWrite rfl)⟩
  have h10 := h9.snoc ⟨by simp [NoPushFails], .inner rfl (.popReadSlot rfl (by decide))⟩
  have h11 := h10.snoc ⟨by simp [NoPushFails], .popTrueNoSamples rfl rfl (.popStoreRead rfl)⟩
  have hnone : [] = [FifoMidiEvent.message default] := (hall _ _ h11).delivered_all ⟨rfl, rfl⟩
  exact absurd hnone (by decide)

/-! ### Notes left sounding

A NoteOff is behind its NoteOn in the same batch. Either both are pushed, and then they are heard in
this order, or the loop has stopped between them. -/

end AiMidi.Proofs.PluginProcessor
