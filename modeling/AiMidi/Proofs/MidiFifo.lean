import AiMidi.Plugin.MidiFifo

/-!
# `AiMidi.Proofs.MidiFifo`: the SPSC ring refines a bounded queue

`ringInv_run` is the invariant of every interleaving. Count the accepted and the returned
events: the indices are these counts modulo `2 ^ 64`, the counts differ by at most the
capacity, and the slots between them hold the accepted events that are still to come. A thread
inside an operation holds a copy of the other index that may be stale. `ProducerInv` and
`ConsumerInv` say how stale: the copy is some earlier count, and that is always the safe side.

A rejected `push` decided on such a copy, so the ring need not be full when it returns. It
was full when the copy was loaded. `fullSeen_run` states that in the past-time form
`HeldSince`, and `emptySeen_run` the same for a rejected `pop` and the empty ring.

`midiFifo_refines` collects the results, with the step-by-step refinement of the abstract
`QueueStep`.

Each part of the invariant has a step lemma of its own (`ringInv_step`, `producerInv_step`,
`consumerInv_step`), because a step of one thread can only help the other: it moves an index
forward, and the copy of the other thread becomes an earlier count.
-/

set_option autoImplicit false

namespace AiMidi.Proofs.MidiFifo

open AiMidi.Lib AiMidi.Lib.System
open AiMidi.Plugin

/-! ### Indices modulo `2 ^ 64`

The indices are unsigned and wrap. Their difference is right as long as the counts differ by less
than `2 ^ 64`, and the mask is right because the capacity is a power of two. -/

/-- The difference of two wrapping counters is the difference of the counts, as long as that
fits 64 bits. -/
theorem toNat_sub_of_counts {a b : UInt64} {m n : Nat} (ha : a.toNat = m % 2 ^ 64)
    (hb : b.toNat = n % 2 ^ 64) (hle : n ≤ m) (hlt : m - n < 2 ^ 64) :
    (a - b).toNat = m - n := by
  rw [UInt64.toNat_sub, ha, hb]
  omega

/-- The successor of an index counts one more, also where it wraps. -/
theorem toNat_succ_of_count {a : UInt64} {n : Nat} (ha : a.toNat = n % 2 ^ 64) :
    (a + 1).toNat = (n + 1) % 2 ^ 64 := by
  rw [UInt64.toNat_add, UInt64.toNat_one, ha]
  omega

variable {c : Capacity}

/-- The slot of the event with number `n`. -/
def slotOf (c : Capacity) (n : Nat) : Fin c.slots := ⟨n % c.slots, Nat.mod_lt _ c.one_le_slots⟩

/-- The masked index is the event number modulo the capacity, across the wrap of the index:
the capacity divides `2 ^ 64`. -/
theorem slot_of_count {i : UInt64} {n : Nat} (h : i.toNat = n % 2 ^ 64) :
    c.slot i = slotOf c n := by
  have hdvd : c.slots ∣ 2 ^ 64 := Nat.pow_dvd_pow 2 (Nat.le_of_lt c.lt)
  apply Fin.ext
  show (i &&& (c.size - 1)).toNat = n % c.slots
  rw [c.toNat_and_mask, h, Nat.mod_mod_of_dvd _ hdvd]

/-- Two event numbers less than a capacity apart have different slots. -/
theorem slotOf_ne {m n : Nat} (hlt : m < n) (hgap : n < m + c.slots) :
    slotOf c m ≠ slotOf c n := by
  intro h
  have heq : m % c.slots = n % c.slots := congrArg Fin.val h
  have hdvd : c.slots ∣ n - m :=
    Nat.dvd_of_mod_eq_zero (Nat.sub_mod_eq_zero_of_mod_eq heq.symm)
  have hle := Nat.le_of_dvd (by omega) hdvd
  omega

/-! ### The invariant

The shared part is about the counts and the slots. The two others say what each thread has loaded so
far, and from which earlier moment its copy of the other index is. -/

/-- The shared part: the indices count the history, and the slots between them hold the
accepted events that are not yet returned. -/
structure RingInv (s : FifoState c) : Prop where
  write : s.writePos.toNat = s.accepted.length % 2 ^ 64
  read : s.readPos.toNat = s.returned.length % 2 ^ 64
  returned_prefix : s.returned <+: s.accepted
  room : s.accepted.length ≤ s.returned.length + c.slots
  slots : ∀ n (h : n < s.accepted.length), s.returned.length ≤ n →
    s.buffer (slotOf c n) = s.accepted[n]

/-- The producer's locals. Its copy of `read_pos_` is an earlier count of returned events. -/
def ProducerInv (s : FifoState c) : Prop :=
  match s.producer with
  | .idle => True
  | .loadedWrite _ w => w = s.writePos
  | .loadedRead _ w r => w = s.writePos ∧ ∃ n, r.toNat = n % 2 ^ 64 ∧
      n ≤ s.returned.length ∧ s.accepted.length ≤ n + c.slots
  | .wroteSlot ev w => w = s.writePos ∧ s.accepted.length < s.returned.length + c.slots ∧
      s.buffer (slotOf c s.accepted.length) = ev

/-- The consumer's locals. Its copy of `write_pos_` is an earlier count of accepted events. -/
def ConsumerInv (s : FifoState c) : Prop :=
  match s.consumer with
  | .idle => True
  | .loadedRead r => r = s.readPos
  | .loadedWrite r w => r = s.readPos ∧ ∃ n, w.toNat = n % 2 ^ 64 ∧
      s.returned.length ≤ n ∧ n ≤ s.accepted.length
  | .readSlot r out => r = s.readPos ∧ s.accepted[s.returned.length]? = some out

/-- The three parts together. -/
structure FifoInv (s : FifoState c) : Prop where
  ring : RingInv s
  producer : ProducerInv s
  consumer : ConsumerInv s

/-- No event is returned before it was accepted. -/
theorem RingInv.returned_le {s : FifoState c} (h : RingInv s) :
    s.returned.length ≤ s.accepted.length :=
  h.returned_prefix.length_le

/-- The producer decides on its copies: the difference it computes is the number of events
in the ring at the load of `read_pos_`. -/
theorem pushDiff {s : FifoState c} (hring : RingInv s) (hprod : ProducerInv s)
    {ev : FifoMidiEvent} {w r : UInt64} (hp : s.producer = .loadedRead ev w r) :
    ∃ n, n ≤ s.returned.length ∧ s.accepted.length ≤ n + c.slots ∧
      (w - r).toNat = s.accepted.length - n := by
  rw [ProducerInv, hp] at hprod
  obtain ⟨rfl, n, hr, hn, hroom⟩ := hprod
  have hlt := c.slots_lt
  have hle := hring.returned_le
  exact ⟨n, hn, hroom, toNat_sub_of_counts hring.write hr (by omega) (by omega)⟩

/-- A producer past its check has room. -/
theorem room_of_pass {s : FifoState c} (hring : RingInv s) (hprod : ProducerInv s)
    {ev : FifoMidiEvent} {w r : UInt64} (hp : s.producer = .loadedRead ev w r)
    (hroom : ¬ w - r ≥ c.size) : s.accepted.length < s.returned.length + c.slots := by
  obtain ⟨n, hn, -, hdiff⟩ := pushDiff hring hprod hp
  rw [ge_iff_le, UInt64.le_iff_toNat_le, c.toNat_size, hdiff] at hroom
  omega

/-- A consumer past its check has an event. -/
theorem event_of_pass {s : FifoState c} (hring : RingInv s) (hcons : ConsumerInv s)
    {r w : UInt64} (hc : s.consumer = .loadedWrite r w) (hne : r ≠ w) :
    s.returned.length < s.accepted.length := by
  rw [ConsumerInv, hc] at hcons
  obtain ⟨rfl, n, hw, hge, hle⟩ := hcons
  refine Nat.lt_of_lt_of_le (Nat.lt_of_le_of_ne hge fun heq => hne ?_) hle
  exact UInt64.toNat_inj.mp (by rw [hring.read, hw, heq])

/-- The fresh ring has the invariant. -/
theorem fifoInv_initial : FifoInv (initialFifo c) where
  ring :=
    { write := rfl
      read := rfl
      returned_prefix := List.prefix_refl _
      room := Nat.zero_le _
      slots := fun n h => absurd h (Nat.not_lt_zero n) }
  producer := trivial
  consumer := trivial

/-! ### Preservation

The two threads share `RingInv` only. A producer step leaves `returned` alone and a consumer
step leaves `accepted` and the buffer alone, so each side's copies stay on the safe side when
the other side moves. -/

/-- A step keeps what holds of the ring. The two stores are the cases that change it. -/
theorem ringInv_step {s s' : FifoState c} {a : Action} (h : FifoInv s) (hstep : Step c s a s') :
    RingInv s' := by
  obtain ⟨hring, hprod, hcons⟩ := h
  cases hstep with
  | pushLoadWrite ev hp => exact ⟨hring.1, hring.2, hring.3, hring.4, hring.5⟩
  | pushLoadRead hp => exact ⟨hring.1, hring.2, hring.3, hring.4, hring.5⟩
  | pushReject hp hfull => exact ⟨hring.1, hring.2, hring.3, hring.4, hring.5⟩
  | @pushWriteSlot ev w r hp hroom =>
    have hlt := room_of_pass hring hprod hp hroom
    rw [ProducerInv, hp] at hprod
    have hslot : c.slot w = slotOf c s.accepted.length :=
      slot_of_count (hprod.1 ▸ hring.write)
    refine ⟨hring.write, hring.read, hring.returned_prefix, hring.room, fun n hn hge => ?_⟩
    have hge' : s.returned.length ≤ n := hge
    -- The slot written is the one behind the newest event, a free one.
    have hne : slotOf c n ≠ c.slot w := by
      rw [hslot]
      exact slotOf_ne hn (by omega)
    show Function.update s.buffer (c.slot w) ev (slotOf c n) = s.accepted[n]
    rw [Function.update_of_ne hne]
    exact hring.slots n hn hge
  | @pushStoreWrite ev w hp =>
    rw [ProducerInv, hp] at hprod
    obtain ⟨rfl, hlt, hbuf⟩ := hprod
    refine ⟨?_, hring.read, hring.returned_prefix.trans (List.prefix_append _ _), ?_, ?_⟩
    · rw [List.length_append]
      exact toNat_succ_of_count hring.write
    · rw [List.length_append]
      exact hlt
    · intro n hn hge
      rw [List.length_append, List.length_singleton] at hn
      -- An old event is in its old slot, and the new one is in the slot written before.
      rcases Nat.lt_or_ge n s.accepted.length with hold | hnew
      · rw [List.getElem_append_left hold]
        exact hring.slots n hold hge
      · obtain rfl : n = s.accepted.length := by omega
        rw [List.getElem_concat_length rfl]
        exact hbuf
  | popLoadRead hc => exact ⟨hring.1, hring.2, hring.3, hring.4, hring.5⟩
  | popLoadWrite hc => exact ⟨hring.1, hring.2, hring.3, hring.4, hring.5⟩
  | popReject hc hempty => exact ⟨hring.1, hring.2, hring.3, hring.4, hring.5⟩
  | popReadSlot hc hne => exact ⟨hring.1, hring.2, hring.3, hring.4, hring.5⟩
  | @popStoreRead r out hc =>
    rw [ConsumerInv, hc] at hcons
    obtain ⟨rfl, hout⟩ := hcons
    refine ⟨hring.write, ?_, ?_, ?_, ?_⟩
    · rw [List.length_append]
      exact toNat_succ_of_count hring.read
    -- The event read is the next accepted one, so the prefix grows by it.
    · obtain ⟨rest, hrest⟩ := hring.returned_prefix
      rw [← hrest, List.getElem?_append_right (Nat.le_refl _), Nat.sub_self] at hout
      cases rest with
      | nil => exact absurd hout (by simp)
      | cons x rest =>
        obtain rfl : x = out := by simpa using hout
        exact ⟨rest, by rw [← hrest]; simp⟩
    · show s.accepted.length ≤ (s.returned ++ [out]).length + c.slots
      have hroom := hring.room
      rw [List.length_append]
      omega
    · intro n hn hge
      rw [List.length_append] at hge
      exact hring.slots n hn (Nat.le_of_succ_le hge)

/-- A step keeps what the producer has loaded. A step of the consumer moves `read_pos_` at most
forward, which leaves an older copy on the safe side. -/
theorem producerInv_step {s s' : FifoState c} {a : Action} (h : FifoInv s)
    (hstep : Step c s a s') : ProducerInv s' := by
  obtain ⟨hring, hprod, hcons⟩ := h
  cases hstep with
  | pushLoadWrite ev hp => rfl
  | pushLoadRead hp =>
    rw [ProducerInv, hp] at hprod
    exact ⟨hprod, _, hring.read, Nat.le_refl _, hring.room⟩
  | pushReject hp hfull => trivial
  | @pushWriteSlot ev w r hp hroom =>
    have hlt := room_of_pass hring hprod hp hroom
    rw [ProducerInv, hp] at hprod
    have hslot : c.slot w = slotOf c s.accepted.length :=
      slot_of_count (hprod.1 ▸ hring.write)
    refine ⟨hprod.1, hlt, ?_⟩
    show Function.update s.buffer (c.slot w) ev (slotOf c s.accepted.length) = ev
    rw [hslot, Function.update_self]
  | pushStoreWrite hp => trivial
  | popLoadRead hc => exact hprod
  | popLoadWrite hc => exact hprod
  | popReject hc hempty => exact hprod
  | popReadSlot hc hne => exact hprod
  | popStoreRead hc =>
    -- The other side moves on: the copy of `read_pos_` gets older, and there is more room.
    unfold ProducerInv at hprod ⊢
    cases hp : s.producer with
    | idle => trivial
    | loadedWrite ev w => simpa only [hp] using hprod
    | loadedRead ev w r =>
      simp only [hp] at hprod ⊢
      obtain ⟨hw, n, hr, hn, hroom⟩ := hprod
      refine ⟨hw, n, hr, ?_, hroom⟩
      rw [List.length_append]
      exact Nat.le_succ_of_le hn
    | wroteSlot ev w =>
      simp only [hp] at hprod ⊢
      obtain ⟨hw, hlt, hbuf⟩ := hprod
      refine ⟨hw, ?_, hbuf⟩
      rw [List.length_append]
      omega

/-- A step keeps what the consumer has loaded, by the same argument for `write_pos_`. -/
theorem consumerInv_step {s s' : FifoState c} {a : Action} (h : FifoInv s)
    (hstep : Step c s a s') : ConsumerInv s' := by
  obtain ⟨hring, hprod, hcons⟩ := h
  cases hstep with
  | pushLoadWrite ev hp => exact hcons
  | pushLoadRead hp => exact hcons
  | pushReject hp hfull => exact hcons
  | pushWriteSlot hp hroom => exact hcons
  | pushStoreWrite hp =>
    -- The other side moves on: the copy of `write_pos_` gets older, and more events wait.
    unfold ConsumerInv at hcons ⊢
    cases hc : s.consumer with
    | idle => trivial
    | loadedRead r => simpa only [hc] using hcons
    | loadedWrite r w =>
      simp only [hc] at hcons ⊢
      obtain ⟨hr, n, hw, hge, hle⟩ := hcons
      refine ⟨hr, n, hw, hge, ?_⟩
      rw [List.length_append]
      exact Nat.le_succ_of_le hle
    | readSlot r out =>
      simp only [hc] at hcons ⊢
      obtain ⟨hr, hout⟩ := hcons
      obtain ⟨hlt, -⟩ := List.getElem?_eq_some_iff.mp hout
      exact ⟨hr, by rw [List.getElem?_append_left hlt, hout]⟩
  | popLoadRead hc => rfl
  | popLoadWrite hc =>
    rw [ConsumerInv, hc] at hcons
    exact ⟨hcons, _, hring.write, hring.returned_le, Nat.le_refl _⟩
  | popReject hc hempty => trivial
  | @popReadSlot r w hc hne =>
    have hlt := event_of_pass hring hcons hc hne
    rw [ConsumerInv, hc] at hcons
    obtain ⟨rfl, -⟩ := hcons
    refine ⟨rfl, ?_⟩
    -- The slot of the oldest event still holds it, since the producer has not come around.
    have hslot : c.slot s.readPos = slotOf c s.returned.length := slot_of_count hring.read
    show s.accepted[s.returned.length]? = some (s.buffer (c.slot s.readPos))
    rw [hslot, hring.slots _ hlt (Nat.le_refl _), List.getElem?_eq_getElem hlt]
  | popStoreRead hc => trivial

/-- Every step keeps the invariant. -/
theorem fifoInv_step {s s' : FifoState c} {a : Action} (h : FifoInv s) (hstep : Step c s a s') :
    FifoInv s' :=
  ⟨ringInv_step h hstep, producerInv_step h hstep, consumerInv_step h hstep⟩

/-- The invariant holds at the end of every interleaving. -/
theorem fifoInv_run {past : List (Action × FifoState c)} {s : FifoState c}
    (h : Run (midiFifo c) past s) : FifoInv s :=
  h.state_invariant (I := FifoInv) (fun _ hs => hs ▸ fifoInv_initial)
    fun _ _ _ hI hs => fifoInv_step hI hs

/-! ### Rejected calls

A call that returns false has decided on a copy. The history tells when that copy was loaded, and at
that moment the ring was full or empty. -/

/-- The difference of the indices is the number of events, although both may have wrapped. -/
theorem toNat_gap {s : FifoState c} (h : RingInv s) :
    (s.writePos - s.readPos).toNat = s.occupancy := by
  have hlt := c.slots_lt
  have hroom := h.room
  exact toNat_sub_of_counts h.write h.read h.returned_le (by omega)

/-- A producer that will reject has seen the full ring: it was full when `read_pos_` was
loaded, which is inside the call. -/
theorem fullSeen_run {past : List (Action × FifoState c)} {s : FifoState c}
    (h : Run (midiFifo c) past s) :
    ∀ ev w r, s.producer = .loadedRead ev w r → w - r ≥ c.size →
      HeldSince Action.beginsPush (fun t => t.occupancy = c.slots) past := by
  refine h.invariant (I := fun past s => ∀ ev w r, s.producer = .loadedRead ev w r →
    w - r ≥ c.size → HeldSince Action.beginsPush (fun t => t.occupancy = c.slots) past) ?_ ?_
  · intro s hs ev w r hp
    rw [show s = initialFifo c from hs] at hp
    exact absurd hp (by simp [initialFifo])
  · intro past s a s' hrun ih hstep ev w r hp hfull
    have hinv := fifoInv_run hrun
    cases hstep with
    | pushLoadRead hp' =>
      have hprod := hinv.producer
      rw [ProducerInv, hp'] at hprod
      obtain ⟨rfl, rfl, rfl⟩ := Producer.loadedRead.inj hp
      rw [hprod, ge_iff_le, UInt64.le_iff_toNat_le, c.toNat_size, toNat_gap hinv.ring] at hfull
      have hroom := hinv.ring.room
      -- The copies are exact at this load, so the gap is the number of events.
      have hfull' : s.occupancy = c.slots := by
        unfold FifoState.occupancy at hfull ⊢
        omega
      exact .here hfull'
    | pushLoadWrite => exact absurd hp (by simp)
    | pushReject => exact absurd hp (by simp)
    | pushWriteSlot => exact absurd hp (by simp)
    | pushStoreWrite => exact absurd hp (by simp)
    | popLoadRead => exact .later id (ih ev w r hp hfull)
    | popLoadWrite => exact .later id (ih ev w r hp hfull)
    | popReject => exact .later id (ih ev w r hp hfull)
    | popReadSlot => exact .later id (ih ev w r hp hfull)
    | popStoreRead => exact .later id (ih ev w r hp hfull)

/-- A consumer that will reject has seen the empty ring: it was empty when `write_pos_` was
loaded, which is inside the call. -/
theorem emptySeen_run {past : List (Action × FifoState c)} {s : FifoState c}
    (h : Run (midiFifo c) past s) :
    ∀ r, s.consumer = .loadedWrite r r →
      HeldSince Action.beginsPop (fun t => t.occupancy = 0) past := by
  refine h.invariant (I := fun past s => ∀ r, s.consumer = .loadedWrite r r →
    HeldSince Action.beginsPop (fun t => t.occupancy = 0) past) ?_ ?_
  · intro s hs r hc
    rw [show s = initialFifo c from hs] at hc
    exact absurd hc (by simp [initialFifo])
  · intro past s a s' hrun ih hstep r hc
    have hinv := fifoInv_run hrun
    cases hstep with
    | popLoadWrite hc' =>
      have hcons := hinv.consumer
      rw [ConsumerInv, hc'] at hcons
      obtain ⟨rfl, hw⟩ := Consumer.loadedWrite.inj hc
      have hgap := toNat_gap hinv.ring
      -- Both indices are equal at this load, so the ring is empty in this very state.
      rw [hw, hcons, UInt64.sub_self] at hgap
      exact .here hgap.symm
    | popLoadRead => exact absurd hc (by simp)
    | popReject => exact absurd hc (by simp)
    | popReadSlot => exact absurd hc (by simp)
    | popStoreRead => exact absurd hc (by simp)
    | pushLoadWrite => exact .later id (ih r hc)
    | pushLoadRead => exact .later id (ih r hc)
    | pushReject => exact .later id (ih r hc)
    | pushWriteSlot => exact .later id (ih r hc)
    | pushStoreWrite => exact .later id (ih r hc)

/-! ### The refinement

The store of an index is where an operation takes effect. All other steps leave the abstract queue
as it is. -/

/-- A step of the ring is a step of the bounded queue: the store of `write_pos_` enqueues the
pushed event into a queue with room, the store of `read_pos_` dequeues its head, and every
other step stutters. -/
theorem queueStep_of_step {s s' : FifoState c} {a : Action} (h : FifoInv s)
    (hstep : Step c s a s') : QueueStep c.slots s.contents (s.queueOp a) s'.contents := by
  cases hstep with
  | @pushStoreWrite ev w hp =>
    have hprod := h.producer
    rw [ProducerInv, hp] at hprod
    have hop : s.queueOp .pushStoreWrite = .enqueue ev := by simp only [FifoState.queueOp, hp]
    -- Only the two stores change the history, and thereby the queue.
    have hcontents : (s.accepted ++ [ev]).drop s.returned.length = s.contents ++ [ev] :=
      List.drop_append_of_le_length h.ring.returned_le
    rw [hop]
    show QueueStep c.slots s.contents _ ((s.accepted ++ [ev]).drop s.returned.length)
    rw [hcontents]
    refine .enqueue ?_
    rw [FifoState.contents, List.length_drop]
    have := h.ring.returned_le
    omega
  | @popStoreRead r out hc =>
    have hcons := h.consumer
    rw [ConsumerInv, hc] at hcons
    obtain ⟨hlt, hget⟩ := List.getElem?_eq_some_iff.mp hcons.2
    have hop : s.queueOp .popStoreRead = .dequeue out := by simp only [FifoState.queueOp, hc]
    rw [hop, FifoState.contents, List.drop_eq_getElem_cons hlt, hget]
    show QueueStep c.slots _ _ (s.accepted.drop (s.returned ++ [out]).length)
    rw [List.length_append]
    exact .dequeue
  | pushLoadWrite => exact .stutter
  | pushLoadRead => exact .stutter
  | pushReject => exact .stutter
  | pushWriteSlot => exact .stutter
  | popLoadRead => exact .stutter
  | popLoadWrite => exact .stutter
  | popReject => exact .stutter
  | popReadSlot => exact .stutter

/-- While a `pop` that found an event holds its two copies, no step writes the slot it is
about to read: the producer only ever writes the free slot behind the newest event. -/
theorem not_writesSlot {s : FifoState c} (h : FifoInv s) {r w : UInt64}
    (hc : s.consumer = .loadedWrite r w) (hne : r ≠ w) {s' : FifoState c} {a : Action}
    (hstep : Step c s a s') : ¬ s.writesSlot a (c.slot r) := by
  rintro ⟨rfl, ev, w', r', hp, hslot⟩
  cases hstep with
  | pushWriteSlot hp' hroom =>
    have hlt := room_of_pass h.ring h.producer hp' hroom
    have hevent := event_of_pass h.ring h.consumer hc hne
    have hprod := h.producer
    have hcons := h.consumer
    rw [ProducerInv, hp] at hprod
    rw [ConsumerInv, hc] at hcons
    rw [slot_of_count (hprod.1 ▸ h.ring.write), slot_of_count (hcons.1 ▸ h.ring.read)] at hslot
    -- Two events that are both in the ring have different slots.
    exact slotOf_ne hevent hlt hslot.symm

/-- What the ring guarantees at the end of a run: the returned events are a prefix of the
accepted ones, the index gap stays within the capacity, the slot of a `pop` is not
overwritten under it, a `push` returns false only when the ring was full during the call, a
`pop` returns false only when it was empty during the call, and every step refines the
bounded queue. -/
structure BoundedQueueSpec (past : List (Action × FifoState c)) (s : FifoState c) : Prop where
  returned_prefix : s.returned <+: s.accepted
  gap_le : (s.writePos - s.readPos).toNat ≤ c.slots
  slot_stable : ∀ r w, s.consumer = .loadedWrite r w → r ≠ w →
    ∀ a s', Step c s a s' → ¬ s.writesSlot a (c.slot r)
  push_false : ∀ s', Step c s .pushReject s' →
    HeldSince Action.beginsPush (fun t => t.occupancy = c.slots) past
  pop_false : ∀ s', Step c s .popReject s' →
    HeldSince Action.beginsPop (fun t => t.occupancy = 0) past
  refines : ∀ a s', Step c s a s' →
    QueueStep c.slots s.contents (s.queueOp a) s'.contents

/-- Every interleaving of one producer and one consumer satisfies the specification, for
every capacity. -/
theorem midiFifo_refines {past : List (Action × FifoState c)} {s : FifoState c}
    (h : Run (midiFifo c) past s) : BoundedQueueSpec past s where
  returned_prefix := (fifoInv_run h).ring.returned_prefix
  gap_le := by
    have hring := (fifoInv_run h).ring
    have hroom := hring.room
    rw [toNat_gap hring, FifoState.occupancy]
    omega
  slot_stable _ _ hc hne _ _ hstep := not_writesSlot (fifoInv_run h) hc hne hstep
  push_false s' hstep := by
    cases hstep with
    | pushReject hp hfull => exact fullSeen_run h _ _ _ hp hfull
  pop_false s' hstep := by
    cases hstep with
    | popReject hc hempty => exact emptySeen_run h _ (hempty ▸ hc)
  refines _ _ hstep := queueStep_of_step (fifoInv_run h) hstep

/-- The smallest ring. -/
def capacityTwo : Capacity := ⟨1, by decide, by decide⟩

/-- A `push` that passes its check while a `pop` has loaded both indices. -/
theorem midiFifo_refines_interleaved :
    ∃ past s, BoundedQueueSpec (c := capacityTwo) past s ∧ past.length = 5 := by
  have h0 : Run (midiFifo capacityTwo) [] (initialFifo capacityTwo) := .start rfl
  have h1 := h0.snoc (.pushLoadWrite default rfl)
  have h2 := h1.snoc (.popLoadRead rfl)
  have h3 := h2.snoc (.pushLoadRead rfl)
  have h4 := h3.snoc (.pushWriteSlot rfl (by decide))
  have h5 := h4.snoc (.popLoadWrite rfl)
  exact ⟨_, _, midiFifo_refines h5, rfl⟩

end AiMidi.Proofs.MidiFifo
