import AiMidi.Plugin.MidiFifoClear
import AiMidi.Proofs.MidiFifo

/-!
# `AiMidi.Proofs.MidiFifoClear`: when `clear` on the message thread is safe

A `pop` loads `read_pos_`, and stores the loaded value plus one. A `clear` that stores in
between is undone by that second store, unless it moved `read_pos_` by one event at most.
`clearSafe_of_timely` proves that nothing else can go wrong: in every interleaving in which
no such store lands (`Timely`), a `pop` never returns an event from before the last `clear`,
and the index gap stays within the capacity.

`ClearInv` carries the proof. It counts without wrap: `read_pos_` stands for `readCount`, at
most the number of completed pushes and at most one capacity behind it, and never before the
last `clear`. A slot is only ever overwritten by a later push, so a `pop` with an old copy of
`read_pos_` reads an event that is as new as its copy, or newer.

`not_clearSafe` is the run in which the store of a `pop` lands after the store of a
`clear`.

The three threads' locals are treated one by one, as in `AiMidi.Proofs.MidiFifo`: what a call has
loaded stays right while the counts move forward (`PushLocals.mono`, `PopLocals.mono`). Only the
store of a `pop` may move `readCount`, and there the condition is used.
-/

set_option autoImplicit false

namespace AiMidi.Proofs.MidiFifoClear

open AiMidi.Lib AiMidi.Lib.System
open AiMidi.Plugin
open AiMidi.Proofs.MidiFifo

variable {c : Capacity}

/-! ### The property -/

/-- The documented safety of `clear`. A `pop` that began after a `clear` had ended returns no
event whose push completed before that `clear` began, and the index gap stays within the
capacity. -/
structure ClearSafe (s : ClearState c) : Prop where
  fresh : ∀ r out m, s.ring.consumer = .readSlot r out → s.history.popPush = some m →
    s.history.popFloor ≤ m
  gap_le : (s.ring.writePos - s.ring.readPos).toNat ≤ c.slots

/-- When a `pop` stores `read_pos_`, no `clear` has moved it more than one event ahead since
that `pop` loaded it. -/
def Timely (s : ClearState c) (a : ClearAction) : Prop :=
  a = .fifo .popStoreRead → s.history.readCount ≤ s.history.popStart + 1

/-! ### The invariant

Everything is counted in completed pushes and without wrap. `readCount` is what `read_pos_` stands
for, and a `clear` moves it forward like a `pop` does. -/

/-- The shared part, in counts of pushes. -/
structure RingCounts (s : ClearState c) : Prop where
  write : s.ring.writePos.toNat = s.ring.accepted.length % 2 ^ 64
  read : s.ring.readPos.toNat = s.history.readCount % 2 ^ 64
  read_le : s.history.readCount ≤ s.ring.accepted.length
  room : s.ring.accepted.length ≤ s.history.readCount + c.slots
  floor_le : s.history.clearFloor ≤ s.history.readCount
  written : ∀ n, n < s.ring.accepted.length →
    ∃ m, s.history.slotPush (slotOf c n) = some m ∧ n ≤ m

/-- The locals of a `push`. Its copy of `read_pos_` stands for an earlier count. -/
def PushLocals (s : ClearState c) : Prop :=
  match s.ring.producer with
  | .idle => True
  | .loadedWrite _ w => w = s.ring.writePos
  | .loadedRead _ w r => w = s.ring.writePos ∧ ∃ n, r.toNat = n % 2 ^ 64 ∧
      n ≤ s.history.readCount ∧ s.ring.accepted.length ≤ n + c.slots
  | .wroteSlot _ w => w = s.ring.writePos ∧
      s.ring.accepted.length < s.history.readCount + c.slots ∧
      s.history.slotPush (slotOf c s.ring.accepted.length) = some s.ring.accepted.length

/-- The copy of `read_pos_` in a `pop`. It stands for `popStart`, which a `clear` may have
passed. -/
structure PopCopy (s : ClearState c) (r : UInt64) : Prop where
  index : r.toNat = s.history.popStart % 2 ^ 64
  le_read : s.history.popStart ≤ s.history.readCount
  floor_le : s.history.popFloor ≤ s.history.popStart

/-- The locals of a `pop`. -/
def PopLocals (s : ClearState c) : Prop :=
  match s.ring.consumer with
  | .idle => True
  | .loadedRead r => PopCopy s r
  | .loadedWrite r w => PopCopy s r ∧ ∃ n, w.toNat = n % 2 ^ 64 ∧
      s.history.popStart ≤ n ∧ n ≤ s.ring.accepted.length
  | .readSlot r _ => PopCopy s r ∧ s.history.popStart < s.ring.accepted.length ∧
      ∃ m, s.history.popPush = some m ∧ s.history.popStart ≤ m

/-- The local of a `clear`. No push completes inside it. -/
structure ClearLocal (s : ClearState c) (w : UInt64) : Prop where
  write : w = s.ring.writePos
  began : s.history.clearBegan = s.ring.accepted.length
  no_push : s.ring.producer = .idle

/-- The four parts together. -/
structure ClearInv (s : ClearState c) : Prop where
  counts : RingCounts s
  push : PushLocals s
  pop : PopLocals s
  clear : ∀ w, s.clearing = some w → ClearLocal s w

/-- The fresh ring has the invariant. -/
theorem clearInv_initial : ClearInv (initialClear c) where
  counts := ⟨rfl, rfl, Nat.le_refl _, Nat.zero_le _, Nat.le_refl _,
    fun n h => absurd h (Nat.not_lt_zero n)⟩
  push := trivial
  pop := trivial
  clear _ h := absurd h (by simp [initialClear])

/-! ### The other thread moves on

A step of one thread leaves the locals of the others alone, but it moves the counts that their
copies are compared with. These counts only grow here, so a copy becomes older and stays right. -/

/-- The locals of a `push` stay right while `read_pos_` moves forward. -/
theorem PushLocals.mono {s s' : ClearState c} (h : PushLocals s)
    (hproducer : s'.ring.producer = s.ring.producer)
    (hwrite : s'.ring.writePos = s.ring.writePos)
    (haccepted : s'.ring.accepted = s.ring.accepted)
    (hslot : s'.history.slotPush = s.history.slotPush)
    (hread : s.history.readCount ≤ s'.history.readCount) : PushLocals s' := by
  unfold PushLocals at h ⊢
  rw [hproducer]
  -- One case for each place in a push. What it has read stays true while only the reader moves on.
  cases hp : s.ring.producer with
  | idle => trivial
  | loadedWrite ev w =>
    simp only [hp] at h ⊢
    rw [hwrite, h]
  | loadedRead ev w r =>
    simp only [hp] at h ⊢
    obtain ⟨hw, n, hr, hn, hroom⟩ := h
    exact ⟨hwrite ▸ hw, n, hr, Nat.le_trans hn hread, haccepted ▸ hroom⟩
  | wroteSlot ev w =>
    simp only [hp] at h ⊢
    obtain ⟨hw, hlt, hslotPush⟩ := h
    rw [haccepted, hslot, hwrite]
    exact ⟨hw, by omega, hslotPush⟩

/-- The locals of a `pop` stay right while pushes complete and a `clear` moves `read_pos_`
forward. -/
theorem PopLocals.mono {s s' : ClearState c} (h : PopLocals s)
    (hconsumer : s'.ring.consumer = s.ring.consumer)
    (hstart : s'.history.popStart = s.history.popStart)
    (hfloor : s'.history.popFloor = s.history.popFloor)
    (hpush : s'.history.popPush = s.history.popPush)
    (hread : s.history.readCount ≤ s'.history.readCount)
    (haccepted : s.ring.accepted.length ≤ s'.ring.accepted.length) : PopLocals s' := by
  have hcopy : ∀ r, PopCopy s r → PopCopy s' r := fun r hr =>
    ⟨hstart ▸ hr.index, by rw [hstart]; exact Nat.le_trans hr.le_read hread,
      by rw [hfloor, hstart]; exact hr.floor_le⟩
  unfold PopLocals at h ⊢
  rw [hconsumer]
  -- What a running pop holds depends on counts that only grow.
  cases hc : s.ring.consumer with
  | idle => trivial
  | loadedRead r =>
    simp only [hc] at h ⊢
    exact hcopy r h
  | loadedWrite r w =>
    simp only [hc] at h ⊢
    obtain ⟨hr, n, hw, hge, hle⟩ := h
    exact ⟨hcopy r hr, n, hw, hstart ▸ hge, Nat.le_trans hle haccepted⟩
  | readSlot r out =>
    simp only [hc] at h ⊢
    obtain ⟨hr, hlt, m, hm, hge⟩ := h
    exact ⟨hcopy r hr, by omega, m, hpush ▸ hm, hstart ▸ hge⟩

/-! ### What the checks guarantee

The checks of `push` and `pop` are those of the ring. Here they are read for copies that a `clear`
may have passed. -/

/-- A `push` past its check has room behind `readCount`. -/
theorem room_of_check {s : ClearState c} (h : ClearInv s) {ev : FifoMidiEvent}
    {w r : UInt64} (hp : s.ring.producer = .loadedRead ev w r) (hroom : ¬ w - r ≥ c.size) :
    s.ring.accepted.length < s.history.readCount + c.slots := by
  have hpush := h.push
  rw [PushLocals, hp] at hpush
  obtain ⟨rfl, n, hr, hn, hle⟩ := hpush
  have hslots := c.slots_lt
  have hread := h.counts.read_le
  have hdiff : (s.ring.writePos - r).toNat = s.ring.accepted.length - n :=
    toNat_sub_of_counts h.counts.write hr (by omega) (by omega)
  rw [ge_iff_le, UInt64.le_iff_toNat_le, c.toNat_size, hdiff] at hroom
  omega

/-- A `pop` past its check reads a slot that some push with the number of its copy, or a
later one, has written. -/
theorem written_of_check {s : ClearState c} (h : ClearInv s) {r w : UInt64}
    (hc : s.ring.consumer = .loadedWrite r w) (hne : r ≠ w) :
    s.history.popStart < s.ring.accepted.length ∧
      ∃ m, s.history.slotPush (c.slot r) = some m ∧ s.history.popStart ≤ m := by
  have hpop := h.pop
  rw [PopLocals, hc] at hpop
  obtain ⟨hr, n, hw, hge, hle⟩ := hpop
  have hlt : s.history.popStart < s.ring.accepted.length := by
    refine Nat.lt_of_lt_of_le (Nat.lt_of_le_of_ne hge fun heq => hne ?_) hle
    exact UInt64.toNat_inj.mp (by rw [hr.index, hw, heq])
  rw [slot_of_count hr.index]
  exact ⟨hlt, h.counts.written _ hlt⟩

/-! ### Preservation

A step of `push` or `pop`, one part of the invariant at a time. -/

/-- The state behind a step of `push` or `pop`. -/
def afterFifo (s : ClearState c) (a : Action) (ring : FifoState c) : ClearState c :=
  { s with ring := ring, history := s.history.after s.ring a }

section

variable {s : ClearState c} {a : Action} {ring : FifoState c}

/-- A step of `push` or `pop` keeps the counts. A store of `pop` needs the condition. -/
theorem ringCounts_fifo (h : ClearInv s) (htimely : Timely s (.fifo a))
    (hstep : Step c s.ring a ring) : RingCounts (afterFifo s a ring) := by
  have ⟨hcounts, hpush, hpop, _⟩ := h
  cases hstep with
  -- The loads and the failed checks move nothing.
  | pushLoadWrite | pushLoadRead | pushReject | popLoadRead | popLoadWrite | popReject =>
    exact ⟨hcounts.1, hcounts.2, hcounts.3, hcounts.4, hcounts.5, hcounts.6⟩
  | @pushWriteSlot ev w r hp hroom =>
    rw [PushLocals, hp] at hpush
    have hslot : c.slot w = slotOf c s.ring.accepted.length :=
      slot_of_count (hpush.1 ▸ hcounts.write)
    have hafter : s.history.after s.ring .pushWriteSlot =
        { s.history with
          slotPush := Function.update s.history.slotPush (slotOf c s.ring.accepted.length)
            (some s.ring.accepted.length) } := by
      simp only [ClearHistory.after, hp, hslot]
    rw [afterFifo, hafter]
    refine ⟨hcounts.1, hcounts.2, hcounts.3, hcounts.4, hcounts.5, fun n hn => ?_⟩
    -- The slot now holds a push newer than every completed one.
    show ∃ m, Function.update s.history.slotPush (slotOf c s.ring.accepted.length)
      (some s.ring.accepted.length) (slotOf c n) = some m ∧ n ≤ m
    by_cases heq : slotOf c n = slotOf c s.ring.accepted.length
    · rw [heq, Function.update_self]
      exact ⟨_, rfl, Nat.le_of_lt hn⟩
    · rw [Function.update_of_ne heq]
      exact hcounts.written n hn
  | @pushStoreWrite ev w hp =>
    rw [PushLocals, hp] at hpush
    obtain ⟨rfl, hlt, hwritten⟩ := hpush
    have hlen : (s.ring.accepted ++ [ev]).length = s.ring.accepted.length + 1 :=
      List.length_append
    refine ⟨?_, hcounts.2, ?_, ?_, hcounts.5, fun n hn => ?_⟩
    · show (s.ring.writePos + 1).toNat = (s.ring.accepted ++ [ev]).length % 2 ^ 64
      rw [hlen]
      exact toNat_succ_of_count hcounts.write
    · show s.history.readCount ≤ (s.ring.accepted ++ [ev]).length
      rw [hlen]
      exact Nat.le_succ_of_le hcounts.read_le
    · show (s.ring.accepted ++ [ev]).length ≤ s.history.readCount + c.slots
      rw [hlen]
      exact hlt
    · -- The number of the new push is in the slot it has written.
      have hn' : n < s.ring.accepted.length + 1 := hlen ▸ hn
      rcases Nat.lt_or_ge n s.ring.accepted.length with hold | hnew
      · exact hcounts.written n hold
      · obtain rfl : n = s.ring.accepted.length := by omega
        exact ⟨_, hwritten, Nat.le_refl _⟩
  | @popReadSlot r w hc hne =>
    rw [afterFifo]
    simp only [ClearHistory.after, hc]
    exact ⟨hcounts.1, hcounts.2, hcounts.3, hcounts.4, hcounts.5, hcounts.6⟩
  | @popStoreRead r out hc =>
    -- The condition: the store does not move `read_pos_` back.
    have hforward : s.history.readCount ≤ s.history.popStart + 1 := htimely rfl
    rw [PopLocals, hc] at hpop
    obtain ⟨hr, hlt, -⟩ := hpop
    refine ⟨hcounts.write, toNat_succ_of_count hr.index, hlt, ?_, ?_, hcounts.written⟩
    · exact Nat.le_trans hcounts.room (Nat.add_le_add_right hforward _)
    · exact Nat.le_trans hcounts.floor_le hforward

/-- It keeps what a running `push` has loaded. -/
theorem pushLocals_fifo (h : ClearInv s) (htimely : Timely s (.fifo a))
    (hstep : Step c s.ring a ring) : PushLocals (afterFifo s a ring) := by
  have ⟨hcounts, hpush, _, _⟩ := h
  cases hstep with
  | pushLoadWrite => exact rfl
  | pushLoadRead hp =>
    rw [PushLocals, hp] at hpush
    exact ⟨hpush, _, hcounts.read, Nat.le_refl _, hcounts.room⟩
  | pushReject | pushStoreWrite => trivial
  | @pushWriteSlot ev w r hp hroom =>
    have hlt := room_of_check h hp hroom
    rw [PushLocals, hp] at hpush
    have hslot : c.slot w = slotOf c s.ring.accepted.length :=
      slot_of_count (hpush.1 ▸ hcounts.write)
    refine ⟨hpush.1, ?_, ?_⟩
    · simp only [afterFifo, ClearHistory.after, hp]
      exact hlt
    · simp only [afterFifo, ClearHistory.after, hp, hslot, Function.update_self]
  | popLoadRead | popLoadWrite | popReject =>
    exact hpush.mono rfl rfl rfl rfl (Nat.le_refl _)
  | popReadSlot hc =>
    rw [afterFifo]
    simp only [ClearHistory.after, hc]
    exact hpush.mono rfl rfl rfl rfl (Nat.le_refl _)
  -- The store of the popped position may move it back, unless the step is timely.
  | popStoreRead => exact hpush.mono rfl rfl rfl rfl (htimely rfl)

/-- It keeps what a running `pop` has loaded, without any condition. -/
theorem popLocals_fifo (h : ClearInv s) (hstep : Step c s.ring a ring) :
    PopLocals (afterFifo s a ring) := by
  have ⟨hcounts, _, hpop, _⟩ := h
  -- A step of the push only adds to the counts, so the pop's copies stay good.
  cases hstep with
  | pushLoadWrite | pushLoadRead | pushReject =>
    exact hpop.mono rfl rfl rfl rfl (Nat.le_refl _) (Nat.le_refl _)
  | pushWriteSlot hp =>
    rw [afterFifo]
    simp only [ClearHistory.after, hp]
    exact hpop.mono rfl rfl rfl rfl (Nat.le_refl _) (Nat.le_refl _)
  | pushStoreWrite => exact hpop.mono rfl rfl rfl rfl (Nat.le_refl _) (by simp [afterFifo])
  | popLoadRead => exact ⟨hcounts.read, Nat.le_refl _, hcounts.floor_le⟩
  | popLoadWrite hc =>
    rw [PopLocals, hc] at hpop
    have hle : s.history.popStart ≤ s.ring.accepted.length :=
      Nat.le_trans hpop.le_read hcounts.read_le
    exact ⟨⟨hpop.1, hpop.2, hpop.3⟩, _, hcounts.write, hle, Nat.le_refl _⟩
  | popReject | popStoreRead => trivial
  | @popReadSlot r w hc hne =>
    obtain ⟨hlt, m, hm, hge⟩ := written_of_check h hc hne
    rw [PopLocals, hc] at hpop
    rw [afterFifo]
    simp only [ClearHistory.after, hc]
    exact ⟨⟨hpop.1.1, hpop.1.2, hpop.1.3⟩, hlt, m, hm, hge⟩

/-- No step of `push` falls into a `clear`, and a `pop` does not touch its local. -/
theorem clearLocal_fifo (h : ClearInv s) (hthread : a.beginsPush → s.clearing = none)
    (hstep : Step c s.ring a ring) {w : UInt64} (hw : s.clearing = some w) :
    ClearLocal (afterFifo s a ring) w := by
  have hclear := h.clear w hw
  have hidle := hclear.no_push
  cases hstep with
  | pushLoadWrite => exact absurd hw (by simp [hthread trivial])
  | pushLoadRead hp | pushReject hp | pushWriteSlot hp | pushStoreWrite hp =>
    exact absurd hidle (by simp [hp])
  | popLoadRead | popLoadWrite | popReject | popStoreRead =>
    exact ⟨hclear.1, hclear.2, hclear.3⟩
  | popReadSlot hc =>
    rw [afterFifo]
    simp only [ClearHistory.after, hc]
    exact ⟨hclear.1, hclear.2, hclear.3⟩

/-- A step of `push` or `pop` keeps the invariant. -/
theorem clearInv_fifo (h : ClearInv s) (htimely : Timely s (.fifo a))
    (hthread : a.beginsPush → s.clearing = none) (hstep : Step c s.ring a ring) :
    ClearInv { s with ring := ring, history := s.history.after s.ring a } where
  counts := ringCounts_fifo h htimely hstep
  push := pushLocals_fifo h htimely hstep
  pop := popLocals_fifo h hstep
  clear _ hw := clearLocal_fifo h hthread hstep hw

end

/-- Every step that meets the condition keeps the invariant. -/
theorem clearInv_step {s s' : ClearState c} {a : ClearAction} (h : ClearInv s)
    (htimely : Timely s a) (hstep : ClearStep c s a s') : ClearInv s' := by
  cases hstep with
  | fifo hthread hstep => exact clearInv_fifo h htimely hthread hstep
  | clearLoadWrite hp hc =>
    obtain ⟨hcounts, hpush, hpop, -⟩ := h
    refine ⟨⟨hcounts.1, hcounts.2, hcounts.3, hcounts.4, hcounts.5, hcounts.6⟩,
      hpush.mono rfl rfl rfl rfl (Nat.le_refl _),
      hpop.mono rfl rfl rfl rfl (Nat.le_refl _) (Nat.le_refl _), fun w hw => ?_⟩
    exact ⟨(Option.some.inj hw).symm, rfl, hp⟩
  | @clearStoreRead w hc =>
    obtain ⟨hcounts, hpush, hpop, hclear⟩ := h
    obtain ⟨rfl, hbegan, hidle⟩ := hclear w hc
    -- The message thread is in this `clear`, so `read_pos_` catches up with `write_pos_`.
    have hforward : s.history.readCount ≤ s.history.clearBegan := hbegan ▸ hcounts.read_le
    refine ⟨⟨hcounts.write, ?_, ?_, ?_, Nat.le_refl _, hcounts.written⟩,
      hpush.mono rfl rfl rfl rfl hforward,
      hpop.mono rfl rfl rfl rfl hforward (Nat.le_refl _), fun w hw => absurd hw (by simp)⟩
    · show s.ring.writePos.toNat = s.history.clearBegan % 2 ^ 64
      rw [hbegan]
      exact hcounts.write
    · exact Nat.le_of_eq hbegan
    · show s.ring.accepted.length ≤ s.history.clearBegan + c.slots
      omega

/-! ### The runs

The store of a `pop` is the one step that can move `read_pos_` back. The condition is asked there
and nowhere else. -/

/-- The invariant gives the property. -/
theorem clearSafe_of_inv {s : ClearState c} (h : ClearInv s) : ClearSafe s where
  fresh r out m hc hm := by
    have hpop := h.pop
    rw [PopLocals, hc] at hpop
    obtain ⟨hr, -, m', hm', hge⟩ := hpop
    obtain rfl : m = m' := Option.some.inj (hm.symm.trans hm')
    exact Nat.le_trans hr.floor_le hge
  gap_le := by
    have hslots := c.slots_lt
    have hroom := h.counts.room
    rw [toNat_sub_of_counts h.counts.write h.counts.read h.counts.read_le (by omega)]
    omega

/-- Every interleaving in which the stores are timely satisfies the documented safety, for
every capacity. -/
theorem clearSafe_of_timely {past : List (ClearAction × ClearState c)} {s : ClearState c}
    (h : Run ((midiFifoClear c).restrict Timely) past s) : ClearSafe s := by
  refine clearSafe_of_inv (h.restrict_invariant ?_ fun s a s' => clearInv_step)
  intro s hs
  rw [show s = initialClear c from hs]
  exact clearInv_initial

/-- A `clear` that runs while a `pop` holds the only event. -/
theorem clearSafe_of_timely_interleaved :
    ∃ past s, Run ((midiFifoClear capacityTwo).restrict Timely) past s ∧ past.length = 10 ∧
      ClearSafe s := by
  have free : ∀ {s : ClearState capacityTwo} {a : ClearAction}, a ≠ .fifo .popStoreRead →
      Timely s a := fun hne heq => absurd heq hne
  have h0 : Run ((midiFifoClear capacityTwo).restrict Timely) [] (initialClear capacityTwo) :=
    .start rfl
  have h1 := h0.snoc ⟨free (by simp), .fifo (fun _ => rfl) (.pushLoadWrite default rfl)⟩
  have h2 := h1.snoc ⟨free (by simp), .fifo (fun _ => rfl) (.pushLoadRead rfl)⟩
  have h3 := h2.snoc ⟨free (by simp), .fifo (fun _ => rfl) (.pushWriteSlot rfl (by decide))⟩
  have h4 := h3.snoc ⟨free (by simp), .fifo (fun _ => rfl) (.pushStoreWrite rfl)⟩
  have h5 := h4.snoc ⟨free (by simp), .fifo (fun _ => rfl) (.popLoadRead rfl)⟩
  have h6 := h5.snoc ⟨free (by simp), .fifo (fun _ => rfl) (.popLoadWrite rfl)⟩
  have h7 := h6.snoc ⟨free (by simp), .fifo (fun _ => rfl) (.popReadSlot rfl (by decide))⟩
  -- The whole of a clear lies between the read of the slot and the store behind it.
  have h8 := h7.snoc ⟨free (by simp), .clearLoadWrite rfl rfl⟩
  have h9 := h8.snoc ⟨free (by simp), .clearStoreRead rfl⟩
  have h10 := h9.snoc ⟨fun _ => Nat.le_refl _, .fifo (fun _ => rfl) (.popStoreRead rfl)⟩
  exact ⟨_, _, h10, rfl, clearSafe_of_timely h10⟩

/-! ### The store that lands late -/

/-- A `push` from its load to its store, with nothing in between. -/
theorem push_run {past : List (ClearAction × ClearState c)} {s : ClearState c}
    (h : Run (midiFifoClear c) past s) (ev : FifoMidiEvent) (hp : s.ring.producer = .idle)
    (hc : s.clearing = none) (hroom : ¬ s.ring.writePos - s.ring.readPos ≥ c.size) :
    ∃ past', Run (midiFifoClear c) past'
      { s with
        ring :=
          { s.ring with
            buffer := Function.update s.ring.buffer (c.slot s.ring.writePos) ev
            writePos := s.ring.writePos + 1
            producer := .idle
            accepted := s.ring.accepted ++ [ev] }
        history :=
          { s.history with
            slotPush := Function.update s.history.slotPush (c.slot s.ring.writePos)
              (some s.ring.accepted.length) } } := by
  have h1 := h.snoc (.fifo (fun _ => hc) (.pushLoadWrite ev hp))
  have h2 := h1.snoc (.fifo (fun _ => hc) (.pushLoadRead rfl))
  have h3 := h2.snoc (.fifo (fun _ => hc) (.pushWriteSlot rfl hroom))
  have h4 := h3.snoc (.fifo (fun _ => hc) (.pushStoreWrite rfl))
  exact ⟨_, h4⟩

/-- Two events wait. A `pop` has read the first when a `clear` drops both, and its store then
moves `read_pos_` back to the second: the next `pop` returns it. -/
theorem not_clearSafe :
    ¬ ∀ (c : Capacity) (past : List (ClearAction × ClearState c)) (s : ClearState c),
      Run (midiFifoClear c) past s → ClearSafe s := by
  intro hsafe
  have h0 : Run (midiFifoClear capacityTwo) [] (initialClear capacityTwo) := .start rfl
  obtain ⟨_, h1⟩ := push_run h0 default rfl rfl (by decide)
  obtain ⟨_, h2⟩ := push_run h1 default rfl rfl (by decide)
  have h3 := h2.snoc (.fifo (fun _ => rfl) (.popLoadRead rfl))
  have h4 := h3.snoc (.fifo (fun _ => rfl) (.popLoadWrite rfl))
  have h5 := h4.snoc (.fifo (fun _ => rfl) (.popReadSlot rfl (by decide)))
  have h6 := h5.snoc (.clearLoadWrite rfl rfl)
  have h7 := h6.snoc (.clearStoreRead rfl)
  -- `read_pos_` goes from 2 back to 1.
  have h8 := h7.snoc (.fifo (fun _ => rfl) (.popStoreRead rfl))
  have h9 := h8.snoc (.fifo (fun _ => rfl) (.popLoadRead rfl))
  have h10 := h9.snoc (.fifo (fun _ => rfl) (.popLoadWrite rfl))
  have h11 := h10.snoc (.fifo (fun _ => rfl) (.popReadSlot rfl (by decide)))
  have hfresh : 2 ≤ 1 := (hsafe _ _ _ h11).fresh _ _ 1 rfl rfl
  exact absurd hfresh (by decide)

end AiMidi.Proofs.MidiFifoClear
