import AiMidi.Proofs.ArenaAllocation

/-!
# `AiMidi.Proofs.ArenaAllocator`: how much the STL allocator reserves

`allocate(n)` divides its bytes by the size of an event and drops the remainder. So a call
reserves enough slots exactly when its bytes are whole events, and then all blocks lie apart
(`reserved_iff`). Elements of eight bytes show the other case: one of them gets no slot at all,
and the next block begins at the same byte.
-/

set_option autoImplicit false

namespace AiMidi.Proofs.ArenaAllocator

open AiMidi.Lib AiMidi.Lib.System AiMidi.Core
open AiMidi.Proofs.ArenaAllocation (allocateN_cases)

/-! ### The property -/

/-- The bytes that a call asks for. -/
def bytesOf (c : AllocatorCall) : Nat := c.n.toNat * c.size.toNat

/-- The byte `i` of the arena belongs to the block of the call. -/
def Has (c : AllocatorCall) (i : Nat) : Prop :=
  c.first * sizeofMidiEvent.toNat ≤ i ∧ i < c.first * sizeofMidiEvent.toNat + bytesOf c

/-- An element has a size, and the bytes of all elements are counted by `std::size_t`. -/
def InRange (c : AllocatorCall) : Prop := 1 ≤ c.size.toNat ∧ bytesOf c < 2 ^ 64

/-- Each call has moved `used_` behind all its bytes, and no two blocks have a byte in common. -/
structure Reserved (past : List (AllocatorCall × MidiEventArena)) : Prop where
  enough : ∀ p ∈ past, bytesOf p.1 ≤ (p.2.used - p.1.first) * sizeofMidiEvent.toNat
  apart : past.Pairwise fun p p' => ∀ i, Has p.1 i → ¬ Has p'.1 i

/-! ### The invariant

A call takes its bytes divided by the size of an event. The blocks of slots lie apart whatever is
asked for, and whether they hold all the bytes is decided by the remainder. -/

/-- A call returns the first free slot and takes the whole events among its bytes. -/
theorem allocate_spec {a a' : MidiEventArena} {size n : UInt64} {first : Nat}
    (hfits : a.capacity * 12 < 2 ^ 64) (hrange : InRange ⟨size, n, first⟩)
    (h : MidiEventArenaAllocator.allocate a size n = some (first, a')) :
    first = a.used ∧ a'.used = a.used + bytesOf ⟨size, n, first⟩ / 12 ∧
      a'.capacity = a.capacity := by
  have hslots : (n * size / sizeofMidiEvent).toNat = bytesOf ⟨size, n, first⟩ / 12 := by
    have hmul : (n * size).toNat = bytesOf ⟨size, n, first⟩ := by
      rw [UInt64.toNat_mul]
      exact Nat.mod_eq_of_lt hrange.2
    rw [UInt64.toNat_div, hmul]
    rfl
  have hbytes := hrange.2
  have hused := a.used_le
  -- Neither the block nor the request is long enough for the sum to wrap.
  have hsum : (a.used + bytesOf ⟨size, n, first⟩ / 12) % 2 ^ 64
      = a.used + bytesOf ⟨size, n, first⟩ / 12 := Nat.mod_eq_of_lt (by omega)
  have hgranted : a.allocateN (n * size / sizeofMidiEvent) = some (first, a') := h
  obtain ⟨hnull, -⟩ | ⟨hslot, -, hused', hcapacity⟩ :=
    allocateN_cases a (n * size / sizeofMidiEvent)
  · exact absurd (hnull.symm.trans hgranted) (by simp)
  · rw [hgranted] at hslot hused' hcapacity
    rw [hslots] at hused'
    exact ⟨Option.some.inj hslot, hused'.trans hsum, hcapacity⟩

/-- The calls have taken their slots one behind the other. -/
structure SlotsInv (past : List (AllocatorCall × MidiEventArena)) (a : MidiEventArena) : Prop where
  fits : a.capacity * 12 < 2 ^ 64
  taken : ∀ p ∈ past, p.2.used = p.1.first + bytesOf p.1 / 12 ∧ p.2.used ≤ a.used
  ordered : past.Pairwise fun p p' => p'.2.used ≤ p.1.first

/-- A call that is in range keeps the invariant. -/
theorem slotsInv_step {past : List (AllocatorCall × MidiEventArena)} {a a' : MidiEventArena}
    {c : AllocatorCall} (h : SlotsInv past a) (hrange : InRange c) (hstep : AllocatorStep a c a') :
    SlotsInv ((c, a') :: past) a' := by
  cases hstep with
  | allocate halloc =>
    obtain ⟨rfl, hused, hcapacity⟩ := allocate_spec h.fits hrange halloc
    constructor
    case fits =>
      rw [hcapacity]
      exact h.fits
    -- The new call has moved `used_` to its end, and the older ones ended before it began.
    case taken =>
      rw [List.forall_mem_cons]
      refine ⟨⟨hused, Nat.le_refl _⟩, ?_⟩
      intro p hp
      obtain ⟨htaken, hle⟩ := h.taken p hp
      exact ⟨htaken, by omega⟩
    case ordered =>
      refine List.pairwise_cons.mpr ⟨?_, h.ordered⟩
      intro p hp
      exact (h.taken p hp).2

variable {capacity : UInt64} {past : List (AllocatorCall × MidiEventArena)} {a : MidiEventArena}

/-- So it holds at the end of every run of such calls. -/
theorem slotsInv_run (h : Run ((arenaAllocator capacity).restrict fun _ => InRange) past a) :
    SlotsInv past a := by
  refine h.invariant (I := SlotsInv) ?_ ?_
  · rintro a ⟨hfits, rfl⟩
    exact ⟨hfits, fun p hp => absurd hp List.not_mem_nil, .nil⟩
  · intro past a c a' _ hI hs
    exact slotsInv_step hI hs.1 hs.2

/-! ### The runs

In one direction the whole events give the blocks their bytes. In the other a call with a remainder
asks for bytes that `used_` has not moved behind. -/

/-- The calls of a run reserve their bytes exactly when these are whole events. -/
theorem reserved_iff (h : Run ((arenaAllocator capacity).restrict fun _ => InRange) past a) :
    Reserved past ↔ ∀ p ∈ past, sizeofMidiEvent.toNat ∣ bytesOf p.1 := by
  have hinv := slotsInv_run h
  have hsize : sizeofMidiEvent.toNat = 12 := rfl
  constructor
  · intro hreserved p hp
    have henough := hreserved.enough p hp
    obtain ⟨htaken, -⟩ := hinv.taken p hp
    rw [hsize] at henough ⊢
    omega
  · intro hwhole
    constructor
    case enough =>
      intro p hp
      obtain ⟨htaken, -⟩ := hinv.taken p hp
      have hdvd := hwhole p hp
      rw [hsize] at hdvd ⊢
      omega
    case apart =>
      refine hinv.ordered.imp_of_mem ?_
      rintro p p' - hp' hle i ⟨hfirst, -⟩ ⟨-, hlast⟩
      -- The older block ends where its slots end, at or before the newer one.
      obtain ⟨htaken, -⟩ := hinv.taken p' hp'
      have hdvd := hwhole p' hp'
      rw [hsize] at hfirst hlast hdvd
      omega

/-- Two blocks of events in an arena of 32 slots. -/
theorem reserved_iff_events : ∃ past a,
    Run ((arenaAllocator 32).restrict fun _ => InRange) past a ∧
      past.map (fun p => bytesOf p.1) = [12, 24] ∧
      (Reserved past ↔ ∀ p ∈ past, sizeofMidiEvent.toNat ∣ bytesOf p.1) := by
  have h0 : Run ((arenaAllocator 32).restrict fun _ => InRange) [] _ := .start ⟨by decide, rfl⟩
  have h1 := h0.snoc ⟨show InRange ⟨12, 2, _⟩ from ⟨by decide, by decide⟩, .allocate rfl⟩
  have h2 := h1.snoc ⟨show InRange ⟨12, 1, _⟩ from ⟨by decide, by decide⟩, .allocate rfl⟩
  exact ⟨_, _, h2, by decide, reserved_iff h2⟩

/-- Two elements of eight bytes in an arena of 32 slots: both get the first slot. -/
theorem not_reserved : ¬ ∀ (capacity : UInt64) (past : List (AllocatorCall × MidiEventArena))
    (a : MidiEventArena), Run ((arenaAllocator capacity).restrict fun _ => InRange) past a →
      Reserved past := by
  intro hall
  have h0 : Run ((arenaAllocator 32).restrict fun _ => InRange) [] _ := .start ⟨by decide, rfl⟩
  have h1 := h0.snoc ⟨show InRange ⟨8, 1, _⟩ from ⟨by decide, by decide⟩, .allocate rfl⟩
  have h2 := h1.snoc ⟨show InRange ⟨8, 1, _⟩ from ⟨by decide, by decide⟩, .allocate rfl⟩
  have hapart := (hall 32 _ _ h2).apart
  exact (List.pairwise_cons.mp hapart).1 _ List.mem_cons_self 0 ⟨by decide, by decide⟩
    ⟨by decide, by decide⟩

end AiMidi.Proofs.ArenaAllocator
