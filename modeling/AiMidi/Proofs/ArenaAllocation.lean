import AiMidi.Core.MidiEventArena

/-!
# `AiMidi.Proofs.ArenaAllocation`: which allocations an arena keeps apart

`allocate_n` tests `used_ + n > capacity_` on a sum that wraps at 64 bits. As long as no sum
wraps back into the capacity (`SumFits`), the ranges handed out since the last reset lie one
behind the other in the used part of the block, and `allocationSafe_of_sumFits` follows by
induction on the run. A sum that does wrap there grants a range that ends beyond the block:
`not_allocationSafe_of_wrap` shows that the condition cannot be weakened.

`RangesInv` says of the granted ranges that they are disjoint and end where the used part does. The
condition enters at one place, where a call of `allocate_n` was granted: a sum at most the capacity
is then the sum of the numbers.
-/

set_option autoImplicit false

namespace AiMidi.Proofs.ArenaAllocation

open AiMidi.Lib AiMidi.Lib.System AiMidi.Core

/-! ### The property

A run lists its calls from the newest to the oldest, and so do the ranges that were granted since
the last reset. A call of `allocate_n` with no slots grants a range without slots. -/

/-- A range of slots. -/
structure SlotRange where
  first : Nat
  length : Nat

/-- The slot `i` belongs to the range. -/
def SlotRange.Has (r : SlotRange) (i : Nat) : Prop := r.first ≤ i ∧ i < r.first + r.length

/-- The range that a call grants: `none` for null and for a reset. -/
def ArenaCall.granted : ArenaCall → Option SlotRange
  | .allocate slot    => slot.map (⟨·, 1⟩)
  | .allocateN n slot => slot.map (⟨·, n.toNat⟩)
  | .reset            => none

/-- The ranges granted since the last reset, from the newest to the oldest. -/
def rangesSinceReset : List (ArenaCall × MidiEventArena) → List SlotRange
  | [] => []
  | (.reset, _) :: _ => []
  | (call, _) :: past => (ArenaCall.granted call).toList ++ rangesSinceReset past

/-- The ranges granted since the last reset lie in the block and have no slot in common, and a
call that returns null leaves the arena as it is. -/
structure AllocationSafe (past : List (ArenaCall × MidiEventArena)) (a : MidiEventArena) :
    Prop where
  used_le : a.used ≤ a.capacity
  inside : ∀ r ∈ rangesSinceReset past, r.first + r.length ≤ a.capacity
  disjoint : (rangesSinceReset past).Pairwise fun r r' => ∀ i, r.Has i → ¬ r'.Has i
  null_frame : ∀ call a', ArenaCallStep a call a' → call ≠ .reset →
    ArenaCall.granted call = none → a'.used = a.used

/-- The sum of `allocate_n` is exact, or it wraps to a value that the test still rejects. -/
def SumFits (a : MidiEventArena) : ArenaCall → Prop
  | .allocateN n _ => a.used + n.toNat < 2 ^ 64 ∨ 2 ^ 64 + a.capacity < a.used + n.toNat
  | _ => True

/-! ### What one call does

Each call either grants a range that starts at `used_`, or leaves the arena as it is. The two lemmas
say which, with the wrapped sum as the code computes it. -/

/-- `allocate` grants the first free slot, or nothing on a full arena. -/
theorem allocate_cases (a : MidiEventArena) :
    (a.allocate = none ∧ a.afterCall a.allocate = a) ∨
    (a.allocate.map Prod.fst = some a.used ∧ a.used < a.capacity ∧
      (a.afterCall a.allocate).used = a.used + 1 ∧
      (a.afterCall a.allocate).capacity = a.capacity) := by
  rw [MidiEventArena.allocate]
  by_cases hfull : a.used ≥ a.capacity
  · rw [dif_pos hfull]
    exact .inl ⟨rfl, rfl⟩
  · rw [dif_neg hfull]
    exact .inr ⟨rfl, Nat.not_le.mp hfull, rfl, rfl⟩

/-- `allocate_n` grants a range from the first free slot on, or nothing. -/
theorem allocateN_cases (a : MidiEventArena) (n : UInt64) :
    (a.allocateN n = none ∧ a.afterCall (a.allocateN n) = a) ∨
    ((a.allocateN n).map Prod.fst = some a.used ∧
      (a.used + n.toNat) % 2 ^ 64 ≤ a.capacity ∧
      (a.afterCall (a.allocateN n)).used = (a.used + n.toNat) % 2 ^ 64 ∧
      (a.afterCall (a.allocateN n)).capacity = a.capacity) := by
  rw [MidiEventArena.allocateN]
  by_cases hover : (a.used + n.toNat) % 2 ^ 64 > a.capacity
  · rw [dif_pos hover]
    exact .inl ⟨rfl, rfl⟩
  · rw [dif_neg hover]
    exact .inr ⟨rfl, Nat.not_lt.mp hover, rfl, rfl⟩

/-- A call that grants nothing and is no reset leaves the arena as it is. -/
theorem eq_of_null {a a' : MidiEventArena} {call : ArenaCall} (h : ArenaCallStep a call a')
    (hreset : call ≠ .reset) (hnull : ArenaCall.granted call = none) : a' = a := by
  cases h with
  | allocate =>
    rcases allocate_cases a with ⟨-, hsame⟩ | ⟨hslot, -⟩
    · exact hsame
    · rw [ArenaCall.granted, hslot] at hnull
      exact absurd hnull (by simp)
  | allocateN n =>
    rcases allocateN_cases a n with ⟨-, hsame⟩ | ⟨hslot, -⟩
    · exact hsame
    · rw [ArenaCall.granted, hslot] at hnull
      exact absurd hnull (by simp)
  | reset => exact absurd rfl hreset

/-! ### The invariant

The ranges end at `used_`, so a new one that starts there has no slot in common with them. This is
the one place where the sum has to be exact. -/

/-- The granted ranges are disjoint ranges of used slots of a block that fits 64 bits. -/
structure RangesInv (past : List (ArenaCall × MidiEventArena)) (a : MidiEventArena) : Prop where
  capacity_lt : a.capacity < 2 ^ 64
  used : ∀ r ∈ rangesSinceReset past, r.first + r.length ≤ a.used
  disjoint : (rangesSinceReset past).Pairwise fun r r' => ∀ i, r.Has i → ¬ r'.Has i

/-- A range from the first free slot on keeps the invariant when the new `used_` is its end. -/
theorem RangesInv.grant {past past' : List (ArenaCall × MidiEventArena)} {a a' : MidiEventArena}
    (h : RangesInv past a) {n : Nat}
    (hranges : rangesSinceReset past' = ⟨a.used, n⟩ :: rangesSinceReset past)
    (hused : a'.used = a.used + n) (hcapacity : a'.capacity = a.capacity) :
    RangesInv past' a' := by
  refine ⟨hcapacity ▸ h.capacity_lt, fun r hr => ?_, ?_⟩
  · rw [hranges] at hr
    rcases List.mem_cons.mp hr with rfl | hold
    · exact Nat.le_of_eq hused.symm
    · have hle := h.used r hold
      omega
  · rw [hranges]
    refine List.pairwise_cons.mpr ⟨fun r hr i hi hi' => ?_, h.disjoint⟩
    -- An older range ends before the first free slot.
    have hle := h.used r hr
    obtain ⟨hfirst, -⟩ := hi
    obtain ⟨-, hlast⟩ := hi'
    have hfirst' : a.used ≤ i := hfirst
    omega

/-- A call that grants nothing keeps the invariant. -/
theorem RangesInv.null {past past' : List (ArenaCall × MidiEventArena)} {a : MidiEventArena}
    (h : RangesInv past a) (hranges : rangesSinceReset past' = rangesSinceReset past) :
    RangesInv past' a :=
  ⟨h.capacity_lt, hranges ▸ h.used, hranges ▸ h.disjoint⟩

/-- Every call whose sum fits keeps the invariant. -/
theorem rangesInv_step {past : List (ArenaCall × MidiEventArena)} {a a' : MidiEventArena}
    {call : ArenaCall} (h : RangesInv past a) (hcond : SumFits a call)
    (hstep : ArenaCallStep a call a') : RangesInv ((call, a') :: past) a' := by
  -- A null result changes nothing, and a granted range starts behind all that were granted before.
  cases hstep with
  | allocate =>
    rcases allocate_cases a with ⟨hnull, hsame⟩ | ⟨hslot, -, hused, hcapacity⟩
    · rw [hsame]
      exact h.null (by rw [rangesSinceReset, ArenaCall.granted, hnull]; rfl; simp)
    · exact h.grant (by rw [rangesSinceReset, ArenaCall.granted, hslot]; rfl; simp) hused hcapacity
  | allocateN n =>
    rcases allocateN_cases a n with ⟨hnull, hsame⟩ | ⟨hslot, hle, hused, hcapacity⟩
    · rw [hsame]
      exact h.null (by rw [rangesSinceReset, ArenaCall.granted, hnull]; rfl; simp)
    · -- A granted sum is at most the capacity, so by the condition it did not wrap.
      have hn := n.toNat_lt
      have hlt := h.capacity_lt
      have hle' := a.used_le
      have hsum : (a.used + n.toNat) % 2 ^ 64 = a.used + n.toNat := by
        rcases hcond with hexact | hwrap
        · exact Nat.mod_eq_of_lt hexact
        · omega
      exact h.grant (by rw [rangesSinceReset, ArenaCall.granted, hslot]; rfl; simp)
        (hused.trans hsum) hcapacity
  | reset =>
    exact ⟨h.capacity_lt, fun r hr => absurd hr List.not_mem_nil, List.Pairwise.nil⟩

/-! ### The runs

The invariant gives the property at the end of every run. The counterexamples have a sum that wraps,
and `not_allocationSafe_of_wrap` covers all such sums. -/

variable {capacity : UInt64} {past : List (ArenaCall × MidiEventArena)} {a : MidiEventArena}

/-- The invariant holds at the end of every run whose sums fit. -/
theorem rangesInv_run (h : Run ((midiEventArena capacity).restrict SumFits) past a) :
    RangesInv past a := by
  refine h.invariant (I := RangesInv) ?_ ?_
  · intro a ha
    rw [show a = .ofCapacity capacity.toNat from ha]
    exact ⟨capacity.toNat_lt, fun r hr => absurd hr List.not_mem_nil, List.Pairwise.nil⟩
  · intro past a call a' _ hI hs
    exact rangesInv_step hI hs.1 hs.2

/-- Every sequence of calls whose sums fit is safe, for every capacity. -/
theorem allocationSafe_of_sumFits
    (h : Run ((midiEventArena capacity).restrict SumFits) past a) : AllocationSafe past a where
  used_le := a.used_le
  inside r hr := Nat.le_trans ((rangesInv_run h).used r hr) a.used_le
  disjoint := (rangesInv_run h).disjoint
  null_frame _ _ hstep hreset hnull := by rw [eq_of_null hstep hreset hnull]

/-- An allocation of three of four slots, and one that is refused. -/
theorem allocationSafe_of_sumFits_four :
    ∃ past a, Run ((midiEventArena 4).restrict SumFits) past a ∧
      (rangesSinceReset past).map SlotRange.length = [3] ∧ AllocationSafe past a := by
  have h0 : Run ((midiEventArena 4).restrict SumFits) [] _ := .start rfl
  have h1 := h0.snoc ⟨show SumFits _ (.allocateN 3 _) from .inl (by decide), .allocateN 3⟩
  have h2 := h1.snoc ⟨show SumFits _ (.allocateN 2 _) from .inl (by decide), .allocateN 2⟩
  exact ⟨_, _, h2, by decide, allocationSafe_of_sumFits h2⟩

/-- The condition is sharp: a sum that wraps into the capacity grants a range that ends beyond
the block. -/
theorem not_allocationSafe_of_wrap {a' : MidiEventArena} {n : UInt64} {slot : Option Nat}
    (hcapacity : a.capacity < 2 ^ 64) (hstep : ArenaCallStep a (.allocateN n slot) a')
    (hwrap : ¬ SumFits a (.allocateN n slot)) :
    ¬ AllocationSafe ((.allocateN n slot, a') :: past) a' := by
  intro hsafe
  obtain ⟨hge, hle⟩ := not_or.mp hwrap
  have hn := n.toNat_lt
  cases hstep with
  | allocateN =>
    rcases allocateN_cases a n with ⟨hnull, -⟩ | ⟨hslot, -, -, hcap⟩
    · -- The wrapped sum passes the test, so the call does not return null.
      rw [MidiEventArena.allocateN, dif_neg (by omega)] at hnull
      exact absurd hnull (by simp)
    · have hmem : ⟨a.used, n.toNat⟩ ∈
          rangesSinceReset ((.allocateN n ((a.allocateN n).map Prod.fst),
            a.afterCall (a.allocateN n)) :: past) := by
        rw [rangesSinceReset, ArenaCall.granted, hslot]
        · exact List.mem_append_left _ (List.mem_singleton_self _)
        · simp
      have hend : a.used + n.toNat ≤ (a.afterCall (a.allocateN n)).capacity :=
        hsafe.inside _ hmem
      omega

/-- With one of four slots in use, a request for `2 ^ 64 - 1` slots is granted: the sum wraps
to 0. -/
theorem not_allocationSafe :
    ¬ ∀ (capacity : UInt64) (past : List (ArenaCall × MidiEventArena)) (a : MidiEventArena),
      Run (midiEventArena capacity) past a → AllocationSafe past a := by
  intro hall
  have h0 : Run (midiEventArena 4) [] _ := .start rfl
  have h1 := h0.snoc .allocate
  have h2 := h1.snoc (.allocateN 18446744073709551615)
  have hinside := (hall 4 _ _ h2).inside ⟨1, 18446744073709551615⟩ (List.mem_cons_self ..)
  exact absurd hinside (by decide)

end AiMidi.Proofs.ArenaAllocation
