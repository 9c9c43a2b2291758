import Mathlib.Data.Nat.Bitwise
import Mathlib.Tactic.Ring

/-!
# `AiMidi.Lib.BitReversal`: the low bits of an index in reverse order

`bitReversed k i` shifts the `k` low bits of `i` out from the lowest on, and into the result from
above. `bitReversed_succ` is the last round of that loop. `bitReversed_bit` is its first: the lowest
bit of the index becomes the highest bit of the result. A radix-2 transform recurses on it.
-/

set_option autoImplicit false

namespace AiMidi.Lib

/-- `for (bit = 1; bit < 2^k; bit <<= 1) j = (j << 1) | ((i & bit) ? 1 : 0)`. -/
def bitReversed (k i : Nat) : Nat :=
  (List.range k).foldl (fun j bit => j <<< 1 ||| (i.testBit bit).toNat) 0

/-- A bit shifted in from below is added. -/
theorem shiftLeft_one_or (j : Nat) (b : Bool) : j <<< 1 ||| b.toNat = 2 * j + b.toNat := by
  have hb : b.toNat < 2 ^ 1 := Bool.toNat_lt b
  rw [← Nat.shiftLeft_add_eq_or_of_lt hb, Nat.shiftLeft_eq, Nat.pow_one, Nat.mul_comm]

/-- Without bits there is only the number zero. -/
theorem bitReversed_zero (i : Nat) : bitReversed 0 i = 0 := rfl

/-- The last round of the loop. -/
theorem bitReversed_succ (k i : Nat) :
    bitReversed (k + 1) i = 2 * bitReversed k i + (i.testBit k).toNat := by
  rw [bitReversed, List.range_succ, List.foldl_append, List.foldl_cons, List.foldl_nil,
    shiftLeft_one_or]
  rfl

/-- The first round of the loop: the lowest bit becomes the highest. -/
theorem bitReversed_bit (k i : Nat) (b : Bool) :
    bitReversed (k + 1) (2 * i + b.toNat) = b.toNat * 2 ^ k + bitReversed k i := by
  have hbit : 2 * i + b.toNat = i.bit b := by
    cases b with
    | false => simp [Nat.bit]
    | true => simp [Nat.bit]
  rw [hbit]
  induction k with
  | zero => simp [bitReversed_succ, bitReversed_zero]
  | succ k ih =>
    rw [bitReversed_succ, ih, Nat.testBit_bit_succ, bitReversed_succ k i, Nat.pow_succ]
    ring

/-- Doubling moves every bit up, so the reversed number loses its top bit. -/
theorem bitReversed_double (k i : Nat) : bitReversed (k + 1) (2 * i) = bitReversed k i := by
  have h := bitReversed_bit k i false
  simpa using h

/-- The lowest bit of a number becomes the highest one. -/
theorem bitReversed_double_succ (k i : Nat) :
    bitReversed (k + 1) (2 * i + 1) = 2 ^ k + bitReversed k i := by
  have h := bitReversed_bit k i true
  simpa using h

end AiMidi.Lib
