import Mathlib.Algebra.BigOperators.Intervals
import Mathlib.Algebra.BigOperators.Ring.Finset
import Mathlib.Algebra.Ring.Parity
import Mathlib.Tactic.Ring

/-!
# `AiMidi.Lib.Dft`: the discrete Fourier transform in a commutative ring

`dft ω n x j` is `∑ x t · ω ^ (t * j)` over `t < n`. The index `j` ranges over all natural numbers.

* `dft_split`: a transform of even length from the transforms of the even and of the odd terms, with
  the square of the root.
* `dft_add_half`: half a period on, the odd terms count negatively.
* `sum_pow_mul_eq_zero`: the powers of a root of order `2 ^ k` sum up to zero.
* `dft_dft`: the transform with the inverse root gives back `n` times the input.

A root is a number whose power with exponent `n / 2` is `-1`. No division is needed.
-/

set_option autoImplicit false

namespace AiMidi.Lib

open Finset

variable {R : Type} [CommRing R]

/-- Term `j` of the transform of the first `n` terms of `x`. -/
def dft (ω : R) (n : Nat) (x : Nat → R) (j : Nat) : R := ∑ t ∈ range n, x t * ω ^ (t * j)

/-- The transform of one sample is the sample. -/
theorem dft_one (ω : R) (x : Nat → R) (j : Nat) : dft ω 1 x j = x 0 := by
  simp [dft]

/-- Only the first `n` terms count. -/
theorem dft_congr (ω : R) {n : Nat} {x y : Nat → R} (h : ∀ t < n, x t = y t) (j : Nat) :
    dft ω n x j = dft ω n y j :=
  sum_congr rfl fun t ht => by rw [h t (mem_range.mp ht)]

/-- A ring homomorphism carries the transform over, with the root of unity. -/
theorem map_dft {S : Type} [CommRing S] (f : R →+* S) (ω : R) (n : Nat) (x : Nat → R) (j : Nat) :
    f (dft ω n x j) = dft (f ω) n (fun t => f (x t)) j := by
  simp only [dft, map_sum, map_mul, map_pow]

/-- A sum over an even range, term by term in pairs. -/
theorem sum_range_double (n : Nat) (f : Nat → R) :
    ∑ t ∈ range (2 * n), f t = ∑ t ∈ range n, f (2 * t) + ∑ t ∈ range n, f (2 * t + 1) := by
  induction n with
  | zero => simp
  | succ n ih =>
    rw [Nat.mul_succ, sum_range_succ, sum_range_succ, sum_range_succ, sum_range_succ, ih]
    ring

/-- Decimation in time. -/
theorem dft_split (ω : R) (n : Nat) (x : Nat → R) (j : Nat) :
    dft ω (2 * n) x j
      = dft (ω ^ 2) n (fun t => x (2 * t)) j
        + dft (ω ^ 2) n (fun t => x (2 * t + 1)) j * ω ^ j := by
  rw [dft, sum_range_double, dft, dft, sum_mul]
  congr 1
  · refine sum_congr rfl fun t _ => ?_
    rw [← pow_mul, Nat.mul_assoc]
  · refine sum_congr rfl fun t _ => ?_
    rw [← pow_mul, mul_assoc, ← pow_add]
    congr 2
    ring

/-- The transform has the period of its root. -/
theorem dft_add_period {ω : R} {p : Nat} (hω : ω ^ p = 1) (n : Nat) (x : Nat → R) (j : Nat) :
    dft ω n x (j + p) = dft ω n x j := by
  refine sum_congr rfl fun t _ => ?_
  rw [Nat.mul_add, pow_add, Nat.mul_comm t p, pow_mul ω p t, hω, one_pow, mul_one]

/-- Half a period on: the even terms are the same, the odd ones count negatively. -/
theorem dft_add_half {ω : R} {h : Nat} (hω : ω ^ h = -1) (n : Nat) (x : Nat → R) (j : Nat) :
    dft ω (2 * n) x (j + h)
      = dft (ω ^ 2) n (fun t => x (2 * t)) j
        - dft (ω ^ 2) n (fun t => x (2 * t + 1)) j * ω ^ j := by
  have hperiod : (ω ^ 2) ^ h = 1 := by rw [← pow_mul, Nat.mul_comm, pow_mul, hω, neg_one_sq]
  rw [dft_split, dft_add_period hperiod, dft_add_period hperiod, pow_add, hω]
  ring

/-! ### The inverse

The powers of a root that is not one sum up to zero over a full period. In the transform of the
transform all terms but one are such sums. -/

/-- The sum over a range that is twice as long. -/
theorem sum_pow_double (a : R) (n : Nat) :
    ∑ t ∈ range (2 * n), a ^ t = (1 + a ^ n) * ∑ t ∈ range n, a ^ t := by
  rw [Nat.two_mul, sum_range_add, add_mul, one_mul, mul_sum]
  exact congrArg _ (sum_congr rfl fun t _ => pow_add a n t)

/-- The powers of a power of the root that is not one sum up to zero. -/
theorem sum_pow_mul_eq_zero {k : Nat} {ω : R} (hω : ∀ m, k = m + 1 → ω ^ 2 ^ m = -1) {d : Nat}
    (hpos : 0 < d) (hlt : d < 2 ^ k) : ∑ t ∈ range (2 ^ k), (ω ^ d) ^ t = 0 := by
  induction k generalizing ω d with
  | zero => omega
  | succ k ih =>
    have hhalf : ω ^ 2 ^ k = -1 := hω k rfl
    rw [Nat.pow_succ, Nat.mul_comm, sum_pow_double]
    obtain ⟨e, rfl | rfl⟩ := Nat.even_or_odd' d
    · -- An even exponent: the square of the root has half the order.
      have hroot : ∀ m, k = m + 1 → (ω ^ 2) ^ 2 ^ m = -1 := by
        rintro m rfl
        rw [← pow_mul, ← Nat.pow_succ']
        exact hhalf
      rw [pow_mul, ih hroot (by omega) (by omega), mul_zero]
    · -- An odd exponent: the two halves of the sum cancel.
      have hneg : (ω ^ (2 * e + 1)) ^ 2 ^ k = -1 := by
        rw [pow_right_comm, hhalf, pow_succ, pow_mul, neg_one_sq, one_pow, one_mul]
      rw [hneg, add_neg_cancel, zero_mul]

/-- The inverse of a root is a root. -/
theorem inverse_root {k : Nat} {ω ω' : R} (hω : ∀ m, k = m + 1 → ω ^ 2 ^ m = -1)
    (hinv : ω * ω' = 1) : ∀ m, k = m + 1 → ω' ^ 2 ^ m = -1 := by
  intro m hm
  have h : ω ^ 2 ^ m * ω' ^ 2 ^ m = 1 := by rw [← mul_pow, hinv, one_pow]
  rw [hω m hm, neg_one_mul] at h
  rw [← neg_neg (ω' ^ 2 ^ m), h]

/-- The powers of the root at `t` against those of its inverse at `j`: orthogonality. -/
theorem sum_root_mul_inverse {k : Nat} {ω ω' : R} (hω : ∀ m, k = m + 1 → ω ^ 2 ^ m = -1)
    (hinv : ω * ω' = 1) {t j : Nat} (ht : t < 2 ^ k) (hj : j < 2 ^ k) :
    ∑ i ∈ range (2 ^ k), (ω ^ t * ω' ^ j) ^ i = if t = j then ((2 ^ k : Nat) : R) else 0 := by
  obtain hlt | rfl | hgt := Nat.lt_trichotomy t j
  · obtain ⟨d, rfl⟩ := Nat.exists_eq_add_of_lt hlt
    have hpow : ω ^ t * ω' ^ (t + d + 1) = ω' ^ (d + 1) := by
      rw [Nat.add_assoc, pow_add, ← mul_assoc, ← mul_pow, hinv, one_pow, one_mul]
    rw [if_neg (by omega), hpow,
      sum_pow_mul_eq_zero (inverse_root hω hinv) (by omega) (by omega)]
  · simp [← mul_pow, hinv]
  · obtain ⟨d, rfl⟩ := Nat.exists_eq_add_of_lt hgt
    have hpow : ω ^ (j + d + 1) * ω' ^ j = ω ^ (d + 1) := by
      rw [Nat.add_assoc, pow_add, mul_right_comm, ← mul_pow, hinv, one_pow, one_mul]
    rw [if_neg (by omega), hpow, sum_pow_mul_eq_zero hω (by omega) (by omega)]

/-- The transform of the transform with the inverse root is `n` times the input. -/
theorem dft_dft {k : Nat} {ω ω' : R} (hω : ∀ m, k = m + 1 → ω ^ 2 ^ m = -1)
    (hinv : ω * ω' = 1) (x : Nat → R) {j : Nat} (hj : j < 2 ^ k) :
    dft ω' (2 ^ k) (dft ω (2 ^ k) x) j = (2 ^ k : Nat) * x j := by
  have hterm : ∀ t, ∀ i, x t * ω ^ (t * i) * ω' ^ (i * j) = x t * (ω ^ t * ω' ^ j) ^ i := by
    intro t i
    rw [mul_pow, ← pow_mul, ← pow_mul, Nat.mul_comm j i, mul_assoc]
  calc dft ω' (2 ^ k) (dft ω (2 ^ k) x) j
      = ∑ i ∈ range (2 ^ k), ∑ t ∈ range (2 ^ k), x t * (ω ^ t * ω' ^ j) ^ i := by
        -- The double sum is written with the roots at one exponent, so that the order can be
        -- turned.
        refine sum_congr rfl fun i _ => ?_
        rw [dft, sum_mul]
        exact sum_congr rfl fun t _ => hterm t i
    _ = ∑ t ∈ range (2 ^ k), x t * if t = j then ((2 ^ k : Nat) : R) else 0 := by
        rw [sum_comm]
        refine sum_congr rfl fun t ht => ?_
        rw [← mul_sum, sum_root_mul_inverse hω hinv (mem_range.mp ht) hj]
    _ = (2 ^ k : Nat) * x j := by
        simp only [mul_ite, mul_zero, sum_ite_eq', mem_range, hj, if_true]
        exact mul_comm _ _

end AiMidi.Lib
