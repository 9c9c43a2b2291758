import AiMidi.Dsp.BiquadFilter
import Mathlib.Algebra.Ring.Int.Defs
import Mathlib.Tactic.Ring

/-!
# `AiMidi.Proofs.Dsp.BiquadFilter`: the filter and its difference equation

`directForm` is what a filter of second order is for: each sample from the last three inputs and the
last two outputs. `process` keeps two state variables in place of these four numbers. Over a
commutative ring both compute the same signal, however the samples are cut into blocks
(`processBlocks_eq`). Only the returned samples are narrowed, not what is fed back.

The state variables are expressed by the samples so far (`after_s1`, `after_s2`), by induction on
the number of samples, and the output depends on the first of them alone. A block is a fold over its
samples, so cutting it changes nothing (`processBlock_append`).
-/

set_option autoImplicit false

namespace AiMidi.Proofs.Dsp

open AiMidi.Dsp

section

variable {D : Type} [CommRing D]

/-! ### The difference equation

Two numbers are enough for the state, as they are sums of what the past contributes to the next two
outputs. The proof writes them as these sums. -/

/-- The signal from inputs that are zero before index 0. -/
def directForm (f : BiquadFilter D) (x : Nat → D) : Nat → D
  | 0     => f.b0 * x 0
  | 1     => f.b0 * x 1 + f.b1 * x 0 - f.a1 * directForm f x 0
  | n + 2 => f.b0 * x (n + 2) + f.b1 * x (n + 1) + f.b2 * x n
      - f.a1 * directForm f x (n + 1) - f.a2 * directForm f x n

/-- The filter after the first `n` samples. -/
def after (f : BiquadFilter D) (x : Nat → D) : Nat → BiquadFilter D
  | 0     => f
  | n + 1 => (after f x n).advance (x n)

/-- Processing keeps the coefficients. -/
structure SameCoefficients (f g : BiquadFilter D) : Prop where
  b0 : f.b0 = g.b0
  b1 : f.b1 = g.b1
  b2 : f.b2 = g.b2
  a1 : f.a1 = g.a1
  a2 : f.a2 = g.a2

/-- The samples do not change the coefficients. -/
theorem after_sameCoefficients (f : BiquadFilter D) (x : Nat → D) (n : Nat) :
    SameCoefficients (after f x n) f := by
  induction n with
  | zero => exact ⟨rfl, rfl, rfl, rfl, rfl⟩
  | succ n ih => exact ⟨ih.b0, ih.b1, ih.b2, ih.a1, ih.a2⟩

section

variable {f : BiquadFilter D} (hs1 : f.s1 = 0) (hs2 : f.s2 = 0) (x : Nat → D)

/-- The second state variable is what the last sample contributes to the sample after the next. -/
theorem after_s2 (n : Nat) :
    (after f x (n + 1)).s2 = f.b2 * x n - f.a2 * (after f x n).output (x n) := by
  have h := after_sameCoefficients f x n
  rw [after, BiquadFilter.advance, h.b2, h.a2]

/-- The first is what the past contributes to the next sample. -/
theorem after_s1 (n : Nat) : (after f x (n + 1)).s1
    = f.b1 * x n - f.a1 * (after f x n).output (x n) + (after f x n).s2 := by
  have h := after_sameCoefficients f x n
  rw [after, BiquadFilter.advance, h.b1, h.a1]

/-- The output depends on the state by `s1` alone. -/
theorem output_after (n : Nat) :
    (after f x n).output (x n) = f.b0 * x n + (after f x n).s1 := by
  rw [BiquadFilter.output, (after_sameCoefficients f x n).b0]

include hs1 hs2

/-- From rest, each output satisfies the difference equation. -/
theorem output_eq_directForm (n : Nat) : (after f x n).output (x n) = directForm f x n := by
  -- Each output needs the two before it, so the induction is a strong one.
  induction n using Nat.strong_induction_on with
  | _ n ih =>
    match n with
    | 0 =>
      rw [output_after, directForm]
      show f.b0 * x 0 + f.s1 = _
      rw [hs1, add_zero]
    | 1 =>
      rw [output_after, after_s1, ih 0 (by omega), directForm]
      show f.b0 * x 1 + (f.b1 * x 0 - f.a1 * directForm f x 0 + f.s2)
        = f.b0 * x 1 + f.b1 * x 0 - f.a1 * directForm f x 0
      rw [hs2]
      ring
    | n + 2 =>
      rw [output_after, after_s1, after_s2, ih (n + 1) (by omega), ih n (by omega), directForm]
      ring

end

/-! ### Blocks

The state behind a block is the state in front of the next one. Nothing else is carried over, so the
cuts cannot be seen in the output. -/

variable {F : Type} (widen : F → D) (narrow : D → F)

/-- Block after block, as a host delivers them. -/
def processBlocks (f : BiquadFilter D) : List (List F) → List (List F)
  | []              => []
  | block :: blocks =>
      let (ys, f) := f.processBlock widen narrow block
      ys :: processBlocks f blocks

/-- The first sample of a block, and the rest. -/
theorem processBlock_cons (f : BiquadFilter D) (sample : F) (samples : List F) :
    f.processBlock widen narrow (sample :: samples)
      = (narrow (f.output (widen sample))
          :: ((f.advance (widen sample)).processBlock widen narrow samples).1,
        ((f.advance (widen sample)).processBlock widen narrow samples).2) := rfl

/-- A block is processed sample by sample. -/
theorem processBlock_eq (f : BiquadFilter D) (samples : List F) (x : Nat → D)
    (hx : ∀ n, ∀ s, samples[n]? = some s → x n = widen s) :
    f.processBlock widen narrow samples
      = ((List.range samples.length).map fun n => narrow ((after f x n).output (x n)),
          after f x samples.length) := by
  induction samples generalizing f x with
  | nil => rfl
  | cons sample samples ih =>
    have hhead : x 0 = widen sample := hx 0 sample rfl
    -- The filter behind the first sample goes through the rest as the whole signal does.
    have hafter : ∀ n, after (f.advance (x 0)) (fun n => x (n + 1)) n = after f x (n + 1) := by
      intro n
      induction n with
      | zero => rfl
      | succ n ih => rw [after, ih]; rfl
    rw [processBlock_cons, ih _ (fun n => x (n + 1)) fun n s hs => hx (n + 1) s hs, ← hhead]
    simp only [hafter, List.length_cons, List.range_succ_eq_map, List.map_cons, List.map_map]
    rfl

/-- A cut between two blocks is not heard. -/
theorem processBlock_append (f : BiquadFilter D) (xs ys : List F) :
    f.processBlock widen narrow (xs ++ ys)
      = ((f.processBlock widen narrow xs).1
          ++ ((f.processBlock widen narrow xs).2.processBlock widen narrow ys).1,
        ((f.processBlock widen narrow xs).2.processBlock widen narrow ys).2) := by
  induction xs generalizing f with
  | nil => rfl
  | cons x xs ih =>
    rw [List.cons_append, processBlock_cons, processBlock_cons, ih]
    rfl

/-- How the samples are cut into blocks does not matter. -/
theorem processBlocks_flatten (f : BiquadFilter D) (blocks : List (List F)) :
    (processBlocks widen narrow f blocks).flatten
      = (f.processBlock widen narrow blocks.flatten).1 := by
  induction blocks generalizing f with
  | nil => rfl
  | cons block blocks ih =>
    rw [processBlocks, List.flatten_cons, List.flatten_cons, processBlock_append, ih]

/-- Any sequence of blocks through a filter at rest comes out as the difference equation says. -/
theorem processBlocks_eq {f : BiquadFilter D} (hs1 : f.s1 = 0) (hs2 : f.s2 = 0)
    (blocks : List (List F)) :
    (processBlocks widen narrow f blocks).flatten
      = (List.range blocks.flatten.length).map fun n =>
          narrow (directForm f (fun n => (blocks.flatten[n]?.map widen).getD 0) n) := by
  have hx : ∀ (n : Nat) (s : F), blocks.flatten[n]? = some s →
      (blocks.flatten[n]?.map widen).getD 0 = widen s := by
    intro n s hs
    rw [hs]
    rfl
  rw [processBlocks_flatten, processBlock_eq widen narrow f _ _ hx]
  exact List.map_congr_left fun n _ => congrArg narrow (output_eq_directForm hs1 hs2 _ n)

/-- Two blocks through a filter that adds the last sample to each. -/
theorem processBlocks_eq_sums :
    (processBlocks id id (⟨1, 1, 0, 0, 0, 0, 0⟩ : BiquadFilter ℤ) [[1, 2], [3]]).flatten
      = (List.range 3).map fun n => id (directForm ⟨1, 1, 0, 0, 0, 0, 0⟩
          (fun n => ((([[1, 2], [3]] : List (List ℤ)).flatten)[n]?.map id).getD 0) n) :=
  processBlocks_eq id id rfl rfl [[1, 2], [3]]

end

end AiMidi.Proofs.Dsp
