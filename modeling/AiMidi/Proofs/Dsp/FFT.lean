import AiMidi.Dsp.FFT
import AiMidi.Lib.Dft
import AiMidi.Lib.LocalFold
import Mathlib.Analysis.SpecialFunctions.Trigonometric.Basic

/-!
# `AiMidi.Proofs.Dsp.FFT`: the passes compute the discrete Fourier transform

The loops are the same in every commutative ring. A pass joins the blocks in pairs, and each pair is
one decimation in time (`Transformed.pass`). Reversing the bits of the index puts every input in the
block where this starts, so that all passes together compute the transform (`passes_permuted`).

`exactFFT` is the transform on the complex numbers, with the twiddle factors of the constructor.
There `forward` is the discrete Fourier transform (`forward_eq_sum`) and `inverse` takes it back
(`inverse_forward`). On `float` both hold up to rounding.

A loop writes in place, so every rule comes with a frame: a butterfly touches its two points, the
rounds of a block stay in their pairs, and the blocks of a pass do not overlap (`butterfly_frame`,
`blockPass_local`, `pass_block`). With these a pass works on each block as it found it.
-/

set_option autoImplicit false

namespace AiMidi.Proofs.Dsp

open AiMidi.Lib AiMidi.Dsp AiMidi.Dsp.FFT

section

variable {C : Type} [CommRing C]

/-! ### One block

A butterfly reads and writes two points. The butterflies of a block have no point in common, so each
of them finds what the pass has found. -/

/-- A butterfly at `a` owns the two indices it writes. -/
def Pair (half i j a : Nat) : Prop := a = i + j ∨ a = i + j + half

section

variable {half : Nat} (w : C) (buf : Nat → C) (a : Nat)

/-- The lower output is the sum. -/
theorem butterfly_low (hhalf : 0 < half) :
    butterfly half w buf a a = buf a + buf (a + half) * w := by
  rw [butterfly, Function.update_of_ne (by omega), Function.update_self]

/-- The upper one is the difference. -/
theorem butterfly_high : butterfly half w buf a (a + half) = buf a - buf (a + half) * w := by
  rw [butterfly, Function.update_self]

/-- A butterfly touches no other point of the buffer. -/
theorem butterfly_frame {b : Nat} (hlow : b ≠ a) (hhigh : b ≠ a + half) :
    butterfly half w buf a b = buf b := by
  rw [butterfly, Function.update_of_ne hhigh, Function.update_of_ne hlow]

end

/-- The rounds of a block stay in their pairs. -/
theorem butterfly_local {half : Nat} (hhalf : 0 < half) (w : Nat → C) (i j : Nat) :
    LocalTo (fun buf j => butterfly half (w j) buf (i + j)) (Pair half i) j where
  frame buf a ha := butterfly_frame _ _ _ (fun h => ha (.inl h)) fun h => ha (.inr h)
  reads buf buf' h a ha := by
    have hlow := h (i + j) (.inl rfl)
    have hhigh := h (i + j + half) (.inr rfl)
    obtain rfl | rfl := ha
    · show butterfly half (w j) buf (i + j) (i + j) = butterfly half (w j) buf' (i + j) (i + j)
      rw [butterfly_low _ _ _ hhalf, butterfly_low _ _ _ hhalf, hlow, hhigh]
    · show butterfly half (w j) buf (i + j) (i + j + half)
        = butterfly half (w j) buf' (i + j) (i + j + half)
      rw [butterfly_high, butterfly_high, hlow, hhigh]

/-- The butterflies of a block work on different points. -/
theorem pairs_disjoint (half i : Nat) :
    (List.range half).Pairwise fun j k => ∀ a, Pair half i j a → ¬ Pair half i k a := by
  refine List.Pairwise.imp_of_mem (fun {j k} hj hk hlt a => ?_) List.pairwise_lt_range
  have hj := List.mem_range.mp hj
  have hk := List.mem_range.mp hk
  unfold Pair
  omega

/-- The indices of the block at `i`. -/
def Block (half i a : Nat) : Prop := i ≤ a ∧ a < i + 2 * half

/-- A point of the block belongs to one of its butterflies. -/
theorem block_iff (half i a : Nat) :
    Block half i a ↔ ∃ j ∈ List.range half, Pair half i j a := by
  constructor
  · rintro ⟨hlow, hhigh⟩
    by_cases h : a < i + half
    · exact ⟨a - i, List.mem_range.mpr (by omega), .inl (by omega)⟩
    · exact ⟨a - i - half, List.mem_range.mpr (by omega), .inr (by omega)⟩
  · rintro ⟨j, hj, ha⟩
    have hj := List.mem_range.mp hj
    unfold Pair at ha
    unfold Block
    omega

section

variable (fft : FFT C) {half : Nat} (hhalf : 0 < half)

/-- The loop over a block, with the half of its length. -/
theorem blockPass_half (buf : Nat → C) (i : Nat) : blockPass fft (2 * half) buf i =
    (List.range half).foldl
      (fun buf j => butterfly half (fft.twiddle (j * fft.size / (2 * half))) buf (i + j)) buf := by
  rw [blockPass, Nat.mul_div_cancel_left half (by decide)]

include hhalf

/-- The blocks of a pass stay within themselves. -/
theorem blockPass_local (i : Nat) : LocalTo (blockPass fft (2 * half)) (Block half) i := by
  exact LocalTo.of_foldl (fun buf => blockPass_half fft buf i)
    (fun j _ => butterfly_local hhalf (fun j => fft.twiddle (j * fft.size / (2 * half))) i j)
    (pairs_disjoint half i) (block_iff half i)

/-- The lower half of a block. -/
theorem blockPass_low (buf : Nat → C) (i : Nat) {j : Nat} (hj : j < half) :
    blockPass fft (2 * half) buf i (i + j)
      = buf (i + j) + buf (i + j + half) * fft.twiddle (j * fft.size / (2 * half)) := by
  rw [blockPass_half, foldl_local_at (S := Pair half i)
    (fun j _ => butterfly_local hhalf (fun j => fft.twiddle (j * fft.size / (2 * half))) i j)
    (pairs_disjoint half i) buf (List.mem_range.mpr hj) (.inl rfl)]
  exact butterfly_low _ _ _ hhalf

/-- The upper half. -/
theorem blockPass_high (buf : Nat → C) (i : Nat) {j : Nat} (hj : j < half) :
    blockPass fft (2 * half) buf i (i + j + half)
      = buf (i + j) - buf (i + j + half) * fft.twiddle (j * fft.size / (2 * half)) := by
  rw [blockPass_half, foldl_local_at (S := Pair half i)
    (fun j _ => butterfly_local hhalf (fun j => fft.twiddle (j * fft.size / (2 * half))) i j)
    (pairs_disjoint half i) buf (List.mem_range.mpr hj) (.inr rfl)]
  exact butterfly_high _ _ _

end

/-! ### One pass

The blocks of a pass follow one another and fill the array. Each is transformed by itself, and the
points outside of the array are left alone. -/

section

variable {fft : FFT C} {half count : Nat} (hhalf : 0 < half) (hsize : fft.size = count * (2 * half))

include hhalf hsize

omit [CommRing C] in
/-- The blocks begin at the multiples of their length. -/
theorem blockStarts_eq :
    blockStarts fft.size (2 * half) = (List.range count).map (2 * half * ·) := by
  have hpos : 0 < 2 * half := by omega
  have hcount : (fft.size + 2 * half - 1) / (2 * half) = count := by
    rw [hsize, Nat.add_sub_assoc (by omega), Nat.mul_comm, Nat.mul_add_div hpos,
      Nat.div_eq_of_lt (by omega), Nat.add_zero]
  rw [blockStarts, hcount]

omit [CommRing C] in
/-- They have no point in common. -/
theorem blocks_disjoint :
    (blockStarts fft.size (2 * half)).Pairwise fun i k =>
      ∀ a, Block half i a → ¬ Block half k a := by
  rw [blockStarts_eq hhalf hsize, List.pairwise_map]
  refine List.Pairwise.imp (fun {b c} hlt a => ?_) List.pairwise_lt_range
  have hle : 2 * half * (b + 1) ≤ 2 * half * c := Nat.mul_le_mul_left _ hlt
  rw [Nat.mul_succ] at hle
  unfold Block
  omega

/-- A pass works on each block as it found it. -/
theorem pass_block (buf : Nat → C) {b : Nat} (hb : b < count) {a : Nat}
    (ha : Block half (2 * half * b) a) :
    pass fft buf (2 * half) a = blockPass fft (2 * half) buf (2 * half * b) a := by
  refine foldl_local_at (fun i _ => blockPass_local fft hhalf i) (blocks_disjoint hhalf hsize) buf
    ?_ ha
  rw [blockStarts_eq hhalf hsize]
  exact List.mem_map_of_mem (List.mem_range.mpr hb)

/-- A pass leaves what is not in the array. -/
theorem pass_frame (buf : Nat → C) {a : Nat} (ha : fft.size ≤ a) :
    pass fft buf (2 * half) a = buf a := by
  refine foldl_local_frame (fun i _ => blockPass_local fft hhalf i) buf fun i hi hblock => ?_
  rw [blockStarts_eq hhalf hsize] at hi
  obtain ⟨b, hb, rfl⟩ := List.mem_map.mp hi
  have hle : 2 * half * (b + 1) ≤ 2 * half * count :=
    Nat.mul_le_mul_left _ (List.mem_range.mp hb)
  rw [Nat.mul_succ, Nat.mul_comm _ count, ← hsize] at hle
  have hlt := hblock.2
  omega

end

/-! ### All passes

A block of the next pass consists of two blocks of this one. By decimation in time its transform is
joined from theirs, with the factors of its length. -/

/-- After `s` passes, block `b` holds the transform of the inputs with the reversed index of `b` in
their low bits. -/
def Transformed (ω : C) (k s : Nat) (x buf : Nat → C) : Prop :=
  ∀ b < 2 ^ (k - s), ∀ j < 2 ^ s, buf (2 ^ s * b + j)
    = dft (ω ^ 2 ^ (k - s)) (2 ^ s) (fun t => x (bitReversed (k - s) b + 2 ^ (k - s) * t)) j

variable {fft : FFT C} {ω : C} {k : Nat}

/-- One pass joins the blocks in pairs. -/
theorem Transformed.pass (hsize : fft.size = 2 ^ k)
    (htwiddle : ∀ i < 2 ^ k / 2, fft.twiddle i = ω ^ i)
    (hω : ∀ m, k = m + 1 → ω ^ 2 ^ m = -1) {s : Nat} (hs : s < k) {x buf : Nat → C}
    (h : Transformed ω k s x buf) :
    Transformed ω k (s + 1) x (pass fft buf (2 ^ (s + 1))) := by
  obtain ⟨m, rfl⟩ := Nat.exists_eq_add_of_lt hs
  intro b hb
  have hm : s + m + 1 - s = m + 1 := by omega
  have hm' : s + m + 1 - (s + 1) = m := by omega
  rw [Transformed, hm] at h
  rw [hm'] at hb ⊢
  have hhalf : 0 < 2 ^ s := Nat.two_pow_pos s
  have hcount : fft.size = 2 ^ m * (2 * 2 ^ s) := by
    rw [hsize, ← Nat.pow_succ', ← Nat.pow_add]
    congr 1
    omega
  have hdouble : (ω ^ 2 ^ m) ^ 2 = ω ^ 2 ^ (m + 1) := by rw [← pow_mul, Nat.pow_succ]
  -- The two blocks that are joined hold the even and the odd terms.
  have heven : ∀ j < 2 ^ s, buf (2 * 2 ^ s * b + j)
      = dft ((ω ^ 2 ^ m) ^ 2) (2 ^ s) (fun t => x (bitReversed m b + 2 ^ m * (2 * t))) j := by
    intro j hj
    have hblock := h (2 * b) (by rw [Nat.pow_succ]; omega) j hj
    rw [bitReversed_double] at hblock
    rw [hdouble, Nat.mul_assoc, Nat.mul_left_comm, hblock]
    simp only [Nat.pow_succ, Nat.mul_assoc]
  have hodd : ∀ j < 2 ^ s, buf (2 * 2 ^ s * b + j + 2 ^ s)
      = dft ((ω ^ 2 ^ m) ^ 2) (2 ^ s) (fun t => x (bitReversed m b + 2 ^ m * (2 * t + 1))) j := by
    intro j hj
    have hblock := h (2 * b + 1) (by rw [Nat.pow_succ]; omega) j hj
    rw [bitReversed_double_succ] at hblock
    have hindex : 2 * 2 ^ s * b + j + 2 ^ s = 2 ^ s * (2 * b + 1) + j := by ring
    rw [hdouble, hindex, hblock]
    congr 1
    funext t
    congr 1
    ring
  have hfactor : ∀ j < 2 ^ s, fft.twiddle (j * fft.size / (2 * 2 ^ s)) = (ω ^ 2 ^ m) ^ j := by
    intro j hj
    have hindex : j * fft.size / (2 * 2 ^ s) = 2 ^ m * j := by
      rw [hcount, ← Nat.mul_assoc, Nat.mul_div_cancel _ (by omega), Nat.mul_comm]
    have hsizeHalf : 2 ^ (s + m + 1) / 2 = 2 ^ m * 2 ^ s := by
      rw [Nat.pow_succ, Nat.mul_div_cancel _ (by decide), Nat.pow_add, Nat.mul_comm]
    have hlt : 2 ^ m * j < 2 ^ m * 2 ^ s := Nat.mul_lt_mul_of_pos_left hj (Nat.two_pow_pos m)
    rw [hindex, htwiddle _ (by rw [hsizeHalf]; exact hlt), pow_mul]
  have hroot : (ω ^ 2 ^ m) ^ 2 ^ s = -1 := by
    rw [← pow_mul, ← Nat.pow_add]
    exact hω (m + s) (by omega)
  intro j hj
  have hblock : ∀ a, a < 2 * 2 ^ s → Block (2 ^ s) (2 * 2 ^ s * b) (2 * 2 ^ s * b + a) :=
    fun a ha => ⟨Nat.le_add_right _ _, Nat.add_lt_add_left ha _⟩
  rw [Nat.pow_succ'] at hj ⊢
  rw [pass_block hhalf hcount buf hb (hblock j hj)]
  by_cases hlow : j < 2 ^ s
  · rw [blockPass_low fft hhalf buf _ hlow, heven j hlow, hodd j hlow, hfactor j hlow, dft_split]
  · obtain ⟨i, rfl⟩ := Nat.exists_eq_add_of_le (Nat.le_of_not_lt hlow)
    have hi : i < 2 ^ s := by omega
    rw [Nat.add_comm (2 ^ s) i, ← Nat.add_assoc, blockPass_high fft hhalf buf _ hi, heven i hi,
      hodd i hi, hfactor i hi, dft_add_half hroot]

/-- The buffer after the first `s` passes. -/
theorem transformed_passes (hsize : fft.size = 2 ^ k)
    (htwiddle : ∀ i < 2 ^ k / 2, fft.twiddle i = ω ^ i) (hω : ∀ m, k = m + 1 → ω ^ 2 ^ m = -1)
    {x buf : Nat → C} (h : Transformed ω k 0 x buf) {s : Nat} (hs : s ≤ k) :
    Transformed ω k s x
      (((List.range s).map fun s => 2 ^ (s + 1)).foldl (FFT.pass fft) buf) := by
  induction s with
  | zero => exact h
  | succ s ih =>
    rw [List.range_succ, List.map_append, List.foldl_append]
    exact (ih (by omega)).pass hsize htwiddle hω hs

/-- The passes leave what is not in the array. -/
theorem passes_frame (hsize : fft.size = 2 ^ k) (buf : Nat → C) {a : Nat} (ha : 2 ^ k ≤ a) :
    fft.passes buf a = buf a := by
  -- Each pass leaves the places behind the array, so any number of them does.
  have hprefix : ∀ s ≤ k, (((List.range s).map fun s => 2 ^ (s + 1)).foldl (FFT.pass fft) buf) a
      = buf a := by
    intro s hs
    induction s with
    | zero => rfl
    | succ s ih =>
      have hcount : fft.size = 2 ^ (k - (s + 1)) * (2 * 2 ^ s) := by
        rw [hsize, ← Nat.pow_succ', ← Nat.pow_add]
        congr 1
        omega
      rw [List.range_succ, List.map_append, List.foldl_append]
      show FFT.pass fft _ (2 ^ (s + 1)) a = buf a
      rw [Nat.pow_succ', pass_frame (Nat.two_pow_pos s) hcount _ (by rw [hsize]; exact ha)]
      exact ih (by omega)
  rw [passes, passLengths, hsize, Nat.log_pow (by decide)]
  exact hprefix k (Nat.le_refl k)

/-- The passes over a permuted array compute the transform. -/
theorem passes_permuted (hsize : fft.size = 2 ^ k) (hrev : ∀ i, fft.rev i = bitReversed k i)
    (htwiddle : ∀ i < 2 ^ k / 2, fft.twiddle i = ω ^ i) (hω : ∀ m, k = m + 1 → ω ^ 2 ^ m = -1)
    (x buf : Nat → C) (j : Nat) : fft.passes (fft.permuted x buf) j
      = if j < 2 ^ k then dft ω (2 ^ k) x j else buf j := by
  split
  · rename_i hj
    have h0 : Transformed ω k 0 x (fft.permuted x buf) := by
      intro b hb j hj
      obtain rfl : j = 0 := by omega
      rw [Nat.pow_zero, Nat.one_mul, Nat.add_zero, dft_one, permuted,
        if_pos (by rw [hsize]; exact hb), hrev, Nat.mul_zero, Nat.add_zero, Nat.sub_zero]
    have h := transformed_passes hsize htwiddle hω h0 (Nat.le_refl k) 0 (Nat.two_pow_pos _) j hj
    rw [passes, passLengths, hsize, Nat.log_pow (by decide)]
    simpa [bitReversed_zero] using h
  · rename_i hj
    rw [passes_frame hsize _ (Nat.le_of_not_lt hj), permuted, if_neg (by rw [hsize]; exact hj)]

end

/-! ### Exact complex numbers

What the passes ask for is a root of unity whose power at half its order is `-1`. The factors of the
constructor are the powers of such a root, and their conjugates those of its inverse. -/

noncomputable section

open Complex Finset

/-- `std::complex` on the real numbers. -/
def exactOps : ComplexOps ℝ ℂ where
  ofReal := Complex.ofReal
  conj := starRingEnd ℂ
  re := Complex.re

/-- A twiddle factor: `cos(angle)` and `sin(angle)` of `-2π i / size`. -/
def exactCis (i size : Nat) : ℂ :=
  let angle := ((-2 : ℤ) : ℝ) * Real.pi * i / size
  ⟨Real.cos angle, Real.sin angle⟩

/-- The transform over the complex numbers, with exact twiddle factors. -/
def exactFFT (size : Nat) : FFT ℂ := FFT.construct exactCis size

/-- A twiddle factor is a power of the exponential. -/
theorem exactCis_eq_exp (i size : Nat) :
    exactCis i size = exp (((((-2 : ℤ) : ℝ) * Real.pi * i / size : ℝ) : ℂ) * I) := by
  apply Complex.ext
  · rw [exp_ofReal_mul_I_re]
    rfl
  · rw [exp_ofReal_mul_I_im]
    rfl

/-- The factors are the powers of the first. -/
theorem exactCis_eq_pow (i size : Nat) : exactCis i size = exactCis 1 size ^ i := by
  rw [exactCis_eq_exp, exactCis_eq_exp, ← Complex.exp_nat_mul]
  congr 1
  push_cast
  ring

/-- Half a turn. -/
theorem exactCis_half (m : Nat) : exactCis 1 (2 ^ (m + 1)) ^ 2 ^ m = -1 := by
  rw [← exactCis_eq_pow, exactCis_eq_exp]
  have hangle : ((-2 : ℤ) : ℝ) * Real.pi * ((2 ^ m : Nat) : ℝ) / ((2 ^ (m + 1) : Nat) : ℝ)
      = -Real.pi := by
    push_cast
    field_simp
    ring
  rw [hangle, ofReal_neg, neg_mul, Complex.exp_neg, exp_pi_mul_I, inv_neg, inv_one]

/-- Half a turn of the primitive root is `-1`. -/
theorem exactCis_root {k : Nat} : ∀ m, k = m + 1 → exactCis 1 (2 ^ k) ^ 2 ^ m = -1 := by
  rintro m rfl
  exact exactCis_half m

/-- All passes over the permuted input are the discrete transform, and behind its points the buffer
is as before. -/
theorem exactFFT_passes (k : Nat) (x buf : Nat → ℂ) (j : Nat) :
    (exactFFT (2 ^ k)).passes ((exactFFT (2 ^ k)).permuted x buf) j
      = if j < 2 ^ k then dft (exactCis 1 (2 ^ k)) (2 ^ k) x j else buf j := by
  refine passes_permuted rfl (fun i => ?_) (fun i _ => exactCis_eq_pow i _) exactCis_root x buf j
  show bitReversed (Nat.clog 2 (2 ^ k)) i = bitReversed k i
  rw [Nat.clog_pow 2 k (by decide)]

/-- `forward` computes the discrete Fourier transform, and writes nothing behind the array. -/
theorem forward_eq_sum (k : Nat) (input : Nat → ℝ) (output : Nat → ℂ) (j : Nat) :
    (exactFFT (2 ^ k)).forward exactOps input output j = if j < 2 ^ k then
      ∑ t ∈ range (2 ^ k), (input t : ℂ) * exp (-2 * Real.pi * I * (t * j) / (2 ^ k : Nat))
    else output j := by
  rw [FFT.forward, exactFFT_passes]
  split
  · refine sum_congr rfl fun t _ => ?_
    rw [← exactCis_eq_pow, exactCis_eq_exp]
    show (input t : ℂ) * _ = _
    congr 2
    push_cast
    ring
  · rfl

/-- The conjugate of a factor is its inverse. -/
theorem conj_exactCis (size : Nat) :
    starRingEnd ℂ (exactCis 1 size) * exactCis 1 size = 1 := by
  rw [exactCis_eq_exp, ← exp_conj, ← Complex.exp_add, map_mul, conj_ofReal, conj_I]
  rw [mul_neg, neg_add_cancel, Complex.exp_zero]

/-- `inverse` takes `forward` back. -/
theorem inverse_forward (k : Nat) (input : Nat → ℝ) (output buf : Nat → ℂ) (result : Nat → ℝ)
    (j : Nat) :
    (exactFFT (2 ^ k)).inverse exactOps ((exactFFT (2 ^ k)).forward exactOps input output) buf
      result j = if j < 2 ^ k then input j else result j := by
  rw [FFT.inverse]
  show (if j < 2 ^ k then _ else _) = _
  split
  · rename_i hj
    -- Between the two transforms the spectrum is conjugated, which inverts the root.
    have hspectrum : ∀ i < 2 ^ k,
        exactOps.conj ((exactFFT (2 ^ k)).forward exactOps input output i)
          = dft (starRingEnd ℂ (exactCis 1 (2 ^ k))) (2 ^ k) (fun t => (input t : ℂ)) i := by
      intro i hi
      rw [FFT.forward, exactFFT_passes, if_pos hi]
      show starRingEnd ℂ _ = _
      rw [map_dft]
      exact dft_congr _ (fun t _ => conj_ofReal _) i
    have hroot := inverse_root (exactCis_root (k := k)) (by rw [mul_comm]; exact conj_exactCis _)
    rw [exactFFT_passes, if_pos hj, dft_congr _ hspectrum, dft_dft hroot (conj_exactCis _) _ hj]
    show ((starRingEnd ℂ) (((2 ^ k : Nat) : ℂ) * (input j : ℂ))).re * (1 / ((2 ^ k : Nat) : ℝ))
      = input j
    rw [map_mul, conj_ofReal, map_natCast, ← ofReal_natCast, ← ofReal_mul, ofReal_re]
    field_simp
  · rfl

end

end AiMidi.Proofs.Dsp
