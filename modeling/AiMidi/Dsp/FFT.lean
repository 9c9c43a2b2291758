import AiMidi.Lib.BitReversal
import Mathlib.Data.Nat.Log

/-!
# `AiMidi.Dsp.FFT`: the radix-2 transform

An `FFT` holds the table of reversed indices and the table of twiddle factors of its size. `forward`
copies the input in reversed order and then makes one pass for each block length, in place.
`inverse` conjugates its input, makes the same passes, conjugates again and divides by the size.

The samples `F` and the complex numbers `C` are any types with the operations that the code uses
(`ComplexOps` has those beyond the arithmetic), so that the loops can be run on exact numbers. A
buffer is a function of the index. What lies at and behind the size is not part of the array.

The constructor asserts that the size is a power of two. `cis` stands for the computation of a
twiddle factor from its index and the size.
-/

set_option autoImplicit false

namespace AiMidi.Dsp

open AiMidi.Lib

/-- What the transform does with complex numbers besides adding and multiplying them. -/
structure ComplexOps (F C : Type) where
  /-- `std::complex<float>(x, 0.0f)`. -/
  ofReal : F → C
  conj : C → C
  re : C → F

/-- The tables of a transform. -/
structure FFT (C : Type) where
  size : Nat
  rev : Nat → Nat
  twiddle : Nat → C

namespace FFT

section

variable {F C : Type}

/-- The constructor. The loop over the bits runs while `bit < size`. -/
def construct (cis : Nat → Nat → C) (size : Nat) : FFT C where
  size := size
  rev i := bitReversed (Nat.clog 2 size) i
  twiddle i := cis i size

/-! ### The passes

The loops are written over any complex numbers, with the buffer as a function of its indices.
Nothing in them depends on rounding. -/

variable [Add C] [Sub C] [Mul C]

/-- The two elements at `a` and `a + half`, combined in place. -/
def butterfly (half : Nat) (w : C) (buf : Nat → C) (a : Nat) : Nat → C :=
  let u := buf a
  let v := buf (a + half) * w
  Function.update (Function.update buf a (u + v)) (a + half) (u - v)

/-- `for (i = 0; i < size; i += len)`. -/
def blockStarts (size len : Nat) : List Nat :=
  (List.range ((size + len - 1) / len)).map fun b => len * b

/-- The loop over one block. -/
def blockPass (fft : FFT C) (len : Nat) (buf : Nat → C) (i : Nat) : Nat → C :=
  (List.range (len / 2)).foldl
    (fun buf j => butterfly (len / 2) (fft.twiddle (j * fft.size / len)) buf (i + j)) buf

/-- The pass for blocks of length `len`. -/
def pass (fft : FFT C) (buf : Nat → C) (len : Nat) : Nat → C :=
  (blockStarts fft.size len).foldl (blockPass fft len) buf

/-- `for (len = 2; len <= size; len <<= 1)`. -/
def passLengths (size : Nat) : List Nat := (List.range (Nat.log 2 size)).map fun s => 2 ^ (s + 1)

/-- All passes over the buffer, from the shortest butterflies to the longest. -/
def passes (fft : FFT C) (buf : Nat → C) : Nat → C := (passLengths fft.size).foldl (pass fft) buf

/-! ### The two transforms

`forward` works in place on its output, and `inverse` has a buffer of its own. Both copy the input
in the order of the reversed indices first. -/

/-- The copy in reversed order, over what the buffer held. -/
def permuted (fft : FFT C) (value : Nat → C) (buf : Nat → C) : Nat → C :=
  fun i => if i < fft.size then value (fft.rev i) else buf i

/-- `forward`, on the buffer that `output` points to. -/
def forward (ops : ComplexOps F C) (fft : FFT C) (input : Nat → F) (output : Nat → C) : Nat → C :=
  fft.passes (fft.permuted (fun i => ops.ofReal (input i)) output)

/-- `inverse`. Its own buffer, `buf`, starts with any contents. -/
def inverse [One F] [Div F] [Mul F] [NatCast F] (ops : ComplexOps F C) (fft : FFT C)
    (input buf : Nat → C) (output : Nat → F) : Nat → F :=
  let buf := fft.passes (fft.permuted (fun i => ops.conj (input i)) buf)
  let inv := 1 / (fft.size : F)
  fun i => if i < fft.size then ops.re (ops.conj (buf i)) * inv else output i

end

end FFT

end AiMidi.Dsp
