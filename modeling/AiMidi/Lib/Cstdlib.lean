import AiMidi.Lib.Decimal
import Mathlib.Data.List.TakeWhile

/-!
# `AiMidi.Lib.Cstdlib`: reading integers with the C and C++ standard library

`strtoull`, `atoi` and `std::from_chars` read a decimal integer from the front of a string.
`strtoull` and `atoi` skip white space and take a sign. `strtoull` negates modulo `2^64` and
returns `ULLONG_MAX` when the digits are out of range. `atoi` is `strtol`, which saturates
at the 64-bit limits, narrowed to 32 bits.

`strtoull_formatInt` and `atoi_decimal` read what `%d` prints.
-/

set_option autoImplicit false

namespace AiMidi.Lib

/-- `isspace` of the C locale. -/
def isSpace (c : UInt8) : Bool := c == 0x20 || (0x09 ≤ c && c ≤ 0x0D)

/-- White space and the sign: whether there is a minus, and the rest. -/
def readSign (s : Bytes) : Bool × Bytes :=
  match s.dropWhile isSpace with
  | []      => (false, [])
  | c :: cs => if c = 0x2D then (true, cs) else if c = 0x2B then (false, cs) else (false, c :: cs)

/-- `strtoull(s, &end, 10)`: the value and the rest of the string at `end`. Without digits
`end` is the start of the string. -/
def strtoull (s : Bytes) : UInt64 × Bytes :=
  let (neg, t) := readSign s
  let ds := t.takeWhile isDigit
  if ds = [] then (0, s)
  -- `ERANGE`: the result saturates whatever the sign.
  else if digitsValue ds ≥ 2 ^ 64 then (u64cast (2 ^ 64 - 1), t.dropWhile isDigit)
  else
    (u64cast (if neg then - digitsValue ds else digitsValue ds), t.dropWhile isDigit)

/-- `atoi(s)`. -/
def atoi (s : Bytes) : Int :=
  let (neg, t) := readSign s
  let n : Int := digitsValue (t.takeWhile isDigit)
  -- `strtol` saturates at the limits of `long`. The return statement narrows it to `int`.
  i32cast (if neg then max (-2 ^ 63) (-n) else min (2 ^ 63 - 1) n)

/-- `std::from_chars` into an `int`, on a string of digits: `none` when the error code is
set. -/
def fromChars (ds : Bytes) : Option Int :=
  if ds = [] ∨ digitsValue ds ≥ 2 ^ 31 then none else some (digitsValue ds)

/-! ### Reading what was printed

The readers skip blanks and take a sign before they look for digits. A numeral of the library has
neither blanks nor a plus, so what was printed is read to its end. -/

/-- A digit is no space and no sign. -/
theorem readSign_of_digit {d : UInt8} {ds : Bytes} (h : isDigit d = true) :
    readSign (d :: ds) = (false, d :: ds) := by
  -- Checked on all 256 bytes.
  have hbyte : ∀ d : UInt8, isDigit d = true → isSpace d = false ∧ d ≠ 0x2D ∧ d ≠ 0x2B :=
    forall_byte (by decide +kernel)
  obtain ⟨hspace, hminus, hplus⟩ := hbyte d h
  rw [readSign, List.dropWhile_cons_of_neg (by simp [hspace])]
  simp [hminus, hplus]

/-- A decimal number has no sign to skip. -/
theorem readSign_decimal (n : Nat) : readSign (decimal n) = (false, decimal n) := by
  obtain ⟨d, ds, hcons⟩ := List.exists_cons_of_ne_nil (decimal_ne_nil n)
  rw [hcons]
  exact readSign_of_digit (isDigit_of_mem_decimal (n := n) (hcons ▸ List.mem_cons_self))

/-- It consists of digits only. -/
theorem takeWhile_isDigit_decimal (n : Nat) :
    (decimal n).takeWhile isDigit = decimal n :=
  List.takeWhile_eq_self_iff.mpr fun _ hd => isDigit_of_mem_decimal hd

/-- And nothing is left behind it. -/
theorem dropWhile_isDigit_decimal (n : Nat) : (decimal n).dropWhile isDigit = [] :=
  List.dropWhile_eq_nil_iff.mpr fun _ hd => isDigit_of_mem_decimal hd

/-- A printed integer of absolute value below `2^64` reads as itself modulo `2^64`, and to the
end. -/
theorem strtoull_formatInt {z : Int} (h : z.natAbs < 2 ^ 64) :
    strtoull (formatInt z) = (u64cast z, []) := by
  have hdigits : digitsValue (decimal z.natAbs) = z.natAbs := digitsValue_decimal _
  -- A negative numeral is read as its digits and negated modulo `2^64`.
  by_cases hz : z < 0
  · have hsign : readSign (0x2D :: decimal z.natAbs) = (true, decimal z.natAbs) := rfl
    rw [formatInt, if_pos hz, strtoull, hsign]
    simp only [takeWhile_isDigit_decimal, dropWhile_isDigit_decimal, hdigits,
      if_neg (decimal_ne_nil z.natAbs), if_neg (Nat.not_le.mpr h), if_true]
    rw [show -(z.natAbs : Int) = z by omega]
  · rw [formatInt, if_neg hz, strtoull, readSign_decimal]
    simp only [takeWhile_isDigit_decimal, dropWhile_isDigit_decimal, hdigits,
      if_neg (decimal_ne_nil z.natAbs), if_neg (Nat.not_le.mpr h), Bool.false_eq_true, if_false]
    rw [show (z.natAbs : Int) = z by omega]

/-- A printed natural number that fits an `int` reads as itself. -/
theorem atoi_decimal {n : Nat} (h : n < 2 ^ 31) : atoi (decimal n) = n := by
  rw [atoi, readSign_decimal]
  simp only [takeWhile_isDigit_decimal, digitsValue_decimal, Bool.false_eq_true, if_false]
  rw [Int.min_eq_right (by omega)]
  exact i32cast_of_range (by omega) (by omega)

end AiMidi.Lib
