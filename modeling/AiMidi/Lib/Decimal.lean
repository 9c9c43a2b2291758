import AiMidi.Lib.Bytes

/-!
# `AiMidi.Lib.Decimal`: decimal numerals

`decimal` writes a natural number and `formatInt` an integer, as `%d` and `std::to_string`
do. `digitsValue` reads a string of digits. `digitsValue_decimal` is the round trip.
-/

set_option autoImplicit false

namespace AiMidi.Lib

/-- The numeral of a natural number. -/
def decimal (n : Nat) : Bytes := (Nat.toDigits 10 n).map fun c => c.toNat.toUInt8

/-- The numeral of an integer, with a leading minus when it is negative. -/
def formatInt (z : Int) : Bytes :=
  if z < 0 then 0x2D :: decimal z.natAbs else decimal z.natAbs

/-- `'0' <= c && c <= '9'`. -/
def isDigit (c : UInt8) : Bool := 0x30 ≤ c && c ≤ 0x39

/-- The value of a string of digits. -/
def digitsValue (ds : Bytes) : Nat := ds.foldl (fun n d => 10 * n + (d.toNat - 0x30)) 0

/-! ### The numeral of a natural number

The digits come from `Nat.toDigits`. A byte of the numeral is the code of such a digit, so both have
one value. -/

/-- The code of a digit character is one byte. -/
theorem toNat_toUInt8_of_isDigit {c : Char} (h : c.isDigit = true) :
    c.toNat.toUInt8.toNat = c.toNat := by
  have hc : c.toNat ≤ 0x39 := (Char.isDigit_iff_toNat.mp h).2
  refine UInt8.toNat_ofNat_of_lt' ?_
  rw [UInt8.size]
  omega

/-- Also zero has a digit. -/
theorem decimal_ne_nil (n : Nat) : decimal n ≠ [] := by
  rw [decimal, ne_eq, List.map_eq_nil_iff]
  exact Nat.toDigits_ne_nil

/-- A numeral consists of digits. -/
theorem isDigit_of_mem_decimal {n : Nat} {d : UInt8} (h : d ∈ decimal n) :
    isDigit d = true := by
  obtain ⟨c, hc, rfl⟩ := List.mem_map.mp h
  have hdigit : c.isDigit = true := Nat.isDigit_of_mem_toDigits (by decide) (by decide) hc
  have hrange := Char.isDigit_iff_toNat.mp hdigit
  rw [isDigit, Bool.and_eq_true, decide_eq_true_iff, decide_eq_true_iff,
    UInt8.le_iff_toNat_le, UInt8.le_iff_toNat_le, toNat_toUInt8_of_isDigit hdigit]
  exact hrange

/-- Digit bytes and digit characters have the same value. -/
theorem foldl_digit_bytes {cs : List Char} (h : ∀ c ∈ cs, c.isDigit = true) (n : Nat) :
    (cs.map fun c => c.toNat.toUInt8).foldl (fun n d => 10 * n + (d.toNat - 0x30)) n
      = Nat.ofDigitChars 10 cs n := by
  induction cs generalizing n with
  | nil => rfl
  | cons c cs ih =>
    rw [List.map_cons, List.foldl_cons, Nat.ofDigitChars_cons,
      toNat_toUInt8_of_isDigit (h c List.mem_cons_self)]
    exact ih (fun d hd => h d (List.mem_cons_of_mem _ hd)) _

/-- Reading a numeral gives the number back. -/
theorem digitsValue_decimal (n : Nat) : digitsValue (decimal n) = n := by
  have hdigits : ∀ c ∈ Nat.toDigits 10 n, c.isDigit = true := fun c hc =>
    Nat.isDigit_of_mem_toDigits (by decide) (by decide) hc
  rw [digitsValue, decimal, foldl_digit_bytes hdigits, Nat.ofDigitChars_ten_toDigits]

/-- Different numbers are written differently. -/
theorem decimal_injective {m n : Nat} (h : decimal m = decimal n) : m = n := by
  rw [← digitsValue_decimal m, h, digitsValue_decimal]

/-! ### The numeral of an integer

Only a negative number has a minus in front. The sign and the digits can therefore be told apart,
and the number is determined by its text. -/

/-- A minus is no digit, so no numeral of a natural number starts with one. -/
theorem decimal_ne_minus (n : Nat) (ds : Bytes) : decimal n ≠ 0x2D :: ds := by
  intro h
  have hminus : isDigit 0x2D = true :=
    isDigit_of_mem_decimal (n := n) (h ▸ List.mem_cons_self)
  exact absurd hminus (by decide)

/-- A number that is not negative is written without a sign. -/
theorem formatInt_of_nonneg {z : Int} (h : 0 ≤ z) : formatInt z = decimal z.toNat := by
  rw [formatInt, if_neg (by omega)]
  congr 1
  omega

/-- Different integers have different numerals. -/
theorem formatInt_injective {y z : Int} (h : formatInt y = formatInt z) : y = z := by
  -- One case per pair of signs. Numerals of different signs differ in their first byte.
  unfold formatInt at h
  split at h <;> split at h
  · have habs := decimal_injective (List.cons.inj h).2
    omega
  · exact absurd h.symm (decimal_ne_minus _ _)
  · exact absurd h (decimal_ne_minus _ _)
  · have habs := decimal_injective h
    omega

end AiMidi.Lib
