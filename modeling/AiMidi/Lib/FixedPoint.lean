import AiMidi.Lib.Json
import Mathlib.Algebra.Order.Round
import Mathlib.Data.Rat.Floor

/-!
# `AiMidi.Lib.FixedPoint`: rounded numbers and their decimals

`roundHalfEven` and `roundHalfAway` are the two ways to round a rational number to a whole one.
Neither passes a whole number on the way. `fixedPoint d` writes a number with `d` digits behind the
point, and `digitsValue_fixed` reads its digits back.
-/

set_option autoImplicit false

namespace AiMidi.Lib

/-! ### Rounding

Both ways to round differ only in the middle between two whole numbers. Neither goes beyond a whole
number that bounds what is rounded. -/

/-- The nearest whole number, and of two the even one. -/
def roundHalfEven (x : ℚ) : ℤ :=
  if x - ⌊x⌋ < 1 / 2 then ⌊x⌋
  else if 1 / 2 < x - ⌊x⌋ then ⌊x⌋ + 1
  else if ⌊x⌋ % 2 = 0 then ⌊x⌋
  else ⌊x⌋ + 1

/-- The nearest whole number, and of two the one that is farther from zero. -/
def roundHalfAway (x : ℚ) : ℤ := if 0 ≤ x then ⌊x + 1 / 2⌋ else ⌈x - 1 / 2⌉

/-- Rounding does not pass a whole number. -/
theorem roundHalfEven_mem {x : ℚ} {lo hi : ℤ} (hlo : (lo : ℚ) ≤ x) (hhi : x ≤ hi) :
    lo ≤ roundHalfEven x ∧ roundHalfEven x ≤ hi := by
  have hfloor : lo ≤ ⌊x⌋ := Int.le_floor.mpr hlo
  have hle : ⌊x⌋ ≤ hi := by
    have hcast : ((⌊x⌋ : ℤ) : ℚ) ≤ hi := le_trans (Int.floor_le x) hhi
    exact_mod_cast hcast
  -- It goes up only from a number between two whole ones.
  have hup : ¬ x - ⌊x⌋ < 1 / 2 → ⌊x⌋ + 1 ≤ hi := by
    intro hfar
    have hlt : ((⌊x⌋ : ℤ) : ℚ) < hi := by linarith
    exact Int.add_one_le_iff.mpr (by exact_mod_cast hlt)
  unfold roundHalfEven
  split
  · exact ⟨hfloor, hle⟩
  · rename_i hfar
    have hnext := hup hfar
    split
    · exact ⟨by omega, hnext⟩
    · split
      · exact ⟨hfloor, hle⟩
      · exact ⟨by omega, hnext⟩

/-- Rounding stays between whole numbers. -/
theorem roundHalfAway_mem {x : ℚ} {lo hi : ℤ} (hpos : 0 ≤ x) (hlo : (lo : ℚ) ≤ x) (hhi : x ≤ hi) :
    lo ≤ roundHalfAway x ∧ roundHalfAway x ≤ hi := by
  rw [roundHalfAway, if_pos hpos]
  constructor
  · exact Int.le_floor.mpr (by linarith)
  · have hlt : x + 1 / 2 < ((hi + 1 : ℤ) : ℚ) := by
      push_cast
      linarith
    exact Int.lt_add_one_iff.mp (Int.floor_lt.mpr hlt)

/-! ### Texts

A decimal is a whole number with a point before its last digits. Reading the digits on both sides of
the point together gives that number back. -/

/-- The last `d` digits. -/
def fixedDigits : Nat → Nat → Bytes
  | 0, _     => []
  | d + 1, k => fixedDigits d (k / 10) ++ [UInt8.ofNat (0x30 + k % 10)]

/-- `k` with the point before its last `d` digits. -/
def fixedPoint (d : Nat) (neg : Bool) (k : Nat) : Bytes :=
  (if neg then [0x2D] else [])
    ++ (decimal (k / 10 ^ d) ++ if d = 0 then [] else 0x2E :: fixedDigits d k)

/-- The digits are as many as are asked for, with zeros in front. -/
theorem length_fixedDigits (d k : Nat) : (fixedDigits d k).length = d := by
  induction d generalizing k with
  | zero => rfl
  | succ d ih => rw [fixedDigits, List.length_append, ih, List.length_singleton]

/-- The character of a digit. -/
theorem toNat_digit (k : Nat) : (UInt8.ofNat (0x30 + k % 10)).toNat = 0x30 + k % 10 := by
  have hlt : k % 10 < 10 := Nat.mod_lt k (by decide)
  exact UInt8.toNat_ofNat_of_lt' (by rw [UInt8.size]; omega)

/-- All of them are digits. -/
theorem isDigit_of_mem_fixedDigits {d k : Nat} {b : UInt8} (h : b ∈ fixedDigits d k) :
    isDigit b = true := by
  induction d generalizing k with
  | zero => exact absurd h List.not_mem_nil
  | succ d ih =>
    rcases List.mem_append.mp h with h | h
    · exact ih h
    · obtain rfl := List.mem_singleton.mp h
      have hlt : k % 10 < 10 := Nat.mod_lt k (by decide)
      rw [isDigit, Bool.and_eq_true, decide_eq_true_eq, decide_eq_true_eq, UInt8.le_iff_toNat_le,
        UInt8.le_iff_toNat_le, toNat_digit]
      exact ⟨Nat.le_add_right _ _, by show 0x30 + k % 10 ≤ 0x39; omega⟩

/-- The digits around the point are those of the number. -/
theorem digitsValue_fixed (d k : Nat) :
    digitsValue (decimal (k / 10 ^ d) ++ fixedDigits d k) = k := by
  induction d generalizing k with
  | zero => rw [fixedDigits, List.append_nil, pow_zero, Nat.div_one, digitsValue_decimal]
  | succ d ih =>
    have hdiv : k / 10 ^ (d + 1) = k / 10 / 10 ^ d := by
      rw [pow_succ', Nat.div_div_eq_div_mul]
    rw [fixedDigits, ← List.append_assoc, digitsValue, List.foldl_append, List.foldl_cons,
      List.foldl_nil, toNat_digit, hdiv]
    have hfront := ih (k / 10)
    rw [digitsValue] at hfront
    rw [hfront]
    omega

/-- With at least one decimal the text is a whole part, a point and the digits. -/
theorem fixedPoint_eq_fixedText {d : Nat} (hd : 0 < d) (neg : Bool) (k : Nat) :
    fixedPoint d neg k = Json.fixedText neg (k / 10 ^ d) (fixedDigits d k) := by
  rw [fixedPoint, if_neg (Nat.pos_iff_ne_zero.mp hd)]
  rfl

end AiMidi.Lib
