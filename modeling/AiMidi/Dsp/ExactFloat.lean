import AiMidi.Dsp.IeeeFloat
import Mathlib.Data.Int.Log

/-!
# `AiMidi.Dsp.ExactFloat`: arithmetic that does not round

`Exact` is a floating-point type of unlimited precision: a rational number, or none. So what is said
of every `IeeeFloat` can be evaluated. Roots and logarithms are those of the perfect squares and the
powers of two, and the nearest whole ones below elsewhere.
-/

set_option autoImplicit false

namespace AiMidi.Dsp

open AiMidi.Lib

/-- A rational number, or NaN. -/
structure Exact where
  value : Option ℚ
  deriving DecidableEq

namespace Exact

/-- Exact arithmetic. The quotient by zero is the one operation without a value. -/
instance : FloatText Exact where
  add a b := ⟨a.value.bind fun x => b.value.map fun y => x + y⟩
  sub a b := ⟨a.value.bind fun x => b.value.map fun y => x - y⟩
  mul a b := ⟨a.value.bind fun x => b.value.map fun y => x * y⟩
  div a b := ⟨a.value.bind fun x => b.value.bind fun y => if y = 0 then none else some (x / y)⟩
  lit q := ⟨some q⟩
  lt a b :=
    match a.value, b.value with
    | some x, some y => decide (x < y)
    | _, _           => false
  sqrt a := ⟨a.value.bind fun x =>
    if x < 0 then none else some (Nat.sqrt x.num.toNat / Nat.sqrt x.den)⟩
  log2 a := ⟨a.value.bind fun x => if x ≤ 0 then none else some (Int.log 2 x)⟩
  fmod a b := ⟨a.value.bind fun x => b.value.bind fun y =>
    if y = 0 then none else some (x - y * (if 0 ≤ x / y then ⌊x / y⌋ else ⌈x / y⌉))⟩
  toInt a :=
    match a.value with
    | some x => if 0 ≤ x then ⌊x⌋ else ⌈x⌉
    | none   => 0
  roundInt a := ⟨a.value.map fun x => (roundHalfAway x : ℚ)⟩
  printFixed d a :=
    match a.value with
    | some x => fixedPoint d (decide (x < 0)) (roundHalfEven (|x| * 10 ^ d)).toNat
    | none   => bytes "nan"

/-- Nothing is rounded, so every law of the numbers holds as an equation. -/
instance : IeeeFloat Exact where
  value := Exact.value
  nearest x := x
  nearest_mono := monotone_id
  nearest_scaled _ _ _ _ := rfl
  value_lit _ _ := rfl
  value_add {a b x y} ha hb _ := by
    show (a.value.bind fun x => b.value.map fun y => x + y) = _
    rw [ha, hb]
    rfl
  value_mul {a b x y} ha hb _ := by
    show (a.value.bind fun x => b.value.map fun y => x * y) = _
    rw [ha, hb]
    rfl
  value_div {a b x y} ha hb hy _ := by
    show (a.value.bind fun x => b.value.bind fun y => if y = 0 then none else some (x / y)) = _
    rw [ha, hb]
    exact if_neg hy
  lt_eq {a b x y} ha hb := by
    obtain ⟨_⟩ := a
    obtain ⟨_⟩ := b
    cases ha
    cases hb
    rfl
  value_between {a b c x z} ha hc hab hbc := by
    obtain ⟨_ | y⟩ := b
    · obtain ⟨_⟩ := a
      cases ha
      exact absurd hab Bool.false_ne_true
    · exact ⟨y, rfl⟩
  toInt_eq {a x} ha hx _ := by
    obtain ⟨_⟩ := a
    cases ha
    exact if_pos hx
  value_roundInt {a x} ha := by
    obtain ⟨_⟩ := a
    cases ha
    rfl
  printFixed_eq {a x} ha d := by
    obtain ⟨_⟩ := a
    cases ha
    exact ⟨decide (x < 0), fun h => decide_eq_true h,
      fun h => decide_eq_false (not_lt.mpr h.le), rfl⟩

/-! ### Reading -/

/-- A decimal with its sign left out. -/
def readUnsigned (text : Bytes) : Option ℚ :=
  match text.dropWhile isDigit with
  | []         => some (digitsValue text)
  | 0x2E :: ds => some (digitsValue (text.takeWhile isDigit ++ ds) / 10 ^ ds.length)
  | _          => none

/-- A decimal. -/
def parse (text : Bytes) : Option Exact :=
  match text with
  | 0x2D :: text => (readUnsigned text).map fun x => ⟨some (-x)⟩
  | text         => (readUnsigned text).map fun x => ⟨some x⟩

/-- A text is read as the number that it stands for. -/
instance : FloatParse Exact where
  parseFloat := parse

/-- A decimal point with digits behind it divides by a power of ten. -/
theorem readUnsigned_point (n : ℕ) (ds : Bytes) :
    readUnsigned (decimal n ++ 0x2E :: ds)
      = some ((digitsValue (decimal n ++ ds) : ℚ) / 10 ^ ds.length) := by
  have hdigits : ∀ b ∈ decimal n, isDigit b = true := fun b hb => isDigit_of_mem_decimal hb
  have hdrop : (decimal n ++ 0x2E :: ds).dropWhile isDigit = 0x2E :: ds := by
    rw [List.dropWhile_append_of_pos hdigits]
    rfl
  have htake : (decimal n ++ 0x2E :: ds).takeWhile isDigit = decimal n := by
    rw [List.takeWhile_append_of_pos hdigits]
    exact List.append_nil _
  rw [readUnsigned, hdrop, htake]
  rfl

/-- Without a sign the text is read as it is. -/
theorem parse_of_digit {b : UInt8} (hb : b ≠ 0x2D) (text : Bytes) :
    parse (b :: text) = (readUnsigned (b :: text)).map fun x => ⟨some x⟩ := by
  unfold parse
  split
  · rename_i heq
    exact absurd (List.cons.inj heq).1 hb
  · rfl

/-- A printed number comes back as it is. -/
instance : IeeeParse Exact where
  parse_fixed neg n ds _ _ _ := by
    cases neg with
    | true =>
      refine ⟨⟨some (-((digitsValue (decimal n ++ ds) : ℚ) / 10 ^ ds.length))⟩, ?_, rfl⟩
      show (readUnsigned (decimal n ++ 0x2E :: ds)).map _ = _
      rw [readUnsigned_point]
      rfl
    | false =>
      refine ⟨⟨some ((digitsValue (decimal n ++ ds) : ℚ) / 10 ^ ds.length)⟩, ?_, rfl⟩
      -- A numeral begins with a digit.
      obtain ⟨b, tail, htail⟩ := List.exists_cons_of_ne_nil (decimal_ne_nil n)
      have hb : b ≠ 0x2D := fun heq => decimal_ne_minus n tail (heq ▸ htail)
      have hread := readUnsigned_point n ds
      show parse (decimal n ++ 0x2E :: ds) = _
      rw [htail, List.cons_append] at hread ⊢
      rw [parse_of_digit hb, hread, Option.map_some]

end Exact

end AiMidi.Dsp
