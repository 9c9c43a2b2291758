import AiMidi.Dsp.FloatOps
import AiMidi.Lib.FixedPoint

/-!
# `AiMidi.Dsp.IeeeFloat`: what is known of the numbers of a floating-point type

`FloatText` adds the conversions to text and to whole numbers to the operations of a floating-point
type. An `IeeeFloat` is one that computes as IEEE 754 says: a result is the number of the format
that is `nearest` to the exact one. At least the whole numbers of 24 bits and their multiples by
powers of two belong to the format, so both `float` and `double` are meant. Results beyond `2 ^ 64`
are left open, and so is what infinities and NaN lead to.

What is proved of such numbers is proved with `Within`, by the rules `Bounds.add`, `Bounds.mul` and
`Bounds.div`: if the exact result lies between two numbers of the format, so does the rounded one.
Comparisons and clamps then make the bounds better, also where nothing was known of the number
(`within_clamp`).
-/

set_option autoImplicit false

namespace AiMidi.Dsp

open AiMidi.Lib

/-- A floating-point type with its conversions. -/
class FloatText (F : Type) extends FloatOps F where
  /-- `std::round` and `math.Round`. -/
  roundInt : F → F
  /-- `"%.*f"`. -/
  printFixed : Nat → F → Bytes

/-- What Go reads into a `float64`. -/
class FloatParse (F : Type) where
  /-- `strconv.ParseFloat`, `none` for a number beyond the format. -/
  parseFloat : Bytes → Option F

/-- A floating-point type that computes as IEEE 754 says. -/
class IeeeFloat (F : Type) extends FloatText F where
  /-- The number, `none` for an infinity or NaN. -/
  value : F → Option ℚ
  /-- The nearest number of the format. -/
  nearest : ℚ → ℚ
  nearest_mono : Monotone nearest
  nearest_scaled (z e : ℤ) (hz : |z| ≤ 2 ^ 24) (he : |e| ≤ 64) :
    nearest (z * (2 : ℚ) ^ e) = z * (2 : ℚ) ^ e
  value_lit (q : ℚ) (h : |q| ≤ 2 ^ 64) : value (lit q) = some (nearest q)
  value_add {a b : F} {x y : ℚ} (ha : value a = some x) (hb : value b = some y)
    (h : |x + y| ≤ 2 ^ 64) : value (a + b) = some (nearest (x + y))
  value_mul {a b : F} {x y : ℚ} (ha : value a = some x) (hb : value b = some y)
    (h : |x * y| ≤ 2 ^ 64) : value (a * b) = some (nearest (x * y))
  value_div {a b : F} {x y : ℚ} (ha : value a = some x) (hb : value b = some y) (hy : y ≠ 0)
    (h : |x / y| ≤ 2 ^ 64) : value (a / b) = some (nearest (x / y))
  lt_eq {a b : F} {x y : ℚ} (ha : value a = some x) (hb : value b = some y) :
    FloatOps.lt a b = decide (x < y)
  /-- NaN is not ordered, so what stands between two numbers is one. -/
  value_between {a b c : F} {x z : ℚ} (ha : value a = some x) (hc : value c = some z)
    (hab : FloatOps.lt a b = true) (hbc : FloatOps.lt b c = true) : ∃ y, value b = some y
  toInt_eq {a : F} {x : ℚ} (ha : value a = some x) (hx : 0 ≤ x) (hlt : x < 2 ^ 31) :
    FloatOps.toInt a = ⌊x⌋
  value_roundInt {a : F} {x : ℚ} (ha : value a = some x) :
    value (FloatText.roundInt a) = some (roundHalfAway x)
  /-- A zero may have a sign. -/
  printFixed_eq {a : F} {x : ℚ} (ha : value a = some x) (d : ℕ) :
    ∃ neg : Bool, (x < 0 → neg = true) ∧ (0 < x → neg = false) ∧
      FloatText.printFixed d a = fixedPoint d neg (roundHalfEven (|x| * 10 ^ d)).toNat

/-- A number with its sign. -/
def signed (neg : Bool) (x : ℚ) : ℚ := if neg then -x else x

/-- A decimal is read as the nearest number. -/
class IeeeParse (F : Type) [IeeeFloat F] [FloatParse F] : Prop where
  parse_fixed (neg : Bool) (n : ℕ) (ds : Bytes) (hne : ds ≠ []) (hds : ∀ d ∈ ds, isDigit d = true)
    (h : n ≤ 2 ^ 128) : ∃ a : F, FloatParse.parseFloat (Json.fixedText neg n ds) = some a ∧
      IeeeFloat.value a = some (IeeeFloat.nearest F
        (signed neg (digitsValue (decimal n ++ ds) / 10 ^ ds.length)))

section

variable {F : Type} [IeeeFloat F]

/-! ### Bounds

A bound is kept by an operation when the exact result keeps it and the bound is a number of the
format. For whole numbers that are not too large both can be checked by arithmetic. -/

/-- The bounds belong to the format. -/
structure Bounds (F : Type) [IeeeFloat F] (lo hi : ℚ) : Prop where
  lo_nearest : IeeeFloat.nearest F lo = lo
  hi_nearest : IeeeFloat.nearest F hi = hi
  lo_ge : -2 ^ 64 ≤ lo
  hi_le : hi ≤ 2 ^ 64

/-- Whole numbers of this size are numbers of the format. -/
theorem nearest_int {z : ℤ} (hz : |z| ≤ 2 ^ 24) : IeeeFloat.nearest F z = z := by
  have hscaled := IeeeFloat.nearest_scaled (F := F) z 0 hz (by decide)
  rwa [zpow_zero, mul_one] at hscaled

/-- Bounds from a small whole number to a scaled one. -/
theorem bounds {lo hi : ℚ} (m n : ℤ) (e : ℕ) (h : |m| ≤ 2 ^ 24 ∧ |n| ≤ 2 ^ 24 ∧ e ≤ 40)
    (heq : lo = m ∧ hi = n * 2 ^ e) : Bounds F lo hi := by
  obtain ⟨hm, hn, he⟩ := h
  obtain ⟨rfl, rfl⟩ := heq
  have hscaled := IeeeFloat.nearest_scaled (F := F) n e hn (by
    rw [Nat.abs_cast]
    omega)
  rw [zpow_natCast] at hscaled
  refine ⟨nearest_int hm, hscaled, ?_, ?_⟩
  -- Both bounds lie within `2 ^ 64`, which every format of this kind reaches.
  · have hge : -2 ^ 64 ≤ m := by
      have habs := (abs_le.mp hm).1
      omega
    exact_mod_cast hge
  · have hle : n * 2 ^ e ≤ 2 ^ 24 * 2 ^ 40 :=
      mul_le_mul ((abs_le.mp hn).2) (pow_le_pow_right₀ (by decide) he) (by positivity) (by decide)
    have hpow : n * 2 ^ e ≤ 2 ^ 64 := le_trans hle (by decide)
    exact_mod_cast hpow

/-- A number between the bounds. -/
def Within (lo hi : ℚ) (a : F) : Prop := ∃ x, IeeeFloat.value a = some x ∧ lo ≤ x ∧ x ≤ hi

section

variable {lo hi x : ℚ} {a b : F}

/-- The bounds are far from overflow. -/
theorem Bounds.abs_mem (hB : Bounds F lo hi) (h : lo ≤ x ∧ x ≤ hi) : |x| ≤ 2 ^ 64 :=
  abs_le.mpr ⟨le_trans hB.lo_ge h.1, le_trans h.2 hB.hi_le⟩

/-- Rounding does not pass the bounds. -/
theorem Bounds.within (hB : Bounds F lo hi) (ha : IeeeFloat.value a = some (IeeeFloat.nearest F x))
    (h : lo ≤ x ∧ x ≤ hi) : Within lo hi a := by
  refine ⟨_, ha, ?_, ?_⟩
  · have hmono := IeeeFloat.nearest_mono (F := F) h.1
    rwa [hB.lo_nearest] at hmono
  · have hmono := IeeeFloat.nearest_mono (F := F) h.2
    rwa [hB.hi_nearest] at hmono

/-- A constant within the bounds stays within them. -/
theorem Bounds.lit (hB : Bounds F lo hi) {q : ℚ} (h : lo ≤ q ∧ q ≤ hi) :
    Within lo hi (lit q : F) :=
  hB.within (IeeeFloat.value_lit q (hB.abs_mem h)) h

/-- A literal of the format. -/
theorem within_int (z : ℤ) (h : |z| ≤ 2 ^ 24) {q : ℚ} (hq : q = z) : Within q q (lit q : F) :=
  (bounds z z 0 ⟨h, h, by decide⟩ ⟨hq, by rw [hq, pow_zero, mul_one]⟩).lit ⟨le_rfl, le_rfl⟩

/-- Wider bounds hold as well. -/
theorem Within.mono {lo' hi' : ℚ} (ha : Within lo hi a) (h : lo' ≤ lo ∧ hi ≤ hi') :
    Within lo' hi' a := by
  obtain ⟨x, hx, hlx, hxu⟩ := ha
  exact ⟨x, hx, le_trans h.1 hlx, le_trans hxu h.2⟩

/-- Rounding to a whole number does not leave bounds that are whole numbers. -/
theorem Within.roundInt {m n : ℤ} (ha : Within (m : ℚ) n a) (hm : 0 ≤ m) :
    Within (m : ℚ) n (FloatText.roundInt a) := by
  obtain ⟨x, hx, hlx, hxu⟩ := ha
  have hpos : 0 ≤ x := le_trans (by exact_mod_cast hm) hlx
  obtain ⟨hlo, hhi⟩ := roundHalfAway_mem hpos hlx hxu
  exact ⟨_, IeeeFloat.value_roundInt hx, by exact_mod_cast hlo, by exact_mod_cast hhi⟩

/-- A number within such bounds can be converted to `int`. -/
theorem Within.toInt {m n : ℤ} (ha : Within (m : ℚ) n a) (hm : 0 ≤ m) (hn : n < 2 ^ 31) :
    m ≤ FloatOps.toInt a ∧ FloatOps.toInt a ≤ n := by
  obtain ⟨x, hx, hlx, hxu⟩ := ha
  have hpos : 0 ≤ x := le_trans (by exact_mod_cast hm) hlx
  have hlt : x < 2 ^ 31 := lt_of_le_of_lt hxu (by exact_mod_cast hn)
  rw [IeeeFloat.toInt_eq hx hpos hlt]
  refine ⟨Int.le_floor.mpr hlx, ?_⟩
  have hfloor : ((⌊x⌋ : ℤ) : ℚ) ≤ n := le_trans (Int.floor_le x) hxu
  exact_mod_cast hfloor

section

variable {l u l' u' : ℚ}

/-- A sum lies within the sums of the bounds. -/
theorem Bounds.add (hB : Bounds F lo hi) (ha : Within l u a) (hb : Within l' u' b)
    (h : lo ≤ l + l' ∧ u + u' ≤ hi) : Within lo hi (a + b) := by
  obtain ⟨x, hx, hlx, hxu⟩ := ha
  obtain ⟨y, hy, hly, hyu⟩ := hb
  have hsum : lo ≤ x + y ∧ x + y ≤ hi := ⟨by linarith, by linarith⟩
  exact hB.within (IeeeFloat.value_add hx hy (hB.abs_mem hsum)) hsum

/-- A product of numbers that are not negative. -/
theorem Bounds.mul (hB : Bounds F lo hi) (ha : Within l u a) (hb : Within l' u' b)
    (h : lo ≤ l * l' ∧ u * u' ≤ hi) (hl : 0 ≤ l) (hl' : 0 ≤ l') : Within lo hi (a * b) := by
  obtain ⟨x, hx, hlx, hxu⟩ := ha
  obtain ⟨y, hy, hly, hyu⟩ := hb
  have hprod : lo ≤ x * y ∧ x * y ≤ hi :=
    ⟨le_trans h.1 (mul_le_mul hlx hly hl' (le_trans hl hlx)),
      le_trans (mul_le_mul hxu hyu (le_trans hl' hly) (le_trans (le_trans hl hlx) hxu)) h.2⟩
  exact hB.within (IeeeFloat.value_mul hx hy (hB.abs_mem hprod)) hprod

/-- A quotient of a number that is not negative by a positive one. -/
theorem Bounds.div (hB : Bounds F lo hi) (ha : Within l u a) (hb : Within l' u' b)
    (h : lo ≤ l / u' ∧ u / l' ≤ hi) (hl : 0 ≤ l) (hl' : 0 < l') : Within lo hi (a / b) := by
  obtain ⟨x, hx, hlx, hxu⟩ := ha
  obtain ⟨y, hy, hly, hyu⟩ := hb
  have hy0 : 0 < y := lt_of_lt_of_le hl' hly
  have hx0 : 0 ≤ x := le_trans hl hlx
  have hquot : lo ≤ x / y ∧ x / y ≤ hi :=
    ⟨le_trans h.1 (div_le_div₀ hx0 hlx hy0 hyu),
      le_trans (div_le_div₀ (le_trans hx0 hxu) hxu hl' hly) h.2⟩
  exact hB.within (IeeeFloat.value_div hx hy hy0.ne' (hB.abs_mem hquot)) hquot

end

/-- A comparison that holds makes a bound better. -/
theorem Within.of_lt {c : ℚ} (ha : Within lo hi a) (hb : Within c c b)
    (h : FloatOps.lt a b = true) :
    Within lo c a := by
  obtain ⟨x, hx, hlx, -⟩ := ha
  obtain ⟨y, hy, hcy, hyc⟩ := hb
  rw [IeeeFloat.lt_eq hx hy, decide_eq_true_eq] at h
  exact ⟨x, hx, hlx, by linarith⟩

/-- A comparison that succeeds raises the lower bound to the number compared with. -/
theorem Within.of_gt {c : ℚ} (ha : Within lo hi a) (hb : Within c c b)
    (h : FloatOps.lt b a = true) :
    Within c hi a := by
  obtain ⟨x, hx, -, hxu⟩ := ha
  obtain ⟨y, hy, hcy, hyc⟩ := hb
  rw [IeeeFloat.lt_eq hy hx, decide_eq_true_eq] at h
  exact ⟨x, hx, by linarith, hxu⟩

/-- A number that is clamped between two whole ones. -/
theorem within_clamp {c d : F} {l u : ℚ} (hc : Within l l c) (hd : Within u u d) (hle : l ≤ u)
    (a : F) : Within l u (fmax c (fmin d a)) := by
  have hlow : Within l u c := hc.mono ⟨le_rfl, hle⟩
  have hhigh : Within l u d := hd.mono ⟨hle, le_rfl⟩
  unfold fmin
  split
  · rename_i had
    unfold fmax
    split
    · rename_i hca
      -- Between two numbers is a number.
      have hbetween : ∃ y, IeeeFloat.value a = some y :=
        IeeeFloat.value_between hc.choose_spec.1 hd.choose_spec.1 hca had
      obtain ⟨y, hy⟩ := hbetween
      have hself : Within y y a := ⟨y, hy, le_rfl, le_rfl⟩
      exact (hself.of_gt hc hca).of_lt hd had
    · exact hlow
  · unfold fmax
    split
    · exact hhigh
    · exact hlow

end

end

end AiMidi.Dsp
