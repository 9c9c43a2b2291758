import Mathlib.Algebra.Order.Group.Int

/-!
# `AiMidi.Lib.Octaves`: notes moved by octaves

The two loops that bring a note into a range: `raiseTo` adds octaves below a bound and `lowerTo`
takes octaves away above one. Both stop within one octave of their bound, or do nothing
(`raiseTo_bounds`, `lowerTo_bounds`), and keep the pitch class.
-/

set_option autoImplicit false

namespace AiMidi.Lib

/-- `while (n < low) n += 12`. -/
def raiseTo (low n : Int) : Int := if n < low then raiseTo low (n + 12) else n
termination_by (low - n).toNat

/-- `while (n > high) n -= 12`. -/
def lowerTo (high n : Int) : Int := if n > high then lowerTo high (n - 12) else n
termination_by (n - high).toNat

/-- What is not too high is not lowered. -/
theorem lowerTo_of_le {high n : Int} (h : n ≤ high) : lowerTo high n = n := by
  rw [lowerTo, if_neg (by omega)]

/-- Raising reaches the bound, and stays within an octave above it when it moves the note. -/
theorem raiseTo_bounds (low n : Int) :
    low ≤ raiseTo low n ∧ (raiseTo low n < low + 12 ∨ raiseTo low n = n) := by
  fun_induction raiseTo low n with
  | case1 n hlt ih =>
    obtain ⟨hlow, hup | heq⟩ := ih
    · exact ⟨hlow, .inl hup⟩
    · rw [heq] at hlow ⊢
      exact ⟨hlow, .inl (by omega)⟩
  | case2 n hge => exact ⟨by omega, .inr rfl⟩

/-- Raising by octaves keeps the pitch class. -/
theorem raiseTo_emod (low n : Int) : raiseTo low n % 12 = n % 12 := by
  fun_induction raiseTo low n with
  | case1 n hlt ih => rw [ih, Int.add_emod_right]
  | case2 n hge => rfl

/-- Lowering reaches the bound, and stays within an octave below it when it moves the note. -/
theorem lowerTo_bounds (high n : Int) :
    lowerTo high n ≤ high ∧ (high - 12 < lowerTo high n ∨ lowerTo high n = n) := by
  fun_induction lowerTo high n with
  | case1 n hgt ih =>
    obtain ⟨hhigh, hdown | heq⟩ := ih
    · exact ⟨hhigh, .inl hdown⟩
    · rw [heq] at hhigh ⊢
      exact ⟨hhigh, .inl (by omega)⟩
  | case2 n hle => exact ⟨by omega, .inr rfl⟩

/-- So does lowering. -/
theorem lowerTo_emod (high n : Int) : lowerTo high n % 12 = n % 12 := by
  fun_induction lowerTo high n with
  | case1 n hgt ih => rw [ih, Int.sub_emod_right]
  | case2 n hle => rfl

end AiMidi.Lib
