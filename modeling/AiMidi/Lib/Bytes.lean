import Mathlib.Algebra.Group.Int.Defs
import Mathlib.Algebra.Group.Nat.Defs
import Mathlib.Data.List.Basic

/-!
# `AiMidi.Lib.Bytes`: byte strings and narrowing casts

A byte string is a `List UInt8`. `bytes` spells one from a literal. `Char`s above 255 do
not occur in such a literal, so each character is one byte.

`u8cast`, `u16cast`, `u64cast` and `i32cast` are the narrowing integer conversions: the
value modulo the width of the target type, as C++20 and Go define them.
-/

set_option autoImplicit false

namespace AiMidi.Lib

/-- A string as its bytes. -/
abbrev Bytes := List UInt8

/-- The bytes of a literal. -/
def bytes (s : String) : Bytes := s.toList.map fun c => c.toNat.toUInt8

/-- A fact about all bytes follows from the 256 cases. -/
theorem forall_byte {P : UInt8 → Prop} (h : ∀ n : Fin 256, P (UInt8.ofFin n)) (b : UInt8) :
    P b :=
  h b.toFin

/-- Conversion of an integer to an unsigned 8-bit value. -/
def u8cast (z : Int) : UInt8 := UInt8.ofInt z

/-- Conversion of an integer to an unsigned 16-bit value. -/
def u16cast (z : Int) : UInt16 := UInt16.ofInt z

/-- Conversion of an integer to an unsigned 32-bit value. -/
def u32cast (z : Int) : UInt32 := UInt32.ofInt z

/-- Conversion of an integer to an unsigned 64-bit value. -/
def u64cast (z : Int) : UInt64 := UInt64.ofInt z

/-- Conversion of an integer to a signed 32-bit value. -/
def i32cast (z : Int) : Int := z.bmod (2 ^ 32)

/-- A narrowing cast to 8 bits keeps a value that fits. -/
theorem u8cast_toNat {z : Int} (h0 : 0 ≤ z) (h1 : z < 256) : (u8cast z).toNat = z.toNat := by
  have hmod : z % 2 ^ 8 = z := Int.emod_eq_of_lt h0 (by omega)
  rw [u8cast, UInt8.ofInt, hmod, UInt8.toNat_ofNat_of_lt' (by simp [UInt8.size]; omega)]

/-- A narrowing cast of a value that fits seven bits. -/
theorem u8cast_le {z : Int} (h0 : 0 ≤ z) (h1 : z ≤ 127) : (u8cast z).toNat ≤ 127 := by
  rw [u8cast_toNat h0 (by omega)]
  omega

/-- A narrowing cast to 8 bits is a remainder. -/
theorem u8cast_emod (z : Int) : ((u8cast z).toNat : Int) = z % 2 ^ 8 := by
  have hmod : 0 ≤ z % 2 ^ 8 ∧ z % 2 ^ 8 < 2 ^ 8 := by omega
  have hcast : (u8cast (z % 2 ^ 8)).toNat = (z % 2 ^ 8).toNat := u8cast_toNat hmod.1 hmod.2
  have hsame : u8cast (z % 2 ^ 8) = u8cast z := by
    rw [u8cast, u8cast, UInt8.ofInt, UInt8.ofInt, Int.emod_emod]
  rw [← hsame, hcast, Int.toNat_of_nonneg hmod.1]

/-- A narrowing cast to 32 bits keeps a value that fits. -/
theorem u32cast_toNat {z : Int} (h0 : 0 ≤ z) (h1 : z < 2 ^ 32) :
    (u32cast z).toNat = z.toNat := by
  have hmod : z % 2 ^ 32 = z := Int.emod_eq_of_lt h0 (by omega)
  rw [u32cast, UInt32.ofInt, hmod, UInt32.toNat_ofNat_of_lt' (by simp [UInt32.size]; omega)]

/-- A narrowing cast of a natural number to 32 bits is a remainder. -/
theorem u32cast_natCast (n : Nat) : (u32cast n).toNat = n % 2 ^ 32 := by
  have hmod : ((n : Int) % 2 ^ 32).toNat = n % 2 ^ 32 := by omega
  rw [u32cast, UInt32.ofInt, hmod, UInt32.toNat_ofNat', Nat.mod_mod]

/-- A narrowing cast to 32 bits is a remainder. -/
theorem u32cast_emod (z : Int) : ((u32cast z).toNat : Int) = z % 2 ^ 32 := by
  have hmod : 0 ≤ z % 2 ^ 32 ∧ z % 2 ^ 32 < 2 ^ 32 := by omega
  have hcast : (u32cast (z % 2 ^ 32)).toNat = (z % 2 ^ 32).toNat := u32cast_toNat hmod.1 hmod.2
  have hsame : u32cast (z % 2 ^ 32) = u32cast z := by
    rw [u32cast, u32cast, UInt32.ofInt, UInt32.ofInt, Int.emod_emod]
  rw [← hsame, hcast, Int.toNat_of_nonneg hmod.1]

/-- A cast to 64 bits keeps a value that fits. -/
theorem u64cast_toNat {z : Int} (h0 : 0 ≤ z) (h1 : z < 2 ^ 64) :
    (u64cast z).toNat = z.toNat := by
  have hmod : z % 2 ^ 64 = z := Int.emod_eq_of_lt h0 (by omega)
  rw [u64cast, UInt64.ofInt, hmod, UInt64.toNat_ofNat_of_lt' (by simp [UInt64.size]; omega)]

/-- A signed 32-bit cast keeps a value that fits. -/
theorem i32cast_of_range {z : Int} (h0 : -2 ^ 31 ≤ z) (h1 : z < 2 ^ 31) : i32cast z = z :=
  Int.bmod_eq_of_le (by simpa using h0) (by simpa using h1)

/-- A signed 32-bit cast keeps the remainder. -/
theorem i32cast_emod (z : Int) : i32cast z % 2 ^ 32 = z % 2 ^ 32 := Int.bmod_emod

/-- A signed 32-bit cast yields a 32-bit value. -/
theorem i32cast_range (z : Int) : -2 ^ 31 ≤ i32cast z ∧ i32cast z < 2 ^ 31 := by
  have hge := Int.le_bmod (x := z) (m := 2 ^ 32) (by decide)
  have hlt := Int.bmod_lt (x := z) (m := 2 ^ 32) (by decide)
  unfold i32cast
  omega

/-- A value just above the range wraps to the bottom. -/
theorem i32cast_of_wrap {z : Int} (h0 : 2 ^ 31 ≤ z) (h1 : z < 2 ^ 32 + 2 ^ 31) :
    i32cast z = z - 2 ^ 32 := by
  have hsub : i32cast (z - (2 ^ 32 : Nat)) = i32cast z := Int.sub_bmod_right z (2 ^ 32)
  rw [← hsub, i32cast_of_range (by omega) (by omega)]
  omega

end AiMidi.Lib
