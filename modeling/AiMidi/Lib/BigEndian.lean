import AiMidi.Lib.Smf
import Mathlib.Data.List.Induction

/-!
# `AiMidi.Lib.BigEndian`: big-endian fields

`beBytes n v` is the field of `n` bytes that holds `v`. `beNat` reads it back, and every
field is the one that holds its value.
-/

set_option autoImplicit false

namespace AiMidi.Lib

open Smf (beNat beNat_lt)

/-- The `n` bytes of a big-endian field. -/
def beBytes : Nat → Nat → Bytes
  | 0,     _ => []
  | n + 1, v => beBytes n (v / 256) ++ [UInt8.ofNat v]

/-- Big-endian numbers have the length that is asked for. -/
@[simp] theorem length_beBytes (n v : Nat) : (beBytes n v).length = n := by
  induction n generalizing v with
  | zero => rfl
  | succ n ih => rw [beBytes, List.length_append, ih, List.length_singleton]

/-- A byte behind the others is the lowest. -/
@[simp] theorem beNat_concat (bs : Bytes) (b : UInt8) :
    beNat (bs ++ [b]) = beNat bs * 256 + b.toNat := by
  rw [beNat, List.foldl_append]
  rfl

/-- A field holds what was written, as long as it fits. -/
theorem beNat_beBytes {n v : Nat} (h : v < 256 ^ n) : beNat (beBytes n v) = v := by
  induction n generalizing v with
  | zero =>
    rw [Nat.pow_zero] at h
    rw [Nat.lt_one_iff.mp h]
    rfl
  | succ n ih =>
    have hdiv : v / 256 < 256 ^ n := by
      rw [Nat.div_lt_iff_lt_mul (by decide), ← Nat.pow_succ]
      exact h
    have hbyte : (UInt8.ofNat v).toNat = v % 256 := UInt8.toNat_ofNat
    rw [beBytes, beNat_concat, ih hdiv, hbyte]
    omega

/-- A field is the one that holds its value. -/
theorem beBytes_beNat (bs : Bytes) : beBytes bs.length (beNat bs) = bs := by
  induction bs using List.reverseRecOn with
  | nil => rfl
  | append_singleton bs b ih =>
    have hb : b.toNat < 256 := b.toNat_lt
    have hdiv : (beNat bs * 256 + b.toNat) / 256 = beNat bs := by omega
    have hbyte : UInt8.ofNat (beNat bs * 256 + b.toNat) = b := by
      apply UInt8.toNat_inj.mp
      rw [UInt8.toNat_ofNat']
      omega
    rw [List.length_append, List.length_singleton, beBytes, beNat_concat, hdiv, ih, hbyte]

/-- Two bytes hold a 16-bit value. -/
theorem beNat_beBytes_uint16 (v : UInt16) : beNat (beBytes 2 v.toNat) = v.toNat :=
  beNat_beBytes v.toNat_lt

/-- Four bytes hold a 32-bit value. -/
theorem beNat_beBytes_uint32 (v : UInt32) : beNat (beBytes 4 v.toNat) = v.toNat :=
  beNat_beBytes v.toNat_lt

/-- A field of two bytes, read as a 16-bit value. -/
theorem beBytes_toNat_uint16 {bs : Bytes} (h : bs.length = 2) :
    beBytes 2 (UInt16.ofNat (beNat bs)).toNat = bs := by
  have hlt := beNat_lt bs
  rw [h] at hlt
  rw [UInt16.toNat_ofNat_of_lt' hlt, ← h, beBytes_beNat]

/-- A field of four bytes, read as a 32-bit value. -/
theorem beBytes_toNat_uint32 {bs : Bytes} (h : bs.length = 4) :
    beBytes 4 (UInt32.ofNat (beNat bs)).toNat = bs := by
  have hlt := beNat_lt bs
  rw [h] at hlt
  rw [UInt32.toNat_ofNat_of_lt' hlt, ← h, beBytes_beNat]

end AiMidi.Lib
