import AiMidi.Lib.Smf
import AiMidi.Theory.MidiRenderer

/-!
# `AiMidi.Proofs.MidiRenderer.Vlq`: what a reader makes of `encode_vlq`

`encodeVlq` pushes the groups of seven bits from the lowest up and reverses the result, so
the continuation bit ends on every byte but the last. It is the coding of `AiMidi.Lib.Vlq`
(`encodeVlq_eq`): the induction follows the push loop, which pushes the leading groups in
reverse.

So encodings one behind the other read back for all 32-bit values (`encodeVlq_selfDelimiting`),
and `readVlq_encodeVlq` reads one of at most four bytes, which is what the format allows.
-/

set_option autoImplicit false

namespace AiMidi.Proofs.MidiRenderer

open AiMidi.Lib AiMidi.Lib.Smf
open AiMidi.Theory

/-- The low seven bits of a value. -/
theorem toNat_and_7F (value : UInt32) : (value &&& 0x7F).toNat = value.toNat % 128 := by
  rw [UInt32.toNat_and]
  exact Nat.and_two_pow_sub_one_eq_mod value.toNat 7

/-- The last byte of an encoding: seven bits, no continuation bit. -/
theorem toNat_lastGroup (value : UInt32) :
    (value &&& 0x7F).toUInt8.toNat = value.toNat % 128 := by
  rw [UInt32.toNat_toUInt8, toNat_and_7F]
  omega

/-- A byte the loop pushes: seven bits and the continuation bit. -/
theorem toNat_group (value : UInt32) :
    ((value &&& 0x7F) ||| 0x80).toUInt8.toNat = 128 + value.toNat % 128 := by
  have hlt : value.toNat % 128 < 2 ^ 7 := Nat.mod_lt _ (by decide)
  have hor := Nat.two_pow_add_eq_or_of_lt hlt 1
  rw [UInt32.toNat_toUInt8, UInt32.toNat_or, toNat_and_7F]
  have h80 : (0x80 : UInt32).toNat = 2 ^ 7 := rfl
  rw [h80, Nat.or_comm, ← Nat.mul_one (2 ^ 7), ← hor]
  omega

/-- Seven bits are shifted out. -/
theorem toNat_shiftRight_seven (value : UInt32) :
    (value >>> 7).toNat = value.toNat / 128 := by
  simp [UInt32.toNat_shiftRight, Nat.shiftRight_eq_div_pow]

/-- Another group of seven bits comes first, with the top bit set. -/
theorem encodeVlqLoop_pos {value : UInt32} (h : value > 0) :
    encodeVlqLoop value
      = ((value &&& 0x7F) ||| 0x80).toUInt8 :: encodeVlqLoop (value >>> 7) := by
  rw [encodeVlqLoop, dif_pos h]

/-- Nothing is left to write. -/
theorem encodeVlqLoop_zero : encodeVlqLoop 0 = [] := by
  rw [encodeVlqLoop, dif_neg (by decide)]

/-- Delta 0 is the single byte 0. -/
@[simp] theorem encodeVlq_zero : encodeVlq 0 = [0] := by
  have h : (0 : UInt32) >>> 7 = 0 := rfl
  rw [encodeVlq, h, encodeVlqLoop_zero]
  rfl

/-! ### The coding of the library

The code pushes from the lowest group up and the library from the highest down. Reversed, the first
is the second. -/

/-- The loop pushes the leading groups from the lowest up. -/
theorem reverse_encodeVlqLoop (value : UInt32) :
    (encodeVlqLoop value).reverse = Vlq.leading value.toNat := by
  induction value using encodeVlqLoop.induct with
  | case1 value hpos ih =>
    have hne : value.toNat ≠ 0 := Nat.pos_iff_ne_zero.mp (UInt32.lt_iff_toNat_lt.mp hpos)
    have hgroup : ((value &&& 0x7F) ||| 0x80).toUInt8
        = UInt8.ofNat (128 + value.toNat % 128) := by
      apply UInt8.toNat_inj.mp
      rw [toNat_group, Vlq.toNat_continued]
    rw [encodeVlqLoop_pos hpos, List.reverse_cons, ih, toNat_shiftRight_seven, hgroup,
      ← Vlq.leading_pos hne]
  | case2 value hzero =>
    have h0 : value = 0 := by simpa using hzero
    rw [h0, encodeVlqLoop_zero]
    exact Vlq.leading_zero.symm

/-- An encoding is the quantity of the value. -/
theorem encodeVlq_eq (value : UInt32) : encodeVlq value = Vlq.encode value.toNat := by
  have hlast : (value &&& 0x7F).toUInt8 = UInt8.ofNat (value.toNat % 128) := by
    apply UInt8.toNat_inj.mp
    rw [toNat_lastGroup, Vlq.toNat_last]
  rw [encodeVlq, List.reverse_cons, reverse_encodeVlqLoop, toNat_shiftRight_seven, hlast,
    Vlq.encode]

/-- A delta below `2 ^ 28` survives the encoding. -/
theorem readVlq_encodeVlq (value : UInt32) (h : value.toNat < 2 ^ 28) (rest : Bytes) :
    readVlq (encodeVlq value ++ rest) = some (value.toNat, rest) := by
  -- Four bytes in all, which is what the format allows.
  have hlength := (Vlq.length_encode_le_iff value.toNat 3).mpr h
  rw [encodeVlq_eq, readVlq, readVlqGroups_iff, List.length_append]
  exact ⟨Vlq.decode_encode value.toNat rest, Nat.add_le_add_right hlength _⟩

/-! ### Lists of values

Reading takes one encoding off the front of the bytes. Where an encoding ends is seen from its own
bytes, so nothing behind it matters. -/

/-- A coding that the standard decoder reads back, each value in as few bytes as it takes. -/
structure SelfDelimiting (encode : UInt32 → Bytes) : Prop where
  decodes : ∀ values : List UInt32,
    Vlq.decodeAll (values.flatMap encode) = some (values.map UInt32.toNat)
  head_ne : ∀ value, (encode value).head? ≠ some 0x80
  minimal : ∀ value bs rest, Vlq.decode bs = some (value.toNat, rest) →
    (encode value).length + rest.length ≤ bs.length
  four_bytes : ∀ value, (encode value).length ≤ 4 ↔ value.toNat < 2 ^ 28

/-- The encodings of any values, one behind the other, read as these values. -/
theorem encodeVlq_selfDelimiting : SelfDelimiting encodeVlq where
  decodes values := by
    have hencode : values.flatMap encodeVlq = (values.map UInt32.toNat).flatMap Vlq.encode := by
      rw [List.flatMap_map]
      exact List.flatMap_congr fun value _ => encodeVlq_eq value
    rw [hencode, Vlq.decodeAll_encode]
  head_ne value := by
    rw [encodeVlq_eq]
    exact Vlq.head?_encode value.toNat
  minimal value bs rest h := by
    rw [encodeVlq_eq]
    exact Vlq.length_encode_le h
  four_bytes value := by
    rw [encodeVlq_eq]
    exact Vlq.length_encode_le_iff value.toNat 3

end AiMidi.Proofs.MidiRenderer
