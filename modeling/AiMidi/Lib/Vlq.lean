import AiMidi.Lib.Bytes

/-!
# `AiMidi.Lib.Vlq`: variable-length quantities

A quantity is written in groups of seven bits, the highest first. The top bit of a byte says that
another group follows, so a reader knows where a quantity ends.

`decode_encode` reads one quantity in front of anything, and `decodeAll_encode` a list of them up to
the last byte. `length_encode_le` says that no bytes that read as a number are fewer than its
encoding.
-/

set_option autoImplicit false

namespace AiMidi.Lib.Vlq

/-! ### The coding -/

/-- The groups of `n`, all of them with another one behind. -/
def leading (n : Nat) : Bytes :=
  if _h : n = 0 then [] else leading (n / 128) ++ [UInt8.ofNat (128 + n % 128)]
termination_by n
decreasing_by exact Nat.div_lt_self (Nat.pos_of_ne_zero _h) (by decide)

/-- The quantity `n`. -/
def encode (n : Nat) : Bytes := leading (n / 128) ++ [UInt8.ofNat (n % 128)]

/-- A quantity on top of the groups read so far, and the bytes behind it. -/
def decodeFrom (acc : Nat) : Bytes → Option (Nat × Bytes)
  | []      => none
  | b :: bs =>
      if b < 0x80 then some (acc * 128 + b.toNat, bs)
      else decodeFrom (acc * 128 + (b.toNat - 128)) bs

/-- The quantity at the head of the bytes, and the bytes behind it. -/
def decode (bs : Bytes) : Option (Nat × Bytes) := decodeFrom 0 bs

/-! ### Sizes -/

/-- A quantity that was read took at least one byte, of seven bits each. -/
theorem decodeFrom_bound {acc n : Nat} {bs rest : Bytes}
    (h : decodeFrom acc bs = some (n, rest)) :
    ∃ k, 1 ≤ k ∧ bs.length = k + rest.length ∧ n < (acc + 1) * 128 ^ k := by
  induction bs generalizing acc with
  | nil => cases h
  | cons b bs ih =>
    rw [decodeFrom] at h
    split at h
    -- The last group.
    case isTrue hb =>
      have hb' : b.toNat < 128 := UInt8.lt_iff_toNat_lt.mp hb
      obtain ⟨rfl, rfl⟩ := Prod.mk.inj (Option.some.inj h)
      refine ⟨1, Nat.le_refl 1, ?_, by omega⟩
      rw [List.length_cons, Nat.add_comm]
    -- A group with a continuation bit, and `k` more behind it.
    case isFalse =>
      have hb' : b.toNat < 256 := b.toNat_lt
      obtain ⟨k, hk, hlength, hn⟩ := ih h
      refine ⟨k + 1, Nat.le_add_left 1 k, ?_, ?_⟩
      · rw [List.length_cons, hlength]
        omega
      · have hpow : (acc + 1) * 128 ^ (k + 1) = (acc * 128 + 128) * 128 ^ k := by
          rw [Nat.pow_succ, Nat.mul_comm _ 128, ← Nat.mul_assoc, Nat.add_mul, Nat.one_mul]
        rw [hpow]
        exact Nat.lt_of_lt_of_le hn (Nat.mul_le_mul_right _ (by omega))

/-- A quantity takes at least one byte. -/
theorem decode_length_lt {n : Nat} {bs rest : Bytes} (h : decode bs = some (n, rest)) :
    rest.length < bs.length := by
  obtain ⟨k, hk, hlength, -⟩ := decodeFrom_bound h
  omega

/-- The numbers of bytes that are quantities one behind the other, with nothing left over. -/
def decodeAll (bs : Bytes) : Option (List Nat) :=
  if bs = [] then some []
  else
    match _h : decode bs with
    | none           => none
    | some (n, rest) => (decodeAll rest).map (n :: ·)
termination_by bs.length
decreasing_by exact decode_length_lt _h

/-- Zero has no leading bytes. -/
theorem leading_zero : leading 0 = [] := by
  rw [leading, dif_pos rfl]

/-- Every other number has one more than its quotient by 128, with the top bit set. -/
theorem leading_pos {n : Nat} (h : n ≠ 0) :
    leading n = leading (n / 128) ++ [UInt8.ofNat (128 + n % 128)] := by
  rw [leading, dif_neg h]

/-- `k` groups are enough exactly for the numbers of `7 * k` bits. -/
theorem length_leading_le_iff (n k : Nat) : (leading n).length ≤ k ↔ n < 128 ^ k := by
  induction k generalizing n with
  | zero =>
    rw [Nat.le_zero, List.length_eq_zero_iff, Nat.pow_zero, Nat.lt_one_iff]
    by_cases hzero : n = 0
    · rw [hzero]
      exact iff_of_true leading_zero rfl
    · rw [leading_pos hzero]
      exact iff_of_false (List.concat_ne_nil _ _) hzero
  | succ k ih =>
    by_cases hzero : n = 0
    · rw [hzero, leading_zero]
      exact iff_of_true (Nat.zero_le _) (Nat.pow_pos (by decide))
    · rw [leading_pos hzero, List.length_append, List.length_singleton, Nat.add_le_add_iff_right,
        ih, Nat.div_lt_iff_lt_mul (by decide), ← Nat.pow_succ]

/-- The bytes of a number count its digits to the base 128. -/
theorem length_encode_le_iff (n k : Nat) : (encode n).length ≤ k + 1 ↔ n < 128 ^ (k + 1) := by
  rw [encode, List.length_append, List.length_singleton, Nat.add_le_add_iff_right,
    length_leading_le_iff, Nat.div_lt_iff_lt_mul (by decide), ← Nat.pow_succ]

/-- No bytes that read as `n` are fewer than its encoding. -/
theorem length_encode_le {n : Nat} {bs rest : Bytes} (h : decode bs = some (n, rest)) :
    (encode n).length + rest.length ≤ bs.length := by
  obtain ⟨k, hk, hlength, hn⟩ := decodeFrom_bound h
  obtain ⟨j, rfl⟩ : ∃ j, k = j + 1 := ⟨k - 1, by omega⟩
  rw [Nat.zero_add, Nat.one_mul] at hn
  have hle := (length_encode_le_iff n j).mpr hn
  omega

/-! ### Round trips -/

/-- The value of a byte that continues. -/
theorem toNat_continued (n : Nat) : (UInt8.ofNat (128 + n % 128)).toNat = 128 + n % 128 := by
  rw [UInt8.toNat_ofNat']
  omega

/-- The value of the last byte. -/
theorem toNat_last (n : Nat) : (UInt8.ofNat (n % 128)).toNat = n % 128 := by
  rw [UInt8.toNat_ofNat']
  omega

/-- The leading groups shift what has been read, and add their number. -/
theorem decodeFrom_leading (n acc : Nat) (tail : Bytes) :
    decodeFrom acc (leading n ++ tail)
      = decodeFrom (acc * 128 ^ (leading n).length + n) tail := by
  induction n using leading.induct generalizing tail with
  | case1 =>
    rw [leading_zero]
    show decodeFrom acc tail = decodeFrom (acc * 1 + 0) tail
    rw [Nat.mul_one, Nat.add_zero]
  | case2 n hpos ih =>
    -- The last group is read on top of those in front of it.
    have hge : ¬ UInt8.ofNat (128 + n % 128) < 0x80 := by
      rw [UInt8.lt_iff_toNat_lt, toNat_continued]
      exact Nat.not_lt.mpr (Nat.le_add_right 128 _)
    have hacc : (acc * 128 ^ (leading (n / 128)).length + n / 128) * 128 + n % 128
        = acc * 128 ^ ((leading (n / 128)).length + 1) + n := by
      rw [Nat.add_mul, Nat.mul_assoc, ← Nat.pow_succ, Nat.add_assoc, Nat.div_add_mod' n 128]
    rw [leading_pos hpos, List.append_assoc, ih, List.singleton_append, decodeFrom, if_neg hge,
      toNat_continued, Nat.add_sub_cancel_left, hacc, List.length_append, List.length_singleton]

/-- A quantity reads as its number, whatever stands behind it. -/
theorem decode_encode (n : Nat) (rest : Bytes) : decode (encode n ++ rest) = some (n, rest) := by
  have hlast : UInt8.ofNat (n % 128) < 0x80 := by
    rw [UInt8.lt_iff_toNat_lt, toNat_last]
    exact Nat.mod_lt n (by decide)
  rw [decode, encode, List.append_assoc, decodeFrom_leading, List.singleton_append, decodeFrom,
    if_pos hlast, toNat_last, Nat.zero_mul, Nat.zero_add, Nat.div_add_mod' n 128]

/-- No bytes are no numbers. -/
theorem decodeAll_nil : decodeAll [] = some [] := by
  rw [decodeAll, if_pos rfl]

/-- The numbers are decoded one after the other. -/
theorem decodeAll_cons {n : Nat} {bs rest : Bytes} (h : decode bs = some (n, rest)) :
    decodeAll bs = (decodeAll rest).map (n :: ·) := by
  have hne : bs ≠ [] := by
    rintro rfl
    cases h
  rw [decodeAll, if_neg hne]
  split
  · rename_i hnone
    cases h.symm.trans hnone
  · rename_i n' rest' hsome
    cases h.symm.trans hsome
    rfl

/-- A list of quantities reads as the list of its numbers, up to the last byte. -/
theorem decodeAll_encode (ns : List Nat) : decodeAll (ns.flatMap encode) = some ns := by
  induction ns with
  | nil => exact decodeAll_nil
  | cons n ns ih =>
    rw [List.flatMap_cons, decodeAll_cons (decode_encode n _), ih]
    rfl

/-- The leading groups do not begin with one of zeros. -/
theorem head?_leading (n : Nat) : (leading n).head? ≠ some 0x80 := by
  induction n using leading.induct with
  | case1 =>
    rw [leading_zero]
    exact (Option.some_ne_none _).symm
  | case2 n hpos ih =>
    rw [leading_pos hpos, List.head?_append]
    by_cases hhigher : n / 128 = 0
    · -- The only group holds the number itself.
      rw [hhigher, leading_zero]
      intro hzero
      have hgroup := toNat_continued n
      rw [Option.some.inj hzero] at hgroup
      have hvalue : 128 = 128 + n % 128 := hgroup
      omega
    · rw [leading_pos hhigher] at ih ⊢
      cases hhead : (leading (n / 128 / 128) ++ [UInt8.ofNat (128 + n / 128 % 128)]).head? with
      | none => exact absurd (List.head?_eq_none_iff.mp hhead) (List.concat_ne_nil _ _)
      | some b =>
        rw [hhead] at ih
        exact ih

/-- No encoding begins with a zero digit, so each is the shortest. -/
theorem head?_encode (n : Nat) : (encode n).head? ≠ some 0x80 := by
  have hleading := head?_leading (n / 128)
  rw [encode, List.head?_append]
  cases hhead : (leading (n / 128)).head? with
  | some b =>
    rw [hhead] at hleading
    exact hleading
  | none =>
    -- The last group has no continuation bit.
    intro hlast
    have hgroup := toNat_last n
    rw [Option.some.inj hlast] at hgroup
    have hvalue : 128 = n % 128 := hgroup
    omega

end AiMidi.Lib.Vlq
