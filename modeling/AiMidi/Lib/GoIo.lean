import AiMidi.Lib.Bytes

/-!
# `AiMidi.Lib.GoIo`: reads of a Go program from a file

A file open for reading is the bytes that are left of it. `readFull` is `io.ReadFull`, which
`binary.Read` calls for a value of fixed size. `fileRead` is one call of `os.File.Read` on a
regular file, into a buffer fresh from `make`.
-/

set_option autoImplicit false

namespace AiMidi.Lib

/-- `[n]byte`. -/
abbrev FixedBytes (n : Nat) := { bs : Bytes // bs.length = n }

/-- Why a read failed. -/
inductive ReadError where
  | eof
  | unexpectedEOF
  deriving DecidableEq, Repr

/-- The texts of the two errors, as Go has them. -/
def ReadError.text : ReadError → Bytes
  | .eof           => bytes "EOF"
  | .unexpectedEOF => bytes "unexpected EOF"

/-- The next `n` bytes, and what is left. -/
def readFull (n : Nat) (file : Bytes) : Except ReadError (FixedBytes n × Bytes) :=
  if h : n ≤ file.length then .ok (⟨file.take n, List.length_take_of_le h⟩, file.drop n)
  else if file = [] then .error .eof
  else .error .unexpectedEOF

/-- One read into a zeroed buffer of `n` bytes: the buffer, and what is left. The read fills
as much of the buffer as there are bytes, and fails when it wants some and there are none. -/
def fileRead (n : Nat) (file : Bytes) : Except ReadError (Bytes × Bytes) :=
  if n ≠ 0 ∧ file = [] then .error .eof
  else .ok (file.take n ++ List.replicate (n - file.length) 0, file.drop n)

/-- A step whose error is wrapped comes through exactly when the step does. -/
theorem bind_mapError_ok_iff {ε ε' α β : Type} {x : Except ε α} {wrap : ε → ε'}
    {f : α → Except ε' β} {b : β} :
    (x.mapError wrap >>= f) = .ok b ↔ ∃ a, x = .ok a ∧ f a = .ok b := by
  cases x with
  | error err =>
    constructor
    · intro h
      cases h
    · rintro ⟨a, h, -⟩
      cases h
  | ok a =>
    constructor
    · intro h
      exact ⟨a, rfl, h⟩
    · rintro ⟨a, h, hf⟩
      cases h
      exact hf

/-- A full read splits the file. -/
theorem readFull_ok_iff {n : Nat} {file rest : Bytes} {bs : FixedBytes n} :
    readFull n file = .ok (bs, rest) ↔ file = bs.val ++ rest := by
  obtain ⟨bs, hbs⟩ := bs
  unfold readFull
  constructor
  · intro h
    split at h
    · cases h
      exact (List.take_append_drop n file).symm
    · split at h <;> cases h
  · intro h
    subst h hbs
    simp

/-- A read gets the data, when it is all there. -/
theorem fileRead_append (data rest : Bytes) :
    fileRead data.length (data ++ rest) = .ok (data, rest) := by
  unfold fileRead
  rw [if_neg]
  · simp
  · rintro ⟨hne, hnil⟩
    simp_all

/-- A read at the end of the file pads the data with zeros. -/
theorem fileRead_short {n : Nat} {part : Bytes} (hne : part ≠ []) (hlt : part.length < n) :
    fileRead n part = .ok (part ++ List.replicate (n - part.length) 0, []) := by
  unfold fileRead
  rw [if_neg fun h => hne h.2, List.take_of_length_le (Nat.le_of_lt hlt),
    List.drop_of_length_le (Nat.le_of_lt hlt)]

/-- A read that succeeds got the data, or came to the end of the file within it. -/
theorem fileRead_cases {n : Nat} {file data rest : Bytes}
    (h : fileRead n file = .ok (data, rest)) :
    data.length = n ∧ (file = data ++ rest ∨ file ≠ [] ∧ file.length < n ∧ rest = []) := by
  unfold fileRead at h
  split at h
  case isTrue => cases h
  case isFalse hne =>
    obtain ⟨rfl, rfl⟩ := Prod.mk.inj (Except.ok.inj h)
    rw [not_and] at hne
    -- Either the file has all `n` bytes, or the read takes what is left of it.
    by_cases hle : n ≤ file.length
    · have hpad : n - file.length = 0 := Nat.sub_eq_zero_of_le hle
      simp [hpad, hle]
    · have hlt : file.length < n := Nat.lt_of_not_le hle
      have hrest : file.drop n = [] := List.drop_of_length_le (Nat.le_of_lt hlt)
      refine ⟨?_, Or.inr ⟨hne (by omega), hlt, hrest⟩⟩
      rw [List.length_append, List.length_take, List.length_replicate]
      omega

end AiMidi.Lib
