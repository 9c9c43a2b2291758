import AiMidi.Lib.BigEndian

/-!
# `AiMidi.Lib.Riff`: RIFF chunks

Fields are little-endian: `leBytes n v` is the field of `n` bytes that holds `v`, and `leNat`
reads it back.

A chunk is an identifier of four bytes, the size of its body in four bytes, and the body. A body of
an odd size is followed by a pad byte that the size does not count.
-/

set_option autoImplicit false

namespace AiMidi.Lib.Riff

open AiMidi.Lib AiMidi.Lib.Smf

/-! ### Little-endian fields

The byte with the lowest value comes first. A field of `n` bytes holds the numbers below `256 ^
n`. -/

/-- The value of a little-endian field. -/
def leNat (bs : Bytes) : Nat := beNat bs.reverse

/-- The `n` bytes of a little-endian field. -/
def leBytes (n v : Nat) : Bytes := (beBytes n v).reverse

/-- Little-endian numbers have the length that is asked for. -/
@[simp] theorem length_leBytes (n v : Nat) : (leBytes n v).length = n := by
  rw [leBytes, List.length_reverse, length_beBytes]

/-- A number that fits comes back. -/
theorem leNat_leBytes {n v : Nat} (h : v < 256 ^ n) : leNat (leBytes n v) = v := by
  rw [leNat, leBytes, List.reverse_reverse, beNat_beBytes h]

/-- And so do the bytes. -/
theorem leBytes_leNat (bs : Bytes) : leBytes bs.length (leNat bs) = bs := by
  rw [leBytes, leNat, ← List.length_reverse, beBytes_beNat, List.reverse_reverse]

/-- Bytes make no number beyond their count. -/
theorem leNat_lt (bs : Bytes) : leNat bs < 256 ^ bs.length := by
  have h := beNat_lt bs.reverse
  rwa [List.length_reverse] at h

/-! ### Chunks

A body of odd size is followed by a pad byte that its header does not count. A sequence of chunks is
encoded chunk by chunk. -/

/-- The eight bytes in front of a body. -/
def header (id : Bytes) (size : Nat) : Bytes := id ++ leBytes 4 size

/-- A chunk header has eight bytes. -/
theorem length_header {id : Bytes} (h : id.length = 4) (size : Nat) :
    (header id size).length = 8 := by
  rw [header, List.length_append, h, length_leBytes]

/-- A chunk whose body has a length that its header can hold. -/
structure Chunk where
  id : Bytes
  body : Bytes
  id_length : id.length = 4
  size_lt : body.length < 2 ^ 32

/-- The pad byte of an odd size. -/
def pad (size : Nat) : Bytes := if size % 2 = 0 then [] else [0]

/-- The bytes of a chunk: header, body, and a byte more when the body is odd. -/
def Chunk.encode (c : Chunk) : Bytes := header c.id c.body.length ++ c.body ++ pad c.body.length

/-- Chunks one behind the other. -/
def encodeAll (cs : List Chunk) : Bytes := cs.flatMap Chunk.encode

/-- The first chunk stands in front of the others. -/
theorem encodeAll_cons (c : Chunk) (cs : List Chunk) :
    encodeAll (c :: cs) = c.encode ++ encodeAll cs := List.flatMap_cons

/-- Chunks may be encoded in two parts. -/
theorem encodeAll_append (cs ds : List Chunk) :
    encodeAll (cs ++ ds) = encodeAll cs ++ encodeAll ds := List.flatMap_append

end AiMidi.Lib.Riff
