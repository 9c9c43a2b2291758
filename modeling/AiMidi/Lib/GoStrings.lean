import AiMidi.Lib.Bytes
import AiMidi.Lib.Text

/-!
# `AiMidi.Lib.GoStrings`: the Go functions on text

A Go string that holds valid UTF-8 is the list of its runes. Searching for ASCII text gives
the same answer on runes and on bytes, since no byte of a longer encoding is ASCII.

`toLower` lower-cases rune by rune. The ASCII letters are fixed, and so are the two other
letters whose lower case is ASCII. The rest of the Unicode table is the parameter `table`.
-/

set_option autoImplicit false

namespace AiMidi.Lib

/-- A string as its runes. -/
abbrev Runes := List Char

/-- The UTF-8 encoding. -/
def utf8 (s : Runes) : Bytes := s.flatMap String.utf8EncodeChar

/-- `unicode.ToLower`. -/
def runeToLower (table : Char → Char) (c : Char) : Char :=
  if c.toNat < 0x80 then c.toLower
  -- The dotted capital I and the Kelvin sign.
  else if c.toNat = 0x130 then 'i'
  else if c.toNat = 0x212A then 'k'
  else table c

/-- `strings.ToLower`. -/
def toLower (table : Char → Char) (s : Runes) : Runes := s.map (runeToLower table)

/-- `unicode.IsSpace`. -/
def runeIsSpace (c : Char) : Bool :=
  (0x09 ≤ c.toNat && c.toNat ≤ 0x0D) || c.toNat == 0x20 || c.toNat == 0x85 || c.toNat == 0xA0
    || c.toNat == 0x1680 || (0x2000 ≤ c.toNat && c.toNat ≤ 0x200A) || c.toNat == 0x2028
    || c.toNat == 0x2029 || c.toNat == 0x202F || c.toNat == 0x205F || c.toNat == 0x3000

/-- `strings.Fields`: the words between white space. -/
def fields (s : Runes) : List Runes := (s.splitOnP runeIsSpace).filter (· ≠ [])

/-- `strconv.Atoi`: `none` for a syntax or range error. -/
def goAtoi (s : Runes) : Option Int :=
  let (neg, ds) := match s with
    | '-' :: ds => (true, ds)
    | '+' :: ds => (false, ds)
    | ds        => (false, ds)
  -- `ErrSyntax`: no digits, or something else among them. `ErrRange` is the last test.
  if ds = [] ∨ ds.any (fun c => !c.isDigit) then none
  else
    let n : Int := Nat.ofDigitChars 10 ds 0
    let z := if neg then -n else n
    if -2 ^ 63 ≤ z ∧ z < 2 ^ 63 then some z else none

end AiMidi.Lib
