import AiMidi.Lib.Decimal

/-!
# `AiMidi.Lib.Json`: texts in JSON

`Json.parse` reads a text as RFC 8259 defines it. A number keeps its spelling. A string is its bytes
behind the escapes: what is not UTF-8 in it becomes U+FFFD, and so does half of a surrogate pair.

`ReadsValue text v` says that the parser takes `text` for the value `v`, whatever follows it. There
is one rule for each way to write a value, so that the text of a writer is read piece by piece as it
was written. `ReadsChars`, `ReadsItems` and `ReadsMembers` say the same of what stands between
quotes, brackets and braces.

The parser takes fuel, and `ReadsValue` asks for no more of it than the length of the text, so the
rules compose without counting. Only numbers need an argument of their own. A decimal has no leading
zero that the format would refuse (`head?_decimal_ne_zero`), and its digits are read up to what
stands behind it, which must not go on with the number (`Stops`).
-/

set_option autoImplicit false

namespace AiMidi.Lib

/-- A value. The text of a number is kept as it is written. -/
inductive Json where
  | null
  | bool (b : Bool)
  | number (text : Bytes)
  | string (s : Bytes)
  | array (items : List Json)
  | object (members : List (Bytes × Json))

namespace Json

/-! ### Numbers -/

/-- One digit or more, and what is left. -/
def readDigits (bs : Bytes) : Option (Bytes × Bytes) :=
  if bs.takeWhile isDigit = [] then none
  else some (bs.takeWhile isDigit, bs.dropWhile isDigit)

/-- The digits before the point. Behind a leading zero there are no others. -/
def readInt (bs : Bytes) : Option (Bytes × Bytes) :=
  if bs.head? = some 0x30 then some ([0x30], bs.tail) else readDigits bs

/-- The decimals, if there are any, with their point. -/
def readFraction (bs : Bytes) : Option (Bytes × Bytes) :=
  if bs.head? = some 0x2E then (readDigits bs.tail).map fun p => (0x2E :: p.1, p.2)
  else some ([], bs)

/-- The exponent, if there is one, with its letter and its sign. -/
def readExponent (bs : Bytes) : Option (Bytes × Bytes) :=
  if bs.head? = some 0x65 ∨ bs.head? = some 0x45 then
    if bs.tail.head? = some 0x2B ∨ bs.tail.head? = some 0x2D then
      (readDigits bs.tail.tail).map fun p => (bs.take 2 ++ p.1, p.2)
    else (readDigits bs.tail).map fun p => (bs.take 1 ++ p.1, p.2)
  else some ([], bs)

/-- A number behind its sign. -/
def readUnsigned (bs : Bytes) : Option (Bytes × Bytes) :=
  (readInt bs).bind fun int => (readFraction int.2).bind fun fraction =>
    (readExponent fraction.2).map fun exponent =>
      (int.1 ++ fraction.1 ++ exponent.1, exponent.2)

/-- A number with its sign. -/
def readNumber (bs : Bytes) : Option (Bytes × Bytes) :=
  if bs.head? = some 0x2D then (readUnsigned bs.tail).map fun p => (0x2D :: p.1, p.2)
  else readUnsigned bs

/-! ### Strings -/

/-- The number of bytes of the character at the front, 0 when it is not UTF-8. -/
def charWidth (bs : Bytes) : Nat :=
  let within (i : Nat) (lo hi : UInt8) : Bool := (bs[i]?).any fun b => lo ≤ b && b ≤ hi
  let tail (i : Nat) : Bool := within i 0x80 0xBF
  if within 0 0x00 0x7F then 1
  else if within 0 0xC2 0xDF && tail 1 then 2
  else if (within 0 0xE0 0xE0 && within 1 0xA0 0xBF || within 0 0xE1 0xEC && tail 1
      || within 0 0xED 0xED && within 1 0x80 0x9F || within 0 0xEE 0xEF && tail 1) && tail 2 then 3
  else if (within 0 0xF0 0xF0 && within 1 0x90 0xBF || within 0 0xF1 0xF3 && tail 1
      || within 0 0xF4 0xF4 && within 1 0x80 0x8F) && tail 2 && tail 3 then 4
  else 0

/-- The value of a hexadecimal digit in either case. -/
def hexValue (b : UInt8) : Option Nat :=
  if 0x30 ≤ b ∧ b ≤ 0x39 then some (b.toNat - 0x30)
  else if 0x61 ≤ b ∧ b ≤ 0x66 then some (b.toNat - 0x61 + 10)
  else if 0x41 ≤ b ∧ b ≤ 0x46 then some (b.toNat - 0x41 + 10)
  else none

/-- Four hexadecimal digits. -/
def readUnit : Bytes → Option (Nat × Bytes)
  | a :: b :: c :: d :: rest =>
      (hexValue a).bind fun a => (hexValue b).bind fun b => (hexValue c).bind fun c =>
        (hexValue d).map fun d => (((a * 16 + b) * 16 + c) * 16 + d, rest)
  | _ => none

/-- The second unit of a surrogate pair. -/
def readLowSurrogate : Bytes → Option (Nat × Bytes)
  | 0x5C :: 0x75 :: rest => (readUnit rest).filter fun low => 0xDC00 ≤ low.1 && low.1 < 0xE000
  | _                    => none

/-- The character of an escape with a code. -/
def readCode (bs : Bytes) : Option (Bytes × Bytes) :=
  (readUnit bs).map fun unit =>
    if unit.1 < 0xD800 ∨ 0xE000 ≤ unit.1 then
      (String.utf8EncodeChar (Char.ofNat unit.1), unit.2)
    else
      match (readLowSurrogate unit.2).filter fun _ => unit.1 < 0xDC00 with
      | some low => (String.utf8EncodeChar
          (Char.ofNat (0x10000 + (unit.1 - 0xD800) * 0x400 + (low.1 - 0xDC00))), low.2)
      | none     => (String.utf8EncodeChar (Char.ofNat 0xFFFD), unit.2)

/-- The escapes of one letter. -/
def escapes : List (UInt8 × UInt8) :=
  [(0x22, 0x22), (0x5C, 0x5C), (0x2F, 0x2F), (0x62, 0x08), (0x66, 0x0C), (0x6E, 0x0A), (0x72, 0x0D),
   (0x74, 0x09)]

/-- What stands behind a backslash: a code, or one of the letters. -/
def readEscape : Bytes → Option (Bytes × Bytes)
  | 0x75 :: rest => readCode rest
  | c :: rest    => (escapes.lookup c).map fun b => ([b], rest)
  | []           => none

/-- A string behind its opening quote, in at most `n` steps. -/
def readChars : Nat → Bytes → Option (Bytes × Bytes)
  | 0, _              => none
  | _ + 1, []         => none
  | n + 1, b :: rest  =>
    if b = 0x22 then some ([], rest)
    else if b = 0x5C then
      (readEscape rest).bind fun c => (readChars n c.2).map fun s => (c.1 ++ s.1, s.2)
    else if b < 0x20 then none
    else if charWidth (b :: rest) = 0 then
      (readChars n rest).map fun s => (String.utf8EncodeChar (Char.ofNat 0xFFFD) ++ s.1, s.2)
    else
      (readChars n ((b :: rest).drop (charWidth (b :: rest)))).map fun s =>
        ((b :: rest).take (charWidth (b :: rest)) ++ s.1, s.2)

/-! ### Values -/

/-- The four blanks of the format. -/
def isWs (b : UInt8) : Bool := b == 0x20 || b == 0x09 || b == 0x0A || b == 0x0D

/-- The text behind its leading blanks. -/
def skipWs (bs : Bytes) : Bytes := bs.dropWhile isWs

/-- A word, and its value. -/
def readWord (word : Bytes) (v : Json) (bs : Bytes) : Option (Json × Bytes) :=
  if word.isPrefixOf bs then some (v, bs.drop word.length) else none

/-- A value that is neither a string nor nested. -/
def readScalar (bs : Bytes) : Option (Json × Bytes) :=
  readWord (bytes "null") .null bs <|> readWord (bytes "true") (.bool true) bs
    <|> readWord (bytes "false") (.bool false) bs
    <|> (readNumber bs).map fun p => (.number p.1, p.2)

mutual

/-- A value, in at most `n` steps. -/
def readValue : Nat → Bytes → Option (Json × Bytes)
  | 0, _      => none
  | n + 1, bs =>
    match skipWs bs with
    | 0x7B :: rest =>
        if (skipWs rest).head? = some 0x7D then some (.object [], (skipWs rest).tail)
        else (readMembers n rest).map fun p => (.object p.1, p.2)
    | 0x5B :: rest =>
        if (skipWs rest).head? = some 0x5D then some (.array [], (skipWs rest).tail)
        else (readItems n rest).map fun p => (.array p.1, p.2)
    | 0x22 :: rest => (readChars n rest).map fun p => (.string p.1, p.2)
    | bs           => readScalar bs

/-- The items up to the closing bracket, at least one. -/
def readItems : Nat → Bytes → Option (List Json × Bytes)
  | 0, _      => none
  | n + 1, bs =>
    (readValue n bs).bind fun v =>
      match skipWs v.2 with
      | 0x2C :: rest => (readItems n rest).map fun vs => (v.1 :: vs.1, vs.2)
      | 0x5D :: rest => some ([v.1], rest)
      | _            => none

/-- The members up to the closing brace, at least one. -/
def readMembers : Nat → Bytes → Option (List (Bytes × Json) × Bytes)
  | 0, _      => none
  | n + 1, bs =>
    match skipWs bs with
    | 0x22 :: rest =>
        (readChars n rest).bind fun name =>
          match skipWs name.2 with
          | 0x3A :: rest =>
              (readValue n rest).bind fun v =>
                match skipWs v.2 with
                | 0x2C :: rest =>
                    (readMembers n rest).map fun vs => ((name.1, v.1) :: vs.1, vs.2)
                | 0x7D :: rest => some ([(name.1, v.1)], rest)
                | _            => none
          | _ => none
    | _ => none

end

/-- A whole text. -/
def parse (bs : Bytes) : Option Json :=
  (readValue (bs.length + 1) bs).bind fun v => if skipWs v.2 = [] then some v.1 else none

/-! ### What is read

A reader is given a number of steps. The predicates say that the length of the text is enough of
them, and that what follows the text is left as it is. -/

section

/-- The bytes that would go on with a number. -/
def isNumberByte (b : UInt8) : Bool := isDigit b || b == 0x2E || b == 0x65 || b == 0x45

/-- Nothing behind a value goes on with a number. -/
def Stops (rest : Bytes) : Prop := ∀ b, rest.head? = some b → isNumberByte b = false

/-- The text is read as a value, with enough fuel for its length and whatever follows it. -/
def ReadsValue (text : Bytes) (v : Json) : Prop :=
  ∀ n rest, text.length < n → Stops rest → readValue n (text ++ rest) = some (v, rest)

/-- The text of a string behind its opening quote. -/
def ReadsChars (text s : Bytes) : Prop :=
  ∀ n rest, text.length ≤ n → readChars n (text ++ rest) = some (s, rest)

/-- The text of the items behind the opening bracket. -/
def ReadsItems (text : Bytes) (vs : List Json) : Prop :=
  ∀ n rest, text.length < n → readItems n (text ++ rest) = some (vs, rest)

/-- The text of the members behind the opening brace. -/
def ReadsMembers (text : Bytes) (vs : List (Bytes × Json)) : Prop :=
  ∀ n rest, text.length < n → readMembers n (text ++ rest) = some (vs, rest)

variable {text : Bytes} {ws : Bytes}

/-- The end of the text stops a number. -/
theorem stops_nil : Stops [] := fun _ h => by cases h

/-- A byte that no number has stops one. -/
theorem stops_cons {b : UInt8} (h : isNumberByte b = false) (rest : Bytes) : Stops (b :: rest) :=
  fun _ hb => Option.some.inj hb ▸ h

/-- Blanks in front do not matter. -/
theorem skipWs_append (h : ∀ b ∈ ws, isWs b = true) (rest : Bytes) :
    skipWs (ws ++ rest) = skipWs rest :=
  List.dropWhile_append_of_pos h

/-- Any other byte is not skipped. -/
theorem skipWs_cons {b : UInt8} (h : isWs b = false) (rest : Bytes) :
    skipWs (b :: rest) = b :: rest :=
  List.dropWhile_cons_of_neg (by rw [h]; exact Bool.false_ne_true)

/-- A byte behind blanks. -/
theorem skipWs_to (h : ∀ b ∈ ws, isWs b = true) {b : UInt8} (hb : isWs b = false) (rest : Bytes) :
    skipWs (ws ++ b :: rest) = b :: rest := by
  rw [skipWs_append h, skipWs_cons hb]

/-! ### Strings

The rules go from the end of the string to its front. Each takes one byte or one escape away and
leaves the rule for what is behind it. -/

/-- The quote ends a string. -/
theorem readsChars_quote : ReadsChars [0x22] [] := by
  intro n rest hn
  cases n with
  | zero => exact absurd hn (by simp)
  | succ n => rfl

/-- A byte that stands for itself. -/
theorem ReadsChars.plain {s : Bytes} {b : UInt8} (h : ReadsChars text s) (hlow : 0x20 ≤ b)
    (hhigh : b < 0x80) (hquote : b ≠ 0x22) (hslash : b ≠ 0x5C) :
    ReadsChars (b :: text) (b :: s) := by
  intro n rest hn
  cases n with
  | zero => exact absurd hn (by simp)
  | succ n =>
    -- The byte is a character of its own: ASCII, and none of the two that have a meaning.
    have hwidth : charWidth (b :: (text ++ rest)) = 1 := by
      have hascii : b ≤ 0x7F := by
        rw [UInt8.lt_iff_toNat_lt] at hhigh
        rw [UInt8.le_iff_toNat_le]
        exact Nat.le_of_lt_succ hhigh
      have hzero : (0x00 : UInt8) ≤ b := UInt8.zero_le
      simp only [charWidth, List.getElem?_cons_zero, Option.any_some, hascii, hzero, decide_true,
        Bool.and_self, if_true]
    have hread := h n rest (Nat.le_of_succ_le_succ hn)
    rw [List.cons_append, readChars, if_neg hquote, if_neg hslash, if_neg (UInt8.not_lt.mpr hlow),
      hwidth, if_neg (Nat.one_ne_zero)]
    simp only [List.drop_succ_cons, List.drop_zero, hread, Option.map_some, List.take_succ_cons,
      List.take_zero]
    rfl

/-- An escape of one letter. -/
theorem ReadsChars.escape {s : Bytes} {c b : UInt8} (h : ReadsChars text s)
    (hcode : c ≠ 0x75) (hescape : escapes.lookup c = some b) :
    ReadsChars (0x5C :: c :: text) (b :: s) := by
  intro n rest hn
  cases n with
  | zero => exact absurd hn (by simp)
  | succ n =>
    have hread := h n rest (by simp only [List.length_cons] at hn; omega)
    have hletter : readEscape (c :: (text ++ rest)) = some ([b], text ++ rest) := by
      unfold readEscape
      -- An escape with a code begins with `u`, which is excluded.
      split
      · rename_i heq
        exact absurd (List.cons.inj heq).1 hcode
      · rename_i heq
        obtain ⟨rfl, rfl⟩ := List.cons.inj heq
        rw [hescape]
        rfl
      · rename_i heq
        exact absurd heq (List.cons_ne_nil _ _)
    rw [List.cons_append, List.cons_append, readChars, if_neg (by decide), if_pos rfl, hletter]
    simp only [Option.bind_some, hread, Option.map_some]
    rfl

/-- The characters of a string between quotes are read as the string. -/
theorem ReadsChars.value {s : Bytes} (h : ReadsChars text s) :
    ReadsValue (0x22 :: text) (.string s) := by
  intro n rest hn _
  cases n with
  | zero => exact absurd hn (by simp)
  | succ n =>
    have hread := h n rest (by simp only [List.length_cons] at hn; omega)
    rw [List.cons_append, readValue, skipWs_cons (by decide)]
    simp only [hread, Option.map_some]

/-! ### Numbers

A number ends where the next byte is none that could go on with it. For this reason the rules ask
what stands behind a number. -/

/-- Digits are read up to the first byte that is none. -/
theorem readDigits_append {ds rest : Bytes} (hne : ds ≠ []) (hds : ∀ d ∈ ds, isDigit d = true)
    (hrest : ∀ b, rest.head? = some b → isDigit b = false) :
    readDigits (ds ++ rest) = some (ds, rest) := by
  have htake : rest.takeWhile isDigit = [] ∧ rest.dropWhile isDigit = rest := by
    cases rest with
    | nil => exact ⟨rfl, rfl⟩
    | cons b rest =>
      have hb := hrest b rfl
      exact ⟨List.takeWhile_cons_of_neg (by rw [hb]; exact Bool.false_ne_true),
        List.dropWhile_cons_of_neg (by rw [hb]; exact Bool.false_ne_true)⟩
  rw [readDigits, List.takeWhile_append_of_pos hds, List.dropWhile_append_of_pos hds, htake.1,
    htake.2, List.append_nil, if_neg hne]

/-- Only zero has the digit zero. -/
theorem digitChar_ne_zero : ∀ n < 10, 0 < n → Nat.digitChar n ≠ '0' := by decide

/-- Only the numeral of zero begins with a zero. -/
theorem head?_toDigits_ne_zero (n : Nat) (h : 0 < n) : (Nat.toDigits 10 n).head? ≠ some '0' := by
  induction n using Nat.strongRecOn with
  | _ n ih =>
    by_cases hlt : n < 10
    · rw [Nat.toDigits_of_lt_base hlt]
      exact fun hhead => digitChar_ne_zero n hlt h (Option.some.inj hhead)
    · have hpos : 0 < n / 10 := Nat.div_pos (Nat.le_of_not_lt hlt) (by decide)
      have hhead := ih (n / 10) (Nat.div_lt_self h (by decide)) hpos
      rw [Nat.toDigits_of_base_le (by decide) (Nat.le_of_not_lt hlt),
        List.head?_append_of_ne_nil _ Nat.toDigits_ne_nil]
      exact hhead

/-- A number that is not zero does not begin with the digit zero, as the format demands. -/
theorem head?_decimal_ne_zero {n : Nat} (h : 0 < n) : (decimal n).head? ≠ some 0x30 := by
  rw [decimal, List.head?_map]
  intro hhead
  obtain ⟨c, hc, hbyte⟩ := Option.map_eq_some_iff.mp hhead
  have hdigit : c.isDigit = true :=
    Nat.isDigit_of_mem_toDigits (by decide) (by decide) (List.mem_of_head? hc)
  have hnat : c.toNat = 0x30 := by
    rw [← toNat_toUInt8_of_isDigit hdigit, hbyte]
    rfl
  have hzero : c = '0' := Char.toNat_inj.mp hnat
  exact head?_toDigits_ne_zero n h (hc.trans (congrArg some hzero))

/-- A decimal number is a whole number of the format. -/
theorem readInt_decimal (n : Nat) {rest : Bytes}
    (hrest : ∀ b, rest.head? = some b → isDigit b = false) :
    readInt (decimal n ++ rest) = some (decimal n, rest) := by
  have hdigits : readDigits (decimal n ++ rest) = some (decimal n, rest) :=
    readDigits_append (decimal_ne_nil n) (fun d hd => isDigit_of_mem_decimal hd) hrest
  rw [readInt, List.head?_append_of_ne_nil _ (decimal_ne_nil n)]
  by_cases hn : n = 0
  · subst hn
    rfl
  · rw [if_neg (head?_decimal_ne_zero (Nat.pos_of_ne_zero hn)), hdigits]

/-- What stops a number is not a digit. -/
theorem isDigit_of_isNumberByte {b : UInt8} (h : isNumberByte b = false) : isDigit b = false := by
  simp only [isNumberByte, Bool.or_eq_false_iff] at h
  exact h.1.1.1

/-- A numeral with digits behind the point. -/
theorem readUnsigned_fixed (n : Nat) {ds rest : Bytes} (hne : ds ≠ [])
    (hds : ∀ d ∈ ds, isDigit d = true) (hrest : Stops rest) :
    readUnsigned (decimal n ++ 0x2E :: ds ++ rest) = some (decimal n ++ 0x2E :: ds, rest) := by
  have hint : readInt (decimal n ++ 0x2E :: (ds ++ rest))
      = some (decimal n, 0x2E :: (ds ++ rest)) :=
    readInt_decimal n fun b hb => Option.some.inj hb ▸ rfl
  -- The point follows the digits at once, so there is a fraction.
  have hfraction : readFraction (0x2E :: (ds ++ rest)) = some (0x2E :: ds, rest) := by
    rw [readFraction, List.head?_cons, if_pos rfl, List.tail_cons,
      readDigits_append hne hds fun b hb => isDigit_of_isNumberByte (hrest b hb)]
    rfl
  -- An exponent would begin with a letter, and what stops a number is no letter `e`.
  have hexponent : readExponent rest = some ([], rest) := by
    rw [readExponent, if_neg]
    rintro (he | he)
    · exact absurd (hrest _ he) (by decide)
    · exact absurd (hrest _ he) (by decide)
  rw [List.append_assoc, List.cons_append, readUnsigned, hint]
  simp only [Option.bind_some, hfraction, hexponent, Option.map_some, List.append_nil]

/-- A decimal with a sign. -/
def fixedText (neg : Bool) (n : Nat) (ds : Bytes) : Bytes :=
  (if neg then [0x2D] else []) ++ (decimal n ++ 0x2E :: ds)

/-- A fixed-point number is read back with its text. -/
theorem readNumber_fixed (neg : Bool) (n : Nat) {ds rest : Bytes} (hne : ds ≠ [])
    (hds : ∀ d ∈ ds, isDigit d = true) (hrest : Stops rest) :
    readNumber (fixedText neg n ds ++ rest) = some (fixedText neg n ds, rest) := by
  have hread := readUnsigned_fixed n hne hds hrest
  cases neg with
  | false =>
    -- Without a sign the first byte is a digit.
    have hhead : ((decimal n ++ 0x2E :: ds) ++ rest).head? ≠ some 0x2D := by
      rw [List.append_assoc, List.head?_append_of_ne_nil _ (decimal_ne_nil n)]
      intro hminus
      exact absurd (isDigit_of_mem_decimal (List.mem_of_head? hminus)) (by decide)
    show readNumber ((decimal n ++ 0x2E :: ds) ++ rest) = some (decimal n ++ 0x2E :: ds, rest)
    rw [readNumber, if_neg hhead, hread]
  | true =>
    show readNumber (0x2D :: ((decimal n ++ 0x2E :: ds) ++ rest))
      = some (0x2D :: (decimal n ++ 0x2E :: ds), rest)
    rw [readNumber, List.head?_cons, if_pos rfl, List.tail_cons, hread]
    rfl

/-- The bytes that a number begins with. -/
def beginsNumber (b : UInt8) : Bool := isDigit b || b == 0x2D

/-- Its first byte leads the reader to a number. -/
theorem fixedText_cons (neg : Bool) (n : Nat) (ds : Bytes) :
    ∃ b tail, fixedText neg n ds = b :: tail ∧ beginsNumber b = true := by
  cases neg with
  | true => exact ⟨0x2D, _, rfl, rfl⟩
  | false =>
    obtain ⟨d, tail, htail⟩ := List.exists_cons_of_ne_nil (decimal_ne_nil n)
    have hd : isDigit d = true :=
      isDigit_of_mem_decimal (n := n) (by rw [htail]; exact List.mem_cons_self)
    refine ⟨d, tail ++ 0x2E :: ds, ?_, by rw [beginsNumber, hd, Bool.true_or]⟩
    show decimal n ++ 0x2E :: ds = _
    rw [htail, List.cons_append]

/-- Nothing else begins like a number. -/
theorem readValue_number {b : UInt8} (hb : beginsNumber b = true) (n : Nat) (rest : Bytes) :
    readValue (n + 1) (b :: rest) = (readNumber (b :: rest)).map fun p => (.number p.1, p.2) := by
  have hcases : ∀ c : UInt8, beginsNumber c = true →
      isWs c = false ∧ c ≠ 0x7B ∧ c ≠ 0x5B ∧ c ≠ 0x22 ∧ c ≠ 0x6E ∧ c ≠ 0x74 ∧ c ≠ 0x66 :=
    forall_byte (by decide +kernel)
  obtain ⟨hws, hbrace, hbracket, hquote, hnull, htrue, hfalse⟩ := hcases b hb
  -- None of the three words starts with the byte, so the scalar is read as a number.
  have hword (c : UInt8) (hne : b ≠ c) (word : Bytes) (v : Json) :
      readWord (c :: word) v (b :: rest) = none := by
    rw [readWord, List.isPrefixOf, beq_false_of_ne (Ne.symm hne), Bool.false_and]
    rfl
  have hscalar : readScalar (b :: rest)
      = (readNumber (b :: rest)).map fun p => (.number p.1, p.2) := by
    rw [readScalar, show bytes "null" = 0x6E :: bytes "ull" from rfl,
      show bytes "true" = 0x74 :: bytes "rue" from rfl,
      show bytes "false" = 0x66 :: bytes "alse" from rfl, hword _ hnull, hword _ htrue,
      hword _ hfalse]
    rfl
  rw [readValue, skipWs_cons hws]
  split
  · rename_i heq
    exact absurd (List.cons.inj heq).1 hbrace
  · rename_i heq
    exact absurd (List.cons.inj heq).1 hbracket
  · rename_i heq
    exact absurd (List.cons.inj heq).1 hquote
  · exact hscalar

/-- So it is read as a value. -/
theorem readsValue_fixed (neg : Bool) (n : Nat) {ds : Bytes} (hne : ds ≠ [])
    (hds : ∀ d ∈ ds, isDigit d = true) :
    ReadsValue (fixedText neg n ds) (.number (fixedText neg n ds)) := by
  intro m rest hm hrest
  cases m with
  | zero => exact absurd hm (by simp)
  | succ m =>
    have hread := readNumber_fixed neg n hne hds hrest
    obtain ⟨b, tail, htext, hb⟩ := fixedText_cons neg n ds
    rw [htext] at hread ⊢
    rw [List.cons_append, readValue_number hb, ← List.cons_append, hread, Option.map_some]

/-! ### Blanks, items and members

Blanks may stand on both sides of every comma and every bracket. The rules for items and members
take those behind a value, and those in front of it are skipped. -/

/-- Blanks in front of a value do not matter. -/
theorem ReadsValue.blanks {v : Json} (h : ReadsValue text v) (hws : ∀ b ∈ ws, isWs b = true) :
    ReadsValue (ws ++ text) v := by
  intro n rest hn hrest
  cases n with
  | zero => exact absurd hn (by simp)
  | succ n =>
    have hlength : text.length < n + 1 := by
      rw [List.length_append] at hn
      omega
    have hread := h (n + 1) rest hlength hrest
    rw [readValue] at hread
    rw [List.append_assoc, readValue, skipWs_append hws]
    exact hread

/-- What a bracket, a brace or a comma is followed by. -/
theorem stops_blanks (hws : ∀ b ∈ ws, isWs b = true) {b : UInt8} (hb : isNumberByte b = false)
    (rest : Bytes) : Stops (ws ++ b :: rest) := by
  have hblank : ∀ c : UInt8, isWs c = true → isNumberByte c = false :=
    forall_byte (by decide +kernel)
  cases ws with
  | nil => exact stops_cons hb rest
  | cons c ws => exact stops_cons (hblank c (hws c List.mem_cons_self)) _

/-- The last item. -/
theorem ReadsValue.lastItem {v : Json} (h : ReadsValue text v) (hws : ∀ b ∈ ws, isWs b = true) :
    ReadsItems (text ++ ws ++ [0x5D]) [v] := by
  intro n rest hn
  cases n with
  | zero => exact absurd hn (by simp)
  | succ n =>
    have hread := h n (ws ++ 0x5D :: rest)
      (by simp only [List.length_append, List.length_cons] at hn; omega)
      (stops_blanks hws (by decide) rest)
    rw [List.append_assoc, List.append_assoc, List.singleton_append, readItems, hread]
    simp only [Option.bind_some, skipWs_to hws (b := 0x5D) (by decide)]

/-- An item with a comma goes in front of the items behind it. -/
theorem ReadsValue.item {v : Json} {items : Bytes} {vs : List Json} (h : ReadsValue text v)
    (hws : ∀ b ∈ ws, isWs b = true) (hitems : ReadsItems items vs) :
    ReadsItems (text ++ ws ++ 0x2C :: items) (v :: vs) := by
  intro n rest hn
  cases n with
  | zero => exact absurd hn (by simp)
  | succ n =>
    simp only [List.length_append, List.length_cons] at hn
    have hread := h n (ws ++ 0x2C :: (items ++ rest)) (by omega) (stops_blanks hws (by decide) _)
    have hrest := hitems n rest (by omega)
    rw [List.append_assoc, List.append_assoc, List.cons_append, readItems, hread]
    simp only [Option.bind_some, skipWs_to hws (b := 0x2C) (by decide), hrest, Option.map_some]

/-- A member up to its value. -/
theorem readMembers_step {name quoted value : Bytes} {v : Json} (hname : ReadsChars quoted name)
    (hvalue : ReadsValue value v) (hws : ∀ b ∈ ws, isWs b = true) {n : Nat} {rest : Bytes}
    (hn : quoted.length + value.length + 1 < n) (hrest : Stops rest) :
    readMembers (n + 1) (ws ++ 0x22 :: quoted ++ 0x3A :: value ++ rest)
      = match skipWs rest with
        | 0x2C :: rest => (readMembers n rest).map fun vs => ((name, v) :: vs.1, vs.2)
        | 0x7D :: rest => some ([(name, v)], rest)
        | _            => none := by
  have hquoted := hname n (0x3A :: (value ++ rest)) (by omega)
  have hread := hvalue n rest (by omega) hrest
  have hassoc : ws ++ 0x22 :: quoted ++ 0x3A :: value ++ rest
      = ws ++ 0x22 :: (quoted ++ 0x3A :: (value ++ rest)) := by
    simp only [List.append_assoc, List.cons_append]
  rw [hassoc, readMembers, skipWs_to hws (by decide)]
  simp only [hquoted, Option.bind_some, skipWs_cons (b := 0x3A) (by decide), hread]

/-- The last member of an object, with the closing brace. -/
theorem readsMembers_last {name quoted value after : Bytes} {v : Json}
    (hname : ReadsChars quoted name) (hvalue : ReadsValue value v) (hws : ∀ b ∈ ws, isWs b = true)
    (hafter : ∀ b ∈ after, isWs b = true) :
    ReadsMembers (ws ++ 0x22 :: quoted ++ 0x3A :: value ++ after ++ [0x7D]) [(name, v)] := by
  intro n rest hn
  cases n with
  | zero => exact absurd hn (by simp)
  | succ n =>
    simp only [List.length_append, List.length_cons, List.length_nil] at hn
    have hassoc : ws ++ 0x22 :: quoted ++ 0x3A :: value ++ after ++ [0x7D] ++ rest
        = ws ++ 0x22 :: quoted ++ 0x3A :: value ++ (after ++ 0x7D :: rest) := by
      simp only [List.append_assoc, List.cons_append, List.nil_append]
    rw [hassoc, readMembers_step hname hvalue hws (by omega) (stops_blanks hafter (by decide) rest)]
    simp only [skipWs_to hafter (b := 0x7D) (by decide)]

/-- A member with a comma goes in front of the members behind it. -/
theorem readsMembers_cons {name quoted value after members : Bytes} {v : Json}
    {vs : List (Bytes × Json)} (hname : ReadsChars quoted name) (hvalue : ReadsValue value v)
    (hws : ∀ b ∈ ws, isWs b = true) (hafter : ∀ b ∈ after, isWs b = true)
    (hmembers : ReadsMembers members vs) :
    ReadsMembers (ws ++ 0x22 :: quoted ++ 0x3A :: value ++ after ++ 0x2C :: members)
      ((name, v) :: vs) := by
  intro n rest hn
  cases n with
  | zero => exact absurd hn (by simp)
  | succ n =>
    simp only [List.length_append, List.length_cons] at hn
    have hrest := hmembers n rest (by omega)
    have hassoc : ws ++ 0x22 :: quoted ++ 0x3A :: value ++ after ++ 0x2C :: members ++ rest
        = ws ++ 0x22 :: quoted ++ 0x3A :: value ++ (after ++ 0x2C :: (members ++ rest)) := by
      simp only [List.append_assoc, List.cons_append]
    rw [hassoc, readMembers_step hname hvalue hws (by omega) (stops_blanks hafter (by decide) _)]
    simp only [skipWs_to hafter (b := 0x2C) (by decide), hrest, Option.map_some]

/-- Blanks before the first item. -/
theorem ReadsItems.blanks {items : Bytes} {vs : List Json} (h : ReadsItems items vs)
    (hws : ∀ b ∈ ws, isWs b = true) : ReadsItems (ws ++ items) vs := by
  intro n rest hn
  cases n with
  | zero => exact absurd hn (by simp)
  | succ n =>
    have hread := h (n + 1) rest (by rw [List.length_append] at hn; omega)
    have hvalue : readValue n (ws ++ (items ++ rest)) = readValue n (items ++ rest) := by
      cases n with
      | zero => rfl
      | succ n => rw [readValue, readValue, skipWs_append hws]
    rw [readItems] at hread
    rw [List.append_assoc, readItems, hvalue]
    exact hread

/-! ### Nested values

An array or an object is read by one step more than its contents. A whole text is a value with
nothing but blanks around it. -/

/-- Only `]` stands for no items. -/
theorem ReadsItems.not_closed {items : Bytes} {vs : List Json} (h : ReadsItems items vs)
    (rest : Bytes) : (skipWs (items ++ rest)).head? ≠ some 0x5D := by
  intro hclose
  obtain ⟨tail, htail⟩ : ∃ tail, skipWs (items ++ rest) = 0x5D :: tail := by
    cases hskip : skipWs (items ++ rest) with
    | nil =>
      rw [hskip] at hclose
      exact absurd hclose nofun
    | cons b tail =>
      rw [hskip] at hclose
      exact ⟨tail, by rw [Option.some.inj hclose]⟩
  have hread := h (items.length + 2) rest (by omega)
  rw [readItems, readValue, htail] at hread
  exact absurd hread nofun

/-- The items of an array between brackets are read as the array. -/
theorem ReadsItems.array {items : Bytes} {vs : List Json} (h : ReadsItems items vs) :
    ReadsValue (0x5B :: items) (.array vs) := by
  intro n rest hn _
  cases n with
  | zero => exact absurd hn (by simp)
  | succ n =>
    have hread := h n rest (by simp only [List.length_cons] at hn; omega)
    rw [List.cons_append, readValue, skipWs_cons (by decide)]
    simp only [h.not_closed rest, if_false, hread, Option.map_some]

/-- An array may be empty but for blanks. -/
theorem readsValue_emptyArray (hws : ∀ b ∈ ws, isWs b = true) :
    ReadsValue (0x5B :: ws ++ [0x5D]) (.array []) := by
  intro n rest hn _
  cases n with
  | zero => exact absurd hn (by simp)
  | succ n =>
    rw [List.cons_append, List.cons_append, List.append_assoc, List.singleton_append, readValue,
      skipWs_cons (by decide)]
    simp only [skipWs_to hws (b := 0x5D) (by decide), List.head?_cons, if_true, List.tail_cons]

/-- The members of an object between braces are read as the object. -/
theorem ReadsMembers.object {members : Bytes} {vs : List (Bytes × Json)}
    (h : ReadsMembers members vs) : ReadsValue (0x7B :: members) (.object vs) := by
  intro n rest hn _
  cases n with
  | zero => exact absurd hn (by simp)
  | succ n =>
    have hread := h n rest (by simp only [List.length_cons] at hn; omega)
    -- Members that are read begin with a quote and not with the closing brace.
    have hopen : (skipWs (members ++ rest)).head? ≠ some 0x7D := by
      intro hclose
      cases hskip : skipWs (members ++ rest) with
      | nil =>
        rw [hskip] at hclose
        exact absurd hclose nofun
      | cons b tail =>
        rw [hskip] at hclose
        have hnone := h (members.length + 1) rest (Nat.lt_succ_self _)
        rw [readMembers, hskip, Option.some.inj hclose] at hnone
        exact absurd hnone nofun
    rw [List.cons_append, readValue, skipWs_cons (by decide)]
    simp only [hopen, if_false, hread, Option.map_some]

/-- A whole text is a value with blanks behind it. -/
theorem ReadsValue.parse {v : Json} (h : ReadsValue text v) (hws : ∀ b ∈ ws, isWs b = true) :
    Json.parse (text ++ ws) = some v := by
  have hstops : Stops ws := by
    have hblank : ∀ c : UInt8, isWs c = true → isNumberByte c = false :=
      forall_byte (by decide +kernel)
    cases ws with
    | nil => exact stops_nil
    | cons c ws => exact stops_cons (hblank c (hws c List.mem_cons_self)) _
  have hread := h ((text ++ ws).length + 1) ws (by rw [List.length_append]; omega) hstops
  have hskip : skipWs ws = [] := by
    rw [← List.append_nil ws, skipWs_append hws]
    rfl
  rw [Json.parse, hread, Option.bind_some, if_pos hskip]

end

end Json

end AiMidi.Lib
