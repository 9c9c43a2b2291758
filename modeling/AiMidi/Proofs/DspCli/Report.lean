import AiMidi.Ace.AudioAssisted
import AiMidi.Dsp.ExactFloat
import AiMidi.Tools.DspAnalysis

/-!
# `AiMidi.Proofs.DspCli.Report`: the report is read back

`dsp_cli` writes its report with `fprintf`, and the workflow reads it with `encoding/json`. Every
report with finite numbers is JSON, and what is read is what was analysed: the names as they are,
and each number as the nearest number to the decimal that was printed (`unmarshal_report`).

The rules of `AiMidi.Lib.Json` do the parsing. The text of the writer is cut into blanks, quoted
names and values (`report_eq`), and `parse_report` puts the rules together from the last member to
the first. What the workflow makes of a member depends on the printed decimal alone: a number in the
range of `float` is printed as a decimal that is read back (`parseFloat_printFixed`).
-/

set_option autoImplicit false

namespace AiMidi.Proofs.DspCli

open AiMidi.Lib AiMidi.Lib.Json AiMidi.Dsp
open AiMidi.Ace AiMidi.Tools.DspCli

/-! ### Strings

The writer escapes quotes, the backslash and some of the controls. For the characters of a name this
is what the reader undoes. -/

/-- The characters that a string may have: ASCII, and of the controls those with an escape. -/
def Plain (s : Bytes) : Prop :=
  ∀ b ∈ s, b < 0x80 ∧ (0x20 ≤ b ∨ b = 0x0A ∨ b = 0x0D ∨ b = 0x09)

/-- Whether a name can be spelled is decided byte by byte. -/
instance (s : Bytes) : Decidable (Plain s) :=
  List.decidableBAll (fun b : UInt8 => b < 0x80 ∧ (0x20 ≤ b ∨ b = 0x0A ∨ b = 0x0D ∨ b = 0x09)) s

/-- A character is read back. -/
theorem readsChars_jsonChar {b : UInt8}
    (hb : b < 0x80 ∧ (0x20 ≤ b ∨ b = 0x0A ∨ b = 0x0D ∨ b = 0x09)) {text s : Bytes}
    (h : ReadsChars text s) : ReadsChars (jsonChar b ++ text) (b :: s) := by
  unfold jsonChar
  -- The five escapes of the writer, then the bytes that stand for themselves.
  split
  · rename_i heq
    subst heq
    exact h.escape (c := 0x22) (by decide) rfl
  · rename_i hquote
    split
    · rename_i heq
      subst heq
      exact h.escape (c := 0x5C) (by decide) rfl
    · rename_i hslash
      split
      · rename_i heq
        subst heq
        exact h.escape (c := 0x6E) (by decide) rfl
      · rename_i hnewline
        split
        · rename_i heq
          subst heq
          exact h.escape (c := 0x72) (by decide) rfl
        · rename_i hreturn
          split
          · rename_i heq
            subst heq
            exact h.escape (c := 0x74) (by decide) rfl
          · rename_i htab
            -- What is left of the allowed bytes is printable.
            have hprintable : 0x20 ≤ b := by
              rcases hb.2 with hlow | hlow | hlow | hlow
              · exact hlow
              · exact absurd hlow hnewline
              · exact absurd hlow hreturn
              · exact absurd hlow htab
            exact h.plain hprintable hb.1 hquote hslash

/-- The characters that are written for a name are read as the name. -/
theorem readsChars_writeJsonString {s : Bytes} (h : Plain s) :
    ReadsChars (s.flatMap jsonChar ++ [0x22]) s := by
  induction s with
  | nil => exact readsChars_quote
  | cons b s ih =>
    rw [List.flatMap_cons, List.append_assoc]
    exact readsChars_jsonChar (h b List.mem_cons_self)
      (ih fun c hc => h c (List.mem_cons_of_mem b hc))

/-- And so is the whole string. -/
theorem readsValue_writeJsonString {s : Bytes} (h : Plain s) :
    ReadsValue (writeJsonString s) (.string s) :=
  (readsChars_writeJsonString h).value

/-! ### Numbers

The writer prints a fixed number of decimals. The reader rounds the decimal that it finds, so it is
the printed text that decides what is read. -/

/-- The decimal that is printed for a number. -/
def printed (d : ℕ) (x : ℚ) : ℚ :=
  signed (decide (x < 0)) ((roundHalfEven (|x| * 10 ^ d)).toNat / 10 ^ d)

section

variable {F N : Type} [IeeeFloat F] [IeeeFloat N] [FloatParse N] [IeeeParse N]

/-- A number in the range of `float`. -/
def Finite (a : F) : Prop := ∃ x, IeeeFloat.value a = some x ∧ |x| ≤ 2 ^ 128

/-- `n` is what is read of `a`, printed with `d` digits behind the point. -/
def ReadAs (d : ℕ) (a : F) (n : N) : Prop :=
  ∃ x, IeeeFloat.value a = some x ∧
    IeeeFloat.value n = some (IeeeFloat.nearest N (printed d x))

/-- With decimals there are digits. -/
theorem fixedDigits_ne_nil {d : ℕ} (hd : 0 < d) (k : ℕ) : fixedDigits d k ≠ [] := by
  intro hnil
  have hlength := length_fixedDigits d k
  rw [hnil] at hlength
  exact absurd hlength (Nat.ne_of_lt hd)

/-- The text of a number is JSON. -/
theorem readsValue_printFixed {d : ℕ} (hd : 0 < d) {a : F} (h : Finite a) :
    ReadsValue (FloatText.printFixed d a) (.number (FloatText.printFixed d a)) := by
  obtain ⟨x, hx, -⟩ := h
  obtain ⟨neg, -, -, hprint⟩ := IeeeFloat.printFixed_eq hx d
  rw [hprint, fixedPoint_eq_fixedText hd]
  exact readsValue_fixed neg _ (fixedDigits_ne_nil hd _) fun b hb => isDigit_of_mem_fixedDigits hb

/-- Of a number in the range of `float`, the digits before the point are in it as well. -/
theorem whole_le {x : ℚ} (h : |x| ≤ 2 ^ 128) (d : ℕ) :
    (roundHalfEven (|x| * 10 ^ d)).toNat / 10 ^ d ≤ 2 ^ 128 := by
  have hpos : ((0 : ℤ) : ℚ) ≤ |x| * 10 ^ d := by
    push_cast
    positivity
  have hle : |x| * 10 ^ d ≤ ((2 ^ 128 * 10 ^ d : ℤ) : ℚ) := by
    push_cast
    exact mul_le_mul_of_nonneg_right h (by positivity)
  have hround := (roundHalfEven_mem hpos hle).2
  have hnat : (roundHalfEven (|x| * 10 ^ d)).toNat ≤ 2 ^ 128 * 10 ^ d := by
    rw [Int.toNat_le]
    exact_mod_cast hround
  exact Nat.div_le_of_le_mul (by rw [Nat.mul_comm]; exact hnat)

/-- A finite number that was printed is read as that decimal. -/
theorem parseFloat_printFixed {d : ℕ} (hd : 0 < d) {a : F} (h : Finite a) :
    ∃ n : N, FloatParse.parseFloat (FloatText.printFixed d a) = some n ∧ ReadAs d a n := by
  obtain ⟨x, hx, hrange⟩ := h
  obtain ⟨neg, hneg, hpos, hprint⟩ := IeeeFloat.printFixed_eq hx d
  obtain ⟨n, hparse, hvalue⟩ := IeeeParse.parse_fixed (F := N) neg _ _ (fixedDigits_ne_nil hd _)
    (fun b hb => isDigit_of_mem_fixedDigits hb) (whole_le hrange d)
  rw [hprint, fixedPoint_eq_fixedText hd]
  refine ⟨n, hparse, x, hx, ?_⟩
  rw [hvalue, digitsValue_fixed, length_fixedDigits, printed]
  -- A zero has no sign as a number.
  rcases lt_trichotomy x 0 with hlt | hzero | hgt
  · rw [hneg hlt, decide_eq_true hlt]
  · subst hzero
    have hround : roundHalfEven (|(0 : ℚ)| * 10 ^ d) = 0 := by
      rw [abs_zero, zero_mul]
      decide +kernel
    rw [hround]
    simp [signed]
  · rw [hpos hgt, decide_eq_false (not_lt.mpr hgt.le)]

end

/-! ### Arrays

The items are separated by a comma and blanks. The induction is on the items, from the last one to
the first. -/

/-- Blanks are recognised one by one. -/
theorem isWs_of_all {ws : Bytes} (h : ws.all isWs = true) : ∀ b ∈ ws, isWs b = true :=
  List.all_eq_true.mp h

/-- No blanks at all are blanks too. -/
theorem isWs_nil : ∀ b ∈ ([] : Bytes), isWs b = true := fun _ hb => absurd hb List.not_mem_nil

section

variable {α : Type} {write : α → Bytes} {toJson : α → Json} {ws after : Bytes}

/-- The items behind the opening bracket. -/
theorem readsItems_separated (hws : ∀ b ∈ ws, isWs b = true) (hafter : ∀ b ∈ after, isWs b = true)
    (x : α) (xs : List α) (h : ∀ y ∈ x :: xs, ReadsValue (write y) (toJson y)) :
    ReadsItems (separated (0x2C :: ws) ((x :: xs).map write) ++ after ++ [0x5D])
      ((x :: xs).map toJson) := by
  induction xs generalizing x with
  | nil =>
    have hlast := (h x List.mem_cons_self).lastItem hafter
    simp only [separated, List.map_cons, List.map_nil, List.flatMap_nil, List.append_nil]
    exact hlast
  | cons y ys ih =>
    have hitems := ih y fun z hz => h z (List.mem_cons_of_mem x hz)
    -- The blanks behind a comma are those before the next item.
    have hblanks : ReadsItems
        (ws ++ (separated (0x2C :: ws) ((y :: ys).map write) ++ after ++ [0x5D]))
        ((y :: ys).map toJson) := hitems.blanks hws
    have hitem := (h x List.mem_cons_self).item isWs_nil hblanks
    simp only [separated, List.map_cons, List.flatMap_cons, List.append_assoc, List.cons_append,
      List.nil_append] at hitem ⊢
    exact hitem

/-- Written values with commas and blanks between them are read as an array. -/
theorem readsValue_separated (hws : ∀ b ∈ ws, isWs b = true) {before : Bytes}
    (hbefore : ∀ b ∈ before, isWs b = true) (hafter : ∀ b ∈ after, isWs b = true) (xs : List α)
    (h : ∀ y ∈ xs, ReadsValue (write y) (toJson y)) :
    ReadsValue (0x5B :: (before ++ (separated (0x2C :: ws) (xs.map write) ++ after ++ [0x5D])))
      (.array (xs.map toJson)) := by
  cases xs with
  | nil =>
    have hblank : ∀ b ∈ before ++ after, isWs b = true := fun b hb =>
      (List.mem_append.mp hb).elim (hbefore b) (hafter b)
    have hempty := readsValue_emptyArray hblank
    simp only [List.map_nil, separated, List.nil_append, ← List.append_assoc]
    exact hempty
  | cons x xs => exact ((readsItems_separated hws hafter x xs h).blanks hbefore).array

end

/-! ### Members

The names of the members are constants without escapes. A member in front of others is read first,
and the rest is read behind its comma. -/

/-- A name between its quotes. -/
def quoted (name : Bytes) : Bytes := name ++ [0x22]

/-- A name that is written as it is. -/
structure PlainName (name : Bytes) : Prop where
  plain : Plain name
  unescaped : name.flatMap jsonChar = name

/-- A name without escapes between quotes is read as it is. -/
theorem PlainName.reads {name : Bytes} (h : PlainName name) : ReadsChars (quoted name) name := by
  have hread := readsChars_writeJsonString h.plain
  rwa [h.unescaped] at hread

/-- A member behind its blanks, up to its value. -/
def memberText (ws name value : Bytes) : Bytes :=
  ws ++ 0x22 :: quoted name ++ 0x3A :: ([0x20] ++ value)

/-- A name that is written as it is. -/
theorem plainName (name : Bytes) (h : Plain name ∧ name.flatMap jsonChar = name) : PlainName name :=
  ⟨h.1, h.2⟩

/-- A space is a blank. -/
theorem isWs_space : ∀ b ∈ ([0x20] : Bytes), isWs b = true := isWs_of_all rfl

/-- A member that is written in front of others is read in front of them. -/
theorem readsMembers_memberText {ws name value members : Bytes} {v : Json}
    {vs : List (Bytes × Json)} (h : ReadsMembers members vs) (hname : PlainName name)
    (hvalue : ReadsValue value v) (hws : ∀ b ∈ ws, isWs b = true) :
    ReadsMembers (memberText ws name value ++ 0x2C :: members) ((name, v) :: vs) := by
  have hmembers := readsMembers_cons hname.reads (hvalue.blanks isWs_space) hws isWs_nil h
  rwa [List.append_nil] at hmembers

section

variable {F : Type} [IeeeFloat F]

/-- What the parser makes of a chord. -/
def chordJson (c : ChordResult F) : Json :=
  .object [(bytes "chord", .string c.chord),
    (bytes "time_sec", .number (FloatText.printFixed 3 c.timeSec)),
    (bytes "confidence", .number (FloatText.printFixed 3 c.confidence))]

/-- The text of a chord, in the shape of the members above. -/
theorem writeChord_eq (c : ChordResult F) :
    writeChord c = [0x20, 0x20, 0x20, 0x20] ++ 0x7B ::
      (memberText [] (bytes "chord") (writeJsonString c.chord) ++ 0x2C ::
        (memberText [0x20] (bytes "time_sec") (FloatText.printFixed 3 c.timeSec) ++ 0x2C ::
          (memberText [0x20] (bytes "confidence") (FloatText.printFixed 3 c.confidence)
            ++ [] ++ [0x7D]))) := by
  have hopen : bytes "    \x7b\"chord\": "
      = [0x20, 0x20, 0x20, 0x20, 0x7B, 0x22] ++ (quoted (bytes "chord") ++ [0x3A, 0x20]) := rfl
  have htime : bytes ", \"time_sec\": "
      = [0x2C, 0x20, 0x22] ++ (quoted (bytes "time_sec") ++ [0x3A, 0x20]) := rfl
  have hconfidence : bytes ", \"confidence\": "
      = [0x2C, 0x20, 0x22] ++ (quoted (bytes "confidence") ++ [0x3A, 0x20]) := rfl
  have hclose : bytes "\x7d" = [0x7D] := rfl
  simp only [writeChord, memberText, hopen, htime, hconfidence, hclose, List.append_assoc,
    List.cons_append, List.nil_append]

/-- A report of finite numbers, with names that need no other escapes. -/
structure Reportable (a : AudioAnalysis F) : Prop where
  bpm : Finite a.bpm
  key : Plain a.key.key
  scale : Plain a.key.scale
  confidence : Finite a.key.confidence
  chords : ∀ c ∈ a.chords, Plain c.chord ∧ Finite c.timeSec ∧ Finite c.confidence
  onsets : ∀ t ∈ a.onsets, Finite t
  durationSec : Finite a.durationSec

/-- It is read as the object of the chord. -/
theorem readsValue_writeChord {c : ChordResult F} (hchord : Plain c.chord)
    (htime : Finite c.timeSec) (hconfidence : Finite c.confidence) :
    ReadsValue (writeChord c) (chordJson c) := by
  have hlast := readsMembers_last (plainName (bytes "confidence") (by decide)).reads
    ((readsValue_printFixed (show 0 < 3 by decide) hconfidence).blanks isWs_space) isWs_space
    isWs_nil
  have htimes := readsMembers_memberText hlast (plainName (bytes "time_sec") (by decide))
    (readsValue_printFixed (show 0 < 3 by decide) htime) isWs_space
  have hchords := readsMembers_memberText htimes (plainName (bytes "chord") (by decide))
    (readsValue_writeJsonString hchord) isWs_nil
  rw [writeChord_eq]
  exact hchords.object.blanks (isWs_of_all rfl)

/-! ### The whole report

The text of the report is written out once in the shape of the rules. From there on it is never
looked at again. -/

/-- The members that the parser finds. -/
def reportMembers (a : AudioAnalysis F) : List (Bytes × Json) :=
  [(bytes "bpm", .number (FloatText.printFixed 1 a.bpm)),
   (bytes "key", .string a.key.key),
   (bytes "scale", .string a.key.scale),
   (bytes "confidence", .number (FloatText.printFixed 4 a.key.confidence)),
   (bytes "chords", .array (a.chords.map chordJson)),
   (bytes "onsets", .array (a.onsets.map fun t => .number (FloatText.printFixed 3 t))),
   (bytes "duration_sec", .number (FloatText.printFixed 3 a.durationSec))]

/-- The blanks before a member. -/
def newline : Bytes := [0x0A, 0x20, 0x20]

/-- The line break and the indentation of a member. -/
theorem isWs_newline : ∀ b ∈ newline, isWs b = true := isWs_of_all rfl

/-- The chords between their brackets. -/
def chordsText (chords : List (ChordResult F)) : Bytes :=
  0x5B :: ([0x0A] ++ (separated (0x2C :: [0x0A]) (chords.map writeChord) ++ newline ++ [0x5D]))

/-- The text of the report, in the same shape. -/
theorem report_eq (a : AudioAnalysis F) :
    report a = 0x7B ::
      (memberText newline (bytes "bpm") (FloatText.printFixed 1 a.bpm) ++ 0x2C ::
      (memberText newline (bytes "key") (writeJsonString a.key.key) ++ 0x2C ::
      (memberText newline (bytes "scale") (writeJsonString a.key.scale) ++ 0x2C ::
      (memberText newline (bytes "confidence") (FloatText.printFixed 4 a.key.confidence) ++ 0x2C ::
      (memberText newline (bytes "chords") (chordsText a.chords) ++ 0x2C ::
      (memberText newline (bytes "onsets") (writeJsonArray a.onsets) ++ 0x2C ::
      (memberText newline (bytes "duration_sec") (FloatText.printFixed 3 a.durationSec)
        ++ [0x0A] ++ [0x7D]))))))) ++ [0x0A] := by
  -- The texts of the writer, cut into blanks, the quoted name and the colon.
  have hopen : bytes "\x7b\n" = [0x7B, 0x0A] := rfl
  have hbpm : bytes "  \"bpm\": "
      = [0x20, 0x20, 0x22] ++ (quoted (bytes "bpm") ++ [0x3A, 0x20]) := rfl
  have hcomma : bytes ",\n" = [0x2C, 0x0A] := rfl
  have hkey : bytes "  \"key\": "
      = [0x20, 0x20, 0x22] ++ (quoted (bytes "key") ++ [0x3A, 0x20]) := rfl
  have hscale : bytes ",\n  \"scale\": "
      = [0x2C, 0x0A, 0x20, 0x20, 0x22] ++ (quoted (bytes "scale") ++ [0x3A, 0x20]) := rfl
  have hconfidence : bytes ",\n  \"confidence\": "
      = [0x2C, 0x0A, 0x20, 0x20, 0x22] ++ (quoted (bytes "confidence") ++ [0x3A, 0x20]) := rfl
  have hchords : bytes "  \"chords\": [\n"
      = [0x20, 0x20, 0x22] ++ (quoted (bytes "chords") ++ [0x3A, 0x20, 0x5B, 0x0A]) := rfl
  have hchordsEnd : bytes "\n  ],\n" = [0x0A, 0x20, 0x20, 0x5D, 0x2C, 0x0A] := rfl
  have honsets : bytes "  \"onsets\": "
      = [0x20, 0x20, 0x22] ++ (quoted (bytes "onsets") ++ [0x3A, 0x20]) := rfl
  have hduration : bytes ",\n  \"duration_sec\": "
      = [0x2C, 0x0A, 0x20, 0x20, 0x22] ++ (quoted (bytes "duration_sec") ++ [0x3A, 0x20]) := rfl
  have hend : bytes "\n" = [0x0A] := rfl
  have hclose : bytes "\x7d\n" = [0x7D, 0x0A] := rfl
  simp only [report, writeChordsJson, chordsText, memberText, newline, hopen, hbpm, hcomma, hkey,
    hscale, hconfidence, hchords, hchordsEnd, honsets, hduration, hend, hclose, List.append_assoc,
    List.cons_append, List.nil_append]

/-- The report is JSON. -/
theorem parse_report {a : AudioAnalysis F} (h : Reportable a) :
    Json.parse (report a) = some (.object (reportMembers a)) := by
  have hlast := readsMembers_last (plainName (bytes "duration_sec") (by decide)).reads
    ((readsValue_printFixed (show 0 < 3 by decide) h.durationSec).blanks isWs_space) isWs_newline
    (show ∀ b ∈ ([0x0A] : Bytes), isWs b = true from isWs_of_all rfl)
  have htimes : ReadsValue (writeJsonArray a.onsets)
      (.array (a.onsets.map fun t => .number (FloatText.printFixed 3 t))) := by
    have harray := readsValue_separated isWs_nil isWs_nil isWs_nil a.onsets fun t ht =>
      readsValue_printFixed (show 0 < 3 by decide) (h.onsets t ht)
    rwa [List.nil_append, List.append_nil] at harray
  have hchords : ReadsValue (chordsText a.chords) (.array (a.chords.map chordJson)) :=
    readsValue_separated (isWs_of_all rfl) (isWs_of_all rfl) isWs_newline a.chords fun c hc =>
      readsValue_writeChord (h.chords c hc).1 (h.chords c hc).2.1 (h.chords c hc).2.2
  -- The members are read from the last one back, as each is followed by those behind it.
  have h6 := readsMembers_memberText hlast (plainName (bytes "onsets") (by decide)) htimes
    isWs_newline
  have h5 := readsMembers_memberText h6 (plainName (bytes "chords") (by decide)) hchords
    isWs_newline
  have h4 := readsMembers_memberText h5 (plainName (bytes "confidence") (by decide))
    (readsValue_printFixed (show 0 < 4 by decide) h.confidence) isWs_newline
  have h3 := readsMembers_memberText h4 (plainName (bytes "scale") (by decide))
    (readsValue_writeJsonString h.scale) isWs_newline
  have h2 := readsMembers_memberText h3 (plainName (bytes "key") (by decide))
    (readsValue_writeJsonString h.key) isWs_newline
  have h1 := readsMembers_memberText h2 (plainName (bytes "bpm") (by decide))
    (readsValue_printFixed (show 0 < 1 by decide) h.bpm) isWs_newline
  rw [report_eq]
  exact h1.object.parse (isWs_of_all rfl)

end

/-! ### What the workflow reads

The members are looked up by their names, and each has the type that the workflow expects of it. -/

section

variable {F N : Type} [IeeeFloat F] [IeeeFloat N] [FloatParse N] [IeeeParse N]

/-- A chord as it is read. -/
structure ChordReadAs (c : ChordResult F) (r : DetectedChord N) : Prop where
  chord : r.chord = c.chord
  timeSec : ReadAs 3 c.timeSec r.timeSec
  confidence : ReadAs 3 c.confidence r.confidence

/-- The analysis as it is read. -/
structure ReadBack (a : AudioAnalysis F) (r : AudioAnalysisResult N) : Prop where
  bpm : ReadAs 1 a.bpm r.bpm
  key : r.key = a.key.key
  scale : r.scale = a.key.scale
  confidence : ReadAs 4 a.key.confidence r.confidence
  chords : List.Forall₂ ChordReadAs a.chords r.chords
  onsets : List.Forall₂ (ReadAs 3) a.onsets r.onsets
  durationSec : ReadAs 3 a.durationSec r.durationSec

/-- Every entry is read, and so is the list. -/
theorem exists_mapM {α β γ : Type} {toJson : α → β} {read : β → Option γ} {R : α → γ → Prop}
    {xs : List α} (h : ∀ x ∈ xs, ∃ y, read (toJson x) = some y ∧ R x y) :
    ∃ ys, (xs.map toJson).mapM read = some ys ∧ List.Forall₂ R xs ys := by
  induction xs with
  | nil => exact ⟨[], rfl, .nil⟩
  | cons x xs ih =>
    obtain ⟨y, hy, hxy⟩ := h x List.mem_cons_self
    obtain ⟨ys, hys, hrest⟩ := ih fun z hz => h z (List.mem_cons_of_mem x hz)
    refine ⟨y :: ys, ?_, .cons hxy hrest⟩
    rw [List.map_cons, List.mapM_cons, hy, hys]
    rfl

/-- The object of a chord is read into a chord of the same name, with numbers read as they were
printed. -/
theorem read_chordJson {c : ChordResult F} (htime : Finite c.timeSec)
    (hconfidence : Finite c.confidence) :
    ∃ r : DetectedChord N, DetectedChord.read (chordJson c) = some r ∧ ChordReadAs c r := by
  obtain ⟨time, hparseTime, htimeAs⟩ := parseFloat_printFixed (N := N) (show 0 < 3 by decide) htime
  obtain ⟨confidence, hparseConfidence, hconfidenceAs⟩ :=
    parseFloat_printFixed (N := N) (show 0 < 3 by decide) hconfidence
  refine ⟨⟨c.chord, time, confidence⟩, ?_, rfl, htimeAs, hconfidenceAs⟩
  simp only [DetectedChord.read, chordJson, List.foldlM_cons, List.foldlM_nil,
    DetectedChord.setField_chord, DetectedChord.setField_timeSec, DetectedChord.setField_confidence,
    hparseTime, hparseConfidence, Option.map_some, Option.bind_eq_bind, Option.bind_some]
  rfl

/-- Every report of finite numbers is read back. -/
theorem unmarshal_report {a : AudioAnalysis F} (h : Reportable a) :
    ∃ r : AudioAnalysisResult N,
      AudioAnalysisResult.unmarshal (report a) = some r ∧ ReadBack a r := by
  -- Each number is read as the decimal that was printed for it.
  obtain ⟨bpm, hparseBpm, hbpm⟩ := parseFloat_printFixed (N := N) (show 0 < 1 by decide) h.bpm
  obtain ⟨confidence, hparseConfidence, hconfidence⟩ :=
    parseFloat_printFixed (N := N) (show 0 < 4 by decide) h.confidence
  obtain ⟨duration, hparseDuration, hduration⟩ :=
    parseFloat_printFixed (N := N) (show 0 < 3 by decide) h.durationSec
  obtain ⟨chords, hreadChords, hchords⟩ := exists_mapM fun c hc =>
    read_chordJson (N := N) (h.chords c hc).2.1 (h.chords c hc).2.2
  have hexists : ∃ onsets : List N,
      (a.onsets.map fun t => Json.number (FloatText.printFixed 3 t)).mapM (toNumber (lit 0))
        = some onsets ∧ List.Forall₂ (ReadAs 3) a.onsets onsets :=
    exists_mapM fun t ht => parseFloat_printFixed (show 0 < 3 by decide) (h.onsets t ht)
  obtain ⟨onsets, hreadOnsets, honsets⟩ := hexists
  refine ⟨⟨bpm, a.key.key, a.key.scale, confidence, chords, onsets, duration⟩, ?_,
    hbpm, rfl, rfl, hconfidence, hchords, honsets, hduration⟩
  -- The fields are set member by member, in the order in which they were written.
  simp only [AudioAnalysisResult.unmarshal, parse_report h, reportMembers, Option.bind_some,
    List.foldlM_cons, List.foldlM_nil, AudioAnalysisResult.setField_bpm,
    AudioAnalysisResult.setField_key, AudioAnalysisResult.setField_scale,
    AudioAnalysisResult.setField_confidence, AudioAnalysisResult.setField_chords,
    AudioAnalysisResult.setField_onsets, AudioAnalysisResult.setField_durationSec, hparseBpm,
    hparseConfidence, hparseDuration, hreadChords, hreadOnsets, Option.map_some,
    Option.bind_eq_bind, Option.pure_def]

end

/-- A chord and an onset before it. -/
def oneChord : AudioAnalysis Exact where
  bpm := lit 127.96
  key := ⟨bytes "F#", bytes "minor", lit 0.71235, fun _ => lit 0⟩
  chords := [⟨bytes "F#m", lit 0.9, lit 1.25⟩]
  onsets := [lit 0.0345]
  durationSec := lit 3

/-- The report with one chord is read back. -/
theorem unmarshal_report_oneChord :
    ∃ r : AudioAnalysisResult Exact,
      AudioAnalysisResult.unmarshal (report oneChord) = some r ∧ ReadBack oneChord r := by
  have hfinite : ∀ q : ℚ, |q| ≤ 2 ^ 128 → Finite (lit q : Exact) := fun q hq => ⟨q, rfl, hq⟩
  refine unmarshal_report ⟨hfinite _ (by norm_num), by decide, by decide, hfinite _ (by norm_num),
    fun c hc => ?_, fun t ht => ?_, hfinite _ (by norm_num)⟩
  · obtain rfl := List.mem_singleton.mp hc
    exact ⟨by decide, hfinite _ (by norm_num), hfinite _ (by norm_num)⟩
  · obtain rfl := List.mem_singleton.mp ht
    exact hfinite _ (by norm_num)

end AiMidi.Proofs.DspCli
