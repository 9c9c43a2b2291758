import AiMidi.Ace.Composition
import AiMidi.Proofs.Ace.Workflow
import AiMidi.Theory.Scales

/-!
# `AiMidi.Proofs.Ace.Composition`: which prompts give a composable request

`mte_cli` composes when its parser returns true, the key is in its table, the scale is known,
and tempo and length are positive (`Composable`). Scale, tempo and length of `parsePrompt`
always are. The key need not be: the accidental marks are looked for anywhere in the text,
so they can land on a letter that has no such accidental, or both on one letter.

`composable_iff` states when they do not (`Spellable`), for every prompt, seed and directory.

The parser recovers the options from the vector since each of them is followed by a value of its own
(`parseFlags_newCompositionArgs`). What remains is the key: its letter is that of the first note
word the text names (`naturalKey_eq_iff`), and `keyToRootPc_spellKey` lists the marks that the table
has for a letter.
-/

set_option autoImplicit false

namespace AiMidi.Proofs.Ace

open AiMidi.Lib AiMidi.Tools AiMidi.Ace AiMidi.Theory

/-- `mte_cli` composes from these arguments. -/
def Composable (argv : List Bytes) : Prop :=
  ∃ args, parseArgs argv = some args ∧ args.prompt = [] ∧ 0 ≤ keyToRootPc args.key ∧
    knows args.scale = true ∧ 0 < args.bpm ∧ 0 < args.bars

/-! ### Tempo, length and scale

The scans have bounds of their own, and their defaults lie within them. Every word for a scale is
mapped to a scale of the table. -/

/-- A number is taken within the bounds or not at all. -/
theorem takeNumber_range {names : List Runes} {lo hi acc : Int} {prev w : Runes}
    (hacc : lo ≤ acc ∧ acc ≤ hi) :
    lo ≤ takeNumber names lo hi acc prev w ∧ takeNumber names lo hi acc prev w ≤ hi := by
  unfold takeNumber
  split
  · split
    · split
      · assumption
      · exact hacc
    · exact hacc
  · exact hacc

/-- The number is the default, or it lies between the bounds. -/
theorem numberBefore_range {names : List Runes} {lo hi default : Int} {words : List Runes}
    (hdefault : lo ≤ default ∧ default ≤ hi) :
    lo ≤ numberBefore names lo hi default words ∧
      numberBefore names lo hi default words ≤ hi := by
  rw [numberBefore]
  induction words.zip words.tail generalizing default with
  | nil => exact hdefault
  -- Each pair of words replaces the number by one in range or keeps it.
  | cons pair pairs ih => exact ih (takeNumber_range hdefault)

/-- The tempo of a prompt is one that `mte_cli` takes. -/
theorem parsePrompt_bpm (table : Char → Char) (prompt : Runes) :
    40 ≤ (parsePrompt table prompt).bpm ∧ (parsePrompt table prompt).bpm ≤ 300 :=
  numberBefore_range (by decide)

/-- And so is its length. -/
theorem parsePrompt_bars (table : Char → Char) (prompt : Runes) :
    1 ≤ (parsePrompt table prompt).bars ∧ (parsePrompt table prompt).bars ≤ 64 :=
  numberBefore_range (by decide)

/-- Every scale word names a scale. -/
theorem knows_parseScale (lower : Runes) : knows (parseScale lower) = true := by
  have hwords : ∀ sw ∈ scaleWords, knows (bytes sw) = true := by decide
  rw [parseScale]
  cases hfind : scaleWords.find? fun sw => contains lower sw.toList with
  | none => decide
  | some sw => exact hwords sw (List.mem_of_find?_eq_some hfind)

/-! ### The argument vector

The options of the vector are followed by values that the parser takes as they are. Without a key or
a scale the vector lacks these options, and the parser refuses it. -/

/-- The name of the output is a single file name. -/
theorem isFileName_outputName (seed : Int64) : Filepath.IsFileName (outputName seed) where
  ne_nil := by simp [outputName, bytes]
  no_slash := by
    intro h
    -- A prefix, a numeral and a suffix, none of them with a slash.
    simp only [outputName, List.mem_append, sprintD] at h
    obtain (h | h) | h := h
    · exact absurd h (by decide)
    · rw [formatInt] at h
      split at h
      · obtain h | h := List.mem_cons.mp h
        · exact absurd h (by decide)
        · exact absurd (isDigit_of_mem_decimal h) (by decide)
      · exact absurd (isDigit_of_mem_decimal h) (by decide)
    · exact absurd h (by decide)
  ne_dot h := absurd (congrArg List.head? h) (by simp [outputName, bytes])
  ne_dotDot h := absurd (congrArg List.head? h) (by simp [outputName, bytes])

/-- A number that fits an `int` is read back. -/
theorem atoi_formatInt {n : Int} (h0 : 0 ≤ n) (h1 : n < 2 ^ 31) : atoi (formatInt n) = n := by
  rw [formatInt_of_nonneg h0, atoi_decimal (by omega)]
  omega

/-- The options of the vector are the parameters. -/
theorem parseFlags_newCompositionArgs (tmpDir : Bytes) (seed : Int64) (params : PromptParams)
    (hbpm : 0 < params.bpm ∧ params.bpm < 2 ^ 31)
    (hbars : 0 < params.bars ∧ params.bars < 2 ^ 31) :
    parseFlags (newCompositionArgs tmpDir seed params) {} = some
      { seed := seed.toUInt64, key := params.key, scale := params.scale, bpm := params.bpm,
        bars := params.bars, output := Filepath.join [tmpDir, outputName seed] } := by
  -- The seed is printed with a sign and read as the same bit pattern.
  have hseed : setOption (bytes "--seed") (sprintD seed) {} = some { seed := seed.toUInt64 } := by
    rw [setOption_seed (by rw [strtoull_sprintD]), strtoull_sprintD]
  have hb := atoi_formatInt (by omega) hbpm.2
  have hn := atoi_formatInt (by omega) hbars.2
  rw [newCompositionArgs, parseFlags_option (by decide) hseed,
    parseFlags_option (by decide) setOption_key,
    parseFlags_option (by decide) setOption_scale,
    parseFlags_option (by decide) (setOption_bpm (by omega)),
    parseFlags_option (by decide) (setOption_bars (by omega)),
    parseFlags_option (by decide) setOption_output, hb, hn]
  rfl

/-- The parser recovers the parameters from the vector. -/
theorem parseArgs_newCompositionArgs (tmpDir : Bytes) (seed : Int64) (params : PromptParams)
    (hkey : params.key ≠ []) (hscale : params.scale ≠ [])
    (hbpm : 0 < params.bpm ∧ params.bpm < 2 ^ 31)
    (hbars : 0 < params.bars ∧ params.bars < 2 ^ 31) :
    parseArgs (newCompositionArgs tmpDir seed params) = some
      { seed := seed.toUInt64, key := params.key, scale := params.scale, bpm := params.bpm,
        bars := params.bars, output := Filepath.join [tmpDir, outputName seed] } := by
  rw [parseArgs, parseFlags_newCompositionArgs tmpDir seed params hbpm hbars]
  simp [Filepath.join_ne_nil (isFileName_outputName seed), hkey, hscale]

/-- It refuses a vector without a key or without a scale. -/
theorem parseArgs_newCompositionArgs_none (tmpDir : Bytes) (seed : Int64) (params : PromptParams)
    (hempty : params.key = [] ∨ params.scale = [])
    (hbpm : 0 < params.bpm ∧ params.bpm < 2 ^ 31)
    (hbars : 0 < params.bars ∧ params.bars < 2 ^ 31) :
    parseArgs (newCompositionArgs tmpDir seed params) = none := by
  rw [parseArgs, parseFlags_newCompositionArgs tmpDir seed params hbpm hbars]
  simp [hempty]

/-! ### The key

The letter comes from the first note word in the order of the list, not of the text. The marks are
found independently of it, so a mark can stand on a letter that does not take it. -/

/-- The note is the first one in the order of `keyWords` that the text names. -/
def FirstMention (lower : Runes) (kw : Char) : Prop :=
  ∃ before after, keyWords = before ++ kw :: after ∧ mentions lower kw = true ∧
    ∀ k ∈ before, mentions lower k = false

/-- The marks in the text fit the note that it names. -/
structure Spellable (lower : Runes) : Prop where
  one_mark : ¬ (sharpMark lower = true ∧ flatMark lower = true)
  sharp : sharpMark lower = true → ¬ FirstMention lower 'e' ∧ ¬ FirstMention lower 'b'
  flat : flatMark lower = true → ¬ FirstMention lower 'c' ∧ ¬ FirstMention lower 'f' ∧
    ∃ kw ∈ keyWords, mentions lower kw = true

/-- The key names a note in the table of `mte_cli` unless both marks are set, a sharp stands
on E or B, or a flat stands on C or F. -/
theorem keyToRootPc_spellKey (kw : Char) (hkw : kw ∈ keyWords) : ∀ sharp flat : Bool,
    0 ≤ keyToRootPc (spellKey kw sharp flat) ↔
      ¬ (sharp = true ∧ flat = true) ∧ (sharp = true → kw ≠ 'e' ∧ kw ≠ 'b') ∧
        (flat = true → kw ≠ 'c' ∧ kw ≠ 'f') := by
  simp only [keyWords, List.mem_cons, List.not_mem_nil, or_false] at hkw
  -- Seven notes and four combinations of marks.
  obtain rfl | rfl | rfl | rfl | rfl | rfl | rfl := hkw <;> decide

/-- The keyword that is found is the first one of the list that the prompt mentions. -/
theorem find?_eq_some_iff_firstMention {lower : Runes} {kw : Char} :
    keyWords.find? (mentions lower) = some kw ↔ FirstMention lower kw := by
  rw [List.find?_eq_some_iff_append, FirstMention]
  constructor
  · rintro ⟨hkw, before, after, heq, hbefore⟩
    exact ⟨before, after, heq, hkw, fun k hk => by simpa using hbefore k hk⟩
  · rintro ⟨before, after, heq, hkw, hbefore⟩
    exact ⟨hkw, before, after, heq, fun k hk => by simpa using hbefore k hk⟩

/-- The letter is one of the keywords. -/
theorem naturalKey_mem (lower : Runes) : naturalKey lower ∈ keyWords := by
  rw [naturalKey]
  cases hfind : keyWords.find? (mentions lower) with
  | none => decide
  | some kw => exact List.mem_of_find?_eq_some hfind

/-- The note of the key is the first one named. C is also the note of a text that names
none. -/
theorem naturalKey_eq_iff {lower : Runes} {kw : Char} :
    naturalKey lower = kw ↔
      FirstMention lower kw ∨ (kw = 'c' ∧ ∀ k ∈ keyWords, mentions lower k = false) := by
  rw [naturalKey, ← find?_eq_some_iff_firstMention]
  cases hfind : keyWords.find? (mentions lower) with
  | none =>
    -- No note is named, and the default is C.
    have hnone : ∀ k ∈ keyWords, mentions lower k = false := by
      simpa using List.find?_eq_none.mp hfind
    rw [Option.getD_none]
    constructor
    · rintro rfl
      exact .inr ⟨rfl, hnone⟩
    · rintro (h | ⟨rfl, -⟩)
      · exact absurd h (by simp)
      · rfl
  | some k =>
    have hk : mentions lower k = true := List.find?_some hfind
    have hmem : k ∈ keyWords := List.mem_of_find?_eq_some hfind
    constructor
    · rintro rfl
      exact .inl rfl
    · rintro (h | ⟨-, hnone⟩)
      · exact Option.some.inj h
      · exact absurd hk (by simp [hnone k hmem])

/-- The key is in the table exactly when the marks fit. -/
theorem keyToRootPc_parseKey (lower : Runes) :
    0 ≤ keyToRootPc (parseKey lower) ↔ Spellable lower := by
  rw [parseKey, keyToRootPc_spellKey _ (naturalKey_mem lower)]
  simp only [ne_eq, naturalKey_eq_iff, false_and, or_false, not_or, true_and,
    not_forall, Bool.not_eq_false, exists_prop, show ('e' = 'c') = False by decide,
    show ('b' = 'c') = False by decide, show ('f' = 'c') = False by decide]
  constructor
  · rintro ⟨hone, hsharp, hflat⟩
    refine ⟨hone, hsharp, fun h => ?_⟩
    obtain ⟨⟨hc, hsome⟩, hf⟩ := hflat h
    exact ⟨hc, hf, hsome⟩
  · rintro ⟨hone, hsharp, hflat⟩
    refine ⟨hone, hsharp, fun h => ?_⟩
    obtain ⟨hc, hf, hsome⟩ := hflat h
    exact ⟨⟨hc, hsome⟩, hf⟩

/-! ### The result

All other conditions are met by every prompt, so what remains is the one about the marks. -/

/-- `mte_cli` composes from the parameters of a prompt exactly when the marks in the prompt
fit the note it names. -/
theorem composable_iff (table : Char → Char) (prompt : Runes) (seed : Int64) (tmpDir : Bytes) :
    Composable (newCompositionArgs tmpDir seed (parsePrompt table prompt)) ↔
      Spellable (toLower table prompt) := by
  have hbpm := parsePrompt_bpm table prompt
  have hbars := parsePrompt_bars table prompt
  have hknows : knows (parsePrompt table prompt).scale = true := knows_parseScale _
  have hscale : (parsePrompt table prompt).scale ≠ [] := by
    intro h
    rw [h] at hknows
    exact absurd hknows (by decide)
  have hparse := parseArgs_newCompositionArgs tmpDir seed (parsePrompt table prompt)
    (List.cons_ne_nil _ _) hscale (by omega) (by omega)
  rw [← keyToRootPc_parseKey]
  constructor
  · rintro ⟨args, hargs, -, hkey, -⟩
    -- The parser always succeeds here, so the key is all that `mte_cli` can object to.
    rw [hparse] at hargs
    obtain rfl := Option.some.inj hargs
    exact hkey
  · intro hkey
    exact ⟨_, hparse, rfl, hkey, hknows, Int.lt_of_lt_of_le (by decide) hbpm.1,
      Int.lt_of_lt_of_le (by decide) hbars.1⟩

/-- The `b ` that ends a word puts a flat on the default C. -/
theorem clubSong_not_composable :
    ¬ Composable (newCompositionArgs (bytes "/tmp") 1 (parsePrompt id "club song".toList)) := by
  rintro ⟨args, hargs, -, hkey, -⟩
  rw [parseArgs_newCompositionArgs _ _ _ (by decide) (by decide) (by decide) (by decide)] at hargs
  obtain rfl := Option.some.inj hargs
  exact absurd hkey (by decide)

end AiMidi.Proofs.Ace
