import AiMidi.Proofs.PromptPipeline
import AiMidi.Theory.PromptScans

/-!
# `AiMidi.Proofs.PromptNumbers`: numbers in front of a unit

The index walks of the interpreter read the digits that stand in front of a unit, spaces between
left out (`numberBefore_eq`, `numberAfter_eq`). So the scans by index are the scans of
`AiMidi.Theory.PromptInterpreter`, and a number of the allowed range in front of the first unit
comes out as it was written (`numbers_extracted`).

`forwardWhile` and its counterpart are indices, and the lemmas turn them into prefixes and suffixes
of the text. That the unit is found behind the numeral and not inside it holds since the two have no
byte in common (`firstAt_numeral`).
-/

set_option autoImplicit false

namespace AiMidi.Proofs.PromptNumbers

open AiMidi.Lib AiMidi.Theory
open AiMidi.Theory.PromptInterpreter (numberIn numberEnding numberStarting tempoAt)
open AiMidi.Proofs.PromptPipeline (numberIn_range tempoAt_range)

variable {lo hi : Int} {lower : Bytes}

/-! ### The walks

The source walks over indices with bounds that it tests at each step. A walk that stops at a byte
leaves a prefix or a suffix of the text, and this is all the scans use. -/

/-- No digits are no number. -/
theorem numberIn_nil : numberIn lo hi [] = none := rfl

/-- The walk back finds the digits at the end of the text in front. -/
theorem numberBefore_eq {p : Nat} (hp : p ≤ lower.length) :
    PromptScans.numberBefore lo hi lower p = numberIn lo hi (numberEnding (lower.take p)) := by
  -- `word` ends with the digits, and `rest` is what is in front of them.
  obtain ⟨word, hword⟩ : ∃ word, word = (lower.take p).rdropWhile (· == 0x20) := ⟨_, rfl⟩
  obtain ⟨rest, hrest⟩ : ∃ rest, rest = word.rdropWhile isDigit := ⟨_, rfl⟩
  have hprefix : word <+: lower :=
    (hword ▸ List.rdropWhile_prefix _ _).trans (List.take_prefix p lower)
  have htake : lower.take word.length = word := (List.prefix_iff_eq_take.mp hprefix).symm
  have hwordLe : word.length ≤ p := by
    have hle := (List.rdropWhile_prefix (· == 0x20) (lower.take p)).length_le
    rw [← hword, List.length_take] at hle
    omega
  have hrestLe : rest.length ≤ word.length := by
    rw [hrest]
    exact (List.rdropWhile_prefix _ _).length_le
  have hdigits : numberEnding (lower.take p) = word.drop rest.length := by
    have hsplit : rest ++ word.rtakeWhile isDigit = word := by
      rw [hrest]
      exact List.rdropWhile_append_rtakeWhile
    rw [numberEnding, ← hword]
    conv => rhs; rw [← hsplit]
    rw [List.drop_left]
  have hstart : backWhile (· == 0x20) lower 0 p = word.length := by
    rw [backWhile_eq _ _ (Nat.zero_le _) hp, ← hword, Nat.zero_max]
  have hstart' : backWhile isDigit lower 0 word.length = rest.length := by
    rw [backWhile_eq _ _ (Nat.zero_le _) hprefix.length_le, htake, ← hrest, Nat.zero_max]
  have hstop : backWhile (· == 0x20) lower rest.length p = word.length := by
    rw [backWhile_eq _ _ (by omega) hp, ← hword]
    omega
  have hslice : slice lower rest.length word.length = word.drop rest.length := by
    rw [slice, ← List.drop_take, htake]
  rw [hdigits]
  unfold PromptScans.numberBefore
  dsimp only
  rw [hstart, hstart', hstop, hslice]
  by_cases hnone : rest.length < word.length
  · rw [if_pos (by omega), if_pos hnone]
  · rw [List.drop_eq_nil_of_le (by omega), numberIn_nil]
    split
    · rfl
    · rfl

/-- The walk on finds the digits at the start of the text behind. -/
theorem numberAfter_eq (after : Nat) :
    PromptScans.numberAfter lo hi lower after
      = numberIn lo hi (numberStarting (lower.drop after)) := by
  obtain ⟨start, hstart⟩ : ∃ start, start = forwardWhile (· == 0x20) lower after := ⟨_, rfl⟩
  -- Behind the spaces the digits are read, up to the first other byte.
  have hdrop : lower.drop start = (lower.drop after).dropWhile (· == 0x20) := by
    have hsplit := List.takeWhile_append_dropWhile (p := (· == 0x20)) (l := lower.drop after)
    rw [hstart, forwardWhile_eq, ← List.drop_drop]
    calc (lower.drop after).drop ((lower.drop after).takeWhile (· == 0x20)).length
        = ((lower.drop after).takeWhile (· == 0x20)
            ++ (lower.drop after).dropWhile (· == 0x20)).drop
            ((lower.drop after).takeWhile (· == 0x20)).length := by rw [hsplit]
      _ = (lower.drop after).dropWhile (· == 0x20) := List.drop_left
  have hslice : slice lower start (forwardWhile isDigit lower start)
      = numberStarting (lower.drop after) := by
    rw [slice, forwardWhile_eq, Nat.add_sub_cancel_left, numberStarting, ← hdrop]
    exact (List.prefix_iff_eq_take.mp (List.takeWhile_prefix isDigit)).symm
  have hlength : forwardWhile isDigit lower start
      = start + (numberStarting (lower.drop after)).length := by
    rw [forwardWhile_eq, numberStarting, ← hdrop]
  unfold PromptScans.numberAfter
  dsimp only
  rw [← hstart, hslice, hlength]
  split
  case isTrue => rfl
  case isFalse h =>
    have hnil : numberStarting (lower.drop after) = [] :=
      List.eq_nil_of_length_eq_zero (by omega)
    rw [hnil, numberIn_nil]

/-- The scan by index is the scan of the text. -/
theorem detectBpm_eq (lower : Bytes) :
    PromptScans.detectBpm lower = PromptInterpreter.detectBpm lower := by
  have hscan : scanFrom (bytes "bpm") (by decide) (fun p =>
      (PromptScans.numberBefore 20 300 lower p).or
        (PromptScans.numberAfter 20 300 lower (p + 3))) lower 0
      = scan (bytes "bpm") tempoAt 0 [] lower := by
    -- At each place of the phrase both scans look at the same text before and behind it.
    refine scanFrom_eq_scan (by decide) fun before after htext => ?_
    have hle : before.length ≤ lower.length := by
      rw [htext, List.append_assoc, List.length_append]
      omega
    have htake : lower.take before.length = before := by
      rw [htext, List.append_assoc, List.take_left]
    have hdrop : lower.drop (before.length + 3) = after := by
      rw [← List.drop_drop, htext, List.append_assoc, List.drop_left]
      rfl
    rw [numberBefore_eq hle, numberAfter_eq, htake, hdrop]
    rfl
  rw [PromptScans.detectBpm, hscan]
  rfl

/-- Both scans for a length are one function. -/
theorem extractTotalBars_eq (lower : Bytes) :
    PromptScans.extractTotalBars lower = PromptInterpreter.extractTotalBars lower := by
  have hscan : scanFrom (bytes " bar") (by decide) (PromptScans.numberBefore 1 256 lower) lower 0
      = scan (bytes " bar") (fun before _ => numberIn 1 256 (numberEnding before)) 0 [] lower := by
    refine scanFrom_eq_scan (by decide) fun before after htext => ?_
    have hle : before.length ≤ lower.length := by
      rw [htext, List.append_assoc, List.length_append]
      omega
    have htake : lower.take before.length = before := by
      rw [htext, List.append_assoc, List.take_left]
    rw [numberBefore_eq hle, htake]
  rw [PromptScans.extractTotalBars, hscan]
  rfl

/-! ### Numbers that are written

The text in front must not end in a digit, or its digits would belong to the number. What stands
behind the unit does not matter. -/

/-- The last byte is no digit. -/
def EndsPlain (u : Bytes) : Prop := ∀ d, u.getLast? = some d → isDigit d = false

/-- A text that ends in anything but a digit does not run into the number. -/
theorem endsPlain_of_last {u : Bytes} {d : UInt8} (hlast : u.getLast? = some d)
    (hd : isDigit d = false) : EndsPlain u := by
  intro d' hd'
  rw [← Option.some.inj (hlast.symm.trans hd')]
  exact hd

/-- A digit is no space, and no letter of the two units. -/
theorem digit_ne {d : UInt8} (h : isDigit d = true) :
    d ≠ 0x20 ∧ d ∉ bytes "bpm" ∧ d ∉ bytes " bar" := by
  have hbyte : ∀ d : UInt8, isDigit d = true → d ≠ 0x20 ∧ d ∉ bytes "bpm" ∧ d ∉ bytes " bar" :=
    forall_byte (by decide +kernel)
  exact hbyte d h

/-- The digits in front of spaces. -/
theorem numberEnding_spaces {u ds : Bytes} (hu : EndsPlain u) (hne : ds ≠ [])
    (hds : ∀ d ∈ ds, isDigit d = true) (k : Nat) :
    numberEnding (u ++ ds ++ List.replicate k 0x20) = ds := by
  have hspaces : (u ++ ds ++ List.replicate k 0x20).rdropWhile (· == 0x20) = u ++ ds := by
    -- The spaces are dropped one at a time; a digit is no space.
    induction k with
    | zero =>
      rw [List.replicate_zero, List.append_nil, List.rdropWhile_eq_self_iff]
      intro hcat hspace
      have hlast : (u ++ ds).getLast hcat ∈ ds := by
        rw [List.getLast_append_of_ne_nil _ hne]
        exact List.getLast_mem hne
      exact (digit_ne (hds _ hlast)).1 (eq_of_beq hspace)
    | succ k ih =>
      rw [List.replicate_succ', ← List.append_assoc, List.rdropWhile_concat_pos _ _ _ (by decide),
        ih]
  have hplain : u.reverse.takeWhile isDigit = [] := by
    rw [List.takeWhile_eq_nil_iff]
    intro hpos
    have hlast : u.getLast? = some u.reverse[0] := by
      rw [← List.head?_reverse, List.head?_eq_getElem?, List.getElem?_eq_getElem hpos]
    show ¬ isDigit u.reverse[0] = true
    rw [hu _ hlast]
    decide
  rw [numberEnding, hspaces, List.rtakeWhile, List.reverse_append,
    List.takeWhile_append_of_pos fun d hd => hds d (List.mem_reverse.mp hd), hplain,
    List.append_nil, List.reverse_reverse]

/-- A numeral of the range. -/
theorem numberIn_decimal {n : Nat} (h0 : lo ≤ n) (h1 : n ≤ hi) (hhi : hi < 2 ^ 31) :
    numberIn lo hi (decimal n) = some (n : Int) := by
  have hread : fromChars (decimal n) = some (n : Int) := by
    rw [fromChars, digitsValue_decimal, if_neg]
    rintro (hnil | hbig)
    · exact decimal_ne_nil n hnil
    · omega
  rw [numberIn, hread]
  exact if_pos ⟨h0, h1⟩

/-- The first number in front of the first unit. -/
theorem firstAt_numeral {u v t : Bytes} {z : UInt8} {n k : Nat}
    {f : Bytes → Bytes → Option Int} (hu : contains u (t ++ [z]) = false)
    (hunit : ∀ d, isDigit d = true → d ∉ t ++ [z]) (hspace : z ≠ 0x20) (hz : z ∉ t)
    (hf : f (u ++ decimal n ++ List.replicate k 0x20) v = some (n : Int)) :
    FirstAt (t ++ [z]) f (u ++ decimal n ++ List.replicate k 0x20 ++ (t ++ [z]) ++ v) n := by
  obtain ⟨d, ds, hcons⟩ := List.exists_cons_of_ne_nil (decimal_ne_nil n)
  have hdigits : ∀ c ∈ d :: ds, isDigit c = true := fun c hc =>
    isDigit_of_mem_decimal (hcons ▸ hc : c ∈ decimal n)
  have hassoc : u ++ decimal n ++ List.replicate k 0x20
      = u ++ d :: (ds ++ List.replicate k 0x20) := by
    rw [hcons, List.append_assoc]
    rfl
  rw [hassoc] at hf ⊢
  refine firstAt_of_last hu ?_ ?_ hf
  -- The unit is found first behind the numeral, since no digit and no space belongs to it.
  · intro hmem
    exact hunit d (hdigits d List.mem_cons_self) (List.mem_of_mem_tail hmem)
  · intro hmem
    have hlast : z ∈ t ++ [z] := by simp
    have hcases : z ∈ d :: ds ∨ z ∈ List.replicate k 0x20 ∨ z ∈ t := by
      simpa [or_assoc] using hmem
    obtain hdigit | hreplicate | htail := hcases
    · exact hunit z (hdigits z hdigit) hlast
    · exact hspace (List.eq_of_mem_replicate hreplicate)
    · exact hz htail

/-- Numbers come out as they were written, and every result is in its range. -/
structure NumbersExtracted : Prop where
  bpm : ∀ (u v : Bytes) (n k : Nat), contains u (bytes "bpm") = false → EndsPlain u →
    20 ≤ n → n ≤ 300 →
    PromptScans.detectBpm (u ++ decimal n ++ List.replicate k 0x20 ++ bytes "bpm" ++ v) = n
  bars : ∀ (u v : Bytes) (n k : Nat), contains u (bytes " bar") = false → EndsPlain u →
    1 ≤ n → n ≤ 256 → 1 ≤ k →
    PromptScans.extractTotalBars (u ++ decimal n ++ List.replicate k 0x20 ++ bytes "bar" ++ v) = n
  bpm_range : ∀ s, 20 ≤ PromptScans.detectBpm s ∧ PromptScans.detectBpm s ≤ 300
  bars_range : ∀ s, PromptScans.extractTotalBars s = -1 ∨
    1 ≤ PromptScans.extractTotalBars s ∧ PromptScans.extractTotalBars s ≤ 256

/-- The tempo of a text is the number in front of its first `bpm`. -/
theorem detectBpm_numeral {u v : Bytes} {n k : Nat} (hu : contains u (bytes "bpm") = false)
    (hplain : EndsPlain u) (h0 : 20 ≤ n) (h1 : n ≤ 300) :
    PromptInterpreter.detectBpm (u ++ decimal n ++ List.replicate k 0x20 ++ bytes "bpm" ++ v)
      = n := by
  have htempo : tempoAt (u ++ decimal n ++ List.replicate k 0x20) v = some (n : Int) := by
    rw [tempoAt, numberEnding_spaces hplain (decimal_ne_nil n)
      (fun d hd => isDigit_of_mem_decimal hd), numberIn_decimal (by omega) (by omega) (by decide)]
    rfl
  have hfirst := firstAt_numeral (t := bytes "bp") (z := 0x6D) (v := v) hu
    (fun d hd => (digit_ne hd).2.1) (by decide) (by decide) htempo
  rw [PromptInterpreter.detectBpm]
  exact congrArg (Option.getD · 120) (PromptPipeline.scan_bpm.mpr hfirst)

/-- The length is the number in front of its first ` bar`. -/
theorem extractTotalBars_numeral {u v : Bytes} {n k : Nat}
    (hu : contains u (bytes " bar") = false) (hplain : EndsPlain u) (h0 : 1 ≤ n) (h1 : n ≤ 256) :
    PromptInterpreter.extractTotalBars
      (u ++ decimal n ++ List.replicate (k + 1) 0x20 ++ bytes "bar" ++ v) = n := by
  have hbars : numberIn 1 256 (numberEnding (u ++ decimal n ++ List.replicate k 0x20))
      = some (n : Int) := by
    rw [numberEnding_spaces hplain (decimal_ne_nil n) (fun d hd => isDigit_of_mem_decimal hd),
      numberIn_decimal (by omega) (by omega) (by decide)]
  have hfirst := firstAt_numeral (t := bytes " ba") (z := 0x72) (v := v)
    (f := fun before _ => numberIn 1 256 (numberEnding before)) hu
    (fun d hd => (digit_ne hd).2.2) (by decide) (by decide) hbars
  -- The last space belongs to the unit.
  have htext : u ++ decimal n ++ List.replicate (k + 1) 0x20 ++ bytes "bar" ++ v
      = u ++ decimal n ++ List.replicate k 0x20 ++ (bytes " ba" ++ [0x72]) ++ v := by
    rw [List.replicate_succ']
    simp only [List.append_assoc]
    rfl
  rw [htext, PromptInterpreter.extractTotalBars]
  exact congrArg (Option.getD · (-1)) ((scan_eq_some (by decide)).mpr hfirst)

/-- Every tempo lies in the range of the scan. -/
theorem detectBpm_range (s : Bytes) :
    20 ≤ PromptInterpreter.detectBpm s ∧ PromptInterpreter.detectBpm s ≤ 300 := by
  rw [PromptInterpreter.detectBpm]
  cases h : scan (bytes "bpm") tempoAt 0 [] s with
  | none => decide
  | some n =>
    obtain ⟨before, after, hn⟩ := exists_of_scan_eq_some (by decide) h
    exact tempoAt_range hn

/-- Every length lies in the range of its scan, or there is none. -/
theorem extractTotalBars_cases (s : Bytes) : PromptInterpreter.extractTotalBars s = -1 ∨
    1 ≤ PromptInterpreter.extractTotalBars s ∧ PromptInterpreter.extractTotalBars s ≤ 256 := by
  rw [PromptInterpreter.extractTotalBars]
  cases h : scan (bytes " bar") (fun before _ => numberIn 1 256 (numberEnding before)) 0 [] s with
  | none => exact .inl rfl
  | some n =>
    obtain ⟨before, after, hn⟩ := exists_of_scan_eq_some (by decide) h
    exact .inr (numberIn_range hn)

/-- The two scans extract numbers exactly. -/
theorem numbers_extracted : NumbersExtracted where
  bpm u v n k hu hplain h0 h1 := by
    rw [detectBpm_eq]
    exact detectBpm_numeral hu hplain h0 h1
  bars u v n k hu hplain h0 h1 hk := by
    obtain ⟨j, rfl⟩ : ∃ j, k = j + 1 := ⟨k - 1, by omega⟩
    rw [extractTotalBars_eq]
    exact extractTotalBars_numeral hu hplain h0 h1
  bpm_range s := by
    rw [detectBpm_eq]
    exact detectBpm_range s
  bars_range s := by
    rw [extractTotalBars_eq]
    exact extractTotalBars_cases s

/-- A tempo and a length in one prompt each. -/
theorem numbers_extracted_waltz :
    PromptScans.detectBpm
      (bytes "waltz at " ++ decimal 90 ++ List.replicate 1 0x20 ++ bytes "bpm" ++ []) = 90 ∧
    PromptScans.extractTotalBars
      (bytes "waltz, " ++ decimal 16 ++ List.replicate 1 0x20 ++ bytes "bar" ++ bytes "s") = 16 :=
  have hplain : EndsPlain (bytes "waltz at ") := endsPlain_of_last (d := 0x20) rfl rfl
  have hplain' : EndsPlain (bytes "waltz, ") := endsPlain_of_last (d := 0x20) rfl rfl
  ⟨numbers_extracted.bpm (bytes "waltz at ") [] 90 1 (by decide) hplain (by decide) (by decide),
   numbers_extracted.bars (bytes "waltz, ") (bytes "s") 16 1 (by decide) hplain' (by decide)
    (by decide) (by decide)⟩

end AiMidi.Proofs.PromptNumbers
