import AiMidi.Lib.Text
import Mathlib.Data.List.DropRight

/-!
# `AiMidi.Lib.TextIndex`: text searched by index

The loops of C++ walk over a text with index variables. `backWhile` and `forwardWhile` walk over
a run of characters, `findFrom` is `find(pat, i)`, and `scanFrom` is the loop over the
occurrences of a pattern.

Each is stated in terms of the text alone: the walks by the `rdropWhile` and `takeWhile` of the
text before and behind the index, and `scanFrom` by the `scan` of `AiMidi.Lib.Text`
(`scanFrom_eq_scan`).

An occurrence is a split of the text (`split_of_prefix_drop`), and the first one from an index is
the first split behind it. A pattern whose first character does not come back in it cannot overlap
itself, so a loop that resumes behind an occurrence misses none (`occurrences_apart`).
-/

set_option autoImplicit false

namespace AiMidi.Lib

variable {α β : Type}

/-! ### Runs of characters

The walks stop at the first character that does not belong to the run, or at a bound. What they pass
is a prefix or a suffix of what they were given. -/

/-- The loop `while (i > lo && p(text[i - 1])) --i`. -/
def backWhile (p : α → Bool) (text : List α) (lo : Nat) : Nat → Nat
  | 0     => 0
  | i + 1 => if lo < i + 1 ∧ text[i]?.any p then backWhile p text lo i else i + 1

/-- The loop `while (i < text.size() && p(text[i])) ++i`. -/
def forwardWhile (p : α → Bool) (text : List α) (i : Nat) : Nat :=
  if h : i < text.length then
    if p text[i] then forwardWhile p text (i + 1) else i
  else i
termination_by text.length - i

/-- The characters from the index `i` up to the index `j`. -/
def slice (text : List α) (i j : Nat) : List α := (text.drop i).take (j - i)

/-- The walk back ends behind the text without its run, or at its bound. -/
theorem backWhile_eq (p : α → Bool) (text : List α) {lo i : Nat} (hlo : lo ≤ i)
    (hi : i ≤ text.length) :
    backWhile p text lo i = max lo ((text.take i).rdropWhile p).length := by
  induction i with
  | zero =>
    rw [backWhile, List.take_zero, List.rdropWhile_nil, List.length_nil]
    omega
  | succ i ih =>
    have hlt : i < text.length := hi
    rw [backWhile, List.getElem?_eq_getElem hlt, Option.any_some, List.take_add_one,
      List.getElem?_eq_getElem hlt, Option.toList_some, List.rdropWhile_concat]
    -- The character in front belongs to the run or ends it.
    by_cases hp : p text[i] = true
    · rw [if_pos hp]
      -- The walk has reached its bound, or it goes on.
      obtain rfl | hlo : lo = i + 1 ∨ lo ≤ i := by omega
      · have hle := (List.rdropWhile_prefix p (text.take i)).length_le
        rw [List.length_take] at hle
        rw [if_neg fun h => absurd h.1 (Nat.lt_irrefl _)]
        omega
      · rw [if_pos ⟨by omega, hp⟩, ih hlo (by omega)]
    · rw [if_neg fun h => hp h.2, if_neg hp, List.length_append, List.length_take,
        List.length_singleton]
      omega

/-- The walk on ends behind the run. -/
theorem forwardWhile_eq (p : α → Bool) (text : List α) (i : Nat) :
    forwardWhile p text i = i + ((text.drop i).takeWhile p).length := by
  fun_induction forwardWhile p text i with
  | case1 i h hp ih =>
    rw [ih, List.drop_eq_getElem_cons h, List.takeWhile_cons_of_pos hp, List.length_cons]
    omega
  | case2 i h hp =>
    rw [List.drop_eq_getElem_cons h, List.takeWhile_cons_of_neg hp, List.length_nil, Nat.add_zero]
  | case3 i h => rw [List.drop_eq_nil_of_le (Nat.not_lt.mp h), List.takeWhile_nil, List.length_nil,
      Nat.add_zero]

/-! ### Occurrences

An index stands for the text in front of it and the text behind it. The lemmas translate between an
occurrence at an index and a split of the text. -/

/-- A pattern that is not empty occurs inside the text. -/
theorem lt_length_of_prefix_drop {pat text : List α} (hpat : pat ≠ []) {q : Nat}
    (h : pat <+: text.drop q) : q < text.length := by
  have hlength := h.length_le
  have hpos := List.length_pos_iff.mpr hpat
  rw [List.length_drop] at hlength
  omega

/-- Occurrences of a pattern whose first character does not come back in it do not overlap. -/
theorem occurrences_apart {a : α} {t text : List α} (ha : a ∉ t) {p q : Nat}
    (hp : (a :: t) <+: text.drop p) (hq : (a :: t) <+: text.drop q) (hpq : p < q) :
    p + (a :: t).length ≤ q := by
  by_contra hover
  obtain ⟨v, hv⟩ := hp
  obtain ⟨w, hw⟩ := hq
  -- The character at `q` is the first one of the later occurrence, and lies inside the earlier.
  have hfirst : text[q]? = some a := by
    have hzero : (text.drop q)[0]? = some a := by
      rw [← hw]
      rfl
    rw [List.getElem?_drop, Nat.add_zero] at hzero
    exact hzero
  have hinside : text[q]? = t[q - p - 1]? := by
    have hshift : (text.drop p)[q - p]? = text[q]? := by
      rw [List.getElem?_drop]
      congr 1
      omega
    rw [List.length_cons] at hover
    rw [← hshift, ← hv, List.getElem?_append_left (by rw [List.length_cons]; omega),
      List.getElem?_cons, if_neg (by omega)]
  exact ha (List.mem_of_getElem? (hinside.symm.trans hfirst))

/-- An occurrence splits the text. -/
theorem split_of_prefix_drop {pat text : List α} (hpat : pat ≠ []) {p : Nat}
    (h : pat <+: text.drop p) :
    ∃ before after, text = before ++ pat ++ after ∧ before.length = p := by
  have hlt := lt_length_of_prefix_drop hpat h
  obtain ⟨after, hafter⟩ := h
  refine ⟨text.take p, after, ?_, ?_⟩
  · rw [List.append_assoc, hafter, List.take_append_drop]
  · rw [List.length_take]
    omega

/-- The text behind the split is an occurrence. -/
theorem prefix_drop_of_split {pat text before after : List α} (h : text = before ++ pat ++ after) :
    pat <+: text.drop before.length := by
  refine ⟨after, ?_⟩
  rw [h, List.append_assoc, List.drop_left]

/-- `b` is the value at the first occurrence from `i` on that yields one. -/
def FirstFrom (pat : List α) (body : Nat → Option β) (text : List α) (i : Nat) (b : β) : Prop :=
  ∃ p, i ≤ p ∧ pat <+: text.drop p ∧ body p = some b ∧
    ∀ q, i ≤ q → q < p → pat <+: text.drop q → body q = none

/-- The first value of a text, with the place of its occurrence as an index. -/
theorem firstAt_iff_firstFrom {pat text : List α} (hpat : pat ≠ [])
    {f : List α → List α → Option β} {body : Nat → Option β}
    (hbody : ∀ before after, text = before ++ pat ++ after → body before.length = f before after)
    {b : β} : FirstAt pat f text b ↔ FirstFrom pat body text 0 b := by
  constructor
  · rintro ⟨before, after, htext, hb, hfirst⟩
    refine ⟨before.length, Nat.zero_le _, prefix_drop_of_split htext,
      (hbody before after htext).trans hb, ?_⟩
    intro q _ hlt hq
    obtain ⟨before', after', htext', rfl⟩ := split_of_prefix_drop hpat hq
    exact (hbody before' after' htext').trans (hfirst before' after' htext' hlt)
  · rintro ⟨p, -, hp, hb, hfirst⟩
    obtain ⟨before, after, htext, rfl⟩ := split_of_prefix_drop hpat hp
    refine ⟨before, after, htext, (hbody before after htext).symm.trans hb, ?_⟩
    intro before' after' htext' hlt
    have hnone := hfirst before'.length (Nat.zero_le _) hlt (prefix_drop_of_split htext')
    exact (hbody before' after' htext').symm.trans hnone

variable [DecidableEq α]

/-- `find(pat, i)`: where the first occurrence from the index `i` on begins. -/
def findFrom (pat text : List α) (i : Nat) : Option Nat :=
  (List.range' i (text.length + 1 - i)).find? fun p => pat.isPrefixOf (text.drop p)

/-- A position that is found is the first one at or behind the start. -/
theorem findFrom_eq_some {pat text : List α} {i p : Nat} (h : findFrom pat text i = some p) :
    i ≤ p ∧ pat <+: text.drop p ∧ ∀ q, i ≤ q → q < p → ¬ pat <+: text.drop q := by
  obtain ⟨hstart, hmem, hfirst⟩ := List.find?_range'_eq_some.mp h
  refine ⟨(List.mem_range'_1.mp hmem).1, List.isPrefixOf_iff_prefix.mp hstart, ?_⟩
  intro q hiq hqp hq
  have hnot := hfirst q hiq hqp
  rw [List.isPrefixOf_iff_prefix.mpr hq] at hnot
  exact absurd hnot (by decide)

/-- If none is found there is none. -/
theorem findFrom_eq_none {pat text : List α} {i : Nat} (h : findFrom pat text i = none) {q : Nat}
    (hiq : i ≤ q) (hq : q ≤ text.length) : ¬ pat <+: text.drop q := by
  intro hprefix
  have hnone := List.find?_eq_none.mp h q (List.mem_range'_1.mpr ⟨hiq, by omega⟩)
  exact hnone (List.isPrefixOf_iff_prefix.mpr hprefix)

/-! ### The loop over the occurrences

The loop and the scan visit the same occurrences. -/

/-- The loop `while (i < text.size()) { p = find(pat, i); if (p == npos) break; body;
i = p + pat.size(); }` whose body returns the value that it finds. -/
def scanFrom (pat : List α) (hpat : pat ≠ []) (body : Nat → Option β) (text : List α) (i : Nat) :
    Option β :=
  if i < text.length then
    match _hfind : findFrom pat text i with
    | none   => none
    | some p =>
      match body p with
      | some b => some b
      | none   => scanFrom pat hpat body text (p + pat.length)
  else none
termination_by text.length - i
decreasing_by
  have hle := (findFrom_eq_some _hfind).1
  have hpos := List.length_pos_iff.mpr hpat
  omega

/-- The loop resumes behind an occurrence without a value and misses none. -/
theorem scanFrom_eq_some {a : α} {t : List α} (ha : a ∉ t) {hpat : a :: t ≠ []}
    {body : Nat → Option β} {text : List α} {i : Nat} {b : β} :
    scanFrom (a :: t) hpat body text i = some b ↔ FirstFrom (a :: t) body text i b := by
  fun_induction scanFrom (a :: t) hpat body text i with
  | case1 i hlt hnone =>
    constructor
    · intro h
      exact absurd h (by simp)
    · rintro ⟨p, hip, hp, -⟩
      have hle := Nat.le_of_lt (lt_length_of_prefix_drop hpat hp)
      exact absurd hp (findFrom_eq_none hnone hip hle)
  | case2 i hlt p hfind b' hb' =>
    obtain ⟨hip, hp, hfirst⟩ := findFrom_eq_some hfind
    constructor
    · intro h
      exact ⟨p, hip, hp, hb'.trans h, fun q hiq hqp hq => absurd hq (hfirst q hiq hqp)⟩
    · rintro ⟨p', hip', hp', hb, hbefore⟩
      -- The value is at `p` already, so the first value is not further right.
      obtain hlt | rfl | hgt := Nat.lt_trichotomy p' p
      · exact absurd hp' (hfirst p' hip' hlt)
      · exact hb'.symm.trans hb
      · exact absurd (hb'.symm.trans (hbefore p hip hgt hp)) (by simp)
  | case3 i hlt p hfind hnone ih =>
    obtain ⟨hip, hp, hfirst⟩ := findFrom_eq_some hfind
    rw [ih]
    constructor
    · rintro ⟨p', hpp', hp', hb, hbefore⟩
      refine ⟨p', by omega, hp', hb, ?_⟩
      intro q hiq hqp' hq
      obtain hlt | rfl | hgt := Nat.lt_trichotomy q p
      · exact absurd hq (hfirst q hiq hlt)
      · exact hnone
      · exact hbefore q (occurrences_apart ha hp hq hgt) hqp' hq
    · rintro ⟨p', hip', hp', hb, hbefore⟩
      obtain hlt | rfl | hgt := Nat.lt_trichotomy p' p
      · exact absurd hp' (hfirst p' hip' hlt)
      · exact absurd (hb.symm.trans hnone) (by simp)
      · refine ⟨p', occurrences_apart ha hp hp' hgt, hp', hb, ?_⟩
        intro q hpq hqp' hq
        exact hbefore q (by omega) hqp' hq
  | case4 i hge =>
    constructor
    · intro h
      exact absurd h (by simp)
    · rintro ⟨p, hip, hp, -⟩
      have hlt := lt_length_of_prefix_drop hpat hp
      omega

/-- The loop by index finds what `scan` finds. -/
theorem scanFrom_eq_scan {a : α} {t text : List α} (ha : a ∉ t) {hpat : a :: t ≠ []}
    {f : List α → List α → Option β} {body : Nat → Option β}
    (hbody : ∀ before after, text = before ++ a :: t ++ after →
      body before.length = f before after) :
    scanFrom (a :: t) hpat body text 0 = scan (a :: t) f 0 [] text := by
  apply Option.ext
  intro b
  rw [scanFrom_eq_some ha, scan_eq_some ha, firstAt_iff_firstFrom hpat hbody]

/-! ### The first occurrence -/

/-- A text without the pattern, then characters that a pattern has not inside or not at its end:
the first occurrence is the one behind. -/
theorem firstAt_of_last {u w t after : List α} {d z : α} {f : List α → List α → Option β} {b : β}
    (hu : contains u (t ++ [z]) = false) (hd : d ∉ (t ++ [z]).tail) (hz : z ∉ d :: w ++ t)
    (hb : f (u ++ d :: w) after = some b) :
    FirstAt (t ++ [z]) f (u ++ d :: w ++ (t ++ [z]) ++ after) b := by
  refine ⟨u ++ d :: w, after, rfl, hb, ?_⟩
  intro before' after' htext hlt
  -- An earlier occurrence ends in front of the last character of the pattern.
  have hearly : (t ++ [z]) <:+: u ++ d :: (w ++ t) := by
    have hprefix : before' ++ (t ++ [z]) <+: u ++ d :: w ++ t := by
      have hshorter : before' ++ (t ++ [z]) <+: u ++ d :: w ++ (t ++ [z]) ++ after :=
        ⟨after', htext.symm⟩
      refine List.prefix_of_prefix_length_le hshorter ⟨[z] ++ after, by simp⟩ ?_
      rw [List.length_append, List.length_append, List.length_append, List.length_singleton]
      omega
    have hsame : u ++ d :: w ++ t = u ++ d :: (w ++ t) := by simp
    rw [hsame] at hprefix
    exact (List.suffix_append before' (t ++ [z])).isInfix.trans hprefix.isInfix
  obtain hcontains | hcontains := (contains_append_cons hd u (w ++ t)).mp (contains_iff.mpr hearly)
  · exact absurd (hu.symm.trans hcontains) (by decide)
  · have hmem : z ∈ d :: (w ++ t) := (contains_iff.mp hcontains).subset (by simp)
    exact absurd hmem hz

end AiMidi.Lib
