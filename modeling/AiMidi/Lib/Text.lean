import Mathlib.Data.List.Basic

/-!
# `AiMidi.Lib.Text`: searching in text

A text is a list of characters of any type. `contains` is the substring test of C++
`find(..) != npos` and Go `strings.Contains`.

`scan` is the loop `while ((p = find(pat, i)) != npos) { ...; i = p + pat.size(); }` that
looks at each occurrence of `pat` and stops at the first one that yields a value. For a
pattern whose first character does not come back in it, no occurrence is skipped:
`scan_eq_some` says in terms of the text alone what the loop finds.
-/

set_option autoImplicit false

namespace AiMidi.Lib

variable {α β : Type}

section

variable [DecidableEq α]

/-- The pattern occurs in the text. -/
def contains : List α → List α → Bool
  | [], pat      => pat.isEmpty
  | c :: cs, pat => pat.isPrefixOf (c :: cs) || contains cs pat

/-- A text contains what is an infix of it. -/
theorem contains_iff {text pat : List α} : contains text pat = true ↔ pat <:+: text := by
  induction text with
  | nil =>
    rw [contains, List.isEmpty_iff, List.infix_nil]
  | cons c cs ih =>
    rw [contains, Bool.or_eq_true, ih, List.isPrefixOf_iff_prefix, List.infix_cons_iff]

/-- A text that contains a pattern contains the beginning of it. -/
theorem contains_of_append {text pat : List α} (rest : List α)
    (h : contains text (pat ++ rest) = true) : contains text pat = true := by
  rw [contains_iff] at h ⊢
  exact (List.infix_append [] pat rest).trans h

/-- A pattern in which the first character of the second text does not come back lies in one of
the two texts. -/
theorem contains_append_cons {k : α} {pat : List α} (hk : k ∉ pat.tail) (before after : List α) :
    contains (before ++ k :: after) pat = true ↔
      contains before pat = true ∨ contains (k :: after) pat = true := by
  simp only [contains_iff]
  constructor
  · rintro ⟨u, v, h⟩
    rw [List.append_assoc, List.append_eq_append_iff] at h
    obtain ⟨a, hbefore, hafter⟩ | ⟨c, hu, hafter⟩ := h
    · -- The pattern starts in the first text.
      rw [List.append_eq_append_iff] at hafter
      obtain ⟨b, ha, -⟩ | ⟨p, hpat, hrest⟩ := hafter
      · exact Or.inl ⟨u, b, by rw [hbefore, ha, List.append_assoc]⟩
      · cases a with
        -- The pattern ends behind the first text: it cannot reach over `k`, which is not in its
        -- tail.
        | nil =>
          right
          exact ⟨[], v, by simpa [hpat] using hrest.symm⟩
        | cons x a =>
          cases p with
          | nil => exact Or.inl ⟨u, [], by simp [hbefore, hpat]⟩
          | cons y p =>
            obtain ⟨rfl, -⟩ := List.cons.inj hrest
            exact absurd (by simp [hpat]) hk
    · exact Or.inr ⟨c, v, by rw [List.append_assoc, hafter]⟩
  · rintro (h | h)
    · exact h.trans (List.prefix_append _ _).isInfix
    · exact h.trans (List.suffix_append _ _).isInfix

/-! ### The loop over the occurrences

A loop that searches a text resumes behind the occurrence that it has found. For patterns that do
not overlap with themselves it comes by every occurrence. -/

/-- The first value that `f before after` yields at an occurrence of `pat`, from left to
right. `before` is the text already passed. After an occurrence the loop skips the rest of
it. -/
def scan (pat : List α) (f : List α → List α → Option β) :
    (skip : Nat) → (before text : List α) → Option β
  | _, _, [] => none
  | skip + 1, before, c :: cs => scan pat f skip (before ++ [c]) cs
  | 0, before, c :: cs =>
    if pat.isPrefixOf (c :: cs) then
      match f before ((c :: cs).drop pat.length) with
      | some b => some b
      | none   => scan pat f (pat.length - 1) (before ++ [c]) cs
    else scan pat f 0 (before ++ [c]) cs

/-- `rfind`: where the last occurrence of `pat` begins. -/
def rfind (pat : List α) : List α → Option Nat
  | [] => if pat.isEmpty then some 0 else none
  | c :: cs =>
    match rfind pat cs with
    | some p => some (p + 1)
    | none   => if pat.isPrefixOf (c :: cs) then some 0 else none

end

/-- `b` is the value at the first occurrence of the pattern that yields one. -/
def FirstAt (pat : List α) (f : List α → List α → Option β) (text : List α) (b : β) : Prop :=
  ∃ before after, text = before ++ pat ++ after ∧ f before after = some b ∧
    ∀ before' after', text = before' ++ pat ++ after' → before'.length < before.length →
      f before' after' = none

/-- An occurrence at the very front that yields a value is the first one. -/
theorem firstAt_front_iff {pat : List α} {f : List α → List α → Option β} {after : List α}
    {b b' : β} (h : f [] after = some b') : FirstAt pat f (pat ++ after) b ↔ b' = b := by
  constructor
  · rintro ⟨before, after', htext, hb, hfirst⟩
    -- An occurrence further right is excluded: the one at the front comes before it.
    by_cases hnil : before = []
    · subst hnil
      rw [List.nil_append, List.append_cancel_left_eq] at htext
      rw [← htext, h] at hb
      exact Option.some.inj hb
    · have hnone := hfirst [] after rfl (List.length_pos_of_ne_nil hnil)
      exact absurd (h.symm.trans hnone) (by simp)
  · rintro rfl
    exact ⟨[], after, rfl, h, fun _ _ _ hlt => absurd hlt (Nat.not_lt_zero _)⟩

/-- When nothing at the very front yields a value, the first character can be passed. -/
theorem firstAt_cons_iff {pat : List α} {f : List α → List α → Option β} {c : α}
    {cs : List α} {b : β} (h : ∀ after, c :: cs = pat ++ after → f [] after = none) :
    FirstAt pat f (c :: cs) b ↔ FirstAt pat (fun before => f (c :: before)) cs b := by
  constructor
  · rintro ⟨before, after, htext, hb, hfirst⟩
    cases before with
    | nil => exact absurd (hb.symm.trans (h after htext)) (by simp)
    | cons d before =>
      obtain ⟨hc, hcs⟩ := List.cons.inj htext
      subst hc
      refine ⟨before, after, hcs, hb, fun before' after' htext' hlt => ?_⟩
      exact hfirst (c :: before') after' (by rw [htext']; rfl) (Nat.succ_lt_succ hlt)
  · rintro ⟨before, after, htext, hb, hfirst⟩
    refine ⟨c :: before, after, by rw [htext]; rfl, hb, fun before' after' htext' hlt => ?_⟩
    -- An earlier occurrence at the front is the case that `h` excludes.
    cases before' with
    | nil => exact h after' htext'
    | cons d before' =>
      obtain ⟨hc, hcs⟩ := List.cons.inj htext'
      subst hc
      exact hfirst before' after' hcs (Nat.lt_of_succ_lt_succ hlt)

variable [DecidableEq α]

/-- The loop finds the first value. The characters it skips come from behind the first
character of the pattern, so no occurrence starts among them. -/
theorem scan_eq_some_from {a : α} {t : List α} (ha : a ∉ t)
    {f : List α → List α → Option β} {b : β} {text : List α} :
    ∀ {skip : Nat} {before : List α}, (∀ c ∈ text.take skip, c ∈ t) →
      (scan (a :: t) f skip before text = some b ↔
        FirstAt (a :: t) (fun u => f (before ++ u)) text b) := by
  induction text with
  | nil =>
    intro skip before _
    constructor
    · intro h
      exact absurd h (by simp [scan])
    · rintro ⟨u, v, htext, -⟩
      exact absurd htext (by simp)
  | cons c cs ih =>
    intro skip before hskip
    -- The loop passes `c` to its `before`. `firstAt_cons_iff` passes it to the argument of `f`.
    have hshift : (fun u => f (before ++ [c] ++ u)) = fun u => f (before ++ c :: u) := by
      funext u
      rw [List.append_assoc, List.singleton_append]
    cases skip with
    | succ skip =>
      -- `c` is skipped, so it lies in `t`, and no occurrence starts with it.
      have hc : c ∈ t := hskip c (by simp)
      rw [scan, ih (fun d hd => hskip d (by simp [hd])), hshift]
      refine (firstAt_cons_iff (f := fun u => f (before ++ u)) fun after htext => ?_).symm
      obtain ⟨rfl, -⟩ := List.cons.inj htext
      exact absurd hc ha
    | zero =>
      rw [scan]
      split
      · rename_i hprefix
        obtain ⟨v, hv⟩ := List.isPrefixOf_iff_prefix.mp hprefix
        rw [← hv, List.drop_left]
        split
        · rename_i b' hb'
          -- The occurrence yields a value, and the loop stops here.
          rw [firstAt_front_iff (by simpa using hb'), Option.some.injEq]
        · rename_i hnone
          -- It yields none. The rest of it is `t`, which is what the loop skips next.
          have hcs : cs = t ++ v := (List.cons.inj hv).2.symm
          have hca : a = c := (List.cons.inj hv).1
          rw [hv, ih (by simp [hcs]), hshift]
          refine (firstAt_cons_iff (f := fun u => f (before ++ u)) fun after htext => ?_).symm
          rw [← hv, List.append_cancel_left_eq] at htext
          rw [← htext, List.append_nil, hnone]
      · rename_i hprefix
        -- No occurrence starts here.
        rw [ih (by simp), hshift]
        refine (firstAt_cons_iff (f := fun u => f (before ++ u)) fun after htext => ?_).symm
        exact absurd (List.isPrefixOf_iff_prefix.mpr ⟨after, htext.symm⟩) hprefix

/-- What the loop over a text finds. -/
theorem scan_eq_some {a : α} {t : List α} (ha : a ∉ t) {f : List α → List α → Option β}
    {text : List α} {b : β} :
    scan (a :: t) f 0 [] text = some b ↔ FirstAt (a :: t) f text b :=
  scan_eq_some_from ha (by simp)

/-- A value that the loop finds is the value at some occurrence. -/
theorem exists_of_scan_eq_some {a : α} {t : List α} (ha : a ∉ t)
    {f : List α → List α → Option β} {text : List α} {b : β}
    (h : scan (a :: t) f 0 [] text = some b) : ∃ before after, f before after = some b := by
  obtain ⟨before, after, -, hb, -⟩ := (scan_eq_some ha).mp h
  exact ⟨before, after, hb⟩

end AiMidi.Lib
