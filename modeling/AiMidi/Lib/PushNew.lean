import Mathlib.Data.List.Nodup

/-!
# `AiMidi.Lib.PushNew`: a list without repetitions

The loop that appends an element to a list when it meets a condition and is not there yet.
`mem_pushNew` and `nodup_pushNew` say what it leaves, and `pushNew_of_nodup` when it leaves
everything as it is.
-/

set_option autoImplicit false

namespace AiMidi.Lib

variable {α : Type} [BEq α] [LawfulBEq α]

/-- `for (a : xs) if (p(a) && find(out, a) == end) out.push_back(a)`. -/
def pushNew (p : α → Bool) (xs : List α) : List α :=
  xs.foldl (fun out a => if p a && !out.contains a then out ++ [a] else out) []

/-- An element is pushed exactly when the predicate accepts it. -/
theorem mem_pushNew {p : α → Bool} {xs : List α} {x : α} :
    x ∈ pushNew p xs ↔ x ∈ xs ∧ p x = true := by
  -- Generalised over what has been pushed so far.
  have hfold : ∀ out : List α,
      x ∈ xs.foldl (fun out a => if p a && !out.contains a then out ++ [a] else out) out ↔
        x ∈ out ∨ (x ∈ xs ∧ p x = true) := by
    induction xs with
    | nil => simp
    | cons a xs ih =>
      intro out
      rw [List.foldl_cons, ih]
      by_cases ha : p a && !out.contains a
      · rw [if_pos ha, List.mem_append, List.mem_singleton, List.mem_cons]
        rw [Bool.and_eq_true] at ha
        grind
      · rw [if_neg ha, List.mem_cons]
        rw [Bool.and_eq_true, Bool.not_eq_true', ← Bool.not_eq_true, List.contains_iff_mem] at ha
        grind
  rw [pushNew, hfold]
  simp

/-- And none is pushed twice. -/
theorem nodup_pushNew (p : α → Bool) (xs : List α) : (pushNew p xs).Nodup := by
  have hfold : ∀ out : List α, out.Nodup →
      (xs.foldl (fun out a => if p a && !out.contains a then out ++ [a] else out) out).Nodup := by
    induction xs with
    | nil => exact fun _ h => h
    | cons a xs ih =>
      intro out hout
      rw [List.foldl_cons]
      apply ih
      split
      · rename_i ha
        rw [Bool.and_eq_true, Bool.not_eq_true', ← Bool.not_eq_true, List.contains_iff_mem] at ha
        exact (List.perm_append_singleton a out).nodup_iff.mpr (List.nodup_cons.mpr ⟨ha.2, hout⟩)
      · exact hout
  exact hfold [] List.nodup_nil

/-- A list without repetitions whose elements all meet the condition. -/
theorem pushNew_of_nodup {p : α → Bool} {xs : List α} (hall : ∀ x ∈ xs, p x = true)
    (hnodup : xs.Nodup) : pushNew p xs = xs := by
  -- What has been pushed so far is carried along. Nothing of the rest is in it, so each element is
  -- pushed.
  have hfold : ∀ out : List α, (out ++ xs).Nodup →
      xs.foldl (fun out a => if p a && !out.contains a then out ++ [a] else out) out
        = out ++ xs := by
    induction xs with
    | nil => simp
    | cons a xs ih =>
      intro out hout
      have hnew : a ∉ out := by
        have hdisjoint := List.disjoint_of_nodup_append hout
        exact fun hmem => hdisjoint hmem List.mem_cons_self
      have hpush : (p a && !out.contains a) = true := by
        rw [hall a List.mem_cons_self]
        simpa using hnew
      rw [List.foldl_cons, if_pos hpush, ih (fun x hx => hall x (List.mem_cons_of_mem a hx))
        (List.nodup_cons.mp hnodup).2 (out ++ [a]) (by simpa using hout)]
      simp
  exact hfold [] hnodup

end AiMidi.Lib
