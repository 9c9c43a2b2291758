import Mathlib.Data.List.Induction
import Mathlib.Data.List.Nodup

/-!
# `AiMidi.Lib.Recent`: a bounded list of what was used last

`remember k` moves an entry to the front of such a list, and cuts the list to `k` entries. What is
cut off can come back only when it is used again, so it does not matter whether the list is cut at
every step or once at the end (`foldl_remember`).
-/

set_option autoImplicit false

namespace AiMidi.Lib

variable {α : Type} [DecidableEq α]

/-- The entry at the front, and the others behind it. -/
def remember (k : Nat) (recent : List α) (x : α) : List α := (x :: recent.filter (· ≠ x)).take k

/-- The entries without those that were there before. -/
def distinct : List α → List α
  | []      => []
  | x :: xs => x :: (distinct xs).filter (· ≠ x)

/-- No element comes twice. -/
theorem nodup_distinct (xs : List α) : (distinct xs).Nodup := by
  induction xs with
  | nil => exact List.nodup_nil
  | cons x xs ih =>
    refine List.nodup_cons.mpr ⟨fun hmem => ?_, ih.filter _⟩
    exact of_decide_eq_true (List.mem_filter.mp hmem).2 rfl

/-- Of a list without repetitions, one entry fewer in front leaves room for one more. -/
theorem take_filter_take {xs : List α} (h : xs.Nodup) (k : Nat) (x : α) :
    ((xs.take (k + 1)).filter (· ≠ x)).take k = (xs.filter (· ≠ x)).take k := by
  induction xs generalizing k with
  | nil => rfl
  | cons y ys ih =>
    obtain ⟨hy, hys⟩ := List.nodup_cons.mp h
    rw [List.take_succ_cons]
    by_cases hxy : y = x
    · subst hxy
      -- No later entry is filtered out.
      have hall : ∀ z ∈ ys, decide (z ≠ y) = true := fun z hz =>
        decide_eq_true fun heq => hy (heq ▸ hz)
      rw [List.filter_cons_of_neg (by simp), List.filter_cons_of_neg (by simp),
        List.filter_eq_self.mpr hall, List.filter_eq_self.mpr fun z hz =>
          hall z (List.mem_of_mem_take hz), List.take_take, Nat.min_self]
    · rw [List.filter_cons_of_pos (by simpa using hxy),
        List.filter_cons_of_pos (by simpa using hxy)]
      cases k with
      | zero => rfl
      | succ k => rw [List.take_succ_cons, List.take_succ_cons, ih hys]

/-- Cutting the list before an entry is remembered changes nothing. -/
theorem remember_take {xs : List α} (h : xs.Nodup) (k : Nat) (x : α) :
    remember k (xs.take k) x = (x :: xs.filter (· ≠ x)).take k := by
  cases k with
  | zero => rfl
  | succ k => rw [remember, List.take_succ_cons, List.take_succ_cons, take_filter_take h]

/-- What is remembered of a sequence of entries: the last ones, each once. -/
theorem foldl_remember (k : Nat) (xs : List α) :
    xs.foldl (remember k) [] = (distinct xs.reverse).take k := by
  induction xs using List.reverseRecOn with
  | nil => rw [List.foldl_nil, List.reverse_nil, distinct, List.take_nil]
  | append_singleton xs x ih =>
    rw [List.foldl_append, List.foldl_cons, List.foldl_nil, ih, remember_take (nodup_distinct _),
      List.reverse_append, List.reverse_singleton, List.singleton_append, distinct]

end AiMidi.Lib
