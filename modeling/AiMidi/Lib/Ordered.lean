import Mathlib.Algebra.Order.BigOperators.Group.List

/-!
# `AiMidi.Lib.Ordered`: searches in ordered lists, and lists ordered entry by entry

In a list ordered by a key, the first element that a search finds has the smallest key
(`find?_le`), and a search behind an element is a search of the whole list for what is beyond
that element (`find?_behind`).

Two lists with the same entries, one below the other entry by entry, are the same
(`eq_of_perm_of_le`).
-/

set_option autoImplicit false

namespace AiMidi.Lib

variable {α : Type}

/-- The first element of a search in an ordered list is the smallest that it could find. -/
theorem find?_le {l : List α} {p : α → Bool} {key : α → Nat}
    (h : l.Pairwise fun a b => key a ≤ key b) {a b : α} (hfind : l.find? p = some a)
    (hb : b ∈ l) (hp : p b = true) : key a ≤ key b := by
  obtain ⟨-, before, after, rfl, hbefore⟩ := List.find?_eq_some_iff_append.mp hfind
  obtain hmem | hmem := List.mem_append.mp hb
  · have hnot := hbefore b hmem
    rw [hp] at hnot
    exact absurd hnot (by decide)
  · obtain rfl | hmem := List.mem_cons.mp hmem
    · exact Nat.le_refl _
    · exact (List.pairwise_cons.mp (List.pairwise_append.mp h).2.1).1 b hmem

/-- A search looks at the elements of its list only. -/
theorem find?_agree {l : List α} {p q : α → Bool} (h : ∀ a ∈ l, p a = q a) :
    l.find? p = l.find? q := by
  induction l with
  | nil => rfl
  | cons a l ih =>
    rw [List.find?_cons, List.find?_cons, h a List.mem_cons_self,
      ih fun b hb => h b (List.mem_cons_of_mem _ hb)]

/-- What is found behind an element, when nothing up to it qualifies. -/
theorem find?_behind {before after : List α} {a : α} {p q : α → Bool}
    (hbefore : ∀ b ∈ before, p b = false) (ha : p a = false) (hafter : ∀ b ∈ after, p b = q b) :
    (before ++ a :: after).find? p = after.find? q := by
  have hnone : before.find? p = none := by
    rw [List.find?_eq_none]
    intro b hb
    rw [hbefore b hb]
    decide
  rw [List.find?_append, hnone, Option.none_or, List.find?_cons, ha, find?_agree hafter]

/-- Entries that are below others come out as the same list only if they are equal to them. -/
theorem eq_of_perm_of_le {l : List α} {f g : α → Int} (hle : ∀ a ∈ l, f a ≤ g a)
    (h : (l.map f).Perm (l.map g)) : ∀ a ∈ l, f a = g a := by
  intro a ha
  by_contra hne
  -- One entry that is smaller makes the sum smaller.
  have hlt : (l.map f).sum < (l.map g).sum :=
    List.sum_lt_sum f g hle ⟨a, ha, lt_of_le_of_ne (hle a ha) hne⟩
  exact absurd h.sum_eq (ne_of_lt hlt)

end AiMidi.Lib
