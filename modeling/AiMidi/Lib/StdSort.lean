import Mathlib.Data.List.Sort

/-!
# `AiMidi.Lib.StdSort`: an unstable sort

`std::sort` permutes its input into an ordered list and promises nothing about elements
that compare equal. `StdSort lt` is that contract: a function together with the proofs that
its result is a permutation of the input and has no element smaller than an earlier one.
A result proved for every `StdSort lt` holds for every implementation of `std::sort`.
-/

set_option autoImplicit false

namespace AiMidi.Lib

/-- An implementation of `std::sort` for the strict order `lt`. -/
structure StdSort {α : Type} (lt : α → α → Bool) where
  sort : List α → List α
  perm : ∀ l, (sort l).Perm l
  sorted : ∀ l, (sort l).Pairwise fun a b => lt b a = false

namespace StdSort

variable {α : Type} {lt : α → α → Bool}

/-- Sorting keeps the elements. -/
@[simp] theorem mem_sort (std : StdSort lt) (l : List α) (a : α) : a ∈ std.sort l ↔ a ∈ l :=
  (std.perm l).mem_iff

/-- And their number. -/
@[simp] theorem length_sort (std : StdSort lt) (l : List α) :
    (std.sort l).length = l.length :=
  (std.perm l).length_eq

/-- Insertion sort is one implementation, for every comparator whose "not greater" relation
is transitive and total. -/
def ofInsertionSort (lt : α → α → Bool)
    (trans : ∀ a b c, lt b a = false → lt c b = false → lt c a = false)
    (total : ∀ a b, lt b a = false ∨ lt a b = false) : StdSort lt where
  sort l := l.insertionSort fun a b => lt b a = false
  perm l := List.perm_insertionSort _ l
  sorted l :=
    have : IsTrans α fun a b => lt b a = false := ⟨trans⟩
    have : Std.Total fun a b : α => lt b a = false := ⟨total⟩
    List.pairwise_insertionSort _ l

end StdSort

end AiMidi.Lib
