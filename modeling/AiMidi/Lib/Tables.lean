import Mathlib.Data.List.Basic

/-!
# `AiMidi.Lib.Tables`: lookups with a default

A constant map of the source is the list of its entries. What all entries have, and the default
too, every lookup has (`getD_lookup`).
-/

set_option autoImplicit false

namespace AiMidi.Lib

variable {κ α : Type} [BEq κ] [LawfulBEq κ] {table : List (κ × α)}

/-- What is looked up is an entry of the table. -/
theorem mem_of_lookup {k : κ} {a : α} (h : table.lookup k = some a) : (k, a) ∈ table := by
  obtain ⟨before, after, rfl, -⟩ := List.lookup_eq_some_iff.mp h
  exact List.mem_append_right before List.mem_cons_self

/-- What holds of all entries and of the default holds of every result. -/
theorem getD_lookup {P : α → Prop} {default : α} (htable : ∀ entry ∈ table, P entry.2)
    (hdefault : P default) (k : κ) : P ((table.lookup k).getD default) := by
  cases h : table.lookup k with
  | none => exact hdefault
  | some a => exact htable (k, a) (mem_of_lookup h)

end AiMidi.Lib
