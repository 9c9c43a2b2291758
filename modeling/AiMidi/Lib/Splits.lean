import Mathlib.Data.List.Basic

/-!
# `AiMidi.Lib.Splits`: an element of a list in its place

`Splits l P` says that some element of `l`, seen with what lies in front of it and what lies
behind it, satisfies `P`. The rules follow the way a list is put together (`splits_cons`,
`splits_append`).
-/

set_option autoImplicit false

namespace AiMidi.Lib

variable {α : Type} {P Q : List α → α → List α → Prop}

/-- Some element satisfies `P` with the elements in front of it and behind it. -/
def Splits (l : List α) (P : List α → α → List α → Prop) : Prop :=
  ∃ pre a post, l = pre ++ a :: post ∧ P pre a post

/-- An empty list cannot be split at an element. -/
theorem splits_nil : ¬ Splits [] P := fun ⟨_, _, _, h, _⟩ => by simp at h

/-- It is split at the first element or behind it. -/
theorem splits_cons {a : α} {l : List α} :
    Splits (a :: l) P ↔ P [] a l ∨ Splits l fun pre b post => P (a :: pre) b post := by
  constructor
  · rintro ⟨pre, b, post, h, hP⟩
    cases pre with
    | nil =>
      obtain ⟨rfl, rfl⟩ := List.cons.inj h
      exact .inl hP
    | cons c pre =>
      obtain ⟨rfl, rfl⟩ := List.cons.inj h
      exact .inr ⟨pre, b, post, rfl, hP⟩
  · rintro (hP | ⟨pre, b, post, rfl, hP⟩)
    · exact ⟨[], a, l, rfl, hP⟩
    · exact ⟨a :: pre, b, post, rfl, hP⟩

/-- One element leaves one split. -/
theorem splits_singleton {a : α} : Splits [a] P ↔ P [] a [] :=
  splits_cons.trans (or_iff_left splits_nil)

/-- A split of two lists is one of the first or of the second. -/
theorem splits_append {l l' : List α} :
    Splits (l ++ l') P ↔ (Splits l fun pre a post => P pre a (post ++ l')) ∨
      Splits l' fun pre a post => P (l ++ pre) a post := by
  induction l generalizing P with
  | nil => exact (or_iff_right splits_nil).symm
  | cons a l ih => rw [List.cons_append, splits_cons, splits_cons, ih, or_assoc]; rfl

/-- Two conditions that agree at every place of the list. -/
theorem splits_congr {l : List α}
    (h : ∀ pre a post, l = pre ++ a :: post → (P pre a post ↔ Q pre a post)) :
    Splits l P ↔ Splits l Q :=
  exists_congr fun pre => exists_congr fun a => exists_congr fun post =>
    and_congr_right fun hl => h pre a post hl

/-- A condition on the element alone. -/
theorem splits_mem {l : List α} {p : α → Prop} : (Splits l fun _ a _ => p a) ↔ ∃ a ∈ l, p a := by
  constructor
  · rintro ⟨pre, a, post, rfl, h⟩
    exact ⟨a, by simp, h⟩
  · rintro ⟨a, ha, h⟩
    obtain ⟨pre, post, rfl⟩ := List.append_of_mem ha
    exact ⟨pre, a, post, rfl, h⟩

end AiMidi.Lib
