import Mathlib.Logic.Function.Basic
import Mathlib.Data.List.Basic

/-!
# `AiMidi.Lib.Sounding`: which notes sound after a stream of edges

An `Edge κ` switches the note `k : κ` on or off. `play` runs a stream from silence and says
which notes sound at its end. `Released` is the order property: behind every `on k` of the
stream there is an `off k`. `released_iff_silent` says that the two agree: the stream ends
in silence exactly when every note on is released later.
-/

set_option autoImplicit false

namespace AiMidi.Lib

/-- A note is switched on or off. -/
inductive Edge (κ : Type) where
  | on (k : κ)
  | off (k : κ)

namespace Edge

variable {κ : Type} [DecidableEq κ]

/-- One edge on the set of sounding notes. -/
def apply (sounds : κ → Bool) : Edge κ → κ → Bool
  | .on k  => Function.update sounds k true
  | .off k => Function.update sounds k false

/-- The sounding notes after a stream that starts in silence. -/
def play (edges : List (Edge κ)) : κ → Bool := edges.foldl apply fun _ => false

/-- Behind every note on there is a note off of the same note. -/
def Released (edges : List (Edge κ)) : Prop :=
  ∀ before after k, edges = before ++ .on k :: after → .off k ∈ after

/-- Whether the note `k` sounds after a stream: it is switched on and not off behind that, or
it sounded before and is not switched off. -/
theorem foldl_apply_eq_true_iff (edges : List (Edge κ)) (sounds : κ → Bool) (k : κ) :
    edges.foldl apply sounds k = true ↔
      (∃ before after, edges = before ++ .on k :: after ∧ .off k ∉ after) ∨
        (sounds k = true ∧ .off k ∉ edges) := by
  induction edges generalizing sounds with
  | nil => simp
  | cons e edges ih =>
    rw [List.foldl_cons, ih]
    constructor
    -- `k` sounds after `e` and is not switched off: either `e` switched it on, or `e` left it.
    · rintro (⟨before, after, rfl, hoff⟩ | ⟨hsounds, hoff⟩)
      · exact Or.inl ⟨e :: before, after, rfl, hoff⟩
      · cases e with
        | on j =>
          by_cases hj : k = j
          · subst hj
            exact Or.inl ⟨[], edges, rfl, hoff⟩
          · refine Or.inr ⟨by simpa [apply, hj] using hsounds, by simpa using hoff⟩
        | off j =>
          by_cases hj : k = j
          · subst hj
            exact absurd hsounds (by simp [apply])
          · refine Or.inr ⟨by simpa [apply, hj] using hsounds, ?_⟩
            simpa [hj] using hoff
    -- Conversely, the note on in question is `e` itself or one of the later edges.
    · rintro (⟨before, after, heq, hoff⟩ | ⟨hsounds, hoff⟩)
      · cases before with
        | nil =>
          obtain ⟨rfl, rfl⟩ := List.cons.inj heq
          exact Or.inr ⟨by simp [apply], hoff⟩
        | cons e' before =>
          obtain ⟨rfl, rfl⟩ := List.cons.inj heq
          exact Or.inl ⟨before, after, rfl, hoff⟩
      · obtain ⟨hne, hoff'⟩ := not_or.mp (mt List.mem_cons.mpr hoff)
        refine Or.inr ⟨?_, hoff'⟩
        cases e with
        | on j =>
          by_cases hj : k = j
          · simp [apply, hj]
          · simpa [apply, hj] using hsounds
        | off j =>
          have hj : k ≠ j := fun h => hne (h ▸ rfl)
          simpa [apply, hj] using hsounds

/-- A stream ends in silence exactly when every note on in it is released later. -/
theorem released_iff_silent (edges : List (Edge κ)) :
    Released edges ↔ ∀ k, play edges k = false := by
  -- From silence, only the first disjunct is left.
  have hplay : ∀ k, play edges k = true ↔
      ∃ before after, edges = before ++ .on k :: after ∧ .off k ∉ after := by
    intro k
    rw [play, foldl_apply_eq_true_iff]
    simp
  constructor
  · intro h k
    rw [Bool.eq_false_iff, ne_eq, hplay]
    rintro ⟨before, after, heq, hoff⟩
    exact hoff (h before after k heq)
  · intro h before after k heq
    by_contra hoff
    have htrue := (hplay k).mpr ⟨before, after, heq, hoff⟩
    rw [h k] at htrue
    exact absurd htrue (by simp)

end Edge

end AiMidi.Lib
