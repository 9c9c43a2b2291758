import Mathlib.Data.List.Basic

/-!
# `AiMidi.Lib.Transition`: runs of a labelled transition system

A `System` has initial states and labelled steps. `System.Run past s` is a finite run that
ends in `s`. `past` lists its steps from the newest to the oldest, each with the state it led
to.

`Run.invariant` is the induction rule: a property of the initial states that every step
keeps holds at the end of every run. It may speak of the past as well.
`HeldSince start P past` is the past-time form of "at some moment since the last step that
`start` selects": `P` held in a state that one of those steps led to.
-/

set_option autoImplicit false

namespace AiMidi.Lib

/-- A labelled transition system. -/
structure System (σ α : Type) where
  init : σ → Prop
  step : σ → α → σ → Prop

namespace System

variable {σ α : Type} {S : System σ α}

/-- A finite run, with its steps from the newest to the oldest. -/
inductive Run (S : System σ α) : List (α × σ) → σ → Prop where
  | start {s : σ} (h : S.init s) : Run S [] s
  | snoc {past : List (α × σ)} {s s' : σ} {a : α} (hrun : Run S past s) (h : S.step s a s') :
      Run S ((a, s') :: past) s'

/-- A property of the initial states that every step keeps holds at the end of a run. -/
theorem Run.invariant {I : List (α × σ) → σ → Prop} (hinit : ∀ s, S.init s → I [] s)
    (hstep : ∀ past s a s', Run S past s → I past s → S.step s a s' → I ((a, s') :: past) s')
    {past : List (α × σ)} {s : σ} (h : Run S past s) : I past s := by
  induction h with
  | start hs => exact hinit _ hs
  | snoc hrun hs ih => exact hstep _ _ _ _ hrun ih hs

/-- The rule for a property of the state alone. -/
theorem Run.state_invariant {I : σ → Prop} (hinit : ∀ s, S.init s → I s)
    (hstep : ∀ s a s', I s → S.step s a s' → I s') {past : List (α × σ)} {s : σ}
    (h : Run S past s) : I s :=
  h.invariant (I := fun _ s => I s) hinit fun _ s a s' _ hI hs => hstep s a s' hI hs

/-- The system whose steps all meet the condition `c` on the state before them. -/
def restrict (S : System σ α) (c : σ → α → Prop) : System σ α where
  init := S.init
  step s a s' := c s a ∧ S.step s a s'

/-- A restricted run is a run. -/
theorem Run.of_restrict {c : σ → α → Prop} {past : List (α × σ)} {s : σ}
    (h : Run (S.restrict c) past s) : Run S past s := by
  induction h with
  | start hs => exact .start hs
  | snoc _ hs ih => exact ih.snoc hs.2

/-- The rule for a restricted run: a step that meets the condition keeps the property. -/
theorem Run.restrict_invariant {c : σ → α → Prop} {I : σ → Prop} (hinit : ∀ s, S.init s → I s)
    (hstep : ∀ s a s', I s → c s a → S.step s a s' → I s') {past : List (α × σ)} {s : σ}
    (h : Run (S.restrict c) past s) : I s := by
  induction h with
  | start hs => exact hinit _ hs
  | snoc _ hs ih => exact hstep _ _ _ ih hs.1 hs.2

/-- `P` held in a state reached since the last step selected by `start`, that step
included. -/
def HeldSince (start : α → Prop) (P : σ → Prop) : List (α × σ) → Prop
  | []             => False
  | (a, s) :: past => P s ∨ (¬ start a ∧ HeldSince start P past)

/-- The property may hold now. -/
theorem HeldSince.here {start : α → Prop} {P : σ → Prop} {a : α} {s : σ}
    {past : List (α × σ)} (h : P s) : HeldSince start P ((a, s) :: past) := Or.inl h

/-- It may have held before, as long as the start is not behind that. -/
theorem HeldSince.later {start : α → Prop} {P : σ → Prop} {a : α} {s : σ}
    {past : List (α × σ)} (ha : ¬ start a) (h : HeldSince start P past) :
    HeldSince start P ((a, s) :: past) := Or.inr ⟨ha, h⟩

end System

end AiMidi.Lib
