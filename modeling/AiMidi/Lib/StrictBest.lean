import Mathlib.Logic.Equiv.Defs

/-!
# `AiMidi.Lib.StrictBest`: a scan that keeps the best score so far

`scanBest` is the loop that replaces its best score by a strictly better one. Nothing is assumed of
the comparison, which may be that of floating-point numbers. A candidate that beats all others,
and the bound that the scan starts from, is found wherever it stands in the list
(`scanBest_eq`). Renaming the candidates and their scores alike renames what is found
(`StrictBest.map`).
-/

set_option autoImplicit false

namespace AiMidi.Lib

variable {α β : Type} (lt : β → β → Bool)

/-- `for (a : candidates) if (score(a) > best) { best = score(a); where = a; }`. -/
def scanBest (score : α → β) (candidates : List α) (start : β × α) : β × α :=
  candidates.foldl (fun best a => if lt best.1 (score a) then (score a, a) else best) start

/-- The score of `a` beats the bound and the scores of all other candidates, and is beaten by
none. -/
structure StrictBest (score : α → β) (candidates : List α) (bound : β) (a : α) : Prop where
  mem : a ∈ candidates
  beats_bound : lt bound (score a) = true
  beats : ∀ b ∈ candidates, b ≠ a → lt (score b) (score a) = true
  unbeaten : ∀ b ∈ candidates, lt (score a) (score b) = false

section

variable {lt} {score : α → β} {candidates : List α} {bound : β} {a : α}

/-- Once it is found it stays. -/
theorem scanBest_unbeaten (h : ∀ b ∈ candidates, lt (score a) (score b) = false) :
    scanBest lt score candidates (score a, a) = (score a, a) := by
  induction candidates with
  | nil => rfl
  | cons b candidates ih =>
    have hb : lt (score a) (score b) = false := h b List.mem_cons_self
    rw [scanBest, List.foldl_cons]
    simp only [hb, Bool.false_eq_true, if_false]
    exact ih fun c hc => h c (List.mem_cons_of_mem b hc)

/-- The scan finds the strictly best candidate. -/
theorem scanBest_eq (h : StrictBest lt score candidates bound a) (start : α) :
    scanBest lt score candidates (bound, start) = (score a, a) := by
  obtain ⟨hmem, hbound, hbeats, hunbeaten⟩ := h
  induction candidates generalizing bound start with
  | nil => exact absurd hmem List.not_mem_nil
  | cons b candidates ih =>
    have hrest : ∀ c ∈ candidates, lt (score a) (score c) = false :=
      fun c hc => hunbeaten c (List.mem_cons_of_mem b hc)
    rw [scanBest, List.foldl_cons]
    by_cases hba : b = a
    · subst hba
      simp only [hbound, if_true]
      exact scanBest_unbeaten hrest
    · have hmem : a ∈ candidates := (List.mem_cons.mp hmem).resolve_left (Ne.symm hba)
      have hbeats' : ∀ c ∈ candidates, c ≠ a → lt (score c) (score a) = true :=
        fun c hc => hbeats c (List.mem_cons_of_mem b hc)
      -- What the scan holds after the first candidate is beaten too.
      split
      · exact ih b hmem (hbeats b List.mem_cons_self hba) hbeats' hrest
      · exact ih start hmem hbound hbeats' hrest

/-- Candidates and scores renamed alike. -/
theorem StrictBest.map {score' : α → β} (h : StrictBest lt score candidates bound a) (e : α ≃ α)
    (hscore : ∀ b, score' (e b) = score b) (hall : ∀ b, b ∈ candidates) :
    StrictBest lt score' candidates bound (e a) where
  mem := hall _
  beats_bound := by rw [hscore]; exact h.beats_bound
  beats b _ hne := by
    have hne' : e.symm b ≠ a := fun heq => hne (e.symm_apply_eq.mp heq)
    have hb := h.beats (e.symm b) (hall _) hne'
    rw [← hscore, e.apply_symm_apply] at hb
    rw [hscore]
    exact hb
  unbeaten b _ := by
    have hb := h.unbeaten (e.symm b) (hall _)
    rw [← hscore (e.symm b), e.apply_symm_apply] at hb
    rw [hscore]
    exact hb

end

end AiMidi.Lib
