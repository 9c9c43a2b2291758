import Mathlib.Order.Lattice

/-!
# `AiMidi.Lib.FirstMax`: a scan for the largest element

The loop that keeps the best element so far and replaces it only by a strictly better one. Its
result is one of the elements (`firstMax_mem`), and none has a larger score (`le_firstMax`).
-/

set_option autoImplicit false

namespace AiMidi.Lib

variable {α β : Type} [LinearOrder β]

/-- `for (a : candidates) if (score(a) > score(best)) best = a`. -/
def firstMax (score : α → β) (best : α) : List α → α
  | [] => best
  | a :: candidates => firstMax score (if score best < score a then a else best) candidates

/-- The result is one of the candidates, or the one to begin with. -/
theorem firstMax_mem (score : α → β) (best : α) (candidates : List α) :
    firstMax score best candidates ∈ best :: candidates := by
  induction candidates generalizing best with
  | nil => exact List.mem_cons_self
  | cons a candidates ih =>
    rw [firstMax]
    split
    · exact List.mem_cons_of_mem best (ih a)
    · obtain h | h := List.mem_cons.mp (ih best)
      · rw [h]
        exact List.mem_cons_self
      · exact List.mem_cons_of_mem best (List.mem_cons_of_mem a h)

/-- The best so far is never replaced by something worse. -/
theorem le_firstMax_best (score : α → β) (best : α) (candidates : List α) :
    score best ≤ score (firstMax score best candidates) := by
  induction candidates generalizing best with
  | nil => exact le_refl _
  | cons a candidates ih =>
    rw [firstMax]
    split
    · rename_i hlt
      exact le_trans (le_of_lt hlt) (ih a)
    · exact ih best

/-- No candidate scores higher. -/
theorem le_firstMax (score : α → β) (best : α) {candidates : List α} {a : α}
    (h : a ∈ candidates) : score a ≤ score (firstMax score best candidates) := by
  induction candidates generalizing best with
  | nil => exact absurd h List.not_mem_nil
  | cons b candidates ih =>
    obtain rfl | h := List.mem_cons.mp h
    · rw [firstMax]
      split
      · exact le_firstMax_best score a candidates
      · rename_i hnlt
        exact le_trans (not_lt.mp hnlt) (le_firstMax_best score best candidates)
    · exact ih _ h

end AiMidi.Lib
