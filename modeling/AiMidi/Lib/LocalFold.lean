import Mathlib.Data.List.Basic

/-!
# `AiMidi.Lib.LocalFold`: loops whose rounds stay in disjoint parts of a buffer

Round `i` of a loop is `LocalTo` a set of indices when it writes there only, and what it writes
depends on what is there only. If the sets of all rounds are disjoint, each round finds its part
as the loop found it (`foldl_local_at`), and what no round owns is left alone
(`foldl_local_frame`).
-/

set_option autoImplicit false

namespace AiMidi.Lib

variable {ι σ : Type}

/-- Round `i` reads and writes the indices in `S i` only. -/
structure LocalTo (f : (Nat → σ) → ι → Nat → σ) (S : ι → Nat → Prop) (i : ι) : Prop where
  frame : ∀ buf a, ¬ S i a → f buf i a = buf a
  reads : ∀ buf buf' : Nat → σ, (∀ a, S i a → buf a = buf' a) → ∀ a, S i a → f buf i a = f buf' i a

section

variable {f : (Nat → σ) → ι → Nat → σ} {S : ι → Nat → Prop} {l : List ι}

/-- What no round owns is left alone. -/
theorem foldl_local_frame (hlocal : ∀ i ∈ l, LocalTo f S i) (buf : Nat → σ) {a : Nat}
    (ha : ∀ i ∈ l, ¬ S i a) : l.foldl f buf a = buf a := by
  induction l generalizing buf with
  | nil => rfl
  | cons i l ih =>
    rw [List.foldl_cons,
      ih (fun k hk => hlocal k (List.mem_cons_of_mem i hk)) (f buf i)
        fun k hk => ha k (List.mem_cons_of_mem i hk)]
    exact (hlocal i List.mem_cons_self).frame buf a (ha i List.mem_cons_self)

/-- Each round works on what its part held before the loop. -/
theorem foldl_local_at (hlocal : ∀ i ∈ l, LocalTo f S i)
    (hdisjoint : l.Pairwise fun i k => ∀ a, S i a → ¬ S k a) (buf : Nat → σ) {i : ι} (hi : i ∈ l)
    {a : Nat} (ha : S i a) : l.foldl f buf a = f buf i a := by
  induction l generalizing buf with
  | nil => exact absurd hi List.not_mem_nil
  | cons k l ih =>
    obtain ⟨hk, hl⟩ := List.pairwise_cons.mp hdisjoint
    have hlater : ∀ j ∈ l, LocalTo f S j := fun j hj => hlocal j (List.mem_cons_of_mem k hj)
    rw [List.foldl_cons]
    obtain rfl | hi := List.mem_cons.mp hi
    · exact foldl_local_frame hlater (f buf i) fun j hj => hk j hj a ha
    · -- The first round has not touched the part of the later one.
      rw [ih hlater hl (f buf k) hi]
      refine (hlater i hi).reads _ _ (fun b hb => ?_) a ha
      exact (hlocal k List.mem_cons_self).frame buf b fun hkb => hk i hi b hkb hb

/-- A loop over local rounds is local to the union of their parts. -/
theorem LocalTo.of_foldl {κ : Type} {g : (Nat → σ) → κ → Nat → σ} {T : κ → Nat → Prop} {k : κ}
    (hg : ∀ buf, g buf k = l.foldl f buf) (hlocal : ∀ i ∈ l, LocalTo f S i)
    (hdisjoint : l.Pairwise fun i j => ∀ a, S i a → ¬ S j a)
    (hunion : ∀ a, T k a ↔ ∃ i ∈ l, S i a) : LocalTo g T k where
  frame buf a ha := by
    rw [hg]
    exact foldl_local_frame hlocal buf fun i hi hS => ha ((hunion a).mpr ⟨i, hi, hS⟩)
  reads buf buf' h a ha := by
    obtain ⟨i, hi, hS⟩ := (hunion a).mp ha
    rw [hg, hg, foldl_local_at hlocal hdisjoint buf hi hS,
      foldl_local_at hlocal hdisjoint buf' hi hS]
    exact (hlocal i hi).reads buf buf' (fun b hb => h b ((hunion b).mpr ⟨i, hi, hb⟩)) a hS

end

end AiMidi.Lib
