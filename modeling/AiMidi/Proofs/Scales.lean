import AiMidi.Lib.Tables
import AiMidi.Theory.Scales

/-!
# `AiMidi.Proofs.Scales`: the table of the scales

A known name has its row of the table, and an unknown one has no intervals (`intervalsOf_cases`).
Every row begins with the root and has different intervals within an octave (`kScales_rows`).
-/

set_option autoImplicit false

namespace AiMidi.Proofs.Scales

open AiMidi.Lib AiMidi.Theory

/-- A name is in the table, with its intervals, or it has no intervals. -/
theorem intervalsOf_cases (name : Bytes) : (knows name = false ∧ intervalsOf name = []) ∨
    (knows name = true ∧ (name, intervalsOf name) ∈ kScales) := by
  unfold knows intervalsOf
  cases h : kScales.lookup name with
  | none => exact .inl ⟨rfl, rfl⟩
  | some intervals => exact .inr ⟨rfl, mem_of_lookup h⟩

/-- Each row of the table has at most seven distinct intervals below an octave, the first one
zero. -/
theorem kScales_rows : ∀ p ∈ kScales, p.2.length ≤ 7 ∧ p.2.Nodup ∧ p.2.head? = some 0 ∧
    ∀ interval ∈ p.2, 0 ≤ interval ∧ interval < 12 := by
  decide

end AiMidi.Proofs.Scales
