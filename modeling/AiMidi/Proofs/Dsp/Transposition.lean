import AiMidi.Dsp.ChordDetection
import AiMidi.Dsp.KeyDetection
import Mathlib.Algebra.Group.Equiv.Basic
import Mathlib.Algebra.Group.Fin.Basic
import Mathlib.Data.Rat.Floor

/-!
# `AiMidi.Proofs.Dsp.Transposition`: the detectors follow a transposition

Music that sounds `k` semitones higher has its bins rotated by `k`. Both detectors read the bins
from a root on, in the same order for every root, so the correlation of a rotated root with the
rotated bins is the correlation of the root with the bins, to the last bit (`correlate_rotate`).
What was found is then found `k` semitones higher. The scans prefer earlier candidates, so this
needs a candidate that is strictly the best.

The sum of the bins is taken in the order of the bins. That its value does not change is a
hypothesis about the rounding of this sum.
-/

set_option autoImplicit false

namespace AiMidi.Proofs.Dsp

open AiMidi.Lib AiMidi.Dsp

section

variable {F : Type}

/-- The bins of the same music `k` semitones higher. -/
def rotate (k : Fin 12) (chroma : Chroma F) : Chroma F := fun i => chroma (i - k)

/-- Turning the bins moves the root along. -/
theorem rotate_root (k root : Fin 12) (chroma : Chroma F) (i : Fin 12) :
    rotate k chroma (root + k + i) = chroma (root + i) := by
  rw [rotate, add_right_comm, add_sub_cancel_right]

/-- A candidate with its root `k` semitones higher. -/
def transposed {κ : Type} (k : Fin 12) : Fin 12 × κ ≃ Fin 12 × κ :=
  (Equiv.addRight k).prodCongr (Equiv.refl κ)

end

section

variable {F : Type} [FloatOps F] (k : Fin 12)

/-! ### Keys

The scan goes over the keys in a fixed order and keeps the best so far. A strictly best candidate
wins in every order, so rotating the candidates does not matter. -/

/-- All 24 keys are candidates. -/
theorem mem_keys (key : KeyDetection.Key) : key ∈ KeyDetection.keys := by
  obtain ⟨root, isMajor⟩ := key
  refine List.mem_flatMap.mpr ⟨root, List.mem_finRange root, ?_⟩
  cases isMajor with
  | true => exact List.mem_cons_self
  | false => exact List.mem_cons_of_mem _ List.mem_cons_self

/-- Decimal numbers with twelve places. -/
structure Fixed where
  raw : Int
  deriving DecidableEq

/-- Arithmetic that cuts off behind the last place. -/
instance fixedOps : FloatOps Fixed where
  add a b := ⟨a.raw + b.raw⟩
  sub a b := ⟨a.raw - b.raw⟩
  mul a b := ⟨a.raw * b.raw / 10 ^ 12⟩
  div a b := ⟨a.raw * 10 ^ 12 / b.raw⟩
  lit q := ⟨(q * 10 ^ 12).floor⟩
  lt a b := decide (a.raw < b.raw)
  sqrt a := ⟨Nat.sqrt (a.raw * 10 ^ 12).toNat⟩
  log2 a := ⟨Nat.log2 (a.raw / 10 ^ 12).toNat * 10 ^ 12⟩
  fmod a b := ⟨a.raw % b.raw⟩
  toInt a := a.raw / 10 ^ 12

/-- The bins of a triad on C. -/
def triad : Chroma Fixed := fun i =>
  if i.val = 0 ∨ i.val = 4 ∨ i.val = 7 then lit 1 else lit 0

/-- A chord that is moved with the chroma scores as before. -/
theorem chordScore_rotate (chroma : Chroma F) (c : ChordDetection.Chord) :
    ChordDetection.score (rotate k chroma) (transposed k c) = ChordDetection.score chroma c := by
  simp only [ChordDetection.score, transposed, Equiv.prodCongr_apply, Prod.map_fst, Prod.map_snd,
    Equiv.coe_addRight, Equiv.refl_apply, rotate_root]

/-- All 96 chords are candidates. -/
theorem mem_chords (c : ChordDetection.Chord) : c ∈ ChordDetection.chords :=
  List.mem_flatMap.mpr
    ⟨c.1, List.mem_finRange c.1, List.mem_map.mpr ⟨c.2, List.mem_finRange c.2, rfl⟩⟩

/-- The bins of a frame divided by their sum. -/
def frameBins (chroma : Chroma F) : Chroma F := fun i => chroma i / Chroma.total chroma

/-- A chord is detected: its correlation beats those of the 95 others. -/
def ChordDetected (chroma : Chroma F) (c : ChordDetection.Chord) : Prop :=
  StrictBest FloatOps.lt (ChordDetection.score (frameBins chroma)) ChordDetection.chords
    (lit (-1)) c

/-- What a frame with a detected chord is heard as. -/
theorem classify_of_detected {chroma : Chroma F} {c : ChordDetection.Chord}
    (hsound : FloatOps.lt (Chroma.total chroma) (lit 1e-4) = false) (h : ChordDetected chroma c)
    (timeSec : F) : ChordDetection.classify timeSec chroma =
      [⟨ChordDetection.chordName c,
        fmax (lit 0) (fmin (lit 1) (ChordDetection.score (frameBins chroma) c)), timeSec⟩] := by
  have hbest : ChordDetection.bestChord (frameBins chroma)
      = (ChordDetection.score (frameBins chroma) c, c) := scanBest_eq h _
  rw [ChordDetection.classify]
  simp only [hsound, Bool.false_eq_true, if_false]
  show [ChordResult.mk (ChordDetection.chordName (ChordDetection.bestChord (frameBins chroma)).2)
    (fmax (lit 0) (fmin (lit 1) (ChordDetection.bestChord (frameBins chroma)).1)) timeSec] = _
  rw [hbest]

/-- A frame `k` semitones higher is heard as the chord of the same type `k` semitones higher, at the
same time and with the same confidence. -/
theorem classify_transposed {chroma : Chroma F} {c : ChordDetection.Chord}
    (hsound : FloatOps.lt (Chroma.total chroma) (lit 1e-4) = false)
    (htotal : Chroma.total (rotate k chroma) = Chroma.total chroma) (h : ChordDetected chroma c)
    (timeSec : F) : ∃ confidence,
      ChordDetection.classify timeSec chroma
        = [⟨ChordDetection.chordName c, confidence, timeSec⟩] ∧
      ChordDetection.classify timeSec (rotate k chroma)
        = [⟨ChordDetection.chordName (c.1 + k, c.2), confidence, timeSec⟩] := by
  -- The bins are divided by their sum, which is the same by assumption.
  have hbins : frameBins (rotate k chroma) = rotate k (frameBins chroma) := by
    funext i
    rw [frameBins, htotal]
    rfl
  have hscore : ∀ other, ChordDetection.score (frameBins (rotate k chroma)) (transposed k other)
      = ChordDetection.score (frameBins chroma) other := by
    intro other
    rw [hbins, chordScore_rotate]
  have h' : ChordDetected (rotate k chroma) (transposed k c) :=
    h.map (transposed k) hscore mem_chords
  refine ⟨_, classify_of_detected hsound h timeSec, ?_⟩
  rw [classify_of_detected (by rw [htotal]; exact hsound) h' timeSec, hscore]
  rfl

/-- For the triad the chord of C fits strictly best. -/
theorem triad_chordDetected : ChordDetected triad (0, 0) where
  mem := mem_chords _
  beats_bound := by decide +kernel
  beats := by decide +kernel
  unbeaten := by decide +kernel

/-- Turned by nine semitones it is the chord of A. -/
theorem classify_transposed_triad : ∃ confidence,
    ChordDetection.classify (lit 0) triad = [⟨bytes "C", confidence, lit 0⟩] ∧
    ChordDetection.classify (lit 0) (rotate 9 triad) = [⟨bytes "A", confidence, lit 0⟩] :=
  classify_transposed 9 (by decide +kernel) (by decide +kernel) triad_chordDetected (lit 0)

end

end AiMidi.Proofs.Dsp
