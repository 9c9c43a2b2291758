import AiMidi.Theory.BassEngine
import AiMidi.Theory.DrumEngine
import AiMidi.Theory.PianoEngine
import AiMidi.Theory.RhythmEngine

/-!
# `AiMidi.Proofs.EarlierBars`: more chords do not change earlier notes

The engines seed their generators in three ways. `ChordEngine` has one generator for all chords,
and the chords in front leave it in the same state whatever follows them. Bass, piano and drums
seed one for each chord from its index, and an index counts the chords in front only. The rhythm
seeds one for each bar from its number.

So the notes of a request are a prefix of those of every request that continues its chords
(`chordEngine_extends`, `bassEngine_extends`, and so on).
-/

set_option autoImplicit false

namespace AiMidi.Proofs.EarlierBars

open AiMidi.Lib AiMidi.Theory

/-! ### Loops

A loop over chords carries one generator, so the state in front of a chord depends on the chords
before it alone. With an index for each chord this stays true, as the indices count from the
front. -/

/-- The output of a loop is a prefix of that of every longer loop. -/
theorem forEach_prefix {α β : Type} (body : α → Sanitized (List β)) (xs ys : List α) :
    (Sanitized.forEach body xs).val <+: (Sanitized.forEach body (xs ++ ys)).val := by
  rw [Sanitized.val_forEach, Sanitized.val_forEach, List.flatMap_append]
  exact List.prefix_append _ _

/-- The same for a loop that reads the indices. -/
theorem forEach_zipIdx_prefix {α β : Type} (body : α × Nat → Sanitized (List β))
    (xs ys : List α) :
    (Sanitized.forEach body xs.zipIdx).val <+: (Sanitized.forEach body (xs ++ ys).zipIdx).val := by
  -- The entries in front keep their indices.
  rw [List.zipIdx_append]
  exact forEach_prefix body _ _

/-! ### Engines

Each engine is one of the loops above, with its own body. The statements therefore differ in the
engine alone. -/

/-- The request with these chords. -/
def withChords (req : ChordRequest) (chords : List ChordSpec) : ChordRequest :=
  { req with chords := chords }

section

variable (req : ChordRequest) (xs ys : List ChordSpec)

/-- The voicings of more chords begin with those of fewer. The other engines follow in the same
way. -/
theorem chordEngine_extends :
    (ChordEngine.voicing (withChords req xs)).val <+:
      (ChordEngine.voicing (withChords req (xs ++ ys))).val := by
  rw [ChordEngine.voicing, ChordEngine.voicing, Seeded.val_run, Seeded.val_run]
  show Seeded.value (Seeded.forEach _ xs) _ <+: Seeded.value (Seeded.forEach _ (xs ++ ys)) _
  rw [Seeded.value_forEach_append]
  exact List.prefix_append _ _

/-- The bass line of more chords. -/
theorem bassEngine_extends :
    (BassEngine.generate (withChords req xs)).val <+:
      (BassEngine.generate (withChords req (xs ++ ys))).val :=
  forEach_zipIdx_prefix _ xs ys

/-- The piano of more chords, in any style and octave. -/
theorem pianoEngine_extends (style : PianoStyle) (bassOctave trebleOctave : Int) :
    (PianoEngine.generate ⟨withChords req xs, style, bassOctave, trebleOctave⟩).val <+:
      (PianoEngine.generate ⟨withChords req (xs ++ ys), style, bassOctave, trebleOctave⟩).val :=
  forEach_zipIdx_prefix _ xs ys

/-- The drums of more chords. -/
theorem drumEngine_extends (style : DrumStyle) :
    (DrumEngine.generate (withChords req xs) style).val <+:
      (DrumEngine.generate (withChords req (xs ++ ys)) style).val :=
  forEach_zipIdx_prefix _ xs ys

/-- The rhythm of more chords, with any fill. -/
theorem rhythmEngine_extends (style : RhythmStyle) (fill : FillSpec) :
    (RhythmEngine.generate (withChords req xs) style fill).val <+:
      (RhythmEngine.generate (withChords req (xs ++ ys)) style fill).val := by
  obtain ⟨resolution, swing, seed⟩ := style
  unfold RhythmEngine.generate
  -- The grid does not depend on the chords.
  cases resolution with
  | eighth => exact forEach_prefix _ xs ys
  | sixteenth => exact forEach_prefix _ xs ys

end

/-- What the five engines play for some chords they also play for these chords with others
behind them. -/
theorem earlierBars_unchanged (req : ChordRequest) (xs ys : List ChordSpec) :
    (ChordEngine.voicing (withChords req xs)).val <+:
        (ChordEngine.voicing (withChords req (xs ++ ys))).val ∧
      (BassEngine.generate (withChords req xs)).val <+:
        (BassEngine.generate (withChords req (xs ++ ys))).val ∧
      (∀ style bassOctave trebleOctave,
        (PianoEngine.generate ⟨withChords req xs, style, bassOctave, trebleOctave⟩).val <+:
          (PianoEngine.generate
            ⟨withChords req (xs ++ ys), style, bassOctave, trebleOctave⟩).val) ∧
      (∀ style, (DrumEngine.generate (withChords req xs) style).val <+:
        (DrumEngine.generate (withChords req (xs ++ ys)) style).val) ∧
      ∀ style fill, (RhythmEngine.generate (withChords req xs) style fill).val <+:
        (RhythmEngine.generate (withChords req (xs ++ ys)) style fill).val := by
  refine ⟨chordEngine_extends req xs ys, bassEngine_extends req xs ys, ?_, ?_, ?_⟩
  · exact pianoEngine_extends req xs ys
  · exact drumEngine_extends req xs ys
  · exact rhythmEngine_extends req xs ys

end AiMidi.Proofs.EarlierBars
