import AiMidi.Theory.Types

/-!
# `AiMidi.Theory.Blueprint`: the music blueprint

What the prompt interpreter extracts from a prompt and the later stages complete. The
defaults of the fields are those of the source, so `{}` is the blueprint `MusicBlueprint{}`.
The `float` fields hold decimal literals only, and are rational numbers here.
-/

set_option autoImplicit false

namespace AiMidi.Theory

open AiMidi.Lib

/-- The energy of a section. -/
inductive EnergyLevel where
  | unspecified
  | low
  | mid
  | high
  deriving DecidableEq, Repr

/-- The three coordinates of an emotion, one half by default. -/
structure Emotion where
  valence : Rat := 1 / 2
  arousal : Rat := 1 / 2
  dominance : Rat := 1 / 2
  deriving DecidableEq, Repr

/-- A requested section, with its length in bars and its character. -/
structure BlueprintSection where
  name : Bytes
  bars : Int := 4
  energy : EnergyLevel := .mid
  density : Rat := 1 / 2
  complexity : Rat := 1 / 2
  deriving DecidableEq, Repr

/-- An instrument with its role, MIDI channel and General MIDI program. -/
structure BlueprintInstrument where
  name : Bytes
  role : Bytes
  channel : Int := 0
  program : Int := 0
  deriving DecidableEq, Repr

/-- The whole request for a piece, with the defaults of the code. -/
structure MusicBlueprint where
  seed : Seed := 0
  rootKey : Bytes := bytes "C"
  scale : Bytes := bytes "major"
  bpm : Int := 120
  ppq : Int := 480
  genres : List Bytes := []
  emotion : Emotion := {}
  energy : EnergyLevel := .mid
  sections : List BlueprintSection := []
  instruments : List BlueprintInstrument := []
  deriving DecidableEq, Repr

/-- FNV-1a 64-bit hash. -/
def fnv1a (s : Bytes) : UInt64 :=
  s.foldl (fun h c => (h ^^^ c.toUInt64) * 1099511628211) 14695981039346656037

/-- The emotion that goes with an energy. -/
def emotionFromEnergy : EnergyLevel → Emotion
  | .low         => ⟨3 / 10, 2 / 10, 4 / 10⟩
  | .mid         => ⟨5 / 10, 5 / 10, 5 / 10⟩
  | .high        => ⟨8 / 10, 7 / 10, 6 / 10⟩
  | .unspecified => {}

end AiMidi.Theory
