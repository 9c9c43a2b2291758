import AiMidi.Lib.Bytes

/-!
# `AiMidi.Theory.Scales`: the scale provider

The table of the named scales with their intervals in semitones. `intervalsOf` gives the
empty list for an unknown name.
-/

set_option autoImplicit false

namespace AiMidi.Theory

open AiMidi.Lib

/-- The intervals of the scales, in the order of the source. -/
def kMajor : List Int := [0, 2, 4, 5, 7, 9, 11]
def kMinor : List Int := [0, 2, 3, 5, 7, 8, 10]
def kHarmMinor : List Int := [0, 2, 3, 5, 7, 8, 11]
def kMelMinor : List Int := [0, 2, 3, 5, 7, 9, 11]
def kPentMaj : List Int := [0, 2, 4, 7, 9]
def kPentMin : List Int := [0, 3, 5, 7, 10]
def kBlues : List Int := [0, 3, 5, 6, 7, 10]
def kIonian : List Int := [0, 2, 4, 5, 7, 9, 11]
def kDorian : List Int := [0, 2, 3, 5, 7, 9, 10]
def kPhrygian : List Int := [0, 1, 3, 5, 7, 8, 10]
def kLydian : List Int := [0, 2, 4, 6, 7, 9, 11]
def kMixolydian : List Int := [0, 2, 4, 5, 7, 9, 10]
def kAeolian : List Int := [0, 2, 3, 5, 7, 8, 10]
def kLocrian : List Int := [0, 1, 3, 5, 6, 8, 10]

/-- The scales by name. -/
def kScales : List (Bytes × List Int) :=
  [(bytes "major", kMajor), (bytes "minor", kMinor), (bytes "harmonic_minor", kHarmMinor),
   (bytes "melodic_minor", kMelMinor), (bytes "pentatonic_major", kPentMaj),
   (bytes "pentatonic_minor", kPentMin), (bytes "blues", kBlues), (bytes "ionian", kIonian),
   (bytes "dorian", kDorian), (bytes "phrygian", kPhrygian), (bytes "lydian", kLydian),
   (bytes "mixolydian", kMixolydian), (bytes "aeolian", kAeolian), (bytes "locrian", kLocrian)]

/-- The intervals of a named scale. -/
def intervalsOf (name : Bytes) : List Int := (kScales.lookup name).getD []

/-- The pitch classes of a named scale on a root. -/
def intervalsFor (name : Bytes) (rootPc : Int) : List Int :=
  let pc := Int.tmod (Int.tmod rootPc 12 + 12) 12
  (intervalsOf name).map fun interval => Int.tmod (interval + pc) 12

/-- The scale name is known. -/
def knows (name : Bytes) : Bool := (kScales.lookup name).isSome

end AiMidi.Theory
