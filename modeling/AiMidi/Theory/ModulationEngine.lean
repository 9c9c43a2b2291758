import AiMidi.Theory.ReharmonizeEngine

/-!
# `AiMidi.Theory.ModulationEngine`: the way from one key to another

`findPivotChord` names a chord that both keys have, and `generateModulation` puts a cadence of
the new key behind it, as far as the bars go.

The engine reads its scales through a provider. Tables and parser are those of the
reharmonisation, but its symbols have eight suffixes, without that of `m7b5`.
-/

set_option autoImplicit false

namespace AiMidi.Theory

open AiMidi.Lib

/-- A source of scales. An unknown name has no intervals. -/
structure ScaleProvider where
  /-- The intervals of a scale, in semitones. -/
  intervalsOf : Bytes → List Int
  /-- The pitch classes of a scale on a root. -/
  intervalsFor : Bytes → Int → List Int

/-- The provider of the standard scales. -/
def makeScaleProvider : ScaleProvider := ⟨intervalsOf, intervalsFor⟩

namespace ModulationEngine

open ReharmonizeEngine (DiatonicChord)

/-! ### Chord symbols -/

/-- The same table as the guitar engine's. -/
def keyTable : List (Bytes × Int) := GuitarEngine.keyTable

/-- The pitch class of a key, C for an unknown one. -/
def parseRootPc (key : Bytes) : Int := (keyTable.lookup key).getD 0

/-- The name of a pitch class. A negative remainder would read in front of the table. -/
def pcNameSharp (pc : Int) : Bytes :=
  ReharmonizeEngine.sharpNames.getD (Int.tmod pc 12).toNat []

/-- The suffixes of the qualities. -/
def qualitySuffixes : List (Bytes × Bytes) :=
  [(bytes "maj", []), (bytes "min", bytes "m"), (bytes "7", bytes "7"), (bytes "m7", bytes "m7"),
   (bytes "maj7", bytes "maj7"), (bytes "dim", bytes "dim"), (bytes "dim7", bytes "dim7"),
   (bytes "aug", bytes "aug")]

/-- The suffix of a quality. Any other quality would be its own suffix, through a pointer into
a destroyed string. -/
def qualitySuffix (quality : Bytes) : Bytes := (qualitySuffixes.lookup quality).getD quality

/-- The printed name of a chord: its sharp root and the suffix of its quality. -/
def chordName (rootPc : Int) (quality : Bytes) : Bytes :=
  pcNameSharp rootPc ++ qualitySuffix quality

/-- The same function as the reharmonisation's. -/
def parseChordName (name : Bytes) : Int × Bytes := ReharmonizeEngine.parseChordName name

/-! ### Diatonic chords -/

/-- The same tables as the reharmonisation's. -/
def qualitiesForScale (scale : Bytes) : List Bytes := ReharmonizeEngine.qualitiesForScale scale

/-- The intervals of the scale, those of major when it is unknown. -/
def scaleIntervals (scales : ScaleProvider) (scale : Bytes) : List Int :=
  if scales.intervalsOf scale = [] then scales.intervalsOf (bytes "major")
  else scales.intervalsOf scale

/-- The chords of a key, none without a provider. The qualities have seven degrees, and any
further degree is major. -/
def diatonicChords (key scale : Bytes) : Option ScaleProvider → List DiatonicChord
  | none        => []
  | some scales => (scaleIntervals scales scale).zipIdx.map fun (interval, i) =>
      ⟨Int.tmod (parseRootPc key + interval) 12,
        if i < 7 then (qualitiesForScale scale).getD i [] else bytes "maj"⟩

/-! ### The pivot chord -/

/-- The qualities of the target chords on a root, in their order. -/
def targetMap (toChords : List DiatonicChord) (rootPc : Int) : List Bytes :=
  (toChords.filter fun tc => tc.rootPc = rootPc).map DiatonicChord.quality

/-- The root of the fifth degree of the target, `-1` in a scale of fewer degrees. -/
def dominantPc (toKey : Bytes) (toIntervals : List Int) : Int :=
  match toIntervals[4]? with
  | some fifth => Int.tmod (parseRootPc toKey + fifth) 12
  | none       => -1

/-- A chord with root and quality of a target chord, on the fifth degree of the target. -/
def sharedDominant (fromChords toChords : List DiatonicChord) (vPc : Int) : Option DiatonicChord :=
  fromChords.find? fun fc =>
    (targetMap toChords fc.rootPc).any fun tq => fc.quality == tq && fc.rootPc == vPc

/-- A chord with root and quality of a target chord. -/
def sharedChord (fromChords toChords : List DiatonicChord) : Option DiatonicChord :=
  fromChords.find? fun fc => (targetMap toChords fc.rootPc).any fun tq => fc.quality == tq

/-- A target chord on a common root. -/
def commonRoot (fromChords toChords : List DiatonicChord) : Option DiatonicChord :=
  toChords.find? fun tc => fromChords.any fun fc => fc.rootPc == tc.rootPc

/-- The three passes, one behind the other. -/
def pivot (fromChords toChords : List DiatonicChord) (vPc : Int) : Option DiatonicChord :=
  (sharedDominant fromChords toChords vPc).or
    ((sharedChord fromChords toChords).or (commonRoot fromChords toChords))

/-- The name of the pivot, empty when there is none. -/
def findPivotChord (scales : Option ScaleProvider) (fromKey fromScale toKey toScale : Bytes) :
    Bytes :=
  match scales with
  -- Without a provider both lists are empty.
  | none        => []
  | some scales =>
    let fromChords := diatonicChords fromKey fromScale (some scales)
    let toChords := diatonicChords toKey toScale (some scales)
    if fromChords = [] ∨ toChords = [] then []
    else match pivot fromChords toChords (dominantPc toKey (scaleIntervals scales toScale)) with
      | some chord => chordName chord.rootPc chord.quality
      | none       => []

/-! ### The modulation -/

/-- The cadence II-V-I, as far as the bars go. The V of a major or harmonic minor key gets a
seventh when it is not the last bar. -/
def cadence (toIntervals : List Int) (toScale : Bytes) (barsLeft : Int) : List (Int × Bytes) :=
  let qualities := qualitiesForScale toScale
  let iiPc := Int.tmod (toIntervals.getD 1 0) 12
  let vPc := Int.tmod (toIntervals.getD 4 0) 12
  let iPc := Int.tmod (toIntervals.getD 0 0) 12
  let seventh := (toScale = bytes "major" ∨ toScale = bytes "harmonic_minor") ∧ barsLeft > 1
  let vQuality := if seventh then bytes "7" else qualities.getD 4 []
  (iiPc, qualities.getD 1 []) ::
    (if barsLeft - 1 > 0 then
      (vPc, vQuality) :: (if barsLeft - 1 - 1 > 0 then [(iPc, qualities.getD 0 [])] else [])
    else [])

/-- The chords of the transition, one in a bar. Nothing is drawn from the seed. -/
def generateModulation (scales : Option ScaleProvider) (fromKey fromScale toKey toScale : Bytes)
    (transitionBars : Int) : List (Int × Bytes) :=
  if transitionBars ≤ 0 then []
  else
    let name := findPivotChord scales fromKey fromScale toKey toScale
    let pivot := if name = [] then [] else [parseChordName name]
    let toIntervals := (scales.map fun s => s.intervalsFor toScale (parseRootPc toKey)).getD []
    if toIntervals.length < 3 then pivot
    else
      let barsLeft := transitionBars - pivot.length
      if barsLeft > 0 ∧ toIntervals.length ≥ 5 then pivot ++ cadence toIntervals toScale barsLeft
      else pivot

end ModulationEngine

end AiMidi.Theory
