import AiMidi.Lib.Decimal
import AiMidi.Theory.Blueprint

/-!
# `AiMidi.Theory.BlueprintGenerator`: completing and validating a blueprint

`generate` first fills what is missing, then validates, then normalizes section energies and
MIDI channels. A blueprint that fails validation is replaced by the default one.
-/

set_option autoImplicit false

namespace AiMidi.Theory.BlueprintGenerator

open AiMidi.Lib

/-! ### Validation tables -/

/-- The spellings of keys that the validation accepts. -/
def kValidKeys : List Bytes :=
  [bytes "C", bytes "C#", bytes "Db", bytes "D", bytes "D#", bytes "Eb", bytes "E",
   bytes "F", bytes "F#", bytes "Gb", bytes "G", bytes "G#", bytes "Ab", bytes "A",
   bytes "A#", bytes "Bb", bytes "B"]

/-- The names of scales that the validation accepts. -/
def kValidScales : List Bytes :=
  [bytes "major", bytes "minor", bytes "dorian", bytes "phrygian", bytes "lydian",
   bytes "mixolydian", bytes "aeolian", bytes "locrian", bytes "harmonic_minor",
   bytes "melodic_minor", bytes "pentatonic_major", bytes "pentatonic_minor", bytes "blues",
   bytes "chromatic"]

/-! ### Defaults -/

/-- The density that an energy level implies. -/
def densityForEnergy : EnergyLevel → Rat
  | .low         => 3 / 10
  | .mid         => 5 / 10
  | .high        => 8 / 10
  | .unspecified => 5 / 10

/-- The complexity that an energy level implies. -/
def complexityForEnergy : EnergyLevel → Rat
  | .low         => 2 / 10
  | .mid         => 4 / 10
  | .high        => 6 / 10
  | .unspecified => 4 / 10

/-- Whether an emotion was left at its defaults. -/
def isAllDefaultEmotion (e : Emotion) : Bool :=
  e.valence == 1 / 2 && e.arousal == 1 / 2 && e.dominance == 1 / 2

/-- The sections of a blueprint that names none. -/
def makeDefaultSections : List BlueprintSection :=
  [⟨bytes "intro", 2, .unspecified, 1 / 2, 1 / 2⟩,
   ⟨bytes "verse", 4, .unspecified, 1 / 2, 1 / 2⟩,
   ⟨bytes "chorus", 4, .unspecified, 1 / 2, 1 / 2⟩,
   ⟨bytes "outro", 2, .unspecified, 1 / 2, 1 / 2⟩]

/-- The instruments of a blueprint that names none. -/
def makeDefaultInstruments : List BlueprintInstrument :=
  [⟨bytes "piano", bytes "comping", 0, 1⟩, ⟨bytes "bass", bytes "bass", 1, 34⟩,
   ⟨bytes "drums", bytes "drum", 9, 1⟩]

/-- Step 1: fill defaults. -/
def fillDefaults (input : MusicBlueprint) : MusicBlueprint :=
  { input with
    ppq := if input.ppq = 0 then 480 else input.ppq
    sections := if input.sections = [] then makeDefaultSections else input.sections
    instruments := if input.instruments = [] then makeDefaultInstruments else input.instruments
    seed :=
      -- A missing seed is the hash of key, scale and tempo.
      if input.seed = 0 then fnv1a (input.rootKey ++ input.scale ++ formatInt input.bpm)
      else input.seed
    emotion :=
      if isAllDefaultEmotion input.emotion then emotionFromEnergy input.energy
      else input.emotion }

/-- Step 2: validate. -/
def isValid (bp : MusicBlueprint) : Bool :=
  bp.rootKey ∈ kValidKeys && bp.scale ∈ kValidScales
    && !(bp.bpm < 40 || bp.bpm > 300)
    && !(bp.sections.isEmpty || bp.instruments.isEmpty)
    && bp.sections.all fun sec => !(sec.bars < 1 || sec.bars > 256)

/-! ### Normalization -/

/-- Step 3a: an unspecified energy is the global one, and density and complexity follow the
energy. -/
def normalizeSection (energy : EnergyLevel) (sec : BlueprintSection) : BlueprintSection :=
  let e := if sec.energy = .unspecified then energy else sec.energy
  { sec with energy := e, density := densityForEnergy e, complexity := complexityForEnergy e }

/-- Step 3b for one instrument: drums go to channel 9, and a channel in use is exchanged for
the first free one below 9, or below 10 for drums. -/
def resolveChannel (used : List Int) (inst : BlueprintInstrument) : BlueprintInstrument :=
  let channel := if inst.role = bytes "drum" then 9 else inst.channel
  if channel ∈ used then
    -- A clash moves no other instrument to channel 9. Without a free channel it stays.
    let limit := if inst.role = bytes "drum" then 10 else 9
    match (List.range limit).find? fun ch : Nat => (ch : Int) ∉ used with
    | some ch => { inst with channel := ch }
    | none    => { inst with channel := channel }
  else { inst with channel := channel }

/-- Step 3b: the channels, with those already assigned. -/
def assignChannels (used : List Int) : List BlueprintInstrument → List BlueprintInstrument
  | [] => []
  | inst :: insts =>
    let inst := resolveChannel used inst
    inst :: assignChannels (used ++ [inst.channel]) insts

/-- Fill, validate, normalize. -/
def generate (input : MusicBlueprint) : MusicBlueprint :=
  let bp := fillDefaults input
  if isValid bp then
    { bp with
      sections := bp.sections.map (normalizeSection bp.energy)
      instruments := assignChannels [] bp.instruments }
  -- The input is dropped as a whole, its seed included.
  else {}

end AiMidi.Theory.BlueprintGenerator
