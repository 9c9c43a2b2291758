import AiMidi.Lib.Decimal
import AiMidi.Lib.ValueTree
import Mathlib.Data.List.AList

/-!
# `AiMidi.Plugin.PresetManager`: presets in memory and on disk

`PresetManager` keeps the presets in a map by name, and one file for each user preset. The two
handlers of the editor save and delete user presets.

The XML form of a tree (`TreeCodec`), the `juce::var` of a number or a text (`VarLiterals`) and
the file that a preset is written to are parameters. A file holds the document that its text
parses to, or none. The file name is `none` where the write does not reach a file of the presets
directory, as for a name with a path separator. Dereferencing a null pointer gives `none`.
-/

set_option autoImplicit false

namespace AiMidi.Plugin

open AiMidi.Lib

/-- The `juce::var` of each kind of literal. -/
structure VarLiterals (v : Type) where
  int : Int → v
  float : Rat → v
  string : Bytes → v

/-- What the preset manager takes from JUCE. -/
structure PresetEnv (v : Type) where
  codec : TreeCodec v
  var : VarLiterals v
  /-- The file of the presets directory that `getChildFile(name + ".preset")` is. -/
  presetFile : Bytes → Option Bytes

/-- A preset: its name, its labels and a tree of parameters. -/
structure Preset (v : Type) where
  name : Bytes
  category : Bytes
  tags : Bytes
  /-- An invalid tree is `none`. -/
  state : Option (ValueTree v)

/-- A map of presets by name. -/
abbrev Presets (v : Type) := AList fun _ : Bytes => Preset v

/-- A file: the document that it parses to. -/
abbrev PresetFile := Option XmlElement

/-- The presets in memory, and the files of the presets directory. -/
structure PresetManager (v : Type) where
  presets : Presets v
  directory : AList fun _ : Bytes => PresetFile

section

variable {v : Type}

/-! ### Factory presets -/

/-- The parameter state of a factory preset. -/
def makeState (var : VarLiterals v) (seed : Int) (density energy complexity : Rat)
    (bpm bars : Int) (key scale : Bytes) : ValueTree v :=
  .node (bytes "Parameters")
    [(bytes "seed", var.int seed), (bytes "density", var.float density),
      (bytes "energy", var.float energy), (bytes "complexity", var.float complexity),
      (bytes "bpm", var.int bpm), (bytes "bars", var.int bars),
      (bytes "key", var.string key), (bytes "scale", var.string scale)] []

/-- `createFactoryPresets`: the five presets of an installation. -/
def createFactoryPresets (var : VarLiterals v) : List (Preset v) :=
  [⟨bytes "Upbeat Pop", bytes "Factory", bytes "pop,upbeat,high-energy",
      makeState var 100 (6 / 10) (9 / 10) (4 / 10) 120 8 (bytes "C") (bytes "major")⟩,
    ⟨bytes "Dark Ambient", bytes "Factory", bytes "ambient,dark,cinematic",
      makeState var 200 (3 / 10) (2 / 10) (7 / 10) 80 16 (bytes "A") (bytes "minor")⟩,
    ⟨bytes "Jazz Ballad", bytes "Factory", bytes "jazz,ballad,smooth",
      makeState var 300 (5 / 10) (4 / 10) (7 / 10) 100 12 (bytes "C") (bytes "major")⟩,
    ⟨bytes "Rock Anthem", bytes "Factory", bytes "rock,anthem,high-energy",
      makeState var 400 (8 / 10) (9 / 10) (5 / 10) 140 8 (bytes "E") (bytes "minor")⟩,
    ⟨bytes "Electronic Groove", bytes "Factory", bytes "electronic,groove,dance",
      makeState var 500 (5 / 10) (6 / 10) (6 / 10) 128 8 (bytes "F") (bytes "minor")⟩]

/-- `presets_[p.name] = p`. -/
def Presets.put (presets : Presets v) (p : Preset v) : Presets v := presets.insert p.name p

/-- The map with the factory presets. -/
def factoryPresets (var : VarLiterals v) : Presets v :=
  (createFactoryPresets var).foldl Presets.put ∅

/-! ### Loading -/

/-- The preset of a document, or `none` where `*xml->getChildByName("state")` is a null
pointer. -/
def readPreset (codec : TreeCodec v) (xml : XmlElement) : Option (Preset v) :=
  (xml.getChildByName (bytes "state")).map fun child =>
    { name := xml.getStringAttribute (bytes "name") []
      category := xml.getStringAttribute (bytes "category") (bytes "User")
      tags := xml.getStringAttribute (bytes "tags") []
      state := codec.fromXml child }

/-- One file of the directory. -/
def loadFile (codec : TreeCodec v) (presets : Presets v) : PresetFile → Option (Presets v)
  | none     => some presets
  | some xml =>
      (readPreset codec xml).map fun p =>
        if p.name ≠ [] ∧ p.state.isSome then presets.put p else presets

/-- `loadPresets`, with the files in the order in which the iteration finds them. -/
def loadPresets (env : PresetEnv v) (files : List PresetFile) : Option (Presets v) :=
  files.foldlM (loadFile env.codec) (factoryPresets env.var)

/-! ### Saving and deleting -/

/-- The document of a preset. An invalid state adds no child. -/
def presetXml (codec : TreeCodec v) (p : Preset v) : XmlElement :=
  .element (bytes "preset")
    [(bytes "name", p.name), (bytes "category", p.category), (bytes "tags", p.tags)]
    (p.state.map codec.createXml).toList

namespace PresetManager

/-- `savePreset`: the map and the file of the name are overwritten. -/
def savePreset (env : PresetEnv v) (p : Preset v) (pm : PresetManager v) : PresetManager v where
  presets := pm.presets.put p
  directory :=
    match env.presetFile p.name with
    | some file => pm.directory.insert file (some (presetXml env.codec p))
    | none      => pm.directory

/-- Factory presets are not deleted. -/
def deletePreset (env : PresetEnv v) (name : Bytes) (pm : PresetManager v) : PresetManager v :=
  match pm.presets.lookup name with
  | none   => pm
  | some p =>
      if p.category ≠ bytes "User" then pm
      else
        { presets := pm.presets.erase name
          directory :=
            match env.presetFile name with
            | some file => pm.directory.erase file
            | none      => pm.directory }

/-- `getPresetNamesByCategory`, in the order of the map. -/
def getPresetNamesByCategory (pm : PresetManager v) (category : Bytes) : List Bytes :=
  (pm.presets.entries.filter fun entry => entry.2.category == category).map (·.1)

end PresetManager

/-! ### The editor -/

/-- The raw parameter values that a preset takes from the processor. -/
structure PresetParameters where
  seed : Int
  density : Rat
  energy : Rat
  complexity : Rat
  bpm : Int
  bars : Int
  deriving DecidableEq, Repr

/-- The state of a user preset. -/
def PresetParameters.state (params : PresetParameters) (var : VarLiterals v) : ValueTree v :=
  .node (bytes "Parameters")
    [(bytes "seed", var.int params.seed), (bytes "density", var.float params.density),
      (bytes "energy", var.float params.energy),
      (bytes "complexity", var.float params.complexity),
      (bytes "bpm", var.int params.bpm), (bytes "bars", var.int params.bars)] []

/-- The name of the user preset with a number. -/
def userPresetName (n : Nat) : Bytes := bytes "User Preset " ++ decimal n

/-- The name that the next user preset gets. -/
def newPresetName (pm : PresetManager v) : Bytes :=
  userPresetName ((pm.getPresetNamesByCategory (bytes "User")).length + 1)

/-- The preset that the editor saves. -/
def newPreset (env : PresetEnv v) (params : PresetParameters) (pm : PresetManager v) :
    Preset v where
  name := newPresetName pm
  category := bytes "User"
  tags := bytes "user"
  state := params.state env.var

/-- `onSavePreset`: a new preset under the next name. -/
def onSavePreset (env : PresetEnv v) (params : PresetParameters) (pm : PresetManager v) :
    PresetManager v :=
  pm.savePreset env (newPreset env params pm)

/-- `onDeletePreset` for the selected name. -/
def onDeletePreset (env : PresetEnv v) (name : Bytes) (pm : PresetManager v) :
    PresetManager v :=
  match pm.presets.lookup name with
  | none   => pm
  | some p => if name = [] ∨ p.category ≠ bytes "User" then pm else pm.deletePreset env name

/-- An operation of the editor. -/
inductive PresetOp where
  | onSave (params : PresetParameters)
  | onDelete (name : Bytes)
  deriving DecidableEq, Repr

/-- The effect of an operation of the editor. -/
def PresetOp.run (env : PresetEnv v) : PresetOp → PresetManager v → PresetManager v
  | .onSave params => onSavePreset env params
  | .onDelete name => onDeletePreset env name

end

end AiMidi.Plugin
