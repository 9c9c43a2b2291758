import AiMidi.Lib.ValueTree

/-!
# `AiMidi.Plugin.PluginState`: the state that the host saves and restores

`getStateInformation` copies the parameter tree and appends a copy of `state_` as a child.
`setStateInformation` installs the restored tree as the parameter tree, and makes `state_` refer
to its first child with the type of the editor state.

A `juce::ValueTree` is a reference. `shared` says that `state_` refers to the first editor child
of the parameter tree itself, as it does after a restore: then the editor, which changes the tree
of `state_` in place, changes that child too.

The XML form of a tree stands for the tree. `copyState` copies deeply, and `replaceState` installs
a tree with all its children.
-/

set_option autoImplicit false

namespace AiMidi.Plugin

open AiMidi.Lib

/-- The type of the editor state. -/
def editorType : Bytes := bytes "AiMidiComposerState"

/-- The state of the processor. -/
structure PersistentState (v : Type) where
  /-- `apvts_.state`. -/
  apvts : ValueTree v
  /-- `state_`, with `none` for an invalid tree. -/
  state : Option (ValueTree v)
  /-- `state_` is the first editor child of `apvts`. -/
  shared : Bool

section

variable {v : Type}

/-- The editor children of a tree. -/
abbrev editorChildren (t : ValueTree v) : List (ValueTree v) := t.childrenWithName editorType

namespace PersistentState

/-- A processor with its parameter tree. -/
def construct (apvts : ValueTree v) : PersistentState v :=
  ⟨apvts, some (.node editorType [] []), false⟩

/-- The tree that `getStateInformation` writes. -/
def getStateInformation (s : PersistentState v) : ValueTree v :=
  match s.state with
  | some editorCopy => s.apvts.addChild editorCopy
  | none            => s.apvts

/-- `setStateInformation` for data that holds a tree. -/
def setStateInformation (tree : ValueTree v) (s : PersistentState v) : PersistentState v :=
  match tree.getChildWithName editorType with
  | some editorChild => ⟨tree, some editorChild, true⟩
  | none             => ⟨tree, s.state, false⟩

end PersistentState

/-! ### The editor -/

/-- A tree with other contents. -/
def withContents (properties : List (Bytes × v)) (children : List (ValueTree v)) :
    ValueTree v → ValueTree v
  | .node type _ _ => .node type properties children

/-- The children with the first editor child changed. -/
def mapEditorChild (f : ValueTree v → ValueTree v) : List (ValueTree v) → List (ValueTree v)
  | []               => []
  | child :: children =>
      if child.type = editorType then f child :: children
      else child :: mapEditorChild f children

/-- What the editor does between two saves of the host. -/
inductive EditorAction (v : Type) where
  /-- `setState` with another tree. -/
  | setState (state : Option (ValueTree v))
  /-- `saveState`: the tree of `state_` gets new properties and children. -/
  | saveState (properties : List (Bytes × v)) (children : List (ValueTree v))

/-- The effect of an action on the persisted state. -/
def EditorAction.run (s : PersistentState v) : EditorAction v → PersistentState v
  | .setState state                => { s with state, shared := false }
  | .saveState properties children =>
      { s with
        apvts :=
          if s.shared then
            .node s.apvts.type s.apvts.properties
              (mapEditorChild (withContents properties children) s.apvts.children)
          else s.apvts
        state := s.state.map (withContents properties children) }

/-- The processor before the save with number `n`, where the editor has acted before each. -/
def beforeSave (s : PersistentState v) (between : Nat → List (EditorAction v)) :
    Nat → PersistentState v
  | 0     => (between 0).foldl EditorAction.run s
  | n + 1 =>
      (between (n + 1)).foldl EditorAction.run
        ((beforeSave s between n).setStateInformation
          (beforeSave s between n).getStateInformation)

/-- The tree that the save with number `n` writes. -/
def savedTree (s : PersistentState v) (between : Nat → List (EditorAction v)) (n : Nat) :
    ValueTree v :=
  (beforeSave s between n).getStateInformation

end

end AiMidi.Plugin
