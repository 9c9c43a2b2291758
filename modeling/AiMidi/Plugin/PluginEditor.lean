import AiMidi.Lib.Decimal
import AiMidi.Lib.GoStrings
import AiMidi.Lib.ValueTree
import AiMidi.Plugin.PianoRollComponent
import AiMidi.Plugin.PluginState

/-!
# `AiMidi.Plugin.PluginEditor`: the editor of the plugin

An `Editor` is the state of the controls, of the piano roll and of the tree that is persisted.
`step` is what an event does to it: an edit of the prompt, a key, a choice, a click, the mouse on
the piano roll. A click on a control that is disabled does nothing. A request goes to the engine
with the event that sends it, and the event carries the result.

A text editor notifies its listeners later, so an edit only marks the notification as pending.
`saveState` writes to the tree of the editor in place and hands it to the processor. After `restore`
the processor has another tree, until the next save. `reopen` stands for closing the editor and
opening a new one.

Texts are lists of characters. `Juce` holds what the editor uses of the framework. The presets and
the colours are left out.
-/

set_option autoImplicit false

namespace AiMidi.Plugin

open AiMidi.Lib AiMidi.Lib.Smf

/-- What the framework computes. -/
structure Juce where
  /-- `CharacterFunctions::isWhitespace`. -/
  isWhitespace : Char → Bool
  /-- `String::getIntValue`. -/
  getIntValue : Runes → Int
  midiFile : MidiFileReader
  beyond : BeyondInt
  /-- The arithmetic of `xToTick`. -/
  scaled : Int → Int → Int → Int → Int

/-! ### The persisted tree

The tree of the editor is a `ValueTree` whose properties are texts and numbers. Writing into it
creates the children that are missing. -/

/-- A property of the tree of the editor. -/
inductive EditorVar where
  | text (s : Runes)
  | number (n : Int)
  deriving DecidableEq, Repr

namespace EditorTree

/-- `getProperty`, with `none` for a property that is missing. -/
def getProperty (t : ValueTree EditorVar) (name : Bytes) : Option EditorVar :=
  t.properties.lookup name

/-- The properties with one set, in its place or at the end. -/
def setIn (name : Bytes) (value : EditorVar) : List (Bytes × EditorVar) → List (Bytes × EditorVar)
  | []             => [(name, value)]
  | (n, v) :: rest => if n = name then (name, value) :: rest else (n, v) :: setIn name value rest

/-- `setProperty`: a property of the name is replaced, or a new one is added. -/
def setProperty (name : Bytes) (value : EditorVar) : ValueTree EditorVar → ValueTree EditorVar
  | .node type properties children => .node type (setIn name value properties) children

/-- The children with `f` applied to the first of a type, which is created if there is none. -/
def updateChild (name : Bytes) (f : ValueTree EditorVar → ValueTree EditorVar) :
    List (ValueTree EditorVar) → List (ValueTree EditorVar)
  | []               => [f (.node name [] [])]
  | child :: children =>
      if child.type = name then f child :: children else child :: updateChild name f children

/-- `getOrCreateChildWithName`, and a change of the child. -/
def withChild (name : Bytes) (f : ValueTree EditorVar → ValueTree EditorVar) :
    ValueTree EditorVar → ValueTree EditorVar
  | .node type properties children => .node type properties (updateChild name f children)

/-- `var::toString`. -/
def toString : Option EditorVar → Runes
  | some (.text s)   => s
  | some (.number n) => (formatInt n).map fun b => Char.ofNat b.toNat
  | none             => []

/-- The conversion to `int`. A text is read by `getIntValue`. -/
def toInt (getIntValue : Runes → Int) : Option EditorVar → Int
  | some (.text s)   => getIntValue s
  | some (.number n) => n
  | none             => 0

end EditorTree

/-! ### The engine -/

/-- What the editor sends to the engine, as far as it depends on the editor. -/
structure CompositionRequest where
  seed : Nat
  prompt : Bytes
  deriving DecidableEq, Repr

/-- What the engine sends back. -/
structure CompositionResult where
  success : Bool
  error : Bytes
  smfMidi : Bytes
  deriving DecidableEq, Repr

/-! ### The editor -/

/-- The fields of the editor and the enabled states of its buttons. -/
structure Editor where
  promptText : Runes
  /-- The listeners have not been notified of the last edit. -/
  textPending : Bool
  promptHistory : List Runes
  /-- `workflowSelector_.getSelectedItemIndex()`. -/
  workflow : Int
  /-- The value of the slider. -/
  seed : Fin 1000000
  generateEnabled : Bool
  regenEnabled : Bool
  diffEnabled : Bool
  diffButtonText : Bytes
  statusText : Bytes
  pianoRoll : PianoRollComponent
  diffBeforeNotes : List PianoRollNote
  diffMode : Bool
  /-- `state_`. -/
  state : ValueTree EditorVar
  /-- `state_` of the processor, which the host saves. -/
  procState : ValueTree EditorVar

/-- What the user does. -/
inductive EditorEvent where
  | edit (text : Runes)
  | textChanged
  | returnKey
  | chooseHistory (idx : Int)
  | chooseWorkflow (idx : Fin 10)
  | moveSeed (seed : Fin 1000000)
  | clickGenerate
  | clickRegenerate (result : CompositionResult)
  | clickDiff
  | mouseDown (bounds : Rectangle) (pos : Int × Int)
  | mouseDrag (bounds : Rectangle) (pos : Int × Int)
  | mouseUp
  /-- The host restores a tree. -/
  | restore (tree : ValueTree EditorVar)
  | reopen

namespace Editor

section

variable (juce : Juce)

/-- `trim`: blanks at both ends are dropped. -/
def trim (s : Runes) : Runes :=
  ((s.dropWhile juce.isWhitespace).reverse.dropWhile juce.isWhitespace).reverse

/-- `!promptBox_.getText().trim().isEmpty()`. -/
def hasText (s : Editor) : Bool := trim juce s.promptText ≠ []

/-! ### Listeners

The listeners keep the buttons in step with the text and the selection. They run behind the change
that they are notified of. -/

/-- `onSelectionChanged`. -/
def selectionChanged (s : Editor) : Editor :=
  { s with regenEnabled := s.pianoRoll.hasSelection && s.hasText juce }

/-- `textEditorTextChanged`: both buttons follow the text. -/
def textEditorTextChanged (s : Editor) : Editor :=
  let hasText := s.hasText juce
  { s with
    textPending := false
    generateEnabled := hasText
    regenEnabled := hasText && s.pianoRoll.hasSelection }

/-! ### History and state

The history is kept in the editor and in the tree of the processor. The first is what the user sees,
the second what a new editor loads. -/

/-- `addToHistory`: the trimmed prompt goes to the front, and ten are kept. -/
def addToHistory (prompt : Runes) (s : Editor) : Editor :=
  let trimmed := trim juce prompt
  if trimmed = [] then s
  else { s with promptHistory := (trimmed :: s.promptHistory.filter (· ≠ trimmed)).take 10 }

/-- An item of the history as it is saved. -/
def historyItem (p : Runes) : ValueTree EditorVar :=
  .node (bytes "item") [(bytes "text", .text p)] []

/-- The child that holds the history: its old children are removed. -/
def historyNode (history : List Runes) : ValueTree EditorVar → ValueTree EditorVar
  | .node type properties _ => .node type properties (history.map historyItem)

/-- `saveState`: history, prompt and workflow go into the tree, and the tree to the processor. -/
def saveState (s : Editor) : Editor :=
  let state := EditorTree.withChild (bytes "history") (historyNode s.promptHistory) s.state
  let state := EditorTree.setProperty (bytes "lastPrompt") (.text s.promptText) state
  let state := EditorTree.setProperty (bytes "lastWorkflow") (.number s.workflow) state
  { s with state, procState := state }

/-- `juce::jlimit`. -/
def jlimit (lo hi value : Int) : Int := if value < lo then lo else if hi < value then hi else value

/-- The history that a tree holds. -/
def savedHistory (state : ValueTree EditorVar) : List Runes :=
  match state.getChildWithName (bytes "history") with
  | some node => node.children.map fun item =>
      EditorTree.toString (EditorTree.getProperty item (bytes "text"))
  | none      => []

/-- `loadState` on the editor of the constructor, whose history is empty. The slider is attached to
the parameter of the processor, so it keeps its value. -/
def loadState (state : ValueTree EditorVar) (seed : Fin 1000000) : Editor :=
  let lastPrompt := EditorTree.toString (EditorTree.getProperty state (bytes "lastPrompt"))
  let lastWorkflow :=
    EditorTree.toInt juce.getIntValue (EditorTree.getProperty state (bytes "lastWorkflow"))
  { promptText := lastPrompt
    textPending := false
    promptHistory := savedHistory state
    workflow := jlimit 0 9 lastWorkflow
    seed := seed
    generateEnabled := lastPrompt ≠ []
    regenEnabled := false
    diffEnabled := false
    diffButtonText := bytes "Show Diff"
    statusText := bytes "Ready"
    pianoRoll := {}
    diffBeforeNotes := []
    diffMode := false
    state := state
    procState := state }

/-! ### Buttons

A click on a disabled button does nothing. What the engine sends back for a click on an enabled one
is part of the event. -/

/-- The diff of an earlier regeneration is given up. The piano roll is not told. -/
def dropDiff (s : Editor) : Editor :=
  { s with
    diffBeforeNotes := [], diffMode := false, diffButtonText := bytes "Show Diff",
    diffEnabled := false }

/-- `onGenerate`. The composition itself is left to the engine; what matters here is that the prompt
is remembered and the editor's copy of a diff dropped. -/
def onGenerate (s : Editor) : Editor :=
  let prompt := trim juce s.promptText
  if prompt = [] then s
  else
    let s := (s.addToHistory juce prompt).saveState
    { s with statusText := bytes "Done", generateEnabled := true }.dropDiff

/-- The request for the selected region. -/
def regenerateRequest (s : Editor) : CompositionRequest where
  seed := s.seed
  prompt := utf8 (trim juce s.promptText) ++ bytes " (regenerate bars "
    ++ formatInt s.pianoRoll.selectedBarStart ++ bytes "-"
    ++ formatInt s.pianoRoll.selectedBarEnd ++ bytes ")"

/-- What the result of a regeneration changes. -/
def regenerated (result : CompositionResult) (s : Editor) : Editor :=
  if result.success && result.smfMidi ≠ [] then
    let newNotes := PianoRoll.parseSmfToNotes juce.beyond juce.midiFile result.smfMidi 480
    let pianoRoll := (s.pianoRoll.setNotes newNotes).showDiff s.diffBeforeNotes newNotes
    { s with
      pianoRoll := pianoRoll.clearSelection
      diffMode := true
      diffButtonText := bytes "Hide Diff"
      diffEnabled := true
      statusText := bytes "Region regenerated" }
  else
    { s with
      statusText :=
        if result.error = [] then bytes "Regeneration failed" else result.error }.dropDiff

/-- The editor after a click, and the request that was sent. -/
def onRegenerate (result : CompositionResult) (s : Editor) : Editor × Option CompositionRequest :=
  if !s.pianoRoll.hasSelection then
    ({ s with statusText := bytes "Select a region first" }, none)
  else if trim juce s.promptText = [] then
    ({ s with statusText := bytes "Enter a prompt" }, none)
  else
    let request := s.regenerateRequest juce
    let s := { s with diffBeforeNotes := s.pianoRoll.notes }.regenerated juce result
    ({ s with
      regenEnabled := s.pianoRoll.hasSelection && s.hasText juce
      generateEnabled := true }, some request)

/-- `onDiffToggle`: the diff is shown with the notes of the roll as its second side, or it is
cleared. -/
def onDiffToggle (s : Editor) : Editor :=
  if !s.diffMode then
    { s with
      diffMode := true
      pianoRoll := s.pianoRoll.showDiff s.diffBeforeNotes s.pianoRoll.notes
      diffButtonText := bytes "Hide Diff" }
  else
    { s with
      diffMode := false
      pianoRoll := s.pianoRoll.clearDiff
      diffButtonText := bytes "Show Diff" }

/-! ### Events -/

/-- The prompt with another text. The listeners are notified later. -/
def edit (text : Runes) (s : Editor) : Editor := { s with promptText := text, textPending := true }

/-- What an event does, and the request that it sends to the engine. -/
def step (s : Editor) : EditorEvent → Editor × Option CompositionRequest
  | .edit text             => (s.edit text, none)
  | .textChanged           => (if s.textPending then s.textEditorTextChanged juce else s, none)
  | .returnKey             => (if s.hasText juce then s.onGenerate juce else s, none)
  | .chooseHistory idx     =>
      (if 0 ≤ idx then
        match s.promptHistory[idx.toNat]? with
        | some prompt => if prompt = s.promptText then s else s.edit prompt
        | none        => s
      else s, none)
  | .chooseWorkflow idx    => ({ s with workflow := idx.val }.saveState, none)
  | .moveSeed seed         => ({ s with seed }, none)
  | .clickGenerate         => (if s.generateEnabled then s.onGenerate juce else s, none)
  | .clickRegenerate res   =>
      if s.regenEnabled then s.onRegenerate juce res else (s, none)
  | .clickDiff             => (if s.diffEnabled then s.onDiffToggle else s, none)
  | .mouseDown bounds pos  =>
      ({ s with pianoRoll := s.pianoRoll.mouseDown juce.scaled bounds pos }, none)
  | .mouseDrag bounds pos  =>
      ({ s with pianoRoll := (s.pianoRoll.mouseDrag juce.scaled bounds pos).1 }, none)
  | .mouseUp               =>
      ({ s with pianoRoll := s.pianoRoll.mouseUp }.selectionChanged juce, none)
  | .restore tree          => ({ s with procState := tree }, none)
  | .reopen                => (loadState juce s.procState s.seed, none)

end

end Editor

end AiMidi.Plugin
