import AiMidi.Lib.Transition
import AiMidi.Plugin.PluginEditor

/-!
# `AiMidi.Proofs.PluginEditor`: what holds while the editor is used

`editorSystem` lets the events come in any order. `RollInv` and `ButtonInv` are its invariants: the
bars of a selection lie in the time range, and outside of a press of the mouse the buttons are
enabled for what is selected and typed.

The time range is never set, and its default is two bars long. So the regions that the engine can be
asked to regenerate are three (`requests_valid`).

Most events leave most of the editor alone, and the proofs say so once for each group of fields:
`SameControls` for what a generation keeps, `regenerated_spec` for what a regeneration does. The
step lemmas `rollInv_step` and `buttonInv_step` go through the events with these. That only one
event sends a request is `request_of_step`.
-/

set_option autoImplicit false

namespace AiMidi.Proofs.PluginEditor

open AiMidi.Lib AiMidi.Lib.System AiMidi.Lib.Smf
open AiMidi.Plugin AiMidi.Plugin.Editor

/-! ### The piano roll

The last tick of the range lies in bar 2, one behind the two bars that the range has. Every way to
change a selection clamps it to these bars. -/

section Roll

variable (scaled : Int → Int → Int → Int → Int) {roll : PianoRollComponent}

/-- The time range is the default, a selection lies in it, and a press has one purpose. -/
structure RollInv (roll : PianoRollComponent) : Prop where
  endTick : roll.endTick = 3840
  ppq : roll.ppq = 480
  selection : (roll.selectedBarStart = -1 ∧ roll.selectedBarEnd = -1) ∨
    (0 ≤ roll.selectedBarStart ∧ roll.selectedBarStart ≤ roll.selectedBarEnd ∧
      roll.selectedBarEnd ≤ 2)
  purpose : ¬ (roll.isDragging = true ∧ roll.isDragExport = true)

/-- The time range has two bars, so a tick lies in one of the bars 0 to 2. -/
theorem barOf_bounds (h : RollInv roll) (tick : Int) :
    0 ≤ roll.barOf tick ∧ roll.barOf tick ≤ 2 := by
  have hlast : roll.endTick.tdiv (roll.ppq * 4) = 2 := by
    rw [h.endTick, h.ppq]
    rfl
  unfold PianoRollComponent.barOf
  simp only [hlast]
  split
  · omega
  · split
    · omega
    · omega

/-- A drag spans the bars between its ends, in whatever direction. -/
theorem span_bounds {a b : Int} (ha : 0 ≤ a ∧ a ≤ 2) (hb : 0 ≤ b ∧ b ≤ 2) :
    0 ≤ min a b ∧ min a b ≤ max a b ∧ max a b ≤ 2 := by
  omega

/-- A press selects one bar, or begins a drag of the file. -/
theorem mouseDown_inv (h : RollInv roll) (bounds : Rectangle) (pos : Int × Int) :
    RollInv (roll.mouseDown scaled bounds pos) := by
  unfold PianoRollComponent.mouseDown
  simp only
  split
  · have hbar := barOf_bounds h
      (roll.xToTick scaled pos.1 (PianoRollComponent.areas bounds).2.2)
    exact ⟨h.endTick, h.ppq, .inr ⟨hbar.1, Int.le_refl _, hbar.2⟩, fun hboth => nomatch hboth.2⟩
  · split
    · exact ⟨h.endTick, h.ppq, h.selection, fun hboth => nomatch hboth.1⟩
    · exact h

/-- A drag moves the end of the selection. -/
theorem mouseDrag_inv (h : RollInv roll) (bounds : Rectangle) (pos : Int × Int) :
    RollInv (roll.mouseDrag scaled bounds pos).1 := by
  unfold PianoRollComponent.mouseDrag
  simp only
  split
  · split
    · exact ⟨h.endTick, h.ppq, h.selection, fun hboth => nomatch hboth.1⟩
    · exact h
  · split
    · exact ⟨h.endTick, h.ppq, .inr (span_bounds (barOf_bounds h _) (barOf_bounds h _)), h.purpose⟩
    · exact h

/-- A release leaves the selection. -/
theorem mouseUp_inv (h : RollInv roll) : RollInv roll.mouseUp :=
  ⟨h.endTick, h.ppq, h.selection, fun hboth => nomatch hboth.1⟩

end Roll

/-! ### The system

An event may arrive in any state. The run records each event with the request it sent, so that a
statement about requests is one about the past. -/

section

variable (juce : Juce)

/-- An event, and the request that it sends. -/
structure EditorStep where
  event : EditorEvent
  request : Option CompositionRequest

/-- The editor of a processor with a tree, under any events. -/
def editorSystem (tree : ValueTree EditorVar) (seed : Fin 1000000) : System Editor EditorStep where
  init s := s = loadState juce tree seed
  step s a s' :=
    Editor.step juce s a.event = (s', a.request)

/-- An event goes on with a run, whatever it is. -/
theorem run_snoc {tree : ValueTree EditorVar} {seed : Fin 1000000} {s : Editor}
    {past : List (EditorStep × Editor)} (h : Run (editorSystem juce tree seed) past s)
    (e : EditorEvent) : Run (editorSystem juce tree seed)
      ((⟨e, (Editor.step juce s e).2⟩, (Editor.step juce s e).1) :: past)
      (Editor.step juce s e).1 :=
  h.snoc rfl

/-! ### What the buttons leave alone

A generation and a regeneration touch many fields. The buttons and the selection depend on few of
them, and those are either kept or set from the same values in every branch. -/

section

variable (s : Editor)

/-- Only the history, the trees, the status and the diff differ. -/
structure SameControls (s s' : Editor) : Prop where
  pianoRoll : s'.pianoRoll = s.pianoRoll
  promptText : s'.promptText = s.promptText
  textPending : s'.textPending = s.textPending
  regenEnabled : s'.regenEnabled = s.regenEnabled
  generateEnabled : s.generateEnabled = true → s'.generateEnabled = true

/-- What two changes leave alone both leave alone. -/
theorem SameControls.trans {s s' s'' : Editor} (h : SameControls s s') (h' : SameControls s' s'') :
    SameControls s s'' :=
  ⟨h'.pianoRoll.trans h.pianoRoll, h'.promptText.trans h.promptText,
    h'.textPending.trans h.textPending, h'.regenEnabled.trans h.regenEnabled,
    fun hs => h'.generateEnabled (h.generateEnabled hs)⟩

/-- The history is none of the controls. -/
theorem addToHistory_same (p : Runes) : SameControls s (s.addToHistory juce p) := by
  simp only [addToHistory]
  split
  · exact ⟨rfl, rfl, rfl, rfl, id⟩
  · exact ⟨rfl, rfl, rfl, rfl, id⟩

/-- The trees are none of the controls. -/
theorem saveState_same : SameControls s s.saveState := ⟨rfl, rfl, rfl, rfl, id⟩

/-- The diff is none of the controls. -/
theorem dropDiff_same : SameControls s s.dropDiff := ⟨rfl, rfl, rfl, rfl, id⟩

/-- The end of a generation enables its button. -/
theorem done_same (statusText : Bytes) :
    SameControls s { s with statusText, generateEnabled := true } :=
  ⟨rfl, rfl, rfl, rfl, fun _ => rfl⟩

/-- A generation leaves the region button and the prompt. -/
theorem onGenerate_same : SameControls s (s.onGenerate juce) := by
  simp only [onGenerate]
  split
  · exact ⟨rfl, rfl, rfl, rfl, id⟩
  · exact (((addToHistory_same juce s _).trans (saveState_same _)).trans
      (done_same _ _)).trans (dropDiff_same _)

/-- What the result of a regeneration does: the new notes are shown as a diff and the selection is
gone, or the notes stay and the diff is dropped. -/
inductive Regenerated (s s' : Editor) : Prop where
  | shown (notes : List PianoRollNote)
      (pianoRoll : s'.pianoRoll
        = ((s.pianoRoll.setNotes notes).showDiff s.diffBeforeNotes notes).clearSelection)
      (diffBeforeNotes : s'.diffBeforeNotes = s.diffBeforeNotes)
      (diffMode : s'.diffMode = true) (diffButtonText : s'.diffButtonText = bytes "Hide Diff")
      (diffEnabled : s'.diffEnabled = true)
  | failed (pianoRoll : s'.pianoRoll = s.pianoRoll) (diffBeforeNotes : s'.diffBeforeNotes = [])
      (diffMode : s'.diffMode = false) (diffButtonText : s'.diffButtonText = bytes "Show Diff")
      (diffEnabled : s'.diffEnabled = false)

/-- The result is one of success with a file. -/
def Succeeds (result : CompositionResult) : Prop := result.success = true ∧ result.smfMidi ≠ []

/-- A regeneration does what its result says, and leaves the prompt. -/
theorem regenerated_spec (result : CompositionResult) :
    Regenerated s (s.regenerated juce result) ∧
      ((s.regenerated juce result).diffEnabled = true ↔ Succeeds result) ∧
      (s.regenerated juce result).promptText = s.promptText ∧
      (s.regenerated juce result).textPending = s.textPending := by
  simp only [regenerated]
  split
  · rename_i hsuccess
    rw [Bool.and_eq_true, decide_eq_true_eq] at hsuccess
    exact ⟨.shown _ rfl rfl rfl rfl rfl, iff_of_true rfl hsuccess, rfl, rfl⟩
  · rename_i hfail
    rw [Bool.and_eq_true, decide_eq_true_eq] at hfail
    exact ⟨.failed rfl rfl rfl rfl rfl, iff_of_false nofun hfail, rfl, rfl⟩

/-- The notes before a regeneration are kept for the diff. -/
def remembered : Editor := { s with diffBeforeNotes := s.pianoRoll.notes }

/-- The editor behind a regeneration. Both buttons are set anew. -/
def settled : Editor :=
  { s with
    regenEnabled := s.pianoRoll.hasSelection && s.hasText juce, generateEnabled := true }

/-- A click either is refused with a text, or carries the regeneration out and sends its request. -/
theorem onRegenerate_cases (result : CompositionResult) :
    ((s.pianoRoll.hasSelection && s.hasText juce) = false ∧
      ∃ statusText, s.onRegenerate juce result
        = ({ s with statusText }, none)) ∨
    ((s.pianoRoll.hasSelection && s.hasText juce) = true ∧
      s.onRegenerate juce result
        = (settled juce ((remembered s).regenerated juce result),
            some (s.regenerateRequest juce))) := by
  simp only [onRegenerate]
  cases hselection : s.pianoRoll.hasSelection with
  | false => exact .inl ⟨rfl, _, rfl⟩
  | true =>
    by_cases htext : trim juce s.promptText = []
    · refine .inl ⟨?_, bytes "Enter a prompt", ?_⟩
      · simp [hasText, htext]
      · simp [htext]
    · refine .inr ⟨?_, ?_⟩
      · simp [hasText, htext]
      · simp only [Bool.not_true, Bool.false_eq_true, if_false, htext]
        rfl

end

/-! ### Selections

The invariant of the roll does not mention the editor around it. An event of the editor keeps it by
keeping the selection or by clearing it. -/

section

variable {s s' : Editor} {tree : ValueTree EditorVar} {seed : Fin 1000000}

/-- Showing new notes clears the selection. -/
theorem setNotes_inv {roll : PianoRollComponent} (h : RollInv roll) (before notes) :
    RollInv ((roll.setNotes notes).showDiff before notes).clearSelection :=
  ⟨h.endTick, h.ppq, .inl ⟨rfl, rfl⟩, fun hboth => nomatch hboth.1⟩

/-- The selection is gone or as it was. -/
theorem regenerated_inv (h : RollInv s.pianoRoll) (hregen : Regenerated s s') :
    RollInv s'.pianoRoll := by
  cases hregen with
  | shown notes hroll =>
    rw [hroll]
    exact setNotes_inv h _ _
  | failed hroll =>
    rw [hroll]
    exact h

/-- The diff button leaves the selection. -/
theorem onDiffToggle_inv (h : RollInv s.pianoRoll) : RollInv s.onDiffToggle.pianoRoll := by
  unfold onDiffToggle
  split
  · exact ⟨h.endTick, h.ppq, h.selection, h.purpose⟩
  · exact ⟨h.endTick, h.ppq, h.selection, h.purpose⟩

/-- The region button leaves no selection out of range. -/
theorem onRegenerate_inv (h : RollInv s.pianoRoll) (result : CompositionResult) :
    RollInv (s.onRegenerate juce result).1.pianoRoll := by
  rcases onRegenerate_cases juce s result with ⟨-, _, heq⟩ | ⟨-, heq⟩
  · rw [heq]
    exact h
  · rw [heq]
    have hregen := (regenerated_spec juce (remembered s) result).1
    have hnext : RollInv ((remembered s).regenerated juce result).pianoRoll :=
      regenerated_inv (s := remembered s) h hregen
    exact hnext

/-- Every event keeps the selection within the time range. -/
theorem rollInv_step (h : RollInv s.pianoRoll) (e : EditorEvent) :
    RollInv (Editor.step juce s e).1.pianoRoll := by
  have hgenerate : RollInv (s.onGenerate juce).pianoRoll := by
    rw [(onGenerate_same juce s).pianoRoll]
    exact h
  -- Only the mouse and the two buttons for a diff and a region reach the roll.
  cases e with
  | edit text => exact h
  | textChanged =>
    simp only [Editor.step]
    split <;> exact h
  | returnKey =>
    simp only [Editor.step]
    split
    · exact hgenerate
    · exact h
  | chooseHistory idx =>
    simp only [Editor.step]
    split
    · split
      · split <;> exact h
      · exact h
    · exact h
  | chooseWorkflow idx => exact h
  | moveSeed seed => exact h
  | clickGenerate =>
    simp only [Editor.step]
    split
    · exact hgenerate
    · exact h
  | clickRegenerate result =>
    simp only [Editor.step]
    split
    · exact onRegenerate_inv juce h result
    · exact h
  | clickDiff =>
    simp only [Editor.step]
    split
    · exact onDiffToggle_inv h
    · exact h
  | mouseDown bounds pos => exact mouseDown_inv juce.scaled h bounds pos
  | mouseDrag bounds pos => exact mouseDrag_inv juce.scaled h bounds pos
  | mouseUp => exact mouseUp_inv h
  | restore tree => exact h
  | reopen => exact ⟨rfl, rfl, .inl ⟨rfl, rfl⟩, nofun⟩

/-- The selection lies within the time range at the end of every run. -/
theorem rollInv_run {past : List (EditorStep × Editor)}
    (h : Run (editorSystem juce tree seed) past s) :
    RollInv s.pianoRoll := by
  refine h.state_invariant (I := fun s => RollInv s.pianoRoll) (fun s hs => ?_)
    fun s a s' hinv hstep => ?_
  · rw [show s = loadState juce tree seed from hs]
    exact ⟨rfl, rfl, .inl ⟨rfl, rfl⟩, nofun⟩
  · have hnext := rollInv_step juce hinv a.event
    rw [show Editor.step juce s a.event = (s', a.request)
      from hstep] at hnext
    exact hnext

/-! ### Requests

The selection is in range whenever a request is sent, and a click without a selection sends none.
Few selections are left then, and they are listed. -/

/-- A request for one of the three regions that the time range has, with a prompt that is trimmed
and not empty. -/
structure ValidRequest (request : CompositionRequest) : Prop where
  seed_lt : request.seed < 1000000
  prompt : ∃ text barStart barEnd, trim juce text ≠ [] ∧
    (barStart, barEnd) ∈ [(0, 1), (0, 2), (1, 2)] ∧
    request.prompt = utf8 (trim juce text) ++ bytes " (regenerate bars "
      ++ formatInt barStart ++ bytes "-" ++ formatInt barEnd ++ bytes ")"

/-- There are three selections of at least one bar. -/
theorem mem_regions {a b : Int} (ha : 0 ≤ a) (hab : a < b) (hb : b ≤ 2) :
    (a, b) ∈ [((0 : Int), (1 : Int)), (0, 2), (1, 2)] := by
  simp only [List.mem_cons, Prod.mk.injEq, List.not_mem_nil, or_false]
  omega

/-- When the button can be clicked its request is valid. -/
theorem regenerateRequest_valid (h : RollInv s.pianoRoll)
    (hready : (s.pianoRoll.hasSelection && s.hasText juce) = true) :
    ValidRequest juce (s.regenerateRequest juce) := by
  obtain ⟨hselection, htext⟩ := Bool.and_eq_true_iff.mp hready
  have hne : trim juce s.promptText ≠ [] := of_decide_eq_true htext
  simp only [PianoRollComponent.hasSelection, Bool.and_eq_true, decide_eq_true_eq] at hselection
  have hend : s.pianoRoll.selectedBarEnd ≤ 2 := by
    rcases h.selection with hnone | hsome
    · omega
    · exact hsome.2.2
  exact ⟨s.seed.isLt, s.promptText, _, _, hne, mem_regions hselection.1 hselection.2 hend, rfl⟩

/-- Only a click on the button sends a request. -/
theorem request_of_step {request : CompositionRequest} {e : EditorEvent}
    (h : (Editor.step juce s e).2 = some request) :
    (s.pianoRoll.hasSelection && s.hasText juce) = true ∧
      request = s.regenerateRequest juce := by
  cases e with
  | clickRegenerate result =>
    simp only [Editor.step] at h
    split at h
    · rcases onRegenerate_cases juce s result with ⟨-, _, heq⟩ | ⟨hready, heq⟩
      · rw [heq] at h
        exact absurd h nofun
      · rw [heq] at h
        exact ⟨hready, (Option.some.inj h).symm⟩
    · exact absurd h nofun
  | _ => exact absurd h nofun

/-- Whatever the user does, every request that reaches the engine is valid. -/
theorem requests_valid {past : List (EditorStep × Editor)}
    (h : Run (editorSystem juce tree seed) past s) :
    ∀ step ∈ past, ∀ request, step.1.request = some request → ValidRequest juce request := by
  induction h with
  | start => exact fun step hmem => absurd hmem List.not_mem_nil
  | @snoc past s s' a hrun hstep ih =>
    intro step hmem request hrequest
    rcases List.mem_cons.mp hmem with rfl | hmem
    · have hsent : (Editor.step juce s a.event).2 = some request := by
        rw [show Editor.step juce s a.event = (s', a.request) from hstep]
        exact hrequest
      obtain ⟨hready, rfl⟩ := request_of_step juce hsent
      exact regenerateRequest_valid juce (rollInv_run juce hrun) hready
    · exact ih step hmem request hrequest

end

/-! ### Buttons

While a button of the mouse is down the selection changes without notice to the editor. An edit of
the prompt is notified later, so the invariant is about states in which neither is pending. -/

section

variable {s s' : Editor} {tree : ValueTree EditorVar} {seed : Fin 1000000}

/-- Whether a button of the mouse is down behind an event. -/
def pressedAfter (pressed : Prop) : EditorEvent → Prop
  | .mouseDown ..      => True
  | .mouseUp | .reopen => False
  | _                  => pressed

/-- A button of the mouse has gone down on the piano roll and not up again. -/
def Pressed : List (EditorStep × Editor) → Prop
  | []             => False
  | (a, _) :: past => pressedAfter (Pressed past) a.event

/-- Outside of a press nothing is dragged. When the listeners know the prompt as well, each button
is enabled for what its click needs. -/
structure ButtonInv (pressed : Prop) (s : Editor) : Prop where
  released : ¬ pressed → s.pianoRoll.isDragging = false ∧ s.pianoRoll.isDragExport = false
  regen : ¬ pressed → s.textPending = false →
    s.regenEnabled = (s.pianoRoll.hasSelection && s.hasText juce)
  generate : s.textPending = false → s.hasText juce = true → s.generateEnabled = true

/-- A prompt with a text is not empty. -/
theorem ne_nil_of_hasText (h : s.hasText juce = true) : s.promptText ≠ [] := by
  intro hnil
  have hne : trim juce s.promptText ≠ [] := of_decide_eq_true h
  rw [hnil] at hne
  exact hne rfl

/-- A new editor has no selection, and its first button follows the prompt. -/
theorem loadState_inv (tree : ValueTree EditorVar) (seed : Fin 1000000) :
    ButtonInv juce False (loadState juce tree seed) where
  released _ := ⟨rfl, rfl⟩
  regen _ _ := rfl
  generate _ htext := decide_eq_true (ne_nil_of_hasText juce htext)

/-- An event that leaves the controls as they are, or enables the first button. -/
theorem ButtonInv.of_same {pressed : Prop} (h : ButtonInv juce pressed s)
    (hsame : SameControls s s') : ButtonInv juce pressed s' := by
  obtain ⟨hroll, htext, hpending, hregen, hgenerate⟩ := hsame
  have hhas : s'.hasText juce = s.hasText juce := by rw [hasText, hasText, htext]
  refine ⟨fun hp => ?_, fun hp hlisten => ?_, fun hlisten hprompt => ?_⟩
  · rw [hroll]
    exact h.released hp
  · rw [hroll, hregen, hhas]
    exact h.regen hp (hpending ▸ hlisten)
  · exact hgenerate (h.generate (hpending ▸ hlisten) (hhas ▸ hprompt))

/-- An edit is to be notified first. -/
theorem ButtonInv.edit {pressed : Prop} (h : ButtonInv juce pressed s) (text : Runes) :
    ButtonInv juce pressed (s.edit text) :=
  ⟨h.released, fun _ hlisten => absurd hlisten nofun, fun hlisten => absurd hlisten nofun⟩

/-- The listener sets both buttons. -/
theorem ButtonInv.textChanged {pressed : Prop} (h : ButtonInv juce pressed s) :
    ButtonInv juce pressed (s.textEditorTextChanged juce) :=
  ⟨h.released, fun _ _ => Bool.and_comm _ _, fun _ htext => htext⟩

/-- A regeneration sets both buttons, and it ends a press when it shows its notes. -/
theorem ButtonInv.onRegenerate {pressed : Prop} (h : ButtonInv juce pressed s)
    (result : CompositionResult) : ButtonInv juce pressed (s.onRegenerate juce result).1 := by
  rcases onRegenerate_cases juce s result with ⟨-, status, heq⟩ | ⟨-, heq⟩
  · rw [heq]
    exact ⟨h.released, h.regen, h.generate⟩
  · rw [heq]
    obtain ⟨hregen, -, htext, hpending⟩ := regenerated_spec juce (remembered s) result
    refine ⟨fun hp => ?_, fun _ _ => rfl, fun _ _ => rfl⟩
    show ((remembered s).regenerated juce result).pianoRoll.isDragging = false ∧
      ((remembered s).regenerated juce result).pianoRoll.isDragExport = false
    cases hregen with
    | shown notes hroll =>
      rw [hroll]
      exact ⟨rfl, rfl⟩
    | failed hroll =>
      rw [hroll]
      exact h.released hp

/-- The diff button leaves the others. -/
theorem ButtonInv.onDiffToggle {pressed : Prop} (h : ButtonInv juce pressed s) :
    ButtonInv juce pressed s.onDiffToggle := by
  unfold Editor.onDiffToggle
  split
  · exact ⟨h.released, h.regen, h.generate⟩
  · exact ⟨h.released, h.regen, h.generate⟩

/-- Without a press a drag does nothing. -/
theorem mouseDrag_of_released {roll : PianoRollComponent}
    (h : roll.isDragging = false ∧ roll.isDragExport = false) (bounds : Rectangle)
    (pos : Int × Int) : (roll.mouseDrag juce.scaled bounds pos).1 = roll := by
  simp only [PianoRollComponent.mouseDrag, h.1, h.2, Bool.false_eq_true, if_false]

/-- Every event keeps the invariant, with the press as it is behind the event. -/
theorem buttonInv_step {pressed : Prop} (h : ButtonInv juce pressed s) (e : EditorEvent) :
    ButtonInv juce (pressedAfter pressed e) (Editor.step juce s e).1 := by
  have hgenerate : ButtonInv juce pressed (s.onGenerate juce) :=
    h.of_same juce (onGenerate_same juce s)
  -- An event that changes neither the selection nor the text leaves the buttons as they are.
  cases e with
  | edit text => exact h.edit juce text
  | textChanged =>
    simp only [Editor.step]
    split
    · exact h.textChanged juce
    · exact h
  | returnKey =>
    simp only [Editor.step]
    split
    · exact hgenerate
    · exact h
  | chooseHistory idx =>
    simp only [Editor.step]
    split
    · split
      · split
        · exact h
        · exact h.edit juce _
      · exact h
    · exact h
  | chooseWorkflow idx => exact ⟨h.released, h.regen, h.generate⟩
  | moveSeed seed => exact ⟨h.released, h.regen, h.generate⟩
  | clickGenerate =>
    simp only [Editor.step]
    split
    · exact hgenerate
    · exact h
  | clickRegenerate result =>
    simp only [Editor.step]
    split
    · exact h.onRegenerate juce result
    · exact h
  | clickDiff =>
    simp only [Editor.step]
    split
    · exact h.onDiffToggle juce
    · exact h
  | mouseDown bounds pos =>
    exact ⟨fun hup => absurd trivial hup, fun hup => absurd trivial hup, h.generate⟩
  -- While the mouse is held nothing is claimed of the region button.
  | mouseDrag bounds pos =>
    -- A drag without a press moves nothing.
    have hdrag (hup : ¬ pressed) : (s.pianoRoll.mouseDrag juce.scaled bounds pos).1 = s.pianoRoll :=
      mouseDrag_of_released juce (h.released hup) bounds pos
    refine ⟨fun hup => ?_, fun hup hlisten => ?_, h.generate⟩
    · simp only [Editor.step, hdrag hup]
      exact h.released hup
    · simp only [Editor.step, hdrag hup]
      exact h.regen hup hlisten
  | mouseUp => exact ⟨fun _ => ⟨rfl, rfl⟩, fun _ _ => rfl, h.generate⟩
  | restore tree => exact ⟨h.released, h.regen, h.generate⟩
  | reopen => exact loadState_inv juce _ _

/-- In every state that is reached while no button of the mouse is down and every edit has been
notified, the button for the region is enabled exactly when a region is selected and a prompt is
typed, and then its click sends a request. With a prompt a generation can be started. -/
theorem buttons_run {past : List (EditorStep × Editor)}
    (h : Run (editorSystem juce tree seed) past s) (hup : ¬ Pressed past)
    (hlisten : s.textPending = false) :
    (s.regenEnabled = true ↔ s.pianoRoll.hasSelection = true ∧ s.hasText juce = true)
      ∧ (s.regenEnabled = true → ∀ result,
          (Editor.step juce s (.clickRegenerate result)).2 = some (s.regenerateRequest juce))
      ∧ (s.hasText juce = true → s.generateEnabled = true) := by
  have hinv : ButtonInv juce (Pressed past) s := by
    refine h.invariant (I := fun past s => ButtonInv juce (Pressed past) s) (fun s hs => ?_)
      fun past s a s' hrun ih hstep => ?_
    · rw [show s = loadState juce tree seed from hs]
      exact loadState_inv juce tree seed
    · have hnext := buttonInv_step juce ih a.event
      rw [show Editor.step juce s a.event = (s', a.request) from hstep] at hnext
      exact hnext
  have hregen := hinv.regen hup hlisten
  refine ⟨?_, fun henabled result => ?_, hinv.generate hlisten⟩
  · rw [hregen, Bool.and_eq_true]
  · rcases onRegenerate_cases juce s result with ⟨hrefused, -⟩ | ⟨-, heq⟩
    · rw [hregen, hrefused] at henabled
      exact absurd henabled nofun
    · simp only [Editor.step, henabled, if_true, heq]

end

end

/-! ### A run

The events of an example are run from a new editor. `stepsFrom` is the past that they leave, so the
general theorems apply to it. -/

/-- The framework for plain texts and files without tracks. -/
def plainJuce : Juce where
  isWhitespace c := c == ' '
  getIntValue _ := 0
  midiFile _ := some []
  beyond := ⟨fun _ => 0, fun _ => by decide⟩
  scaled start distance width range := start + distance * range / width

/-- A new editor after some events. -/
def afterEvents (juce : Juce) (events : List EditorEvent) : Editor :=
  events.foldl (fun s e => (Editor.step juce s e).1) (loadState juce (.node editorType [] []) 0)

/-- The last event comes last. -/
theorem afterEvents_concat (juce : Juce) (events : List EditorEvent) (e : EditorEvent) :
    afterEvents juce (events ++ [e]) = (Editor.step juce (afterEvents juce events) e).1 := by
  rw [afterEvents, List.foldl_append]
  rfl

/-- The steps of some events behind a past, the newest first. -/
def stepsFrom (juce : Juce) (s : Editor) (past : List (EditorStep × Editor)) :
    List EditorEvent → List (EditorStep × Editor)
  | []          => past
  | e :: events =>
    stepsFrom juce (Editor.step juce s e).1
      ((⟨e, (Editor.step juce s e).2⟩, (Editor.step juce s e).1) :: past) events

/-- Any events go on with a run. -/
theorem run_stepsFrom (juce : Juce) {tree : ValueTree EditorVar} {seed : Fin 1000000} {s : Editor}
    {past : List (EditorStep × Editor)} (h : Run (editorSystem juce tree seed) past s)
    (events : List EditorEvent) : Run (editorSystem juce tree seed) (stepsFrom juce s past events)
      (events.foldl (fun s e => (Editor.step juce s e).1) s) := by
  induction events generalizing past s with
  | nil => exact h
  | cons e events ih => exact ih (run_snoc juce h e)

/-- The steps of some events are those of the past and of the events. -/
theorem mem_stepsFrom (juce : Juce) {events : List EditorEvent} {s : Editor}
    {past : List (EditorStep × Editor)} {step : EditorStep × Editor}
    (h : step ∈ stepsFrom juce s past events) : step ∈ past ∨ step.1.event ∈ events := by
  induction events generalizing past s with
  | nil => exact .inl h
  | cons e events ih =>
    rcases ih h with hpast | hevent
    · rcases List.mem_cons.mp hpast with rfl | hpast
      · exact .inr List.mem_cons_self
      · exact .inl hpast
    · exact .inr (List.mem_cons_of_mem e hevent)

/-- Some run leads to the state behind some events. -/
theorem exists_run (juce : Juce) (events : List EditorEvent) : ∃ past,
    Run (editorSystem juce (.node editorType [] []) 0) past (afterEvents juce events) :=
  ⟨_, run_stepsFrom juce (.start rfl) events⟩

/-- A prompt is typed, and the first bar is selected. -/
def regionEvents : List EditorEvent :=
  [.edit ['a'], .textChanged, .mouseDown ⟨0, 0, 690, 220⟩ (60, 100),
    .mouseDrag ⟨0, 0, 690, 220⟩ (400, 100), .mouseUp]

/-- A click behind these events sends a valid request. -/
theorem requests_valid_region :
    ∃ request, (Editor.step plainJuce (afterEvents plainJuce regionEvents)
      (.clickRegenerate ⟨false, [], []⟩)).2 = some request ∧ ValidRequest plainJuce request := by
  obtain ⟨past, hrun⟩ := exists_run plainJuce regionEvents
  have hnext := run_snoc plainJuce hrun (.clickRegenerate ⟨false, [], []⟩)
  have hsent : (Editor.step plainJuce (afterEvents plainJuce regionEvents)
      (.clickRegenerate ⟨false, [], []⟩)).2.isSome = true := by decide +kernel
  obtain ⟨request, hrequest⟩ := Option.isSome_iff_exists.mp hsent
  exact ⟨request, hrequest, requests_valid plainJuce hnext _ List.mem_cons_self request hrequest⟩

/-- Behind these events both buttons are enabled, and a click sends the request for the bar. -/
theorem buttons_run_region :
    (afterEvents plainJuce regionEvents).regenEnabled = true ∧
      (∀ result, (Editor.step plainJuce (afterEvents plainJuce regionEvents)
          (.clickRegenerate result)).2
        = some ((afterEvents plainJuce regionEvents).regenerateRequest plainJuce)) ∧
      (afterEvents plainJuce regionEvents).generateEnabled = true := by
  have hrun : Run (editorSystem plainJuce (.node editorType [] []) 0) _ _ :=
    run_stepsFrom plainJuce (.start rfl) regionEvents
  obtain ⟨hregen, hsends, hgenerate⟩ := buttons_run plainJuce hrun id (by decide +kernel)
  have henabled := hregen.mpr (by decide +kernel)
  exact ⟨henabled, hsends henabled, hgenerate (by decide +kernel)⟩

end AiMidi.Proofs.PluginEditor
