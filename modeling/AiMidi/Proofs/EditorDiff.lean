import AiMidi.Proofs.PluginEditor

/-!
# `AiMidi.Proofs.EditorDiff`: the diff and its button

The editor and the piano roll each have a flag for the diff, and notes of their own. While the
button is enabled the flags agree, and while the diff is shown so do the notes from before the last
regeneration. When it is hidden, the piano roll has given its notes away and the editor keeps them,
to show them again.

A generation and a failed regeneration drop the diff of the editor and disable the button, but the
piano roll is not told. A diff that was shown then stays on the piano roll (`Stale`) until a
regeneration succeeds or the editor is opened anew, and no other event removes it (`diff_run`).

`DiffView` is what of the editor these results are about, and `DiffChange` what an event can do to
it.

The proofs stay with the view: `diffChange_step` goes through the events once, and the invariant and
the description of stale diffs are case analyses of `DiffChange` (`diffInv_change`, `stale_change`).
The notes of the two sides are compared only while the diff is shown.
-/

set_option autoImplicit false

namespace AiMidi.Proofs.PluginEditor

open AiMidi.Lib AiMidi.Lib.System
open AiMidi.Plugin AiMidi.Plugin.Editor

/-- The two sides of the diff. -/
structure DiffView where
  enabled : Bool
  mode : Bool
  text : Bytes
  before : List PianoRollNote
  rollMode : Bool
  rollBefore : List PianoRollNote
  rollAfter : List PianoRollNote
  rollNotes : List PianoRollNote

namespace DiffView

/-- The view of an editor. -/
def of (s : Editor) : DiffView where
  enabled := s.diffEnabled
  mode := s.diffMode
  text := s.diffButtonText
  before := s.diffBeforeNotes
  rollMode := s.pianoRoll.diffMode
  rollBefore := s.pianoRoll.beforeNotes
  rollAfter := s.pianoRoll.afterNotes
  rollNotes := s.pianoRoll.notes

/-- The side of the editor gives the diff up. -/
def drop (v : DiffView) : DiffView :=
  { v with enabled := false, mode := false, text := bytes "Show Diff", before := [] }

/-- New notes. -/
def shown (notes : List PianoRollNote) (v : DiffView) : DiffView where
  enabled := true
  mode := true
  text := bytes "Hide Diff"
  before := v.rollNotes
  rollMode := true
  rollBefore := v.rollNotes
  rollAfter := notes
  rollNotes := notes

/-- A click on the diff button, as it changes the view. -/
def toggle (v : DiffView) : DiffView :=
  if v.mode then
    { v with
      mode := false, text := bytes "Show Diff", rollMode := false, rollBefore := [],
      rollAfter := [] }
  else
    { v with
      mode := true, text := bytes "Hide Diff", rollMode := true, rollBefore := v.before,
      rollAfter := v.rollNotes }

/-- A new editor. -/
def fresh : DiffView := ⟨false, false, bytes "Show Diff", [], false, [], [], []⟩

end DiffView

section

variable (juce : Juce)

/-- The event starts a generation, or a regeneration that fails. -/
def Drops (s : Editor) : EditorEvent → Prop
  | .returnKey              => s.hasText juce = true
  | .clickGenerate          => s.generateEnabled = true ∧ s.hasText juce = true
  | .clickRegenerate result => s.regenEnabled = true ∧
      (s.pianoRoll.hasSelection && s.hasText juce) = true ∧ ¬ Succeeds result
  | _                       => False

/-- The event is a regeneration that succeeds, or opens the editor anew. -/
def Recovers (s : Editor) : EditorEvent → Prop
  | .clickRegenerate result => s.regenEnabled = true ∧
      (s.pianoRoll.hasSelection && s.hasText juce) = true ∧ Succeeds result
  | .reopen                 => True
  | _                       => False

/-- What an event does to the two sides. -/
inductive DiffChange (s : Editor) (e : EditorEvent) : DiffView → Prop where
  | keep (hdrops : ¬ Drops juce s e) (hrecovers : ¬ Recovers juce s e) :
      DiffChange s e (DiffView.of s)
  | drop (hdrops : Drops juce s e) (hrecovers : ¬ Recovers juce s e) :
      DiffChange s e (DiffView.of s).drop
  | shown (notes : List PianoRollNote) (hdrops : ¬ Drops juce s e)
      (hrecovers : Recovers juce s e) : DiffChange s e ((DiffView.of s).shown notes)
  | toggle (henabled : s.diffEnabled = true) (hdrops : ¬ Drops juce s e)
      (hrecovers : ¬ Recovers juce s e) : DiffChange s e (DiffView.of s).toggle
  | fresh (hdrops : ¬ Drops juce s e) (hrecovers : Recovers juce s e) :
      DiffChange s e DiffView.fresh

section

variable (s : Editor)

/-- The history is no part of the view. -/
theorem addToHistory_diff (p : Runes) : DiffView.of (s.addToHistory juce p) = DiffView.of s := by
  simp only [addToHistory]
  split
  · rfl
  · rfl

/-- A generation drops the editor's side of a diff, and nothing of the roll's. -/
theorem onGenerate_diff : DiffView.of (s.onGenerate juce)
    = if s.hasText juce then (DiffView.of s).drop else DiffView.of s := by
  simp only [onGenerate, hasText]
  by_cases htext : trim juce s.promptText = []
  · simp [htext]
  · have hkeep := addToHistory_diff juce s (trim juce s.promptText)
    simp only [htext, if_false, ne_eq, not_false_eq_true, decide_true, if_true]
    rw [← hkeep]
    rfl

/-- The click on the button is the toggle of the view. -/
theorem onDiffToggle_diff : DiffView.of s.onDiffToggle = (DiffView.of s).toggle := by
  unfold onDiffToggle DiffView.toggle
  cases hmode : s.diffMode with
  | false =>
    have hview : (DiffView.of s).mode = false := hmode
    simp only [hview, Bool.not_false, if_true, Bool.false_eq_true, if_false]
    rfl
  | true =>
    have hview : (DiffView.of s).mode = true := hmode
    simp only [hview, Bool.not_true, if_true, Bool.false_eq_true, if_false]
    rfl

/-- A press of the mouse is no change of the view. -/
theorem mouseDown_diff (bounds : Rectangle) (pos : Int × Int) :
    DiffView.of { s with pianoRoll := s.pianoRoll.mouseDown juce.scaled bounds pos }
      = DiffView.of s := by
  simp only [PianoRollComponent.mouseDown]
  split
  · rfl
  · split
    · rfl
    · rfl

/-- Nor is a drag. -/
theorem mouseDrag_diff (bounds : Rectangle) (pos : Int × Int) :
    DiffView.of { s with pianoRoll := (s.pianoRoll.mouseDrag juce.scaled bounds pos).1 }
      = DiffView.of s := by
  simp only [PianoRollComponent.mouseDrag]
  split
  · split
    · rfl
    · rfl
  · split
    · rfl
    · rfl

/-- A regeneration shows its notes, or it drops the diff. -/
theorem regenerated_diff {s' : Editor} (h : Regenerated (remembered s) s') :
    (∃ notes, DiffView.of s' = (DiffView.of s).shown notes) ∨
      DiffView.of s' = (DiffView.of s).drop := by
  cases h with
  | shown notes hroll hbefore hmode htext henabled =>
    refine .inl ⟨notes, ?_⟩
    rw [DiffView.of, hroll, hbefore, hmode, htext, henabled]
    rfl
  | failed hroll hbefore hmode htext henabled =>
    refine .inr ?_
    rw [DiffView.of, hroll, hbefore, hmode, htext, henabled]
    rfl

/-- A click on the region button, as it changes the view. -/
theorem onRegenerate_diff (result : CompositionResult) (henabled : s.regenEnabled = true) :
    DiffChange juce s (.clickRegenerate result) (DiffView.of (s.onRegenerate juce result).1) := by
  -- Without a selection or a text the click is refused before anything is sent.
  rcases onRegenerate_cases juce s result with ⟨hrefused, status, heq⟩ | ⟨hready, heq⟩
  · rw [heq]
    have hnot : (s.pianoRoll.hasSelection && s.hasText juce) ≠ true := by
      rw [hrefused]
      exact nofun
    exact .keep (fun h => hnot h.2.1) (fun h => hnot h.2.1)
  · obtain ⟨hspec, hsuccess, -⟩ := regenerated_spec juce (remembered s) result
    rw [heq]
    have hview : DiffView.of (settled juce ((remembered s).regenerated juce result))
        = DiffView.of ((remembered s).regenerated juce result) := rfl
    rw [hview]
    -- A success shows the new diff, a failure drops the one before.
    rcases regenerated_diff s hspec with ⟨notes, hshown⟩ | hdrop
    · have hsucceeds : Succeeds result := hsuccess.mp (congrArg DiffView.enabled hshown)
      rw [hshown]
      exact .shown notes (fun h => h.2.2 hsucceeds) ⟨henabled, hready, hsucceeds⟩
    · have hfails : ¬ Succeeds result := fun h => by
        have hboth := hsuccess.mpr h
        rw [show ((remembered s).regenerated juce result).diffEnabled = false
          from congrArg DiffView.enabled hdrop] at hboth
        exact absurd hboth nofun
      rw [hdrop]
      exact .drop ⟨henabled, hready, hfails⟩ (fun h => hfails h.2.2)

/-- What each event does to the diff. -/
theorem diffChange_step (e : EditorEvent) :
    DiffChange juce s e (DiffView.of (Editor.step juce s e).1) := by
  -- Only a request, a failed regeneration, the diff button and a new editor touch the diff.
  cases e with
  | edit text => exact .keep not_false not_false
  | textChanged =>
    simp only [Editor.step]
    split
    · exact .keep not_false not_false
    · exact .keep not_false not_false
  | returnKey =>
    simp only [Editor.step]
    split
    · rename_i htext
      rw [onGenerate_diff, if_pos htext]
      exact .drop htext not_false
    · rename_i htext
      exact .keep htext not_false
  | chooseHistory idx =>
    simp only [Editor.step]
    split
    · split
      · split
        · exact .keep not_false not_false
        · exact .keep not_false not_false
      · exact .keep not_false not_false
    · exact .keep not_false not_false
  | chooseWorkflow idx => exact .keep not_false not_false
  | moveSeed seed => exact .keep not_false not_false
  | clickGenerate =>
    simp only [Editor.step]
    split
    · rename_i henabled
      rw [onGenerate_diff]
      split
      · rename_i htext
        exact .drop ⟨henabled, htext⟩ not_false
      · rename_i htext
        exact .keep (fun h => htext h.2) not_false
    · rename_i hdisabled
      exact .keep (fun h => hdisabled h.1) not_false
  | clickRegenerate result =>
    simp only [Editor.step]
    split
    · rename_i henabled
      exact onRegenerate_diff juce s result henabled
    · rename_i hdisabled
      exact .keep (fun h => hdisabled h.1) (fun h => hdisabled h.1)
  | clickDiff =>
    simp only [Editor.step]
    split
    · rename_i henabled
      rw [onDiffToggle_diff]
      exact .toggle henabled not_false not_false
    · exact .keep not_false not_false
  | mouseDown bounds pos =>
    simp only [Editor.step]
    rw [mouseDown_diff]
    exact .keep not_false not_false
  | mouseDrag bounds pos =>
    simp only [Editor.step]
    rw [mouseDrag_diff]
    exact .keep not_false not_false
  | mouseUp => exact .keep not_false not_false
  | restore tree => exact .keep not_false not_false
  | reopen => exact .fresh not_false trivial

end

/-! ### The two sides

The editor drops its side of the diff without telling the roll. The invariant can relate the two
sides only while the button is enabled, and `Stale` names what is left over otherwise. -/

/-- The text of the button is that of its side. While the button is enabled the flags agree, and
while the diff is shown the notes from before agree as well. A piano roll that shows a diff shows
its own notes as those from after. -/
structure DiffInv (v : DiffView) : Prop where
  text : v.text = if v.mode then bytes "Hide Diff" else bytes "Show Diff"
  agree : v.enabled = true → v.rollMode = v.mode
  before : v.enabled = true → v.mode = true → v.rollBefore = v.before
  disabled : v.enabled = false → v.mode = false
  after : v.rollMode = true → v.rollAfter = v.rollNotes

/-- The piano roll shows a diff that the editor has dropped. -/
def Stale (s : Editor) : Prop := s.diffEnabled = false ∧ s.pianoRoll.diffMode = true

/-- Every change keeps the invariant. -/
theorem diffInv_change {s : Editor} {e : EditorEvent} {v : DiffView} (h : DiffInv (DiffView.of s))
    (hchange : DiffChange juce s e v) : DiffInv v := by
  cases hchange with
  | keep => exact h
  | drop => exact ⟨rfl, nofun, nofun, fun _ => rfl, h.after⟩
  | shown notes => exact ⟨rfl, fun _ => rfl, fun _ _ => rfl, nofun, fun _ => rfl⟩
  | toggle henabled =>
    unfold DiffView.toggle
    split
    · exact ⟨rfl, fun _ => rfl, nofun, fun _ => rfl, nofun⟩
    · refine ⟨rfl, fun _ => rfl, fun _ _ => rfl, fun hdisabled => ?_, fun _ => rfl⟩
      rw [show (DiffView.of s).enabled = true from henabled] at hdisabled
      exact absurd hdisabled nofun
  | fresh => exact ⟨rfl, nofun, nofun, fun _ => rfl, nofun⟩

/-- Of a view with the invariant: the piano roll shows a diff that the editor shows too, or one that
it has dropped. -/
theorem rollMode_iff {s : Editor} (h : DiffInv (DiffView.of s)) :
    s.pianoRoll.diffMode = true ↔ s.diffMode = true ∨ Stale s := by
  constructor
  · intro hroll
    cases henabled : s.diffEnabled with
    | false => exact .inr ⟨henabled, hroll⟩
    | true => exact .inl ((h.agree henabled).symm.trans hroll)
  · rintro (hmode | hstale)
    · cases henabled : s.diffEnabled with
      | false =>
        rw [show s.diffMode = false from h.disabled henabled] at hmode
        exact absurd hmode nofun
      | true => exact (h.agree henabled).trans hmode
    · exact hstale.2

/-- A diff is stale behind a change when one that was shown has just been dropped, or when it was
stale and the change does not recover it. -/
theorem stale_change {s : Editor} {e : EditorEvent} {v : DiffView} (h : DiffInv (DiffView.of s))
    (hchange : DiffChange juce s e v) :
    (v.enabled = false ∧ v.rollMode = true) ↔
      (s.diffMode = true ∧ Drops juce s e) ∨ (Stale s ∧ ¬ Recovers juce s e) := by
  cases hchange with
  | keep hdrops hrecovers =>
    constructor
    · exact fun hstale => .inr ⟨hstale, hrecovers⟩
    · rintro (⟨-, hdrop⟩ | ⟨hstale, -⟩)
      · exact absurd hdrop hdrops
      · exact hstale
  -- The editor drops its own copy only, so the roll shows what it showed before.
  | drop hdrops hrecovers =>
    constructor
    · rintro ⟨-, hroll⟩
      rcases (rollMode_iff h).mp hroll with hmode | hstale
      · exact .inl ⟨hmode, hdrops⟩
      · exact .inr ⟨hstale, hrecovers⟩
    · rintro (⟨hmode, -⟩ | ⟨hstale, -⟩)
      · exact ⟨rfl, (rollMode_iff h).mpr (.inl hmode)⟩
      · exact ⟨rfl, hstale.2⟩
  | shown notes hdrops hrecovers =>
    constructor
    · exact nofun
    · rintro (⟨-, hdrop⟩ | ⟨-, hstays⟩)
      · exact absurd hdrop hdrops
      · exact absurd hrecovers hstays
  -- The button can be clicked only while it is enabled, so nothing is stale there.
  | toggle henabled hdrops hrecovers =>
    have hkeeps : (DiffView.of s).toggle.enabled = true := by
      unfold DiffView.toggle
      split
      · exact henabled
      · exact henabled
    constructor
    · rintro ⟨hdisabled, -⟩
      rw [hkeeps] at hdisabled
      exact absurd hdisabled nofun
    · rintro (⟨-, hdrop⟩ | ⟨hstale, -⟩)
      · exact absurd hdrop hdrops
      · exact absurd (henabled.symm.trans hstale.1) nofun
  | fresh hdrops hrecovers =>
    constructor
    · exact nofun
    · rintro (⟨-, hdrop⟩ | ⟨-, hstays⟩)
      · exact absurd hdrop hdrops
      · exact absurd hrecovers hstays

/-- In every state that is reached the flags of the diff agree while its button is enabled, and the
notes from before agree while it is shown. The piano roll is left with a diff that the editor has
dropped exactly by a generation or a failed regeneration while the diff is shown, until a
regeneration succeeds or the editor is opened anew. -/
theorem diff_run {tree : ValueTree EditorVar} {seed : Fin 1000000}
    {past : List (EditorStep × Editor)} {s : Editor}
    (h : Run (editorSystem juce tree seed) past s) :
    DiffInv (DiffView.of s) ∧ ∀ e, Stale (Editor.step juce s e).1 ↔
      (s.diffMode = true ∧ Drops juce s e) ∨ (Stale s ∧ ¬ Recovers juce s e) := by
  have hinv : DiffInv (DiffView.of s) := by
    refine h.state_invariant (I := fun s => DiffInv (DiffView.of s)) (fun s hs => ?_)
      fun s a s' ih hstep => ?_
    · rw [show s = loadState juce tree seed from hs]
      exact ⟨rfl, nofun, nofun, fun _ => rfl, nofun⟩
    · have hnext := diffInv_change juce ih (diffChange_step juce s a.event)
      rw [show Editor.step juce s a.event = (s', a.request) from hstep] at hnext
      exact hnext
  exact ⟨hinv, fun e => stale_change juce hinv (diffChange_step juce s e)⟩

end

/-- A region is regenerated, and then a composition is generated. -/
theorem diff_run_generate : Stale (afterEvents plainJuce
    (regionEvents ++ [.clickRegenerate ⟨true, [], [0]⟩] ++ [.clickGenerate])) := by
  obtain ⟨past, hrun⟩ := exists_run plainJuce (regionEvents ++ [.clickRegenerate ⟨true, [], [0]⟩])
  have hstep := ((diff_run plainJuce hrun).2 .clickGenerate).mpr
    (.inl ⟨by decide +kernel, by decide +kernel, by decide +kernel⟩)
  rw [afterEvents_concat]
  exact hstep

end AiMidi.Proofs.PluginEditor
