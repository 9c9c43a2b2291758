import AiMidi.Lib.Recent
import AiMidi.Proofs.PluginEditor
import Mathlib.Data.List.DropRight

/-!
# `AiMidi.Proofs.EditorHistory`: the prompts that were used last

The editor keeps the last ten prompts that compositions were generated from, each once and the
newest first. They are saved with every generation, and a new editor loads them. So over any number
of sessions the history is that of all prompts that were ever generated (`history_run`), unless the
host restores another tree in between.

`HistoryChange` names what an event can do to the list of the editor and to the saved one, and
`historyChange_step` goes through the events. A run carries the generated prompts along
(`generatedPrompts`). That the list is cut at every step and not once at the end makes no difference
(`AiMidi.Lib.foldl_remember`).
-/

set_option autoImplicit false

namespace AiMidi.Proofs.PluginEditor

open AiMidi.Lib AiMidi.Lib.System
open AiMidi.Plugin AiMidi.Plugin.Editor

section

variable (juce : Juce)

/-! ### The persisted history

The history is one child of the state tree, and saving replaces that child. What else the tree holds
does not matter for what is loaded again. -/

/-- Whatever the children are, behind the update the first one of the type is the updated one. -/
theorem find?_updateChild (name : Bytes) {f : ValueTree EditorVar → ValueTree EditorVar}
    (hf : ∀ t, (f t).type = t.type) (children : List (ValueTree EditorVar)) :
    ∃ t, (EditorTree.updateChild name f children).find? (fun child => child.type == name)
      = some (f t) := by
  -- The child is created at the end when there is none, and the first one is updated otherwise.
  induction children with
  | nil =>
    refine ⟨.node name [] [], ?_⟩
    rw [EditorTree.updateChild, List.find?_cons_of_pos]
    rw [hf]
    exact beq_self_eq_true name
  | cons child children ih =>
    rw [EditorTree.updateChild]
    by_cases htype : child.type = name
    · refine ⟨child, ?_⟩
      rw [if_pos htype, List.find?_cons_of_pos]
      rw [hf, htype]
      exact beq_self_eq_true name
    · rw [if_neg htype, List.find?_cons_of_neg (by simpa using htype)]
      exact ih

/-- A property is set beside the children. -/
theorem children_setProperty (name : Bytes) (value : EditorVar) (t : ValueTree EditorVar) :
    (EditorTree.setProperty name value t).children = t.children := by
  cases t
  rfl

/-- The node of the history gets an item for each prompt. -/
theorem children_historyNode (history : List Runes) (t : ValueTree EditorVar) :
    (historyNode history t).children = history.map historyItem := by
  cases t
  rfl

/-- It keeps its type. -/
theorem type_historyNode (history : List Runes) (t : ValueTree EditorVar) :
    (historyNode history t).type = t.type := by
  cases t
  rfl

/-- Only the child of the name is updated. -/
theorem children_withChild (name : Bytes) (f : ValueTree EditorVar → ValueTree EditorVar)
    (t : ValueTree EditorVar) :
    (EditorTree.withChild name f t).children = EditorTree.updateChild name f t.children := by
  cases t
  rfl

/-- The text of an item. -/
theorem toString_historyItem (p : Runes) :
    EditorTree.toString (EditorTree.getProperty (historyItem p) (bytes "text")) = p := by
  have hlookup : EditorTree.getProperty (historyItem p) (bytes "text") = some (.text p) :=
    List.lookup_cons_self
  rw [hlookup]
  rfl

/-- What is saved is loaded again, whatever else the tree holds. -/
theorem savedHistory_saveState (s : Editor) :
    savedHistory s.saveState.procState = s.promptHistory := by
  obtain ⟨t, ht⟩ := find?_updateChild (bytes "history") (type_historyNode s.promptHistory)
    s.state.children
  have hchild : s.saveState.procState.getChildWithName (bytes "history")
      = some (historyNode s.promptHistory t) := by
    rw [ValueTree.getChildWithName]
    simp only [saveState, children_setProperty, children_withChild]
    exact ht
  rw [savedHistory, hchild]
  simp only [children_historyNode, List.map_map]
  exact (List.map_congr_left fun p _ => toString_historyItem p).trans (List.map_id _)

/-! ### One generation

A prompt is trimmed before it is remembered, so a repeated one is found whatever blanks surround it.
Trimming what is trimmed already changes nothing, and a saved prompt is loaded as it is. -/

/-- A prefix of a list without leading blanks has none either. -/
theorem dropWhile_prefix {p : Char → Bool} {xs ys : Runes} (h : ys <+: xs.dropWhile p) :
    ys.dropWhile p = ys := by
  cases ys with
  | nil => rfl
  | cons y ys =>
    obtain ⟨rest, hrest⟩ := h
    have hagain := List.dropWhile_idempotent p xs
    rw [← hrest, List.cons_append, List.dropWhile_cons] at hagain
    split at hagain
    · -- Dropping the first one would make the list shorter.
      have hlength := congrArg List.length hagain
      have hle := List.length_dropWhile_le p (ys ++ rest)
      rw [List.length_cons] at hlength
      omega
    · rename_i hy
      exact List.dropWhile_cons_of_neg hy

/-- A text is trimmed once and for all. -/
theorem trim_trim (text : Runes) : trim juce (trim juce text) = trim juce text := by
  have htrim : trim juce text
      = (text.dropWhile juce.isWhitespace).rdropWhile juce.isWhitespace := rfl
  have hleft : (trim juce text).dropWhile juce.isWhitespace = trim juce text :=
    dropWhile_prefix (by rw [htrim]; exact List.rdropWhile_prefix ..)
  have hagain : trim juce (trim juce text)
      = ((trim juce text).dropWhile juce.isWhitespace).rdropWhile juce.isWhitespace := rfl
  rw [hagain, hleft, htrim, List.rdropWhile_idempotent]

/-- The prompt that an event generates from. -/
def generatedBy (s : Editor) : EditorEvent → Option Runes
  | .returnKey     => if s.hasText juce then some (trim juce s.promptText) else none
  | .clickGenerate =>
      if s.generateEnabled && s.hasText juce then some (trim juce s.promptText) else none
  | _              => none

/-- A prompt with a text goes to the front, and what is behind the tenth is gone. -/
theorem addToHistory_history (s : Editor) (h : s.hasText juce = true) :
    (s.addToHistory juce (trim juce s.promptText)).promptHistory
      = remember 10 s.promptHistory (trim juce s.promptText) := by
  have hne : trim juce s.promptText ≠ [] := of_decide_eq_true h
  simp only [addToHistory, trim_trim, hne, if_false]
  rfl

/-- Without a prompt nothing is generated. -/
theorem onGenerate_of_blank (s : Editor) (h : s.hasText juce = false) : s.onGenerate juce = s := by
  have hblank : trim juce s.promptText = [] := not_not.mp (of_decide_eq_false h)
  simp only [onGenerate, hblank, if_true]

/-- A generation puts its prompt in front and saves the history. -/
theorem onGenerate_history (s : Editor) (h : s.hasText juce = true) :
    (s.onGenerate juce).promptHistory = remember 10 s.promptHistory (trim juce s.promptText) ∧
      savedHistory (s.onGenerate juce).procState
        = remember 10 s.promptHistory (trim juce s.promptText) := by
  have hne : trim juce s.promptText ≠ [] := of_decide_eq_true h
  have hsaved := savedHistory_saveState (s.addToHistory juce (trim juce s.promptText))
  have hadded := addToHistory_history juce s h
  simp only [onGenerate, hne, if_false]
  exact ⟨hadded, hsaved.trans hadded⟩

/-! ### Sessions

A new editor loads what was saved last. The saved history is that of the editor at all times, so a
session goes on where the one before it has ended. -/

/-- The history of the editor, and the one that the processor holds. -/
structure Histories where
  current : List Runes
  saved : List Runes

/-- The two histories of an editor. -/
def Histories.of (s : Editor) : Histories := ⟨s.promptHistory, savedHistory s.procState⟩

/-- What an event does to the two. -/
inductive HistoryChange (s : Editor) (e : EditorEvent) : Histories → Prop where
  | keep (h : generatedBy juce s e = none) : HistoryChange s e (Histories.of s)
  | save (h : generatedBy juce s e = none) : HistoryChange s e ⟨s.promptHistory, s.promptHistory⟩
  | generated (p : Runes) (h : generatedBy juce s e = some p) :
      HistoryChange s e ⟨remember 10 s.promptHistory p, remember 10 s.promptHistory p⟩
  | load (h : generatedBy juce s e = none) :
      HistoryChange s e ⟨savedHistory s.procState, savedHistory s.procState⟩

/-- A generation puts its prompt in front in both. -/
theorem historyChange_generate {s : Editor} {e : EditorEvent} (h : s.hasText juce = true)
    (hgenerated : generatedBy juce s e = some (trim juce s.promptText)) :
    HistoryChange juce s e (Histories.of (s.onGenerate juce)) := by
  obtain ⟨hcurrent, hsaved⟩ := onGenerate_history juce s h
  rw [Histories.of, hcurrent, hsaved]
  exact .generated _ hgenerated

/-- A regeneration changes neither history. -/
theorem regenerated_history (s : Editor) (result : CompositionResult) :
    Histories.of (s.regenerated juce result) = Histories.of s := by
  simp only [regenerated]
  split
  · rfl
  · rfl

/-- A click on the region button changes neither history, refused or not. -/
theorem onRegenerate_history (s : Editor) (result : CompositionResult) :
    Histories.of (s.onRegenerate juce result).1 = Histories.of s := by
  rcases onRegenerate_cases juce s result with ⟨-, status, heq⟩ | ⟨-, heq⟩
  · rw [heq]
    rfl
  · rw [heq]
    exact regenerated_history juce (remembered s) result

/-- The diff button changes neither history. -/
theorem onDiffToggle_history (s : Editor) : Histories.of s.onDiffToggle = Histories.of s := by
  unfold onDiffToggle
  split
  · rfl
  · rfl

/-- What each event does to the histories, other than a restored tree. -/
theorem historyChange_step (s : Editor) {e : EditorEvent} (he : ∀ tree, e ≠ .restore tree) :
    HistoryChange juce s e (Histories.of (Editor.step juce s e).1) := by
  -- Only the two ways to generate add a prompt; a choice of the workflow saves the state.
  cases e with
  | edit text => exact .keep rfl
  | textChanged =>
    simp only [Editor.step]
    split
    · exact .keep rfl
    · exact .keep rfl
  | returnKey =>
    simp only [Editor.step]
    split
    · rename_i htext
      exact historyChange_generate juce htext (if_pos htext)
    · rename_i htext
      exact .keep (if_neg htext)
  | chooseHistory idx =>
    simp only [Editor.step]
    split
    · split
      · split
        · exact .keep rfl
        · exact .keep rfl
      · exact .keep rfl
    · exact .keep rfl
  | chooseWorkflow idx =>
    have hsaved := savedHistory_saveState { s with workflow := idx.val }
    simp only [Editor.step, Histories.of]
    rw [hsaved]
    exact .save rfl
  | moveSeed seed => exact .keep rfl
  | clickGenerate =>
    simp only [Editor.step]
    cases henabled : s.generateEnabled with
    | false => exact .keep (by simp only [generatedBy, henabled, Bool.false_and]; rfl)
    | true =>
      cases htext : s.hasText juce with
      | true =>
        refine historyChange_generate juce htext ?_
        simp only [generatedBy, henabled, htext, Bool.and_self, if_true]
      | false =>
        simp only [if_true, onGenerate_of_blank juce s htext]
        exact .keep (by simp only [generatedBy, htext, Bool.and_false]; rfl)
  | clickRegenerate result =>
    simp only [Editor.step]
    split
    · rw [onRegenerate_history]
      exact .keep rfl
    · exact .keep rfl
  | clickDiff =>
    simp only [Editor.step]
    split
    · rw [onDiffToggle_history]
      exact .keep rfl
    · exact .keep rfl
  | mouseDown bounds pos => exact .keep rfl
  | mouseDrag bounds pos => exact .keep rfl
  | mouseUp => exact .keep rfl
  | restore tree => exact absurd rfl (he tree)
  | reopen => exact .load rfl

/-- Of an editor that has saved its history, an event leaves one that has, with the prompt in front
that it generates from. -/
theorem HistoryChange.remembered {s s' : Editor} {e : EditorEvent}
    (h : HistoryChange juce s e (Histories.of s'))
    (hsaved : savedHistory s.procState = s.promptHistory) :
    s'.promptHistory = (generatedBy juce s e).toList.reverse.foldl (remember 10) s.promptHistory ∧
      savedHistory s'.procState = s'.promptHistory := by
  generalize hof : Histories.of s' = after at h
  have hcurrent : s'.promptHistory = after.current := congrArg Histories.current hof
  have hafter : savedHistory s'.procState = after.saved := congrArg Histories.saved hof
  rw [hcurrent, hafter]
  -- One case for each kind of change.
  cases h with
  | keep hnone =>
    rw [hnone]
    exact ⟨rfl, hsaved⟩
  | save hnone =>
    rw [hnone]
    exact ⟨rfl, rfl⟩
  | generated p hsome =>
    rw [hsome]
    exact ⟨rfl, rfl⟩
  | load hnone =>
    rw [hnone]
    exact ⟨hsaved, rfl⟩

/-- The state before the next event. -/
def latest (start : Editor) : List (EditorStep × Editor) → Editor
  | []          => start
  | (_, s) :: _ => s

/-- The prompts of all generations, the newest first. -/
def generatedPrompts (start : Editor) : List (EditorStep × Editor) → List Runes
  | []             => []
  | (a, _) :: past =>
      (generatedBy juce (latest start past) a.event).toList ++ generatedPrompts start past

/-- The last state of a run is where it has ended. -/
theorem latest_run {tree : ValueTree EditorVar} {seed : Fin 1000000}
    {past : List (EditorStep × Editor)} {s : Editor}
    (h : Run (editorSystem juce tree seed) past s) :
    latest (loadState juce tree seed) past = s := by
  cases h with
  | start hs => exact hs.symm
  | snoc => rfl

/-- Over any number of sessions on a new processor, the history holds the last ten of the prompts
that were generated from, each once and the newest first, and so does the tree that is persisted. -/
theorem history_run {tree : ValueTree EditorVar} {seed : Fin 1000000}
    (htree : savedHistory tree = []) {past : List (EditorStep × Editor)} {s : Editor}
    (h : Run (editorSystem juce tree seed) past s)
    (hpast : ∀ step ∈ past, ∀ restored, step.1.event ≠ .restore restored) :
    s.promptHistory = (distinct (generatedPrompts juce (loadState juce tree seed) past)).take 10 ∧
      savedHistory s.procState = s.promptHistory := by
  -- The history is what the prompts leave of an empty list.
  have hfold :
      s.promptHistory =
        (generatedPrompts juce (loadState juce tree seed) past).reverse.foldl (remember 10) [] ∧
      savedHistory s.procState = s.promptHistory := by
    induction h with
    | start hs =>
      rw [show _ = loadState juce tree seed from hs]
      exact ⟨htree, rfl⟩
    | @snoc past s s' a hrun hstep ih =>
      obtain ⟨hcurrent, hsaved⟩ := ih fun step hmem => hpast step (List.mem_cons_of_mem _ hmem)
      have hchange := historyChange_step juce s (hpast _ List.mem_cons_self)
      rw [show Editor.step juce s a.event = (s', a.request) from hstep] at hchange
      have hprompts : generatedPrompts juce (loadState juce tree seed) ((a, s') :: past)
          = (generatedBy juce s a.event).toList
            ++ generatedPrompts juce (loadState juce tree seed) past := by
        rw [generatedPrompts, latest_run juce hrun]
      rw [hprompts, List.reverse_append, List.foldl_append, ← hcurrent]
      exact hchange.remembered juce hsaved
  rw [hfold.1, foldl_remember, List.reverse_reverse]
  exact ⟨rfl, hfold.2.trans (by rw [hfold.1, foldl_remember, List.reverse_reverse])⟩

end

/-! ### Two sessions

The run has more prompts than the history holds, a prompt that comes back, and an editor that is
opened between two generations. -/

/-- A prompt is typed and generated from. -/
def generation (prompt : Runes) : List EditorEvent :=
  [.edit prompt, .textChanged, .clickGenerate]

/-- Thirteen generations, with the editor opened anew behind the eighth. The prompt of the first one
is used again behind that. -/
def twoSessions : List EditorEvent :=
  ("abcdefgh".toList.flatMap fun c => generation [c]) ++ EditorEvent.reopen ::
    "ijkal".toList.flatMap fun c => generation [c]

/-- The host restores nothing in between. -/
theorem not_restore_of_mem_twoSessions {e : EditorEvent} (h : e ∈ twoSessions) :
    ∀ tree, e ≠ .restore tree := by
  have hgeneration : ∀ prompts : List Char, (e ∈ prompts.flatMap fun c => generation [c]) →
      ∀ tree, e ≠ .restore tree := by
    intro prompts hmem tree
    obtain ⟨c, -, hc⟩ := List.mem_flatMap.mp hmem
    simp only [generation, List.mem_cons, List.not_mem_nil, or_false] at hc
    rcases hc with rfl | rfl | rfl
    · exact nofun
    · exact nofun
    · exact nofun
  rcases List.mem_append.mp h with hfirst | hsecond
  · exact hgeneration _ hfirst
  · rcases List.mem_cons.mp hsecond with rfl | hsecond
    · exact nofun
    · exact hgeneration _ hsecond

/-- Of the twelve different prompts the ten that were used last stay, `a` in its new place. -/
theorem history_run_twoSessions :
    (afterEvents plainJuce twoSessions).promptHistory = "lakjihgfed".toList.map fun c => [c] := by
  have hrun : Run (editorSystem plainJuce (.node editorType [] []) 0) _ _ :=
    run_stepsFrom plainJuce (.start rfl) twoSessions
  have hhistory := (history_run plainJuce rfl hrun fun step hmem =>
    not_restore_of_mem_twoSessions ((mem_stepsFrom plainJuce hmem).resolve_left List.not_mem_nil)).1
  exact hhistory.trans (by decide +kernel)

end AiMidi.Proofs.PluginEditor
