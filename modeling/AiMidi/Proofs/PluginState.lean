import AiMidi.Plugin.PluginState

/-!
# `AiMidi.Proofs.PluginState`: saving and restoring is no fixpoint

The restored tree keeps its editor child as a part of the parameter tree, and the next save
appends another one (`length_savedTree`). The child that is restored is the oldest
(`state_restored`). So the written tree has the state that was held as its only editor child at
most in the first save (`savesState_iff`), and no longer after a cycle (`stateFixpoint_iff`).

The number of editor children is what the proofs count. The actions of the editor leave it
(`length_editorChildren_run`), a save writes one more, and a restore takes them all into the
parameter tree. From the second save on there are at least two.
-/

set_option autoImplicit false

namespace AiMidi.Proofs.PluginState

open AiMidi.Lib AiMidi.Plugin

variable {v : Type}

/-! ### One save

The save appends the state behind whatever editor children the tree has already. The state that is
held is written even if there is one. -/

/-- The written tree has exactly one editor child, and that is the state that is held. -/
def SavesState (s : PersistentState v) : Prop :=
  ∃ t, s.state = some t ∧ editorChildren s.getStateInformation = [t]

/-- A save has the editor children of the parameter tree and, behind them, the state that is
held. -/
theorem editorChildren_getStateInformation (s : PersistentState v) :
    editorChildren s.getStateInformation
      = editorChildren s.apvts ++ s.state.toList.filter fun t => t.type == editorType := by
  rw [PersistentState.getStateInformation]
  cases s.state with
  | none => simp
  | some t =>
    rw [editorChildren, ValueTree.childrenWithName_addChild]
    by_cases h : t.type = editorType <;> simp [h]

/-- A save writes the state as the only editor child exactly when the parameter tree has none and
the state is an editor state. -/
theorem savesState_iff (s : PersistentState v) :
    SavesState s ↔
      editorChildren s.apvts = [] ∧ ∃ t, s.state = some t ∧ t.type = editorType := by
  rw [SavesState, editorChildren_getStateInformation]
  constructor
  · rintro ⟨t, ht, hone⟩
    rw [ht] at hone ⊢
    by_cases htype : t.type = editorType
    · have hlen := congrArg List.length hone
      simp [htype] at hlen
      exact ⟨hlen, t, rfl, htype⟩
    · -- The one child would be the state, which is of another type.
      rw [Option.toList_some, List.filter_cons_of_neg (by simpa using htype),
        List.filter_nil, List.append_nil] at hone
      have hmem : t ∈ editorChildren s.apvts := by simp [hone]
      simp [ValueTree.childrenWithName, htype] at hmem
  · rintro ⟨hnone, t, ht, htype⟩
    exact ⟨t, ht, by simp [hnone, ht, htype]⟩

/-! ### One restore

The restore looks for the first editor child. That is the oldest one, and it stays in the tree that
becomes the parameter tree. -/

/-- A restore replaces the parameter tree. -/
@[simp] theorem apvts_setStateInformation (tree : ValueTree v) (s : PersistentState v) :
    (s.setStateInformation tree).apvts = tree := by
  rw [PersistentState.setStateInformation]
  split <;> rfl

/-- An editor child of the parameter tree is restored in place of the state that was saved. -/
theorem state_restored {s : PersistentState v} {oldest : ValueTree v}
    (h : (editorChildren s.apvts).head? = some oldest) :
    (s.setStateInformation s.getStateInformation).state = some oldest := by
  have hfirst : s.getStateInformation.getChildWithName editorType = some oldest := by
    rw [ValueTree.getChildWithName_eq_head?]
    show (editorChildren s.getStateInformation).head? = some oldest
    rw [editorChildren_getStateInformation, List.head?_append, h, Option.some_or]
  rw [PersistentState.setStateInformation, hfirst]

/-! ### The editor

The editor writes into its child in place. It neither adds nor removes one, whatever the order of
its actions is. -/

/-- Writing into a tree leaves its type. -/
theorem type_withContents (properties : List (Bytes × v)) (children : List (ValueTree v))
    (t : ValueTree v) : (withContents properties children t).type = t.type := by
  cases t
  rfl

/-- A change in place keeps the number of editor children. -/
theorem length_filter_mapEditorChild {f : ValueTree v → ValueTree v}
    (hf : ∀ t, (f t).type = t.type) (children : List (ValueTree v)) :
    ((mapEditorChild f children).filter fun t => t.type == editorType).length
      = (children.filter fun t => t.type == editorType).length := by
  induction children with
  | nil => rfl
  | cons child children ih =>
    rw [mapEditorChild]
    split
    · rename_i h
      simp [hf, h]
    · rename_i h
      simp [h, ih]

/-- The editor adds no editor child to the parameter tree and removes none. -/
theorem length_editorChildren_run (s : PersistentState v) (act : EditorAction v) :
    (editorChildren (act.run s).apvts).length = (editorChildren s.apvts).length := by
  cases act with
  | setState state => rfl
  | saveState properties children =>
    simp only [EditorAction.run]
    split
    · exact length_filter_mapEditorChild (type_withContents properties children)
        s.apvts.children
    · rfl

/-- Nor do any number of its actions. -/
theorem length_editorChildren_foldl_run (s : PersistentState v) (acts : List (EditorAction v)) :
    (editorChildren (acts.foldl EditorAction.run s).apvts).length
      = (editorChildren s.apvts).length := by
  induction acts generalizing s with
  | nil => rfl
  | cons act acts ih => rw [List.foldl_cons, ih, length_editorChildren_run]

/-! ### Cycles

A cycle is a save, a restore and some actions of the editor. The number of editor children is
followed through the cycles, and it never falls. -/

/-- The parameter tree has as many editor children before a save as the save before it wrote. -/
theorem length_editorChildren_beforeSave (s : PersistentState v)
    (between : Nat → List (EditorAction v)) (n : Nat) :
    (editorChildren (beforeSave s between (n + 1)).apvts).length
      = (editorChildren (savedTree s between n)).length := by
  rw [beforeSave, length_editorChildren_foldl_run, apvts_setStateInformation, savedTree]

/-- The property over a number of cycles: every save writes the state that is held as its only
editor child, and without the editor the written tree no longer changes from the first cycle
on. -/
structure StateFixpoint (s : PersistentState v) (between : Nat → List (EditorAction v))
    (cycles : Nat) : Prop where
  saves : ∀ n ≤ cycles, SavesState (beforeSave s between n)
  stable : (∀ n, 1 ≤ n → between n = []) →
    ∀ n, 1 ≤ n → n < cycles → savedTree s between (n + 1) = savedTree s between n

/-- When a save writes one editor child, the next does not. -/
theorem SavesState.not_next {s : PersistentState v} {between : Nat → List (EditorAction v)}
    {n : Nat} (h : SavesState (beforeSave s between n)) :
    ¬ SavesState (beforeSave s between (n + 1)) := by
  intro hnext
  obtain ⟨t, -, hone⟩ := h
  have hnone := ((savesState_iff _).mp hnext).1
  have hlen := length_editorChildren_beforeSave s between n
  rw [hnone, savedTree, hone] at hlen
  cases hlen

/-- The property holds only as long as nothing was restored, for a parameter tree without an editor
child and an editor state. -/
theorem stateFixpoint_iff (s : PersistentState v) (between : Nat → List (EditorAction v))
    (cycles : Nat) :
    StateFixpoint s between cycles ↔
      cycles = 0 ∧ editorChildren (beforeSave s between 0).apvts = [] ∧
        ∃ t, (beforeSave s between 0).state = some t ∧ t.type = editorType := by
  constructor
  · intro h
    have hfirst := h.saves 0 (Nat.zero_le cycles)
    refine ⟨?_, (savesState_iff _).mp hfirst⟩
    -- One such save is not followed by another.
    by_contra hcycles
    exact hfirst.not_next (h.saves 1 (by omega))
  · rintro ⟨rfl, hstate⟩
    constructor
    · intro n hn
      rw [Nat.le_zero.mp hn]
      exact (savesState_iff _).mpr hstate
    · intro _ n _ hn
      omega

/-- Every cycle adds an editor child. -/
theorem length_savedTree {s : PersistentState v} {t : ValueTree v} (ht : s.state = some t)
    (htype : t.type = editorType) (n : Nat) :
    (editorChildren (savedTree s (fun _ => []) n)).length
      = (editorChildren s.apvts).length + (n + 1) := by
  -- The state stays an editor state, so that each save appends one child.
  have hstep : ∀ n, (∃ t, (beforeSave s (fun _ => []) n).state = some t ∧ t.type = editorType) ∧
      (editorChildren (beforeSave s (fun _ => []) n).apvts).length
        = (editorChildren s.apvts).length + n := by
    intro n
    induction n with
    | zero => exact ⟨⟨t, ht, htype⟩, rfl⟩
    | succ n ih =>
      obtain ⟨⟨t, ht, htype⟩, hlen⟩ := ih
      constructor
      · show ∃ t, (PersistentState.setStateInformation _ _).state = some t ∧ _
        rw [PersistentState.setStateInformation]
        split
        · rename_i child hchild
          exact ⟨child, rfl, ValueTree.type_of_getChildWithName hchild⟩
        · exact ⟨t, ht, htype⟩
      · rw [length_editorChildren_beforeSave, savedTree, editorChildren_getStateInformation, ht,
          List.length_append, hlen]
        simp [htype]
        omega
  obtain ⟨⟨t, ht, htype⟩, hlen⟩ := hstep n
  rw [savedTree, editorChildren_getStateInformation, ht, List.length_append, hlen]
  simp [htype]
  omega

/-- A new processor, saved and restored once without the editor. -/
theorem newProcessor_not_stateFixpoint :
    ¬ StateFixpoint (PersistentState.construct (.node (bytes "Parameters") [] [] : ValueTree Unit))
      (fun _ => []) 1 := by
  intro h
  exact (h.saves 0 (Nat.zero_le 1)).not_next (h.saves 1 (Nat.le_refl 1))

end AiMidi.Proofs.PluginState
