import AiMidi.Proofs.PresetLoading
import Mathlib.Data.Finset.Card
import Mathlib.Data.Finset.Image

/-!
# `AiMidi.Proofs.UserPresets`: when a new user preset takes the place of another

The editor names a new preset after the number of user presets. Once one of them was deleted,
that number can belong to a stored preset, which is then overwritten. The same goes for the file:
`savePreset` replaces whatever the file of the new name holds, also a preset of another name.

`Keeps` says of both, the map and the directory, that nothing is lost and one preset is added.
`savesKeep_iff` is the exact condition, step by step along a sequence of operations from any
manager. From a new manager the stored user presets and their files are those of a set of numbers
(`Numbered`), so the condition can be read off the operations (`savesKeep_newManager_iff`).

The files are counted as the entries of the map are. Writing a file makes one more preset in the
directory unless the file held one before (`countP_insert`), which gives both directions of
`keeps_onSavePreset_iff`. Along a sequence the condition is evaluated before every save, in the
state that the operations so far have led to.
-/

set_option autoImplicit false

namespace AiMidi.Proofs.UserPresets

open AiMidi.Lib AiMidi.Plugin
open AiMidi.Proofs.PresetLoading (textEnv lookup_foldl_put lookup_foldl_put_of_notMem)

variable {v : Type}

/-! ### One operation

A save inserts into the map and writes a file. Both replace what was there, so each of the two can
lose a preset, and the number of presets rises only if neither does. -/

/-- The number of presets in the map. -/
def count (pm : PresetManager v) : Nat := pm.presets.keys.length

/-- The file holds a preset: a document with a name. `loadPresets` skips all others. -/
def HoldsPreset (file : PresetFile) : Prop :=
  ∃ xml, file = some xml ∧ xml.getStringAttribute (bytes "name") [] ≠ []

/-- Whether a file holds a preset is decided by its name attribute. -/
instance : DecidablePred HoldsPreset := fun file =>
  match file with
  | none     => isFalse nofun
  | some xml => decidable_of_iff (xml.getStringAttribute (bytes "name") [] ≠ [])
      ⟨fun h => ⟨xml, rfl, h⟩, fun ⟨_, hxml, h⟩ => Option.some.inj hxml ▸ h⟩

/-- The number of presets in the directory. -/
def fileCount (pm : PresetManager v) : Nat :=
  pm.directory.entries.countP fun entry => HoldsPreset entry.2

/-- One more preset is stored, in memory and on disk, and all that were stored are unchanged. -/
structure Keeps (pm pm' : PresetManager v) : Prop where
  count : count pm' = count pm + 1
  presets : ∀ name p, pm.presets.lookup name = some p → pm'.presets.lookup name = some p
  fileCount : fileCount pm' = fileCount pm + 1
  files : ∀ file doc, pm.directory.lookup file = some doc → HoldsPreset doc →
    pm'.directory.lookup file = some doc

/-- A put preset adds a key only if its name is new. -/
theorem length_keys_put (presets : Presets v) (p : Preset v) :
    (presets.put p).keys.length
      = if p.name ∈ presets then presets.keys.length else presets.keys.length + 1 := by
  rw [Presets.put, AList.keys_insert, List.length_cons]
  split
  · rename_i hmem
    have hkeys := AList.mem_keys.mp hmem
    have hpos := List.length_pos_of_mem hkeys
    simp only [List.length_erase, hkeys, if_true]
    omega
  · rename_i hmem
    simp only [List.length_erase, mt AList.mem_keys.mpr hmem, if_false]

/-- A saved preset is inserted under its new name. -/
theorem presets_onSavePreset (env : PresetEnv v) (params : PresetParameters)
    (pm : PresetManager v) :
    (onSavePreset env params pm).presets
      = pm.presets.insert (newPresetName pm) (newPreset env params pm) := rfl

/-- The preset of the editor has a name, so its document is that of a preset. -/
theorem holdsPreset_presetXml (codec : TreeCodec v) {p : Preset v} (h : p.name ≠ []) :
    HoldsPreset (some (presetXml codec p)) := ⟨_, rfl, h⟩

/-- A numbered name is never empty. -/
theorem userPresetName_ne_nil (n : Nat) : userPresetName n ≠ [] := by
  simp [userPresetName, bytes]

/-- Writing a preset to a file makes one more in the directory, unless the file held one. -/
theorem countP_insert (directory : AList fun _ : Bytes => PresetFile) (file : Bytes)
    {doc : PresetFile} (hdoc : HoldsPreset doc) :
    (directory.insert file doc).entries.countP (fun entry => HoldsPreset entry.2)
      + (if ∃ old, directory.lookup file = some old ∧ HoldsPreset old then 1 else 0)
      = directory.entries.countP (fun entry => HoldsPreset entry.2) + 1 := by
  -- A file that was there is replaced, so it counts only if it held no preset.
  by_cases hmem : file ∈ directory
  · obtain ⟨old, before, after, -, hentries, hrest⟩ :=
      List.exists_of_kerase (AList.mem_keys.mp hmem)
    have hlookup : directory.lookup file = some old :=
      AList.mem_lookup_iff.mpr (by rw [hentries]; exact List.mem_append_right _ List.mem_cons_self)
    rw [AList.entries_insert, hrest, hentries, List.countP_cons, List.countP_append,
      List.countP_append, List.countP_cons]
    by_cases hold : HoldsPreset old
    · have hfound : ∃ old, directory.lookup file = some old ∧ HoldsPreset old :=
        ⟨old, hlookup, hold⟩
      simp only [hdoc, hold, hfound, decide_true, if_true]
      omega
    · have hnot : ¬ ∃ old, directory.lookup file = some old ∧ HoldsPreset old := by
        rintro ⟨_, heq, h⟩
        exact hold (Option.some.inj (hlookup.symm.trans heq) ▸ h)
      simp only [hdoc, hold, hnot, decide_true, decide_false, if_true, Bool.false_eq_true, if_false]
      omega
  · have hnot : ¬ ∃ old, directory.lookup file = some old ∧ HoldsPreset old := by
      rintro ⟨old, hlookup, -⟩
      exact hmem (AList.lookup_isSome.mp (by rw [hlookup]; rfl))
    rw [AList.entries_insert_of_notMem hmem, List.countP_cons]
    simp only [hdoc, hnot, decide_true, if_true, if_false, add_zero]

/-- The new name is free in memory and on disk: no preset bears it, and it belongs to a file of the
directory that holds no preset. -/
def NameFree (env : PresetEnv v) (pm : PresetManager v) (name : Bytes) : Prop :=
  name ∉ pm.presets ∧ ∃ file, env.presetFile name = some file ∧
    ∀ doc, pm.directory.lookup file = some doc → ¬ HoldsPreset doc

/-- A save keeps the stored presets exactly when its name is free. -/
theorem keeps_onSavePreset_iff (env : PresetEnv v) (params : PresetParameters)
    (pm : PresetManager v) :
    Keeps pm (onSavePreset env params pm) ↔ NameFree env pm (newPresetName pm) := by
  have hcount := length_keys_put pm.presets (newPreset env params pm)
  have hdoc : HoldsPreset (some (presetXml env.codec (newPreset env params pm))) :=
    holdsPreset_presetXml env.codec (userPresetName_ne_nil _)
  have hname : (newPreset env params pm).name = newPresetName pm := rfl
  constructor
  · intro h
    constructor
    · -- Were the name there already, its entry would be replaced.
      intro hmem
      have hmore := h.count
      rw [count, count] at hmore
      exact absurd (hmore.symm.trans (hcount.trans (if_pos hmem))) (Nat.succ_ne_self _)
    -- Were a preset in the file, it would be overwritten and the files would not be one more.
    · have hmore := h.fileCount
      rw [fileCount, fileCount, onSavePreset, PresetManager.savePreset, hname] at hmore
      cases hfile : env.presetFile (newPresetName pm) with
      | none =>
        rw [hfile] at hmore
        exact absurd hmore.symm (Nat.succ_ne_self _)
      | some file =>
        refine ⟨file, rfl, fun doc hlookup hold => ?_⟩
        have hinsert := countP_insert pm.directory file hdoc
        rw [hfile] at hmore
        rw [if_pos ⟨doc, hlookup, hold⟩] at hinsert
        dsimp only at hmore
        omega
  · rintro ⟨hfree, file, hfile, hold⟩
    have hdirectory : (onSavePreset env params pm).directory
        = pm.directory.insert file (some (presetXml env.codec (newPreset env params pm))) := by
      simp only [onSavePreset, PresetManager.savePreset, hname, hfile]
    -- A new name and a file without a preset: everything that was there stays.
    constructor
    · exact hcount.trans (if_neg hfree)
    · intro name p hp
      have hne : name ≠ newPresetName pm := by
        rintro rfl
        exact hfree (AList.lookup_isSome.mp (by rw [hp]; rfl))
      rw [presets_onSavePreset, AList.lookup_insert_ne hne, hp]
    · have hinsert := countP_insert pm.directory file hdoc
      rw [if_neg (not_exists.mpr fun doc => not_and.mpr (hold doc))] at hinsert
      rw [fileCount, hdirectory]
      exact hinsert
    · intro other doc hlookup hpreset
      have hne : other ≠ file := by
        rintro rfl
        exact hold doc hlookup hpreset
      rw [hdirectory, AList.lookup_insert_ne hne, hlookup]

/-- What a deletion does: it erases a user preset of the name, if there is one. -/
theorem lookup_onDeletePreset (env : PresetEnv v) (name other : Bytes) (pm : PresetManager v) :
    (onDeletePreset env name pm).presets.lookup other =
      if other = name ∧ name ≠ [] ∧
          ∃ p, pm.presets.lookup name = some p ∧ p.category = bytes "User"
        then none else pm.presets.lookup other := by
  rw [onDeletePreset]
  cases hlookup : pm.presets.lookup name with
  | none => simp
  | some p =>
    -- The button deletes user presets only.
    by_cases hp : name = [] ∨ p.category ≠ bytes "User"
    · have hnot : ¬ (other = name ∧ name ≠ [] ∧
          ∃ q, some p = some q ∧ q.category = bytes "User") := by
        rintro ⟨-, hne, q, hq, huser⟩
        cases hq
        exact hp.elim hne fun h => h huser
      rw [if_neg hnot]
      dsimp only
      rw [if_pos hp]
    · rw [not_or, not_not] at hp
      dsimp only
      rw [if_neg (by simp [hp]), PresetManager.deletePreset, hlookup]
      dsimp only
      rw [if_neg (by simp [hp.2])]
      by_cases hname : other = name
      · rw [if_pos ⟨hname, hp.1, p, rfl, hp.2⟩, hname, AList.lookup_erase]
      · rw [if_neg (fun h => hname h.1), AList.lookup_erase_ne hname]

/-- A deletion leaves the other files, and the file of the name only when there was nothing to
delete. -/
theorem mem_directory_onDeletePreset {env : PresetEnv v} {name file : Bytes}
    {pm : PresetManager v} (h : file ∈ (onDeletePreset env name pm).directory) :
    file ∈ pm.directory ∧
      ((name ≠ [] ∧ ∃ p, pm.presets.lookup name = some p ∧ p.category = bytes "User") →
        env.presetFile name ≠ some file) := by
  rw [onDeletePreset] at h
  cases hlookup : pm.presets.lookup name with
  | none =>
    rw [hlookup] at h
    exact ⟨h, fun ⟨_, p, hp, _⟩ => absurd hp nofun⟩
  | some p =>
    rw [hlookup] at h
    dsimp only at h
    -- A preset that is kept leaves the files as they are.
    split at h
    · rename_i hkept
      refine ⟨h, fun ⟨hne, q, hq, huser⟩ => ?_⟩
      obtain rfl := Option.some.inj hq
      exact absurd huser (hkept.resolve_left hne)
    · rename_i hdeleted
      rw [not_or, not_not] at hdeleted
      rw [PresetManager.deletePreset, hlookup] at h
      dsimp only at h
      rw [if_neg (not_not.mpr hdeleted.2)] at h
      cases hfile : env.presetFile name with
      | none =>
        rw [hfile] at h
        exact ⟨h, fun _ => nofun⟩
      | some deleted =>
        rw [hfile, AList.mem_erase] at h
        exact ⟨h.2, fun _ heq => h.1 (Option.some.inj heq).symm⟩

/-! ### Sequences of operations

The condition is asked along the sequence, in the states that its own operations lead to. A step of
the induction is the equivalence for one save. -/

/-- Every save of a sequence keeps the presets stored before it. -/
def SavesKeep (env : PresetEnv v) : PresetManager v → List PresetOp → Prop
  | _, []         => True
  | pm, op :: ops =>
      (∀ params, op = .onSave params → Keeps pm (op.run env pm)) ∧ SavesKeep env (op.run env pm) ops

/-- The condition: before every save, the number of the user presets and one makes a name that is
free. -/
def NamesFree (env : PresetEnv v) : PresetManager v → List PresetOp → Prop
  | _, []         => True
  | pm, op :: ops =>
      (∀ params, op = .onSave params → NameFree env pm
        (userPresetName ((pm.getPresetNamesByCategory (bytes "User")).length + 1))) ∧
        NamesFree env (op.run env pm) ops

/-- Every save keeps the stored presets exactly when the name of each is free before it. -/
theorem savesKeep_iff (env : PresetEnv v) (pm : PresetManager v) (ops : List PresetOp) :
    SavesKeep env pm ops ↔ NamesFree env pm ops := by
  induction ops generalizing pm with
  | nil => exact Iff.rfl
  | cons op ops ih =>
    rw [SavesKeep, NamesFree, ih]
    apply and_congr_left'
    -- The property asks something of the saves only, so a deletion has no condition.
    cases op with
    | onSave params =>
      constructor
      · intro h params' hop
        cases hop
        exact (keeps_onSavePreset_iff env params pm).mp (h params rfl)
      · intro h params' hop
        cases hop
        exact (keeps_onSavePreset_iff env params pm).mpr (h params rfl)
    | onDelete name =>
      constructor <;> intro _ params hop <;> cases hop

/-! ### The numbers of the user presets

The editor makes names from numbers, and different numbers give different names. The stored user
presets are therefore a set of numbers, on which a save and a deletion are easy to follow. -/

/-- Distinct numbers give distinct names. -/
theorem userPresetName_injective : Function.Injective userPresetName := by
  intro m n h
  exact decimal_injective (List.append_cancel_left h)

/-- Each numbered name has a file of its own in the directory. -/
structure OwnFiles (env : PresetEnv v) : Prop where
  some : ∀ n, (env.presetFile (userPresetName n)).isSome
  injective : Function.Injective fun n => env.presetFile (userPresetName n)

/-- The user presets are those of the numbers in `s`, no other preset has such a name, and the files
are those of the same numbers. -/
structure Numbered (env : PresetEnv v) (pm : PresetManager v) (s : Finset Nat) : Prop where
  user : ∀ name, (∃ p, pm.presets.lookup name = some p ∧ p.category = bytes "User") ↔
    ∃ n ∈ s, userPresetName n = name
  name : ∀ n, userPresetName n ∈ pm.presets → n ∈ s
  file : ∀ file ∈ pm.directory, ∃ n ∈ s, env.presetFile (userPresetName n) = some file

/-- A category lists exactly the names of its presets. -/
theorem mem_getPresetNamesByCategory {pm : PresetManager v} {category name : Bytes} :
    name ∈ pm.getPresetNamesByCategory category ↔
      ∃ p, pm.presets.lookup name = some p ∧ p.category = category := by
  rw [PresetManager.getPresetNamesByCategory, List.mem_map]
  constructor
  · rintro ⟨⟨name', p⟩, hentry, rfl⟩
    rw [List.mem_filter, beq_iff_eq] at hentry
    exact ⟨p, AList.mem_lookup_iff.mpr hentry.1, hentry.2⟩
  · rintro ⟨p, hp, hcategory⟩
    have hentry := AList.mem_lookup_iff.mp hp
    exact ⟨⟨name, p⟩, List.mem_filter.mpr ⟨hentry, by simpa using hcategory⟩, rfl⟩

/-- A category lists no name twice. -/
theorem nodup_getPresetNamesByCategory (pm : PresetManager v) (category : Bytes) :
    (pm.getPresetNamesByCategory category).Nodup :=
  (List.filter_sublist.map _).nodup pm.presets.keys_nodup

section

variable {env : PresetEnv v} {pm : PresetManager v} {s : Finset Nat}

/-- The next number is that of the user presets and one. -/
theorem Numbered.newPresetName (h : Numbered env pm s) :
    newPresetName pm = userPresetName (s.card + 1) := by
  have hnames : (pm.getPresetNamesByCategory (bytes "User")).toFinset = s.image userPresetName := by
    ext name
    rw [List.mem_toFinset, mem_getPresetNamesByCategory, h.user, Finset.mem_image]
  have hcard := congrArg Finset.card hnames
  rw [List.toFinset_card_of_nodup (nodup_getPresetNamesByCategory pm _),
    Finset.card_image_of_injective s userPresetName_injective] at hcard
  rw [Plugin.newPresetName, hcard]

/-- The name of the next preset is free when its number is. -/
theorem Numbered.nameFree_iff (h : Numbered env pm s) (hown : OwnFiles env) :
    NameFree env pm (Plugin.newPresetName pm) ↔ s.card + 1 ∉ s := by
  rw [h.newPresetName]
  constructor
  · rintro ⟨hfree, -⟩ hmem
    obtain ⟨p, hp, -⟩ := (h.user (userPresetName (s.card + 1))).mpr ⟨_, hmem, rfl⟩
    exact hfree (AList.lookup_isSome.mp (by rw [hp]; rfl))
  · intro hfree
    obtain ⟨file, hfile⟩ := Option.isSome_iff_exists.mp (hown.some (s.card + 1))
    refine ⟨fun hmem => hfree (h.name _ hmem), file, hfile, fun doc hlookup => ?_⟩
    -- A file of the directory has a number that is in use.
    obtain ⟨n, hn, hnumber⟩ := h.file file (AList.lookup_isSome.mp (by rw [hlookup]; rfl))
    have heq : n = s.card + 1 := hown.injective (hnumber.trans hfile.symm)
    exact absurd (heq ▸ hn) hfree

/-- After a save the numbers in use are those before and the next one. -/
theorem Numbered.onSavePreset (h : Numbered env pm s) (params : PresetParameters) :
    Numbered env (onSavePreset env params pm) (insert (s.card + 1) s) where
  user name := by
    rw [presets_onSavePreset, h.newPresetName]
    -- The new preset has the next number, and the others keep theirs.
    by_cases hname : name = userPresetName (s.card + 1)
    · subst hname
      simp [AList.lookup_insert, newPreset]
    · rw [AList.lookup_insert_ne hname, h.user]
      simp [Ne.symm hname]
  name n hn := by
    rw [presets_onSavePreset, h.newPresetName, AList.mem_insert] at hn
    rw [Finset.mem_insert]
    exact hn.imp (fun heq => userPresetName_injective heq) (h.name n)
  file file hfile := by
    have hname : (newPreset env params pm).name = userPresetName (s.card + 1) := h.newPresetName
    simp only [Plugin.onSavePreset, PresetManager.savePreset, hname] at hfile
    cases hnumber : env.presetFile (userPresetName (s.card + 1)) with
    | none =>
      rw [hnumber] at hfile
      obtain ⟨n, hn, heq⟩ := h.file file hfile
      exact ⟨n, Finset.mem_insert_of_mem hn, heq⟩
    | some new =>
      rw [hnumber, AList.mem_insert] at hfile
      obtain rfl | hfile := hfile
      · exact ⟨_, Finset.mem_insert_self _ _, hnumber⟩
      · obtain ⟨n, hn, heq⟩ := h.file file hfile
        exact ⟨n, Finset.mem_insert_of_mem hn, heq⟩

/-- After a deletion the numbers in use are those whose name was not deleted. -/
theorem Numbered.onDeletePreset (h : Numbered env pm s) (name : Bytes) :
    Numbered env (onDeletePreset env name pm) {n ∈ s | userPresetName n ≠ name} where
  user other := by
    simp only [lookup_onDeletePreset, h.user name]
    -- What is deleted loses its number, as no other name is the same.
    by_cases hother : other = name ∧ name ≠ [] ∧ ∃ n ∈ s, userPresetName n = name
    · rw [if_pos hother]
      simp [hother.1]
    · rw [if_neg hother, h.user]
      constructor
      · rintro ⟨n, hn, rfl⟩
        refine ⟨n, Finset.mem_filter.mpr ⟨hn, ?_⟩, rfl⟩
        intro heq
        exact hother ⟨heq, heq ▸ userPresetName_ne_nil n, n, hn, heq⟩
      · rintro ⟨n, hn, rfl⟩
        exact ⟨n, (Finset.mem_filter.mp hn).1, rfl⟩
  name n hn := by
    rw [← AList.lookup_isSome, lookup_onDeletePreset] at hn
    split at hn
    · cases hn
    · rename_i hother
      have hmem := h.name n (AList.lookup_isSome.mp hn)
      refine Finset.mem_filter.mpr ⟨hmem, ?_⟩
      intro heq
      exact hother ⟨heq, heq ▸ userPresetName_ne_nil n, (h.user name).mpr ⟨n, hmem, heq⟩⟩
  file file hfile := by
    obtain ⟨hold, hname⟩ := mem_directory_onDeletePreset hfile
    obtain ⟨n, hn, hnumber⟩ := h.file file hold
    refine ⟨n, Finset.mem_filter.mpr ⟨hn, ?_⟩, hnumber⟩
    rintro rfl
    obtain ⟨p, hp, huser⟩ := (h.user _).mpr ⟨n, hn, rfl⟩
    exact hname ⟨userPresetName_ne_nil n, p, hp, huser⟩ hnumber

/-- The numbers in use after an operation. -/
def numbersAfter : PresetOp → Finset Nat → Finset Nat
  | .onSave _, s      => insert (s.card + 1) s
  | .onDelete name, s => {n ∈ s | userPresetName n ≠ name}

/-- Before every save, the number of user presets and one is not in use. -/
def NumbersFree : Finset Nat → List PresetOp → Prop
  | _, []        => True
  | s, op :: ops =>
      (∀ params, op = .onSave params → s.card + 1 ∉ s) ∧ NumbersFree (numbersAfter op s) ops

/-- An operation takes the numbers in use to those that the numbers alone predict. -/
theorem Numbered.run (h : Numbered env pm s) (op : PresetOp) :
    Numbered env (op.run env pm) (numbersAfter op s) := by
  cases op with
  | onSave params => exact h.onSavePreset params
  | onDelete name => exact h.onDeletePreset name

/-- With own files only, the names of a run are free exactly when its numbers are. -/
theorem Numbered.namesFree_iff (h : Numbered env pm s) (hown : OwnFiles env)
    (ops : List PresetOp) : NamesFree env pm ops ↔ NumbersFree s ops := by
  induction ops generalizing pm s with
  | nil => exact Iff.rfl
  | cons op ops ih =>
    rw [NamesFree, NumbersFree, ih (h.run op), ← h.nameFree_iff hown]
    rfl

end

/-- The manager of a new installation: factory presets and an empty directory. -/
def newManager (env : PresetEnv v) : PresetManager v := ⟨factoryPresets env.var, ∅⟩

/-- A stored factory preset is one of the created ones, under its own name. -/
theorem mem_factoryPresets {var : VarLiterals v} {name : Bytes} {p : Preset v}
    (h : (factoryPresets var).lookup name = some p) :
    p ∈ createFactoryPresets var ∧ p.name = name := by
  have hnames : (createFactoryPresets var).map Preset.name = [bytes "Upbeat Pop",
      bytes "Dark Ambient", bytes "Jazz Ballad", bytes "Rock Anthem",
      bytes "Electronic Groove"] := rfl
  have hdistinct : ((createFactoryPresets var).map Preset.name).Nodup := by
    rw [hnames]
    decide
  by_cases hname : name ∈ (createFactoryPresets var).map Preset.name
  · obtain ⟨q, hq, rfl⟩ := List.mem_map.mp hname
    rw [factoryPresets, lookup_foldl_put hdistinct hq] at h
    cases h
    exact ⟨hq, rfl⟩
  · rw [factoryPresets, lookup_foldl_put_of_notMem hname, AList.lookup_empty] at h
    cases h

/-- No factory preset is a user preset, by its category or its name. -/
theorem factoryPresets_notUser (var : VarLiterals v) {name : Bytes} {p : Preset v}
    (h : (factoryPresets var).lookup name = some p) :
    p.category ≠ bytes "User" ∧ name.take 5 ≠ bytes "User " := by
  have hall : ∀ q ∈ createFactoryPresets var,
      q.category ≠ bytes "User" ∧ q.name.take 5 ≠ bytes "User " := by
    simp only [createFactoryPresets, List.forall_mem_cons, List.not_mem_nil, false_imp_iff,
      implies_true, and_true]
    decide
  obtain ⟨hp, rfl⟩ := mem_factoryPresets h
  exact hall p hp

/-- A new manager has no numbered preset. -/
theorem numbered_newManager (env : PresetEnv v) : Numbered env (newManager env) ∅ where
  user name := by
    constructor
    · rintro ⟨p, hp, huser⟩
      exact absurd huser (factoryPresets_notUser env.var hp).1
    · rintro ⟨n, hn, -⟩
      simp at hn
  name n hn := by
    obtain ⟨p, hp⟩ := Option.isSome_iff_exists.mp (AList.lookup_isSome.mpr hn)
    exact absurd rfl (factoryPresets_notUser env.var hp).2
  file file hfile := absurd hfile (AList.notMem_empty file)

/-- From a new manager whose presets have files of their own, every save keeps the stored presets
exactly when the number of user presets and one is not in use before it. -/
theorem savesKeep_newManager_iff {env : PresetEnv v} (hown : OwnFiles env) (ops : List PresetOp) :
    SavesKeep env (newManager env) ops ↔ NumbersFree ∅ ops := by
  rw [savesKeep_iff, (numbered_newManager env).namesFree_iff hown]

/-- A file `name.preset` for each name is a file of its own. -/
theorem ownFiles_textEnv : OwnFiles textEnv where
  some _ := rfl
  injective m n h := by
    have hfile : userPresetName m ++ bytes ".preset" = userPresetName n ++ bytes ".preset" :=
      Option.some.inj h
    exact userPresetName_injective (List.append_cancel_right hfile)

/-- Two presets are saved and the first is deleted: the next save overwrites the second. -/
theorem overwritten_not_savesKeep :
    ¬ SavesKeep textEnv (newManager textEnv)
      [.onSave ⟨42, 1 / 2, 1 / 2, 1 / 2, 120, 8⟩, .onSave ⟨7, 1 / 2, 1 / 2, 1 / 2, 120, 8⟩,
        .onDelete (bytes "User Preset 1"), .onSave ⟨42, 1 / 2, 1 / 2, 1 / 2, 90, 8⟩] := by
  rw [savesKeep_newManager_iff ownFiles_textEnv]
  intro h
  exact h.2.2.2.1 _ rfl (by decide)

end AiMidi.Proofs.UserPresets
