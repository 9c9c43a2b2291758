import AiMidi.Plugin.PresetManager
import Mathlib.Data.List.Induction
import Mathlib.Data.List.Perm.Basic

/-!
# `AiMidi.Proofs.PresetLoading`: which saved presets can be loaded

`savePreset` nests the state under the tag of its type, `loadPresets` dereferences the child with
the tag `state`. A document is read back exactly when its tree has that type
(`readPreset_presetXml`). The editor saves trees of the type `Parameters`, so one saved preset
makes every later load dereference a null pointer (`userPreset_not_loadsSaved`).

`loadsSaved_iff` is the exact condition, for any presets and any order in which the directory is
iterated.

`loadsSaved_of_loadable` and `loadable_of_loadsSaved` are the two directions. For the second, a load
that yields a preset has found it in a document, since the factory presets do not bear its name, and
every document in the directory is that of a saved preset (`lookup_directory`).
-/

set_option autoImplicit false

namespace AiMidi.Proofs.PresetLoading

open AiMidi.Lib AiMidi.Plugin

variable {v : Type}

/-! ### The property -/

/-- The manager after saving presets into an empty directory. -/
def savedManager (env : PresetEnv v) (saved : List (Preset v)) : PresetManager v :=
  saved.foldl (fun pm p => pm.savePreset env p) ⟨factoryPresets env.var, ∅⟩

/-- The documents in the directory. -/
def documents (pm : PresetManager v) : List PresetFile :=
  pm.directory.entries.map fun entry => entry.2

/-- Presets with valid states, and names of their own that are not empty. -/
structure Savable (var : VarLiterals v) (saved : List (Preset v)) : Prop where
  valid : ∀ p ∈ saved, p.state.isSome
  named : ∀ p ∈ saved, p.name ≠ []
  distinct : (saved.map Preset.name).Nodup
  notFactory : ∀ p ∈ saved, p.name ∉ factoryPresets var

/-- Whatever the order of the files, a load dereferences no null pointer and yields the saved
presets beside the factory presets. -/
def LoadsSaved (env : PresetEnv v) (saved : List (Preset v)) : Prop :=
  ∀ files, files.Perm (documents (savedManager env saved)) →
    ∃ presets, loadPresets env files = some presets ∧
      (∀ p ∈ saved, presets.lookup p.name = some p) ∧
      ∀ name, name ∉ saved.map Preset.name →
        presets.lookup name = (factoryPresets env.var).lookup name

/-- Two saved presets of one name are one preset. -/
theorem Savable.eq_of_name {var : VarLiterals v} {saved : List (Preset v)}
    (h : Savable var saved) {p q : Preset v} (hp : p ∈ saved) (hq : q ∈ saved)
    (hname : p.name = q.name) : p = q :=
  List.inj_on_of_nodup_map h.distinct hp hq hname

/-! ### One document

The tag of the nested tree is the type of the state. The loader asks for one fixed tag, so only
states of that type are found. -/

section
variable {codec : TreeCodec v}

/-- The name of a preset is read from its document. -/
theorem name_presetXml (p : Preset v) (default : Bytes) :
    (presetXml codec p).getStringAttribute (bytes "name") default = p.name := rfl

/-- A document is read back when the type of its state is `state`. -/
theorem readPreset_presetXml (hcodec : IsTreeCodec codec) {p : Preset v} {t : ValueTree v}
    (hstate : p.state = some t) (htype : t.type = bytes "state") :
    readPreset codec (presetXml codec p) = some p := by
  have hchild : (presetXml codec p).getChildByName (bytes "state") = some (codec.createXml t) := by
    simp only [presetXml, hstate, Option.map_some, Option.toList_some]
    exact List.find?_cons_of_pos (by simp [hcodec.tagName, htype])
  rw [readPreset, hchild, Option.map_some, hcodec.fromXml, ← hstate]
  rfl

/-- A document whose state has another type has no child to dereference. -/
theorem readPreset_ne_none (hcodec : IsTreeCodec codec) {p : Preset v}
    (h : readPreset codec (presetXml codec p) ≠ none) :
    ∃ t, p.state = some t ∧ t.type = bytes "state" := by
  cases hstate : p.state with
  | none =>
    simp [readPreset, presetXml, hstate, XmlElement.getChildByName, XmlElement.children] at h
  | some t =>
    refine ⟨t, rfl, ?_⟩
    by_contra htype
    apply h
    have hchild : (presetXml codec p).getChildByName (bytes "state") = none := by
      simp only [presetXml, hstate, Option.map_some, Option.toList_some]
      exact List.find?_eq_none.mpr (by simp [XmlElement.children, hcodec.tagName, htype])
    rw [readPreset, hchild]
    rfl

/-! ### Loading a list of documents

The loader goes through the files in the order of the iterator. A null pointer at one file ends the
program, so the load of a list succeeds only where each file does. -/

/-- A preset whose state has the tag that is looked for is loaded. -/
theorem loadFile_presetXml (hcodec : IsTreeCodec codec) {p : Preset v} {t : ValueTree v}
    (hstate : p.state = some t) (htype : t.type = bytes "state") (hname : p.name ≠ [])
    (presets : Presets v) :
    loadFile codec presets (some (presetXml codec p)) = some (presets.put p) := by
  simp only [loadFile, readPreset_presetXml hcodec hstate htype, Option.map_some]
  rw [if_pos ⟨hname, by simp [hstate]⟩]

/-- So are the presets of all files. -/
theorem foldlM_loadFile_presetXml (hcodec : IsTreeCodec codec) {ps : List (Preset v)}
    (htype : ∀ p ∈ ps, ∃ t, p.state = some t ∧ t.type = bytes "state")
    (hname : ∀ p ∈ ps, p.name ≠ []) (presets : Presets v) :
    (ps.map fun p => some (presetXml codec p)).foldlM (loadFile codec) presets
      = some (ps.foldl Presets.put presets) := by
  induction ps generalizing presets with
  | nil => rfl
  | cons p ps ih =>
    obtain ⟨t, hstate, ht⟩ := htype p List.mem_cons_self
    rw [List.map_cons, List.foldlM_cons,
      loadFile_presetXml hcodec hstate ht (hname p List.mem_cons_self)]
    exact ih (fun q hq => htype q (List.mem_cons_of_mem p hq))
      (fun q hq => hname q (List.mem_cons_of_mem p hq)) _

/-- One file changes at most the preset that it names. -/
theorem loadFile_some {presets presets' : Presets v} {file : PresetFile}
    (h : loadFile codec presets file = some presets') :
    (∀ xml, file = some xml → readPreset codec xml ≠ none) ∧
      ∀ name, presets'.lookup name = presets.lookup name ∨
        ∃ xml, file = some xml ∧ xml.getStringAttribute (bytes "name") [] = name := by
  -- A file without a document is skipped, and one that does not parse stops the loading.
  cases file with
  | none =>
    cases h
    constructor
    · intro xml hxml
      cases hxml
    · exact fun name => Or.inl rfl
  | some xml =>
    obtain ⟨p, hp, hput⟩ := Option.map_eq_some_iff.mp h
    refine ⟨fun xml' hxml' => ?_, fun name => ?_⟩
    · cases hxml'
      simp [hp]
    · have hpname : p.name = xml.getStringAttribute (bytes "name") [] := by
        obtain ⟨child, -, hchild⟩ := Option.map_eq_some_iff.mp hp
        rw [← hchild]
      by_cases hname : name = p.name
      · exact Or.inr ⟨xml, rfl, by rw [hname, hpname]⟩
      · left
        rw [← hput]
        split
        · exact AList.lookup_insert_ne hname
        · rfl

/-- A load that succeeds has found a child in every document, and every preset that it changes is
named by one. -/
theorem foldlM_loadFile_some {files : List PresetFile} {presets presets' : Presets v}
    (h : files.foldlM (loadFile codec) presets = some presets') :
    (∀ xml, some xml ∈ files → readPreset codec xml ≠ none) ∧
      ∀ name, presets'.lookup name = presets.lookup name ∨
        ∃ xml, some xml ∈ files ∧ xml.getStringAttribute (bytes "name") [] = name := by
  induction files generalizing presets with
  | nil =>
    cases h
    exact ⟨fun xml hxml => by simp at hxml, fun name => Or.inl rfl⟩
  | cons file files ih =>
    rw [List.foldlM_cons] at h
    obtain ⟨next, hnext, hrest⟩ := Option.bind_eq_some_iff.mp h
    obtain ⟨hread, hlookup⟩ := loadFile_some hnext
    obtain ⟨hreads, hlookups⟩ := ih hrest
    -- A preset of the map was there before, or it comes from one of the files.
    refine ⟨fun xml hxml => ?_, fun name => ?_⟩
    · obtain hfile | hfiles := List.mem_cons.mp hxml
      · exact hread xml hfile.symm
      · exact hreads xml hfiles
    · obtain heq | ⟨xml, hxml, hname⟩ := hlookups name
      · obtain heq' | ⟨xml, hxml, hname⟩ := hlookup name
        · exact Or.inl (heq.trans heq')
        · exact Or.inr ⟨xml, by simp [hxml], hname⟩
      · exact Or.inr ⟨xml, List.mem_cons_of_mem file hxml, hname⟩

end

/-! ### What is put into the map -/

/-- Loading presets leaves the others. -/
theorem lookup_foldl_put_of_notMem {ps : List (Preset v)} {name : Bytes}
    (h : name ∉ ps.map Preset.name) (presets : Presets v) :
    (ps.foldl Presets.put presets).lookup name = presets.lookup name := by
  induction ps generalizing presets with
  | nil => rfl
  | cons p ps ih =>
    rw [List.map_cons, List.mem_cons, not_or] at h
    rw [List.foldl_cons, ih h.2]
    exact AList.lookup_insert_ne h.1

/-- Presets of different names are all there. -/
theorem lookup_foldl_put {ps : List (Preset v)} (hdistinct : (ps.map Preset.name).Nodup)
    {p : Preset v} (hp : p ∈ ps) (presets : Presets v) :
    (ps.foldl Presets.put presets).lookup p.name = some p := by
  induction ps generalizing presets with
  | nil => simp at hp
  | cons q qs ih =>
    rw [List.map_cons, List.nodup_cons] at hdistinct
    rw [List.foldl_cons]
    obtain rfl | hq := List.mem_cons.mp hp
    · rw [lookup_foldl_put_of_notMem hdistinct.1]
      exact AList.lookup_insert _
    · exact ih hdistinct.2 hq _

/-! ### The directory

Saving writes one file for each preset, and two presets of one file leave the later document. Files
of their own are needed for this reason. -/

/-- Every document in the directory is that of a saved preset, under its file. -/
theorem lookup_directory {env : PresetEnv v} {saved : List (Preset v)} {file : Bytes}
    {doc : PresetFile} (h : (savedManager env saved).directory.lookup file = some doc) :
    ∃ p ∈ saved, env.presetFile p.name = some file ∧ doc = some (presetXml env.codec p) := by
  induction saved using List.reverseRecOn with
  | nil => simp [savedManager] at h
  | append_singleton saved p ih =>
    rw [savedManager, List.foldl_append, ← savedManager, List.foldl_cons, List.foldl_nil,
      PresetManager.savePreset] at h
    -- A file written before keeps its content, unless the name of the last preset leads to it.
    have hold : (savedManager env saved).directory.lookup file = some doc →
        ∃ q ∈ saved ++ [p], env.presetFile q.name = some file ∧
          doc = some (presetXml env.codec q) := by
      intro hlookup
      obtain ⟨q, hq, hfile⟩ := ih hlookup
      exact ⟨q, List.mem_append_left [p] hq, hfile⟩
    dsimp only at h
    split at h
    · rename_i f hf
      by_cases hne : file = f
      · subst hne
        rw [AList.lookup_insert] at h
        cases h
        exact ⟨p, by simp, hf, rfl⟩
      · rw [AList.lookup_insert_ne hne] at h
        exact hold h
    · exact hold h

/-- A document that is found in the directory, by its file. -/
theorem mem_documents {env : PresetEnv v} {saved : List (Preset v)} {doc : PresetFile}
    (h : doc ∈ documents (savedManager env saved)) :
    ∃ p ∈ saved, ∃ file, env.presetFile p.name = some file ∧
      (savedManager env saved).directory.lookup file = some doc ∧
      doc = some (presetXml env.codec p) := by
  obtain ⟨⟨file, doc'⟩, hentry, hdoc⟩ := List.mem_map.mp h
  cases hdoc
  have hlookup := AList.mem_lookup_iff.mpr hentry
  obtain ⟨p, hp, hfile, heq⟩ := lookup_directory hlookup
  exact ⟨p, hp, file, hfile, hlookup, heq⟩

/-- Presets with files of their own leave one document each. -/
theorem documents_savedManager {env : PresetEnv v} {saved : List (Preset v)}
    (hsome : ∀ p ∈ saved, (env.presetFile p.name).isSome)
    (hfiles : (saved.map fun p => env.presetFile p.name).Nodup) :
    documents (savedManager env saved)
      = (saved.map fun p => some (presetXml env.codec p)).reverse := by
  induction saved using List.reverseRecOn with
  | nil => rfl
  | append_singleton saved p ih =>
    rw [List.map_append, List.nodup_append] at hfiles
    obtain ⟨file, hfile⟩ := Option.isSome_iff_exists.mp (hsome p (by simp))
    -- The file is a new one, so its document is put in front of the others.
    have hnew : file ∉ (savedManager env saved).directory := by
      intro hmem
      obtain ⟨doc, hdoc⟩ := Option.isSome_iff_exists.mp (AList.lookup_isSome.mpr hmem)
      obtain ⟨q, hq, hqfile, -⟩ := lookup_directory hdoc
      exact hfiles.2.2 (some file) (List.mem_map.mpr ⟨q, hq, hqfile⟩) (some file)
        (by simp [hfile]) rfl
    have hrest := ih (fun q hq => hsome q (List.mem_append_left [p] hq)) hfiles.1
    rw [savedManager, List.foldl_append, ← savedManager, List.foldl_cons, List.foldl_nil,
      documents, PresetManager.savePreset, hfile]
    dsimp only
    rw [AList.entries_insert_of_notMem hnew, List.map_cons, ← documents, hrest]
    simp

/-! ### The condition

A load that yields all saved presets has found each of them in some document. The documents are
those of saved presets, and names tell them apart. -/

/-- Each preset has a state of the type `state` and a file of its own in the directory. -/
structure Loadable (env : PresetEnv v) (saved : List (Preset v)) : Prop where
  type : ∀ p ∈ saved, ∃ t, p.state = some t ∧ t.type = bytes "state"
  file : ∀ p ∈ saved, (env.presetFile p.name).isSome
  files : (saved.map fun p => env.presetFile p.name).Nodup

/-- The condition is enough for every saved preset to be loaded. -/
theorem loadsSaved_of_loadable {env : PresetEnv v} {saved : List (Preset v)}
    (hcodec : IsTreeCodec env.codec) (hsaved : Savable env.var saved)
    (h : Loadable env saved) : LoadsSaved env saved := by
  intro files hperm
  -- The files are the documents of the presets in some order.
  rw [documents_savedManager h.file h.files] at hperm
  obtain ⟨ps, rfl, hps⟩ := (congrFun (congrFun (List.eq_map_comp_perm _) files) saved).mpr
    (hperm.trans (List.reverse_perm _))
  have hmem : ∀ p, p ∈ ps ↔ p ∈ saved := fun p => hps.mem_iff
  have hdistinct : (ps.map Preset.name).Nodup :=
    (hps.map Preset.name).nodup_iff.mpr hsaved.distinct
  refine ⟨ps.foldl Presets.put (factoryPresets env.var), ?_, ?_, ?_⟩
  · exact foldlM_loadFile_presetXml hcodec (fun p hp => h.type p ((hmem p).mp hp))
      (fun p hp => hsaved.named p ((hmem p).mp hp)) _
  · intro p hp
    exact lookup_foldl_put hdistinct ((hmem p).mpr hp) _
  · intro name hname
    apply lookup_foldl_put_of_notMem
    rwa [(hps.map Preset.name).mem_iff]

/-- A load that yields the saved presets has found each in a document of the directory. -/
theorem loadable_of_loadsSaved {env : PresetEnv v} {saved : List (Preset v)}
    (hcodec : IsTreeCodec env.codec) (hsaved : Savable env.var saved)
    (h : LoadsSaved env saved) : Loadable env saved := by
  obtain ⟨presets, hload, hfound, -⟩ := h _ (List.Perm.refl _)
  obtain ⟨hread, hlookup⟩ := foldlM_loadFile_some hload
  have hdoc : ∀ p ∈ saved, ∃ file, env.presetFile p.name = some file ∧
      (savedManager env saved).directory.lookup file = some (some (presetXml env.codec p)) ∧
      some (presetXml env.codec p) ∈ documents (savedManager env saved) := by
    intro p hp
    obtain heq | ⟨xml, hxml, hname⟩ := hlookup p.name
    · -- The factory presets do not hold it.
      rw [hfound p hp, AList.lookup_eq_none.mpr (hsaved.notFactory p hp)] at heq
      cases heq
    · obtain ⟨q, hq, file, hfile, hdir, hqxml⟩ := mem_documents hxml
      cases hqxml
      rw [name_presetXml] at hname
      cases hsaved.eq_of_name hq hp hname
      exact ⟨file, hfile, hdir, hxml⟩
  constructor
  · intro p hp
    obtain ⟨_, -, -, hmem⟩ := hdoc p hp
    exact readPreset_ne_none hcodec (hread _ hmem)
  · intro p hp
    obtain ⟨file, hfile, -⟩ := hdoc p hp
    simp [hfile]
  · refine List.Nodup.map_on ?_ (List.Nodup.of_map _ hsaved.distinct)
    intro p hp q hq heq
    obtain ⟨file, hfile, hdir, -⟩ := hdoc p hp
    obtain ⟨file', hfile', hdir', -⟩ := hdoc q hq
    rw [hfile, hfile'] at heq
    cases heq
    rw [hdir] at hdir'
    have hxml : presetXml env.codec p = presetXml env.codec q := by
      simpa using hdir'
    have hname := congrArg (·.getStringAttribute (bytes "name") []) hxml
    exact hsaved.eq_of_name hp hq hname

/-- Saved presets can be loaded exactly when every state has the type `state` and every preset
has a file of its own in the directory. -/
theorem loadsSaved_iff (env : PresetEnv v) (saved : List (Preset v))
    (hcodec : IsTreeCodec env.codec) (hsaved : Savable env.var saved) :
    LoadsSaved env saved ↔ Loadable env saved :=
  ⟨loadable_of_loadsSaved hcodec hsaved, loadsSaved_of_loadable hcodec hsaved⟩

/-! ### Presets of the editor

The editor saves the state of its parameters, whose type is `Parameters`. With the plain codec the
condition can be evaluated for what it saves. -/

/-- Numbers and texts as texts. -/
def textLiterals : VarLiterals Bytes where
  int := formatInt
  float x := formatInt x.num ++ bytes "/" ++ decimal x.den
  string s := s

/-- The plain codec, with a file `name.preset` for each name. -/
def textEnv : PresetEnv Bytes where
  codec := plainCodec
  var := textLiterals
  presetFile name := some (name ++ bytes ".preset")

/-- The preset that the editor saves first, with the default parameters. -/
def firstUserPreset : Preset Bytes :=
  newPreset textEnv ⟨42, 1 / 2, 1 / 2, 1 / 2, 120, 8⟩ ⟨factoryPresets textLiterals, ∅⟩

/-- The first preset of a user is one that can be saved under its name. -/
theorem savable_firstUserPreset : Savable textLiterals [firstUserPreset] where
  valid := by simp [firstUserPreset, newPreset]
  named := by simp [firstUserPreset, newPreset, newPresetName, userPresetName, bytes]
  distinct := by simp
  notFactory := by
    intro p hp
    rw [List.mem_singleton] at hp
    subst hp
    rw [AList.mem_keys]
    decide

/-- The condition for that preset. -/
theorem loadsSaved_iff_firstUserPreset :
    LoadsSaved textEnv [firstUserPreset] ↔ Loadable textEnv [firstUserPreset] :=
  loadsSaved_iff textEnv [firstUserPreset] plainCodec_isTreeCodec savable_firstUserPreset

/-- After the first preset of the editor a load dereferences a null pointer. -/
theorem userPreset_not_loadsSaved : ¬ LoadsSaved textEnv [firstUserPreset] := by
  intro h
  obtain ⟨t, hstate, htype⟩ :=
    (loadable_of_loadsSaved plainCodec_isTreeCodec savable_firstUserPreset h).type _
      List.mem_cons_self
  cases hstate
  exact absurd htype (by decide)

end AiMidi.Proofs.PresetLoading
