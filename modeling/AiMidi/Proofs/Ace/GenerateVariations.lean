import AiMidi.Ace.GenerateVariations

/-!
# `AiMidi.Proofs.Ace.GenerateVariations`: what the caller of W6 is left with

The entries of the response are as asked for, whatever the pattern of failures
(`entry_generateVariationsLoop`). The loop defers the removal of exactly the files that it
returns (`mem_deferred_iff`), so none of them is there when the function has returned
(`removeAll_of_mem`). The response is usable only when it names no file at all
(`generateVariations_usable_iff`).

The loop is an induction on the number of runs. Its state is what a run may see of the others: the
files, which only the runs write (`files_generateVariationsLoop`), and the deferred removals, which
are those of the runs that succeeded.
-/

set_option autoImplicit false

namespace AiMidi.Proofs.Ace

open AiMidi.Lib AiMidi.Ace

section
variable (env : VariationEnv) (req : GenerateVariationsRequest) (files : FileSystem)

/-! ### The property

A response is usable for a caller who opens the files that it names. A variation that failed has an
empty path and may stay without a file. -/

/-- Run `i` succeeds: it ends without an error, and its output file was there before all runs,
or one of the runs up to `i` wrote it. -/
def Succeeds (i : Nat) : Prop :=
  (env.exit i).err = none ∧
    (files (env.outputFile req i) ≠ none ∨
      ∃ j ≤ i, env.outputFile req j = env.outputFile req i ∧ (env.exit j).written ≠ none)

/-- The entry of variation `i`, with an empty path exactly for a failed run. -/
structure IsEntry (i : Nat) (v : VariationResult) : Prop where
  index : v.index = i
  seed : v.seed = req.baseSeed + Int64.ofNat i * req.delta
  smfPath : v.smfPath = [] ↔ ¬ Succeeds env req files i

/-- A usable response: as many entries as asked for, and in the files at return every path
holds the SMF of its variation. -/
structure Usable (variations : List VariationResult) (files' : FileSystem) : Prop where
  count : variations.length = req.variationCount.toInt.toNat
  entries : ∀ i < req.variationCount.toInt.toNat, ∃ v, variations[i]? = some v ∧
    IsEntry env req files i v ∧
    (v.smfPath ≠ [] → ∃ smf, (env.exit i).written = some smf ∧ files' v.smfPath = some smf)

end

section
variable {env : VariationEnv} {req : GenerateVariationsRequest} {files : FileSystem}

/-! ### One run

A run may fail and leave a file all the same, and it may find one that was there before. The test
for the file does not tell these apart. -/

/-- The file of a variation has a name. -/
theorem outputFile_ne_nil (i : Nat) : env.outputFile req i ≠ [] :=
  Filepath.join_ne_nil_of_mem (List.mem_cons_of_mem _ List.mem_cons_self) (by simp [bytes])

/-- A file is at a path after a run when it was there or the run wrote it. -/
theorem write_ne_none_iff (exit : MteExit) (out path : Bytes) (fs : FileSystem) :
    exit.write out fs path ≠ none ↔ fs path ≠ none ∨ out = path ∧ exit.written ≠ none := by
  rw [MteExit.write]
  cases exit.written with
  | none => simp
  | some smf =>
    by_cases h : path = out
    · simp [h]
    · simp [Function.update_of_ne h, Ne.symm h]

/-- A run that succeeds and leaves its file returns the path. -/
theorem runMTE_of_present {exit : MteExit} {out : Bytes} {fs : FileSystem}
    (herr : exit.err = none) (h : fs out ≠ none) : runMTE exit out fs = .ok out := by
  rw [runMTE, herr]
  exact if_neg (by simpa using h)

/-- Any other run is an error. -/
theorem runMTE_of_absent {exit : MteExit} {out : Bytes} {fs : FileSystem}
    (h : ¬ (exit.err = none ∧ fs out ≠ none)) : ∃ err, runMTE exit out fs = .error err := by
  rw [runMTE]
  cases herr : exit.err with
  | some err => exact ⟨_, rfl⟩
  | none =>
    have hnone : fs out = none := by
      by_contra hne
      exact h ⟨herr, hne⟩
    exact ⟨_, if_pos (by simp [hnone])⟩

/-! ### The loop

A variation is appended behind those of the runs in front of it. The removals are deferred in the
same order and carried out in the opposite one. -/

/-- The loop goes on with the next variation. -/
theorem generateVariationsLoop_succ (n : Nat) :
    generateVariationsLoop env req files (n + 1)
      = generateVariation env req (generateVariationsLoop env req files n) n := by
  rw [generateVariationsLoop, List.range_succ, List.foldl_append]
  rfl

/-- A variation changes the files by what its run writes, and by nothing else. -/
@[simp] theorem files_generateVariation (s : VariationState) (i : Nat) :
    (generateVariation env req s i).files
      = (env.exit i).write (env.outputFile req i) s.files := by
  simp only [generateVariation]
  split <;> rfl

/-- A file is at a path after `n` runs when it was there before or one of them wrote it. -/
theorem files_generateVariationsLoop (n : Nat) (path : Bytes) :
    (generateVariationsLoop env req files n).files path ≠ none ↔
      files path ≠ none ∨
        ∃ j < n, env.outputFile req j = path ∧ (env.exit j).written ≠ none := by
  induction n with
  | zero => simp [generateVariationsLoop]
  | succ n ih =>
    rw [generateVariationsLoop_succ, files_generateVariation, write_ne_none_iff, ih, or_assoc]
    apply or_congr Iff.rfl
    -- The run behind the first `n` ones is the one with the number `n`.
    constructor
    · rintro (⟨j, hj, h⟩ | h)
      · exact ⟨j, by omega, h⟩
      · exact ⟨n, by omega, h⟩
    · rintro ⟨j, hj, h⟩
      by_cases hjn : j = n
      · exact Or.inr (hjn ▸ h)
      · exact Or.inl ⟨j, by omega, h⟩

/-- What the test of run `n` decides. -/
theorem succeeds_iff (n : Nat) :
    (env.exit n).err = none ∧
        (env.exit n).write (env.outputFile req n) (generateVariationsLoop env req files n).files
          (env.outputFile req n) ≠ none ↔
      Succeeds env req files n := by
  rw [← files_generateVariation, ← generateVariationsLoop_succ, files_generateVariationsLoop]
  simp only [Succeeds, Nat.lt_succ_iff]

/-- A run that succeeds adds its file to the results and to the deferred removals. -/
theorem generateVariationsLoop_succeeds {n : Nat} (h : Succeeds env req files n) :
    generateVariationsLoop env req files (n + 1) =
      { files := (generateVariationsLoop env req files (n + 1)).files
        variations := (generateVariationsLoop env req files n).variations
          ++ [⟨n, (req.call n).seed, env.outputFile req n, env.elapsed n⟩]
        deferred :=
          env.outputFile req n :: (generateVariationsLoop env req files n).deferred } := by
  obtain ⟨herr, hfile⟩ := succeeds_iff n |>.mpr h
  simp only [generateVariationsLoop_succ, generateVariation, runMTE_of_present herr hfile]

/-- A run that fails adds an entry without a path and defers nothing. -/
theorem generateVariationsLoop_fails {n : Nat} (h : ¬ Succeeds env req files n) :
    generateVariationsLoop env req files (n + 1) =
      { files := (generateVariationsLoop env req files (n + 1)).files
        variations := (generateVariationsLoop env req files n).variations
          ++ [⟨n, (req.call n).seed, [], 0⟩]
        deferred := (generateVariationsLoop env req files n).deferred } := by
  obtain ⟨err, herr⟩ := runMTE_of_absent (mt (succeeds_iff n).mp h)
  simp only [generateVariationsLoop_succ, generateVariation, herr]

variable (env req files) in
/-- The entry that run `n` appends. -/
theorem variations_generateVariationsLoop (n : Nat) :
    ∃ v, (generateVariationsLoop env req files (n + 1)).variations
        = (generateVariationsLoop env req files n).variations ++ [v] ∧
      IsEntry env req files n v ∧
      (Succeeds env req files n → v.smfPath = env.outputFile req n) := by
  by_cases h : Succeeds env req files n
  · rw [generateVariationsLoop_succeeds h]
    exact ⟨_, rfl, ⟨rfl, rfl, by simp [h, outputFile_ne_nil]⟩, fun _ => rfl⟩
  · rw [generateVariationsLoop_fails h]
    exact ⟨_, rfl, ⟨rfl, rfl, by simp [h]⟩, fun hs => absurd hs h⟩

variable (env req files) in
/-- The loop returns as many variations as it makes. -/
theorem length_generateVariationsLoop (n : Nat) :
    (generateVariationsLoop env req files n).variations.length = n := by
  induction n with
  | zero => rfl
  | succ n ih =>
    obtain ⟨v, hv, _⟩ := variations_generateVariationsLoop env req files n
    rw [hv, List.length_append, ih, List.length_singleton]

variable (env req files) in
/-- After `n` runs the entry of every variation is in its place. -/
theorem entry_generateVariationsLoop {n i : Nat} (h : i < n) :
    ∃ v, (generateVariationsLoop env req files n).variations[i]? = some v ∧
      IsEntry env req files i v ∧
      (Succeeds env req files i → v.smfPath = env.outputFile req i) := by
  induction n with
  | zero => omega
  | succ n ih =>
    obtain ⟨last, hlast, hentry⟩ := variations_generateVariationsLoop env req files n
    have hlen := length_generateVariationsLoop env req files n
    rw [hlast]
    by_cases hi : i < n
    · rw [List.getElem?_append_left (by omega)]
      exact ih hi
    · have hin : i = n := by omega
      subst hin
      exact ⟨last, by rw [List.getElem?_append_right (by omega), hlen]; simp, hentry⟩

/-- The deferred removals are those of the files that the response names. -/
theorem mem_deferred_iff (n : Nat) (path : Bytes) :
    path ∈ (generateVariationsLoop env req files n).deferred ↔
      ∃ i < n, Succeeds env req files i ∧ env.outputFile req i = path := by
  induction n with
  | zero => simp [generateVariationsLoop]
  | succ n ih =>
    simp only [Nat.lt_succ_iff_lt_or_eq, or_and_right, exists_or, exists_eq_left, ← ih]
    by_cases h : Succeeds env req files n
    · rw [generateVariationsLoop_succeeds h]
      simp [h, or_comm, eq_comm]
    · rw [generateVariationsLoop_fails h]
      simp [h]

/-! ### The exit of the function

The removals are carried out when the function returns. What they remove are the paths of the
response. -/

/-- A path that is not removed keeps its contents. -/
theorem removeAll_of_notMem {paths : List Bytes} {path : Bytes} (h : path ∉ paths)
    (fs : FileSystem) : removeAll fs paths path = fs path := by
  rw [removeAll]
  induction paths generalizing fs with
  | nil => rfl
  | cons p ps ih =>
    have hne : path ≠ p := fun hp => h (by simp [hp])
    rw [List.foldl_cons, ih (fun hp => h (List.mem_cons_of_mem p hp)),
      Function.update_of_ne hne]

/-- No removed file is there. -/
theorem removeAll_of_mem {paths : List Bytes} {path : Bytes} (h : path ∈ paths)
    (fs : FileSystem) : removeAll fs paths path = none := by
  induction paths generalizing fs with
  | nil => simp at h
  | cons p ps ih =>
    rw [removeAll, List.foldl_cons, ← removeAll]
    by_cases hp : path ∈ ps
    · exact ih hp _
    · rw [removeAll_of_notMem hp, (List.mem_cons.mp h).resolve_right hp,
        Function.update_self]

/-- Without the early return the function is its loop, with the deferred removals behind it. -/
theorem generateVariations_eq (hcount : 1 ≤ req.variationCount) :
    generateVariations env req files =
      (.ok (generateVariationsLoop env req files req.variationCount.toInt.toNat).variations,
        removeAll (generateVariationsLoop env req files req.variationCount.toInt.toNat).files
          (generateVariationsLoop env req files req.variationCount.toInt.toNat).deferred) := by
  have hpos : ¬ req.variationCount ≤ 0 := by
    rw [Int64.le_iff_toInt_le] at hcount ⊢
    have h0 : (0 : Int64).toInt = 0 := rfl
    have h1 : (1 : Int64).toInt = 1 := rfl
    omega
  rw [generateVariations, GenerateVariationsRequest.validate, if_neg hpos]

/-- A run that succeeds makes the response useless: its path names no file any more. -/
theorem not_usable_of_succeeds {i : Nat} (hi : i < req.variationCount.toInt.toNat)
    (hs : Succeeds env req files i) {variations : List VariationResult} {files' : FileSystem}
    (hcount : 1 ≤ req.variationCount)
    (hrun : generateVariations env req files = (.ok variations, files')) :
    ¬ Usable env req files variations files' := by
  intro husable
  rw [generateVariations_eq hcount] at hrun
  cases hrun
  obtain ⟨v, hv, hentry, hpath⟩ := entry_generateVariationsLoop env req files hi
  obtain ⟨v', hv', -, hfile⟩ := husable.entries i hi
  cases hv.symm.trans hv'
  obtain ⟨smf, -, hsmf⟩ := hfile (mt hentry.smfPath.mp (not_not_intro hs))
  have hdeferred := (mem_deferred_iff req.variationCount.toInt.toNat v.smfPath).mpr
    ⟨i, hi, hs, (hpath hs).symm⟩
  rw [removeAll_of_mem hdeferred] at hsmf
  cases hsmf

/-- The response is usable exactly when no run succeeds. -/
theorem generateVariations_usable_iff (env : VariationEnv) (req : GenerateVariationsRequest)
    (files : FileSystem) (hcount : 1 ≤ req.variationCount) :
    (∃ variations files', generateVariations env req files = (.ok variations, files') ∧
        Usable env req files variations files') ↔
      ∀ i < req.variationCount.toInt.toNat, ¬ Succeeds env req files i := by
  constructor
  · rintro ⟨variations, files', hrun, husable⟩ i hi hs
    exact not_usable_of_succeeds hi hs hcount hrun husable
  · intro hfail
    refine ⟨_, _, generateVariations_eq hcount, length_generateVariationsLoop env req files _, ?_⟩
    intro i hi
    obtain ⟨v, hv, hentry, -⟩ := entry_generateVariationsLoop env req files hi
    exact ⟨v, hv, hentry, fun hne => absurd (hentry.smfPath.mpr (hfail i hi)) hne⟩

/-- An environment in which all runs end alike. -/
def sameRuns (exit : MteExit) : VariationEnv where
  tmpDir := bytes "/tmp"
  random _ := 0
  exit _ := exit
  elapsed _ := 0

/-- Three variations of a blueprint, all of whose runs are cancelled. -/
theorem generateVariations_usable_iff_cancelled :
    (∃ variations files',
        generateVariations (sameRuns ⟨none, some (bytes "signal: killed"), []⟩)
          ⟨bytes "\x7b\x7d", 100, 3, 0⟩ (fun _ => none) = (.ok variations, files') ∧
        Usable (sameRuns ⟨none, some (bytes "signal: killed"), []⟩)
          ⟨bytes "\x7b\x7d", 100, 3, 0⟩ (fun _ => none) variations files') ↔
      ∀ i < 3, ¬ Succeeds (sameRuns ⟨none, some (bytes "signal: killed"), []⟩)
        ⟨bytes "\x7b\x7d", 100, 3, 0⟩ (fun _ => none) i :=
  generateVariations_usable_iff _ _ _ (by decide)

/-- A single variation, generated without an error: its file is gone. -/
theorem oneVariation_not_usable :
    ¬ ∃ variations files',
      generateVariations (sameRuns ⟨some (bytes "MThd"), none, []⟩)
          ⟨bytes "\x7b\x7d", 100, 1, 0⟩ (fun _ => none) = (.ok variations, files') ∧
      Usable (sameRuns ⟨some (bytes "MThd"), none, []⟩)
          ⟨bytes "\x7b\x7d", 100, 1, 0⟩ (fun _ => none) variations files' := by
  rintro ⟨variations, files', hrun, husable⟩
  exact not_usable_of_succeeds (i := 0) (by decide)
    ⟨rfl, Or.inr ⟨0, Nat.le_refl 0, rfl, by simp [sameRuns]⟩⟩ (by decide) hrun husable

end

end AiMidi.Proofs.Ace
