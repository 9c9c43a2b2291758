import AiMidi.Ace.ContextRepo
import AiMidi.Lib.Transition
import Mathlib.Data.List.Nodup
import Mathlib.Logic.Function.Basic

/-!
# `AiMidi.Proofs.Ace.ContextRepo`: the repository is a finite map that survives faults

`Contexts` is what the repository is for: a map from ids to contexts. `Meets` says what a call may
do to it and what it may reply. A write that is acknowledged took effect, once and at its time. A
write that reports an error did not, unless the reply itself was lost. That an id does not exist is
answered by errors that wrap `sql.ErrNoRows`. A list holds the contexts changed last, the newest
first.

Every call of the repository meets this, whichever calls of the driver fail (`call_meets`), so its
runs are runs of the map (`repository_refines`). What an acknowledged write stored is read back
until the next call that changes the same context (`read_back`).

The statements come first: each affects the row of its call, or it has no effect (`StatementMeets`).
The three writes share the way from there to a reply, through every fault that the driver may report
(`modify_meets`). For the lists it is enough that the selection is the front of a sorted permutation
of the rows (`selectRecent_meets`). The frame result for runs, `run_frame`, is an induction over the
calls behind the write.
-/

set_option autoImplicit false

namespace AiMidi.Proofs.Ace

open AiMidi.Lib AiMidi.Ace AiMidi.Ace.ContextRepo

/-! ### The abstract store

The specification is written without tables. A fault may keep a call from its effect or lose its
reply, so a reply with an error says less than one without. -/

/-- The contexts by id. -/
abbrev Contexts := Bytes → Option SharedContext

/-- The map after a call that changes it, and `none` for a call that does not. -/
def effect (m : Contexts) (now : Bytes) : RepoCall → Option Contexts
  | .create id name (some payload)   =>
      if m id = none then
        some (Function.update m id (some ⟨name, payload, payloadTypeV1, now, now⟩))
      else none
  | .updatePayload id (some payload) => (m id).map fun row =>
      Function.update m id (some { row with payload := payload, updatedAt := now })
  | .delete id                       => (m id).map fun _ => Function.update m id none
  | _                                => none

/-- No call of the driver fails. -/
def Healthy (faults : RepoFaults) : Prop := faults.statement = none ∧ faults.result = none

/-- The effect of a statement can be there although the call reports an error. -/
def ReplyLost (faults : RepoFaults) : Prop :=
  (∃ fault, faults.statement = some fault ∧ fault.effective = true) ∨ faults.result ≠ none

/-- The reply to a write. -/
structure ModifyMeets (m m' : Contexts) (after : Option Contexts) (faults : RepoFaults)
    (result : Except RepoError Unit) : Prop where
  acknowledged : result = .ok () → after = some m'
  refused : ∀ err, result = .error err → m' = m ∨ (after = some m' ∧ ReplyLost faults)
  healthy : Healthy faults → (result = .ok () ↔ after ≠ none)

/-- The reply to a `Get`. -/
structure GetMeets (m : Contexts) (id : Bytes) (faults : RepoFaults)
    (result : Except RepoError ContextData) : Prop where
  found : ∀ data, result = .ok data → (m id).map ContextData.ofRow = some data
  missing : ∀ err, result = .error err → err.isNoRows = true → m id = none
  healthy : Healthy faults → m id = none → result = .error (.getNoRows id)

/-- A list of at most `limit` contexts, the newest first. -/
structure ListMeets (m : Contexts) (limit : Nat) (summaries : List ContextSummary) : Prop where
  sorted : summaries.Pairwise fun a b => binaryLe b.updatedAt a.updatedAt = true
  nodup : (summaries.map ContextSummary.id).Nodup
  sound : ∀ s ∈ summaries, ∃ row, m s.id = some row ∧ s = .ofRow (s.id, row)
  length_le : summaries.length ≤ limit
  /-- What is left out is not newer than what is listed, and is left out for the limit only. -/
  complete : ∀ id row, m id = some row → ContextSummary.ofRow (id, row) ∈ summaries ∨
    (summaries.length = limit ∧ ∀ s ∈ summaries, binaryLe row.updatedAt s.updatedAt = true)

/-- The id that a write misses is reported as such. -/
def MissingId (m : Contexts) : RepoCall → Prop
  | .updatePayload id _ | .delete id => m id = none
  | _                                => False

/-- What a call may reply, and how it may change the map. -/
inductive Meets (m : Contexts) (now : Bytes) (faults : RepoFaults) :
    RepoCall → RepoReply → Contexts → Prop where
  | modified {c : RepoCall} {result : Except RepoError Unit} {m' : Contexts}
      (hmodify : ModifyMeets m m' (effect m now c) faults result)
      (hmissing : Healthy faults → MissingId m c →
        ∃ err, result = .error err ∧ err.isNoRows = true)
      (hexists : ∀ err, result = .error err → err.isNoRows = true → MissingId m c) :
      Meets m now faults c (.modified result) m'
  | got {id : Bytes} {result : Except RepoError ContextData} (h : GetMeets m id faults result) :
      Meets m now faults (.get id) (.got result) m
  | listed {limit : Int} {result : Except RepoError (List ContextSummary)}
      (h : ∀ summaries, result = .ok summaries → ListMeets m (listLimit limit) summaries) :
      Meets m now faults (.list limit) (.listed result) m

/-! ### Tables as maps

A table is a list with one row for each id. What a caller can see of it is the map, and every change
of the table is a change of the map at one id. -/

section

variable {κ : Type} [DecidableEq κ] {ρ : Type}

/-- Replacing an entry of the key changes what the key is mapped to, if anything, and nothing
else. -/
theorem dlookup_kreplace {k : κ} {row : ρ} (entries : List (Sigma fun _ : κ => ρ)) (k' : κ) :
    (entries.kreplace k row).dlookup k'
      = if k' = k then (entries.dlookup k).map fun _ => row else entries.dlookup k' := by
  induction entries with
  | nil => simp [List.kreplace]
  | cons entry entries ih =>
    obtain ⟨k₁, row₁⟩ := entry
    rw [List.kreplace] at ih ⊢
    rw [List.lookmap_cons]
    -- The first entry of the key is replaced, and an entry of another key is passed.
    by_cases hk : k = k₁
    · subst hk
      by_cases hk' : k' = k
      · subst hk'
        simp
      · simp [hk']
    · simp only [hk, if_false]
      by_cases hk' : k' = k₁
      · subst hk'
        simp [Ne.symm hk]
      · have hcons {j : κ} (hj : j ≠ k₁) (l : List (Sigma fun _ : κ => ρ)) :
            (⟨k₁, row₁⟩ :: l).dlookup j = l.dlookup j := List.dlookup_cons_ne l _ hj
        rw [hcons hk', hcons hk', hcons hk, ih]

/-- A replaced row is found under its key, and nothing else changes. -/
theorem lookup_replace {table : AList fun _ : κ => ρ} {k : κ} {old row : ρ}
    (hold : table.lookup k = some old) :
    (table.replace k row).lookup = Function.update table.lookup k (some row) := by
  funext k'
  show (table.entries.kreplace k row).dlookup k' = _
  rw [dlookup_kreplace, Function.update_apply]
  split
  · rw [show table.entries.dlookup k = some old from hold]
    rfl
  · rfl

/-- An inserted row is what the table maps its key to. -/
theorem lookup_insert (table : AList fun _ : κ => ρ) (k : κ) (row : ρ) :
    (table.insert k row).lookup = Function.update table.lookup k (some row) := by
  funext k'
  rw [Function.update_apply]
  split
  · rename_i h
    rw [h, AList.lookup_insert]
  · rename_i h
    exact AList.lookup_insert_ne h

/-- An erased key is mapped to nothing. -/
theorem lookup_erase (table : AList fun _ : κ => ρ) (k : κ) :
    (table.erase k).lookup = Function.update table.lookup k none := by
  funext k'
  rw [Function.update_apply]
  split
  · rename_i h
    rw [h, AList.lookup_erase]
  · rename_i h
    exact AList.lookup_erase_ne h

end

/-- The map that a database holds. -/
def contexts (db : ContextDb) : Contexts := db.sharedContext.lookup

/-- A context is missing when the table has no row of its identifier. -/
theorem contexts_eq_none {db : ContextDb} {id : Bytes} :
    contexts db id = none ↔ id ∉ db.sharedContext := AList.lookup_eq_none

/-! ### Statements

A statement can fail before its effect, and a reply can be lost behind it. In both cases the map is
the old one or the new one and nothing between. -/

/-- A statement either affects one row, with the effect of its call, or it has no effect. -/
inductive StatementMeets (db : ContextDb) (after : Option Contexts) :
    Except Constraint (Nat × ContextDb) → Prop where
  | violated {c : Constraint} (h : after = none) : StatementMeets db after (.error c)
  | missed (h : after = none) : StatementMeets db after (.ok (0, db))
  | affected {db' : ContextDb} (h : after = some (contexts db')) :
      StatementMeets db after (.ok (1, db'))

/-- The `INSERT` does what creating a context is to do, and reports a row. -/
theorem insertContext_meets (db : ContextDb) (now id name : Bytes) (payload : Option Bytes) :
    StatementMeets db (effect (contexts db) now (.create id name payload))
      (db.insertContext now id name payload) := by
  cases payload with
  | none => exact .violated rfl
  | some payload =>
    rw [ContextDb.insertContext, effect]
    by_cases hid : id ∈ db.sharedContext
    · rw [if_pos hid, if_neg fun hnone => contexts_eq_none.mp hnone hid]
      exact .violated rfl
    · rw [if_neg hid, if_pos (contexts_eq_none.mpr hid)]
      exact .affected (congrArg some (lookup_insert _ _ _).symm)

/-- The `UPDATE` changes the payload and the time of the context, and reports a row when there is
one. -/
theorem updateContext_meets (db : ContextDb) (now id : Bytes) (payload : Option Bytes) :
    StatementMeets db (effect (contexts db) now (.updatePayload id payload))
      (db.updateContext now id payload) := by
  -- A missing row is missed whatever the payload; with a row only `NOT NULL` can fail.
  cases hrow : contexts db id with
  | none =>
    have hnone : db.sharedContext.lookup id = none := hrow
    have hmissed : db.updateContext now id payload = .ok (0, db) := by
      simp only [ContextDb.updateContext, hnone]
    rw [hmissed]
    cases payload with
    | none => exact .missed rfl
    | some payload =>
      refine .missed ?_
      rw [effect, hrow]
      rfl
  | some row =>
    have hsome : db.sharedContext.lookup id = some row := hrow
    cases payload with
    | none =>
      have hviolated : db.updateContext now id none = .error .payloadNotNull := by
        simp only [ContextDb.updateContext, hsome]
      rw [hviolated]
      exact .violated rfl
    | some payload =>
      simp only [ContextDb.updateContext, hsome]
      refine .affected ?_
      rw [effect, hrow]
      exact congrArg some (lookup_replace hsome).symm

/-- The `DELETE` removes the context, and reports a row when there is one. -/
theorem deleteContext_meets (db : ContextDb) (now id : Bytes) :
    StatementMeets db (effect (contexts db) now (.delete id)) (db.deleteContext id) := by
  rw [ContextDb.deleteContext, effect]
  by_cases hid : id ∈ db.sharedContext
  · obtain ⟨row, hrow⟩ := Option.isSome_iff_exists.mp (AList.lookup_isSome.mpr hid)
    have hsome : contexts db id = some row := hrow
    rw [if_pos hid, hsome]
    exact .affected (congrArg some (lookup_erase _ _).symm)
  · rw [if_neg hid, contexts_eq_none.mpr hid]
    exact .missed rfl

/-! ### Writes

The writes differ in their statement and in the error for a missing row. The rest is one function,
and so is the proof about it. -/

section

variable {verb : RepoVerb} {id : Bytes} {missing : RepoError} {faults : RepoFaults}
  {statement : Except Constraint (Nat × ContextDb)} {db : ContextDb} {after : Option Contexts}

/-- What the three writes have in common. -/
theorem modify_meets (h : StatementMeets db after statement) :
    ModifyMeets (contexts db)
      (contexts (ContextRepo.modify verb id missing faults statement db).2) after faults
      (ContextRepo.modify verb id missing faults statement db).1 := by
  cases h with
  | @violated c hafter =>
    have hmodify : ∃ err, ContextRepo.modify verb id missing faults (.error c) db
        = (.error err, db) := by
      unfold ContextRepo.modify
      cases faults.statement with
      | none => exact ⟨_, rfl⟩
      | some fault => exact ⟨_, rfl⟩
    obtain ⟨err, hmodify⟩ := hmodify
    rw [hmodify]
    exact ⟨nofun, fun _ _ => .inl rfl, fun _ => ⟨nofun, fun hne => absurd hafter hne⟩⟩
  | missed hafter =>
    have hmodify : ∃ err, ContextRepo.modify verb id missing faults (.ok (0, db)) db
        = (.error err, db) := by
      unfold ContextRepo.modify
      cases faults.statement with
      | none =>
        cases faults.result with
        | none => exact ⟨_, rfl⟩
        | some err => exact ⟨_, rfl⟩
      | some fault =>
        simp only [ite_self]
        exact ⟨_, rfl⟩
    obtain ⟨err, hmodify⟩ := hmodify
    rw [hmodify]
    exact ⟨nofun, fun _ _ => .inl rfl, fun _ => ⟨nofun, fun hne => absurd hafter hne⟩⟩
  | @affected db' hafter =>
    unfold ContextRepo.modify
    cases hstatement : faults.statement with
    | some fault =>
      have hsick : ¬ Healthy faults := fun h => by
        rw [h.1] at hstatement
        exact absurd hstatement nofun
      -- The effect is there or not. The error is the same.
      cases heffective : fault.effective with
      | false =>
        exact ⟨nofun, fun _ _ => .inl (by simp only [heffective, Bool.false_eq_true, if_false]),
          fun h => absurd h hsick⟩
      | true =>
        refine ⟨nofun, fun _ _ => .inr ⟨?_, .inl ⟨fault, hstatement, heffective⟩⟩,
          fun h => absurd h hsick⟩
        simp only [heffective, if_true]
        exact hafter
    | none =>
      cases hresult : faults.result with
      | some err =>
        have hsick : ¬ Healthy faults := fun h => by
          rw [h.2] at hresult
          exact absurd hresult nofun
        refine ⟨nofun, fun _ _ => .inr ⟨hafter, .inr ?_⟩, fun h => absurd h hsick⟩
        rw [hresult]
        exact nofun
      | none =>
        refine ⟨fun _ => hafter, nofun, fun _ => ⟨fun _ => ?_, fun _ => rfl⟩⟩
        rw [hafter]
        exact nofun

/-- Only a healthy statement that affects no row is answered by the error for a missing row. -/
theorem modify_noRows {err : RepoError}
    (h : (ContextRepo.modify verb id missing faults statement db).1 = .error err)
    (herr : err.isNoRows = true) :
    err = missing ∧ ∃ n after, statement = .ok (n, after) ∧ n < 1 := by
  unfold ContextRepo.modify at h
  split at h
  · cases h
    exact absurd herr nofun
  · cases h
    exact absurd herr nofun
  · cases h
    exact absurd herr nofun
  · rename_i n after _
    split at h
    · cases h
      exact absurd herr nofun
    -- Of all errors only that of a missing row is one, and it is returned when no row was affected.
    · by_cases hn : n < 1
      · rw [if_pos hn] at h
        cases h
        exact ⟨rfl, n, after, rfl, hn⟩
      · rw [if_neg hn] at h
        exact absurd h nofun

/-- Without faults a missed statement is answered by that error. -/
theorem modify_missed (hhealthy : Healthy faults) :
    (ContextRepo.modify verb id missing faults (.ok (0, db)) db).1 = .error missing := by
  unfold ContextRepo.modify
  rw [hhealthy.1, hhealthy.2]
  rfl

end

/-- Without a row nothing is updated, and none is reported. -/
theorem updateContext_of_missing {db : ContextDb} {id : Bytes} (h : contexts db id = none)
    (now : Bytes) (payload : Option Bytes) : db.updateContext now id payload = .ok (0, db) := by
  have hnone : db.sharedContext.lookup id = none := h
  simp only [ContextDb.updateContext, hnone]

/-- Without a row nothing is deleted either. -/
theorem deleteContext_of_missing {db : ContextDb} {id : Bytes} (h : contexts db id = none) :
    db.deleteContext id = .ok (0, db) := by
  rw [ContextDb.deleteContext, if_neg (contexts_eq_none.mp h)]

/-- An update affects no row only when there is none. -/
theorem missing_of_updateContext {db after : ContextDb} {now id : Bytes} {payload : Option Bytes}
    {n : Nat} (h : db.updateContext now id payload = .ok (n, after)) (hn : n < 1) :
    contexts db id = none := by
  cases hrow : contexts db id with
  | none => rfl
  | some row =>
    have hsome : db.sharedContext.lookup id = some row := hrow
    cases payload with
    | none =>
      simp only [ContextDb.updateContext, hsome] at h
      exact absurd h nofun
    | some payload =>
      simp only [ContextDb.updateContext, hsome, Except.ok.injEq, Prod.mk.injEq] at h
      omega

/-- When no row is reported there was none. -/
theorem missing_of_deleteContext {db after : ContextDb} {id : Bytes} {n : Nat}
    (h : db.deleteContext id = .ok (n, after)) (hn : n < 1) : contexts db id = none := by
  rw [ContextDb.deleteContext] at h
  split at h
  · simp only [Except.ok.injEq, Prod.mk.injEq] at h
    omega
  · rename_i hid
    exact contexts_eq_none.mpr hid

/-! ### Lists

The rows are sorted by the time of their last change, which is compared as a text. That order is
total, so what a list leaves out is no newer than what it has. -/

/-- Any two texts can be compared. -/
theorem binaryLe_total (a b : Bytes) : (binaryLe a b || binaryLe b a) = true := by
  induction a generalizing b with
  | nil => rfl
  | cons x xs ih =>
    cases b with
    | nil => rfl
    | cons y ys =>
      have := ih ys
      simp only [binaryLe, Bool.or_eq_true, Bool.and_eq_true, decide_eq_true_eq,
        beq_iff_eq] at this ⊢
      -- Two texts are compared by their first different byte.
      have htri : x < y ∨ x = y ∨ y < x := by
        rw [UInt8.lt_iff_toNat_lt, UInt8.lt_iff_toNat_lt, ← UInt8.toNat_inj]
        exact Nat.lt_trichotomy _ _
      rcases htri with hlt | heq | hgt
      · exact .inl (.inl hlt)
      · rcases this with h | h
        · exact .inl (.inr ⟨heq, h⟩)
        · exact .inr (.inr ⟨heq.symm, h⟩)
      · exact .inr (.inl hgt)

/-- The order of the texts is transitive. -/
theorem binaryLe_trans {a b c : Bytes} (hab : binaryLe a b = true) (hbc : binaryLe b c = true) :
    binaryLe a c = true := by
  induction a generalizing b c with
  | nil => rfl
  | cons x xs ih =>
    cases b with
    | nil => exact absurd hab nofun
    | cons y ys =>
      cases c with
      | nil => exact absurd hbc nofun
      | cons z zs =>
        simp only [binaryLe, Bool.or_eq_true, Bool.and_eq_true, decide_eq_true_eq,
          beq_iff_eq] at hab hbc ⊢
        -- The first byte decides, and among equal ones the rest does.
        rcases hab with hxy | ⟨rfl, hxy⟩
        · rcases hbc with hyz | ⟨rfl, hyz⟩
          · exact .inl (UInt8.lt_trans hxy hyz)
          · exact .inl hxy
        · rcases hbc with hyz | ⟨rfl, hyz⟩
          · exact .inl hyz
          · exact .inr ⟨rfl, ih hxy hyz⟩

/-- The rows of a listing are those of the table. -/
theorem mem_rows {db : ContextDb} {id : Bytes} {row : SharedContext} :
    (id, row) ∈ db.rows ↔ contexts db id = some row := by
  have hlookup : contexts db id = some row
      ↔ (⟨id, row⟩ : Sigma fun _ : Bytes => SharedContext) ∈ db.sharedContext.entries :=
    AList.mem_lookup_iff
  rw [hlookup, ContextDb.rows, List.mem_map]
  constructor
  · rintro ⟨entry, hentry, heq⟩
    obtain ⟨rfl, rfl⟩ := Prod.mk.inj heq
    exact List.mem_reverse.mp hentry
  · intro hentry
    exact ⟨_, List.mem_reverse.mpr hentry, rfl⟩

/-- No identifier is listed twice. -/
theorem rows_nodup (db : ContextDb) : (db.rows.map Prod.fst).Nodup := by
  have hkeys : db.rows.map Prod.fst = db.sharedContext.keys.reverse := by
    rw [ContextDb.rows, List.map_map, List.map_reverse]
    rfl
  rw [hkeys, List.nodup_reverse]
  exact db.sharedContext.keys_nodup

/-- The list that a healthy call returns. -/
theorem selectRecent_meets (db : ContextDb) (limit : Nat) :
    ListMeets (contexts db) limit ((db.selectRecent limit).map ContextSummary.ofRow) := by
  let newer (a b : Bytes × SharedContext) : Bool := binaryLe b.2.updatedAt a.2.updatedAt
  have hperm : (db.rows.mergeSort newer).Perm db.rows := List.mergeSort_perm _ _
  have hsorted : (db.rows.mergeSort newer).Pairwise fun a b => newer a b = true := by
    apply List.pairwise_mergeSort
    · exact fun a b c hab hbc => binaryLe_trans hbc hab
    · exact fun a b => binaryLe_total b.2.updatedAt a.2.updatedAt
  have hselect : db.selectRecent limit = (db.rows.mergeSort newer).take limit := rfl
  -- Nothing else of the sort is needed than that it is a sorted permutation.
  generalize db.rows.mergeSort newer = sorted at hperm hsorted hselect
  have hsub : (sorted.take limit).Sublist sorted := List.take_sublist _ _
  rw [hselect]
  refine ⟨?_, ?_, ?_, ?_, ?_⟩
  · rw [List.pairwise_map]
    exact hsorted.sublist hsub
  · have hids : ((sorted.take limit).map ContextSummary.ofRow).map ContextSummary.id
        = (sorted.take limit).map Prod.fst := by
      rw [List.map_map]
      rfl
    rw [hids]
    exact ((hperm.map Prod.fst).nodup_iff.mpr (rows_nodup db)).sublist (hsub.map _)
  · intro s hs
    obtain ⟨entry, hentry, rfl⟩ := List.mem_map.mp hs
    exact ⟨entry.2, mem_rows.mp (hperm.mem_iff.mp (hsub.subset hentry)), rfl⟩
  · rw [List.length_map]
    exact List.length_take_le _ _
  -- A row that is not listed lies behind the cut, so every listed one is at least as new.
  · intro id row hrow
    have hmem : (id, row) ∈ sorted := hperm.mem_iff.mpr (mem_rows.mpr hrow)
    rw [← List.take_append_drop limit sorted] at hmem hsorted
    rcases List.mem_append.mp hmem with htake | hdrop
    · exact .inl (List.mem_map_of_mem htake)
    · refine .inr ⟨?_, fun s hs => ?_⟩
      · have hpos := List.length_pos_of_mem hdrop
        rw [List.length_drop] at hpos
        rw [List.length_map, List.length_take]
        omega
      · obtain ⟨entry, hentry, rfl⟩ := List.mem_map.mp hs
        exact (List.pairwise_append.mp hsorted).2.2 entry hentry _ hdrop

/-! ### Calls

A call is a statement with what is made of its result. There is one case for each of the five
calls. -/

/-- `Get` returns the context, or says that it is missing, or fails with a fault of the driver. -/
theorem get_meets (faults : RepoFaults) (id : Bytes) (db : ContextDb) :
    GetMeets (contexts db) id faults (get faults id db) := by
  have hrow : db.sharedContext.lookup id = contexts db id := rfl
  rw [ContextRepo.get, hrow]
  -- A fault of the statement or of the result is reported as it is; without one the row decides.
  cases hstatement : faults.statement with
  | some fault =>
    refine ⟨nofun, fun err h herr => ?_, fun hhealthy => ?_⟩
    · cases h
      exact absurd herr nofun
    · rw [hhealthy.1] at hstatement
      exact absurd hstatement nofun
  | none =>
    cases hresult : faults.result with
    | some err' =>
      refine ⟨nofun, fun err h herr => ?_, fun hhealthy => ?_⟩
      · cases h
        exact absurd herr nofun
      · rw [hhealthy.2] at hresult
        exact absurd hresult nofun
    | none =>
      cases hmap : contexts db id with
      | none => exact ⟨nofun, fun _ _ _ => hmap, fun _ _ => rfl⟩
      | some row =>
        refine ⟨fun data h => ?_, nofun, fun _ hnone => ?_⟩
        · rw [hmap]
          exact congrArg some (Except.ok.inj h)
        · rw [hmap] at hnone
          exact absurd hnone nofun

/-- A list that is returned is the selection, whatever failed. -/
theorem list_meets {faults : RepoFaults} {limit : Int} {db : ContextDb}
    {summaries : List ContextSummary} (h : list faults limit db = .ok summaries) :
    ListMeets (contexts db) (listLimit limit) summaries := by
  have hselect : summaries = (db.selectRecent (listLimit limit)).map ContextSummary.ofRow := by
    unfold list at h
    split at h
    · cases h
    · split at h
      · cases h
      · cases h
      · exact (Except.ok.inj h).symm
  rw [hselect]
  exact selectRecent_meets db (listLimit limit)

/-- Every call meets the specification, whatever fails. -/
theorem call_meets (c : RepoCall) (now : Bytes) (faults : RepoFaults) (db : ContextDb) :
    Meets (contexts db) now faults c (call c now faults db).1
      (contexts (call c now faults db).2) := by
  -- Each call runs one statement, and what it reports follows from the rows affected.
  cases c with
  | create id name payload =>
    refine .modified (modify_meets (insertContext_meets db now id name payload)) (fun _ => nofun) ?_
    intro err h herr
    obtain ⟨rfl, -⟩ := modify_noRows h herr
    exact absurd herr nofun
  | get id => exact .got (get_meets faults id db)
  | updatePayload id payload =>
    refine .modified (modify_meets (updateContext_meets db now id payload)) ?_ ?_
    · intro hhealthy hmissing
      have hstatement := updateContext_of_missing hmissing now payload
      refine ⟨.noRows .update id, ?_, rfl⟩
      show (updatePayload faults now id payload db).1 = _
      rw [updatePayload, hstatement]
      exact modify_missed hhealthy
    · intro err h herr
      obtain ⟨-, n, after, hstatement, hn⟩ := modify_noRows h herr
      exact missing_of_updateContext hstatement hn
  | delete id =>
    refine .modified (modify_meets (deleteContext_meets db now id)) ?_ ?_
    · intro hhealthy hmissing
      have hstatement := deleteContext_of_missing hmissing
      refine ⟨.noRows .delete id, ?_, rfl⟩
      show (delete faults id db).1 = _
      rw [delete, hstatement]
      exact modify_missed hhealthy
    · intro err h herr
      obtain ⟨-, n, after, hstatement, hn⟩ := modify_noRows h herr
      exact missing_of_deleteContext hstatement hn
  | list limit => exact .listed fun summaries h => list_meets h

/-! ### Runs

The refinement is a step theorem and an induction over the run. For what is read back, the calls in
between are those that leave the context of the id alone. -/

/-- A call, its time, its faults and its reply. -/
structure RepoStep where
  call : RepoCall
  now : Bytes
  faults : RepoFaults
  reply : RepoReply

/-- The repository over a database. -/
def repository (start : ContextDb) : System ContextDb RepoStep where
  init db := db = start
  step db a db' := call a.call a.now a.faults db = (a.reply, db')

/-- A call of the repository meets what the abstract store demands of it. -/
theorem step_meets {start db db' : ContextDb} {a : RepoStep}
    (h : (repository start).step db a db') :
    Meets (contexts db) a.now a.faults a.call a.reply (contexts db') := by
  have hmeets := call_meets a.call a.now a.faults db
  rw [show call a.call a.now a.faults db = (a.reply, db') from h] at hmeets
  exact hmeets

/-- The calls that may change the context of an id that exists. -/
def Changes (id : Bytes) : RepoCall → Prop
  | .updatePayload id' _ | .delete id' => id' = id
  | _                                  => False

/-- An effect on another id leaves the context where it is. An existing id cannot be created. -/
theorem effect_frame {m m' : Contexts} {now id : Bytes} {row : SharedContext} {c : RepoCall}
    (hrow : m id = some row) (hc : ¬ Changes id c) (h : effect m now c = some m') :
    m' id = some row := by
  -- A call changes the row of its own id only, and a second `create` of an id is refused.
  cases c with
  | create id' name payload =>
    cases payload with
    | none => exact absurd h nofun
    | some payload =>
      rw [effect] at h
      split at h
      · rename_i hnone
        have hne : id ≠ id' := by
          rintro rfl
          rw [hrow] at hnone
          exact absurd hnone nofun
        cases h
        rw [Function.update_of_ne hne, hrow]
      · exact absurd h nofun
  | updatePayload id' payload =>
    cases payload with
    | none => exact absurd h nofun
    | some payload =>
      obtain ⟨row', -, rfl⟩ := Option.map_eq_some_iff.mp h
      rw [Function.update_of_ne (Ne.symm hc), hrow]
  | delete id' =>
    obtain ⟨row', -, rfl⟩ := Option.map_eq_some_iff.mp h
    rw [Function.update_of_ne (Ne.symm hc), hrow]
  | get id' => exact absurd h nofun
  | list limit => exact absurd h nofun

/-- A call that does not change a context leaves it as it is. -/
theorem meets_frame {m m' : Contexts} {now id : Bytes} {faults : RepoFaults} {row : SharedContext}
    {c : RepoCall} {reply : RepoReply} (hrow : m id = some row) (hc : ¬ Changes id c)
    (h : Meets m now faults c reply m') : m' id = some row := by
  cases h with
  | @modified c result _ hmodify =>
    cases result with
    | ok => exact effect_frame hrow hc (hmodify.acknowledged rfl)
    | error err =>
      rcases hmodify.refused err rfl with rfl | ⟨hafter, -⟩
      · exact hrow
      · exact effect_frame hrow hc hafter
  | got => exact hrow
  | listed => exact hrow

/-- Calls for other contexts leave a context as it is, in any run and whatever fails. -/
theorem run_frame {start db : ContextDb} {past : List (RepoStep × ContextDb)} {id : Bytes}
    {row : SharedContext} (h : (repository start).Run past db)
    (hstart : contexts start id = some row) (hpast : ∀ step ∈ past, ¬ Changes id step.1.call) :
    contexts db id = some row := by
  induction h with
  | start hinit =>
    obtain rfl : _ = start := hinit
    exact hstart
  | @snoc past db db' a hrun hstep ih =>
    have hrow := ih fun step hmem => hpast step (List.mem_cons_of_mem _ hmem)
    exact meets_frame hrow (hpast _ List.mem_cons_self) (step_meets hstep)

/-- A write of a payload to an id. -/
def Stores (id payload : Bytes) : RepoCall → Prop
  | .create id' _ payload' | .updatePayload id' payload' => id' = id ∧ payload' = some payload
  | _                                                    => False

/-- The context after the effect of such a write. -/
theorem effect_stores {m m' : Contexts} {now id payload : Bytes} {c : RepoCall}
    (hc : Stores id payload c) (h : effect m now c = some m') :
    ∃ row, m' id = some row ∧ row.payload = payload ∧ row.updatedAt = now := by
  -- Only a create and an update store a payload.
  cases c with
  | create id' name payload' =>
    obtain ⟨rfl, rfl⟩ := hc
    rw [effect] at h
    split at h
    · cases h
      exact ⟨_, Function.update_self .., rfl, rfl⟩
    · exact absurd h nofun
  | updatePayload id' payload' =>
    obtain ⟨rfl, rfl⟩ := hc
    obtain ⟨row, -, rfl⟩ := Option.map_eq_some_iff.mp h
    exact ⟨_, Function.update_self .., rfl, rfl⟩
  | get => exact hc.elim
  | delete => exact hc.elim
  | list => exact hc.elim

/-- What an acknowledged write stored is read back after any further calls that do not update or
delete the same context, among them failing ones and attempts to create it again. -/
theorem read_back {db start : ContextDb} {now id payload : Bytes} {faults : RepoFaults}
    {c : RepoCall} (hc : Stores id payload c)
    (hwrite : call c now faults db = (.modified (.ok ()), start))
    {past : List (RepoStep × ContextDb)} {last : ContextDb} (h : (repository start).Run past last)
    (hpast : ∀ step ∈ past, ¬ Changes id step.1.call) :
    ∃ data, get .none id last = .ok data ∧ data.payload = payload ∧ data.updatedAt = now := by
  have hmeets := call_meets c now faults db
  rw [hwrite] at hmeets
  cases hmeets with
  | modified hmodify =>
    obtain ⟨row, hrow, hpayload, hnow⟩ := effect_stores hc (hmodify.acknowledged rfl)
    have hlookup : last.sharedContext.lookup id = some row := run_frame h hrow hpast
    refine ⟨.ofRow row, ?_, hpayload, hnow⟩
    rw [ContextRepo.get, hlookup]
    rfl

/-- The tables of a new store. -/
def emptyContexts : ContextDb := ⟨∅, [], nofun⟩

/-- The first context of a store. -/
def firstContext : RepoReply × ContextDb :=
  call (.create (bytes "a") [] (some [1])) (bytes "2025") .none emptyContexts

/-- The attempt to create it again. -/
def secondContext : RepoReply × ContextDb :=
  call (.create (bytes "a") [] (some [2])) (bytes "2026") .none firstContext.2

/-- What it has stored is read back. -/
theorem read_back_second : ∃ data, get .none (bytes "a") secondContext.2 = .ok data ∧
    data.payload = [1] ∧ data.updatedAt = bytes "2025" := by
  have hstart : (repository firstContext.2).Run [] firstContext.2 := .start rfl
  have hstep : (repository firstContext.2).step firstContext.2
      ⟨.create (bytes "a") [] (some [2]), bytes "2026", .none, secondContext.1⟩
      secondContext.2 := rfl
  have hwrite : call (.create (bytes "a") [] (some [1])) (bytes "2025") .none emptyContexts
      = (.modified (.ok ()), firstContext.2) := rfl
  have hstores : Stores (bytes "a") [1] (.create (bytes "a") [] (some [1])) := ⟨rfl, rfl⟩
  refine read_back hstores hwrite (hstart.snoc hstep) fun step hmem => ?_
  rw [List.mem_singleton.mp hmem]
  exact id

end AiMidi.Proofs.Ace
