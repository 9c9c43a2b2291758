import AiMidi.Ace.Migrations
import Mathlib.Order.Monotone.Basic

/-!
# `AiMidi.Proofs.Ace.Migrations`: migrations apply exactly once and in order

`MigratedTo scripts k db` is the invariant: the first `k` versions are recorded and the effects
of the first `k` scripts are committed, each once and in this order. A transaction moves it from
`k` to `k + 1` or leaves it (`migrate_cases`), whichever call fails, so a run never moves it back
(`applyFrom_migratedTo`). A run that returns no error has moved it to the end, and a run without
faults returns none.

The database has two parts that move together: the records of the table and the effects of the
scripts. `migrate_cases` is the only place where a fault is looked into. Above it there are two
inductions, over the scripts of a run (`applyFrom_migratedTo`) and over the runs
(`databaseAfter_migratedTo`).
-/

set_option autoImplicit false

namespace AiMidi.Proofs.Ace

open AiMidi.Lib AiMidi.Ace

variable {σ : Type}

/-- The first `k` migrations are recorded and applied, and no others. -/
structure MigratedTo (scripts : List σ) (k : Nat) (db : Database σ) : Prop where
  le : k ≤ scripts.length
  recorded : db.recorded = List.range' 1 k
  applied : db.applied = scripts.take k

/-! ### The bookkeeping table

The table is made at the start of every run and changes no record, also when the call that makes it
reports an error. -/

/-- Making the table changes no record. -/
@[simp] theorem recorded_ensure (db : Database σ) : db.ensure.recorded = db.recorded := rfl

/-- The records of a table. -/
@[simp] theorem recorded_some (rows : List Nat) (applied : List σ) :
    (Database.mk (some rows) applied).recorded = rows := rfl

/-- It changes nothing that has been migrated. -/
theorem MigratedTo.ensure {scripts : List σ} {k : Nat} {db : Database σ}
    (h : MigratedTo scripts k db) : MigratedTo scripts k db.ensure :=
  ⟨h.le, h.recorded, h.applied⟩

/-- Creating the table changes no row, whether or not the call reports an error. -/
theorem MigratedTo.settle_ensure {scripts : List σ} {k : Nat} {db : Database σ}
    (h : MigratedTo scripts k db) (fault : Fault) :
    MigratedTo scripts k (fault.settle db db.ensure) := by
  rw [Fault.settle]
  split
  · exact h.ensure
  · exact h

/-- A lookup that does not fail tells whether the version is recorded. -/
theorem queryVersion_ok {fault : Option Fault} {db : Database σ} {version : Nat} {b : Bool}
    (h : queryVersion fault db version = .ok b) : b = db.recorded.contains version := by
  simp only [queryVersion] at h
  split at h
  · cases h
  · cases h
  · rename_i rows hrows
    cases h
    rw [Database.recorded, hrows, Option.getD_some]

/-- Without a fault the query says whether the version is recorded. -/
theorem queryVersion_noFault {db : Database σ} {version : Nat}
    (h : db.schemaVersion.isSome) :
    queryVersion none db version = .ok (db.recorded.contains version) := by
  obtain ⟨rows, hrows⟩ := Option.isSome_iff_exists.mp h
  simp only [queryVersion, Database.recorded, hrows, Option.getD_some]

/-! ### One transaction

A transaction has four calls that may fail. Until the commit the database is the old one, and a
commit that reports an error may have taken effect. -/

/-- The database with one more migration. -/
def migrated (version : Nat) (script : σ) (db : Database σ) : Database σ :=
  ⟨some (db.recorded ++ [version]), db.applied ++ [script]⟩

/-- What an insert that does not fail leaves in the transaction. -/
theorem insertVersion_ok {fault : Option Fault} {db tx : Database σ} {version : Nat}
    {script : σ}
    (h : insertVersion fault { db with applied := db.applied ++ [script] } version = .ok tx) :
    tx = migrated version script db := by
  simp only [insertVersion] at h
  split at h
  · cases h
  · cases h
  · rename_i rows hrows
    split at h
    · cases h
    · cases h
      rw [migrated, Database.recorded, hrows, Option.getD_some]

/-- A transaction leaves the database as it was and reports an error, or it takes effect as a
whole. -/
theorem migrate_cases (faults : Faults) (version : Nat) (script : σ) (db : Database σ) :
    (∃ err, migrate faults version script db = (.error err, db)) ∨
      (∃ err, migrate faults version script db = (.error err, migrated version script db)) ∨
      migrate faults version script db = (.ok (), migrated version script db) := by
  simp only [migrate]
  split
  · exact Or.inl ⟨_, rfl⟩
  · split
    · exact Or.inl ⟨_, rfl⟩
    · split
      · exact Or.inl ⟨_, rfl⟩
      · rename_i tx htx
        rw [insertVersion_ok htx]
        split
        · -- The commit reports an error: its effect is there or not.
          rename_i fault _
          rw [Fault.settle]
          split
          · exact Or.inr (Or.inl ⟨_, rfl⟩)
          · exact Or.inl ⟨_, rfl⟩
        · exact Or.inr (Or.inr rfl)

/-- Without faults a transaction for a new version takes effect. -/
theorem migrate_noFaults {faults : Faults} (hfaults : ∀ call, faults call = none)
    {version : Nat} {script : σ} {db : Database σ} (htable : db.schemaVersion.isSome)
    (hnew : db.recorded.contains version = false) :
    migrate faults version script db = (.ok (), migrated version script db) := by
  obtain ⟨rows, hrows⟩ := Option.isSome_iff_exists.mp htable
  rw [Database.recorded, hrows, Option.getD_some] at hnew
  simp only [migrate, hfaults, insertVersion, hrows, hnew, migrated, Database.recorded,
    Option.getD_some, Bool.false_eq_true, if_false]

/-! ### One run

The scripts of a run are tried in order, and the first error ends it. What is recorded is a prefix
of the list at all times, so the scripts that are found recorded are the first ones. -/

/-- The first `k` versions have been recorded, and no others. -/
theorem contains_range' (k version : Nat) :
    (List.range' 1 k).contains version = decide (1 ≤ version ∧ version ≤ k) := by
  rw [Bool.eq_iff_iff, List.contains_iff_mem, List.mem_range'_1, decide_eq_true_eq]
  omega

/-- A query finds the versions up to `k`. -/
theorem MigratedTo.query {scripts : List σ} {k : Nat} {db : Database σ}
    (h : MigratedTo scripts k db) {fault : Option Fault} {version : Nat} {found : Bool}
    (hquery : queryVersion fault db version = .ok found) :
    found = decide (1 ≤ version ∧ version ≤ k) := by
  rw [queryVersion_ok hquery, h.recorded, contains_range']

/-- The next migration of the list extends what is applied by one. -/
theorem MigratedTo.migrated {before rest : List σ} {script : σ} {db : Database σ}
    (h : MigratedTo (before ++ script :: rest) before.length db) :
    MigratedTo (before ++ script :: rest) (before.length + 1)
      (migrated (before.length + 1) script db) where
  le := by simp
  recorded := by
    rw [Ace.migrated, recorded_some, h.recorded, List.range'_concat]
    simp [Nat.add_comm]
  applied := by
    rw [Ace.migrated, h.applied, List.take_append_of_le_length (Nat.le_refl _),
      List.take_length, List.take_append, List.take_of_length_le (Nat.le_succ _)]
    simp

/-- A run over the migrations behind `before`, all of which are applied: no migration is undone,
and without an error all of them are applied. -/
theorem applyFrom_migratedTo (faults : Faults) (before : List σ) {rest : List σ} {k : Nat}
    {db : Database σ} (hk : before.length ≤ k) (h : MigratedTo (before ++ rest) k db) :
    ∃ k', k ≤ k' ∧
      MigratedTo (before ++ rest) k' (applyFrom faults (before.length + 1) rest db).2 ∧
      ((applyFrom faults (before.length + 1) rest db).1 = .ok () →
        k' = (before ++ rest).length) := by
  -- Along the list: the scripts in front of the current one are applied.
  induction rest generalizing before k db with
  | nil =>
    have hlen := h.le
    rw [List.append_nil] at hlen
    exact ⟨k, Nat.le_refl k, h, fun _ => by rw [List.append_nil]; omega⟩
  | cons script rest ih =>
    have hsplit : before ++ script :: rest = before ++ [script] ++ rest := by simp
    have hnext : (before ++ [script]).length = before.length + 1 := by simp
    simp only [applyFrom]
    split
    · exact ⟨k, Nat.le_refl k, h, fun hok => by cases hok⟩
    · rename_i hquery
      -- The version is recorded: it is one of the first `k`.
      have hle : before.length + 1 ≤ k := (of_decide_eq_true (h.query hquery).symm).2
      rw [hsplit] at h ⊢
      rw [← hnext] at hle ⊢
      exact ih _ hle h
    · rename_i hquery
      have hkeq : k = before.length := by
        have hnot := of_decide_eq_false (h.query hquery).symm
        omega
      subst hkeq
      obtain ⟨err, herr⟩ | ⟨err, herr⟩ | hok := migrate_cases faults (before.length + 1) script db
      · rw [herr]
        exact ⟨before.length, Nat.le_refl _, h, fun hok => by cases hok⟩
      · rw [herr]
        exact ⟨before.length + 1, Nat.le_succ _, h.migrated, fun hok => by cases hok⟩
      · rw [hok]
        have hdone := h.migrated
        rw [hsplit] at hdone ⊢
        dsimp only
        rw [← hnext] at hdone ⊢
        obtain ⟨k', hk', hinv, hend⟩ := ih _ (Nat.le_refl _) hdone
        exact ⟨k', by omega, hinv, hend⟩

/-- A run never undoes a migration, and one that returns no error has applied them all. -/
theorem apply_migratedTo (faults : Faults) {scripts : List σ} {k : Nat} {db : Database σ}
    (h : MigratedTo scripts k db) :
    ∃ k', k ≤ k' ∧ MigratedTo scripts k' (apply scripts faults db).2 ∧
      ((apply scripts faults db).1 = .ok () → k' = scripts.length) := by
  rw [apply]
  split
  · rename_i fault _
    exact ⟨k, Nat.le_refl k, h.settle_ensure fault, fun hok => by cases hok⟩
  · exact applyFrom_migratedTo faults [] (Nat.zero_le k) h.ensure

/-- Without faults a run returns no error, whatever is recorded. -/
theorem applyFrom_noFaults {faults : Faults} (hfaults : ∀ call, faults call = none)
    (scripts : List σ) (version : Nat) {db : Database σ} (htable : db.schemaVersion.isSome) :
    (applyFrom faults version scripts db).1 = .ok () := by
  induction scripts generalizing version db with
  | nil => rfl
  | cons script scripts ih =>
    simp only [applyFrom, hfaults, queryVersion_noFault htable]
    cases hrecorded : db.recorded.contains version with
    | true => exact ih (version + 1) htable
    | false =>
      simp only [migrate_noFaults hfaults htable hrecorded]
      exact ih (version + 1) rfl

/-- Without faults all migrations are applied. -/
theorem apply_noFaults {faults : Faults} (hfaults : ∀ call, faults call = none)
    (scripts : List σ) (db : Database σ) : (apply scripts faults db).1 = .ok () := by
  simp only [apply, hfaults]
  exact applyFrom_noFaults hfaults scripts 1 rfl

/-! ### Sequences of runs

Between two runs nothing changes the database. The number of migrations after each run is therefore
monotone. -/

/-- Whatever the runs have met, some of the first scripts have been applied, each once and in
order. -/
theorem databaseAfter_migratedTo (scripts : List σ) (runs : Nat → Faults) (n : Nat) :
    ∃ k, MigratedTo scripts k (databaseAfter scripts runs n) := by
  induction n with
  | zero => exact ⟨0, Nat.zero_le _, rfl, rfl⟩
  | succ n ih =>
    obtain ⟨k, hk⟩ := ih
    obtain ⟨k', -, hk', -⟩ := apply_migratedTo (runs n) hk
    exact ⟨k', hk'⟩

/-- The number of migrations is that of the recorded versions. -/
theorem MigratedTo.eq_length {scripts : List σ} {k : Nat} {db : Database σ}
    (h : MigratedTo scripts k db) : k = db.recorded.length := by
  rw [h.recorded, List.length_range']

/-- Migrations apply exactly once and in order, over any sequence of runs with any faults: after
`n` runs the first `k n` are recorded and applied, `k` never decreases, a run in which no call
fails returns no error, and after a run without an error all are applied. -/
theorem apply_exactly_once (scripts : List σ) (runs : Nat → Faults) :
    ∃ k : Nat → Nat, Monotone k ∧ ∀ n,
      MigratedTo scripts (k n) (databaseAfter scripts runs n) ∧
      ((∀ call, runs n call = none) →
        (apply scripts (runs n) (databaseAfter scripts runs n)).1 = .ok ()) ∧
      ((apply scripts (runs n) (databaseAfter scripts runs n)).1 = .ok () →
        k (n + 1) = scripts.length) := by
  have hinv : ∀ n, MigratedTo scripts (databaseAfter scripts runs n).recorded.length
      (databaseAfter scripts runs n) := by
    intro n
    obtain ⟨k, hk⟩ := databaseAfter_migratedTo scripts runs n
    rwa [hk.eq_length] at hk
  refine ⟨fun n => (databaseAfter scripts runs n).recorded.length, ?_, fun n => ⟨hinv n, ?_, ?_⟩⟩
  -- No run makes the number of recorded versions smaller.
  · refine monotone_nat_of_le_succ fun n => ?_
    obtain ⟨k', hle, hk', -⟩ := apply_migratedTo (runs n) (hinv n)
    rwa [hk'.eq_length] at hle
  · intro hfaults
    exact apply_noFaults hfaults scripts _
  · intro hok
    obtain ⟨k', -, hk', hend⟩ := apply_migratedTo (runs n) (hinv n)
    rw [hk'.eq_length] at hend
    exact hend hok

end AiMidi.Proofs.Ace
