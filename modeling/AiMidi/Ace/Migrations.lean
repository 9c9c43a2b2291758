import AiMidi.Lib.Decimal

/-!
# `AiMidi.Ace.Migrations`: the migration runner of the store

`apply` is one run of the `Migrator` over the embedded scripts. It creates the table
`schema_version`, and then treats each script in turn: it looks up the version, and unless it
is recorded it begins a transaction, executes the script, inserts the version and commits.
Any of these calls can fail, and the first that does ends the run.

A database is the rows of `schema_version` and the scripts whose effects are committed, the
oldest first. A transaction works on a copy that the commit installs. Scripts do not write to
`schema_version`. A fault says that a call reports an error, and whether its effect is there
all the same (a commit whose reply is lost).

A version is a natural number: the index of a slice stays below the bounds of `int64`. Log
lines are left out.
-/

set_option autoImplicit false

namespace AiMidi.Ace

open AiMidi.Lib

/-- A call to the database in one run, with the version it is for. -/
inductive DbCall where
  | ensure
  | query (version : Nat)
  | beginTx (version : Nat)
  | execScript (version : Nat)
  | record (version : Nat)
  | commit (version : Nat)
  deriving DecidableEq, Repr

/-- A failing call. -/
structure Fault where
  error : Bytes
  /-- The call took effect although it reports an error. -/
  effective : Bool
  deriving DecidableEq, Repr

/-- The calls of a run that fail. -/
abbrev Faults := DbCall → Option Fault

/-- The committed contents of the database. -/
structure Database (σ : Type) where
  /-- The rows of `schema_version`, once the table exists. -/
  schemaVersion : Option (List Nat)
  /-- The scripts whose effects are committed. -/
  applied : List σ
  deriving Repr

/-- The database of a new store. -/
def Database.empty {σ : Type} : Database σ := ⟨none, []⟩

/-- The recorded versions. -/
def Database.recorded {σ : Type} (db : Database σ) : List Nat := db.schemaVersion.getD []

/-- The errors of `Apply`. -/
inductive MigrateError where
  | ensure (err : Bytes)
  | query (version : Nat) (err : Bytes)
  | beginTx (version : Nat) (err : Bytes)
  | execScript (version : Nat) (err : Bytes)
  | record (version : Nat) (err : Bytes)
  | commit (version : Nat) (err : Bytes)
  deriving DecidableEq, Repr

/-- The text of an error. -/
def MigrateError.text : MigrateError → Bytes
  | .ensure err             => bytes "ensure schema_version: " ++ err
  | .query version err      =>
      bytes "query schema_version v" ++ decimal version ++ bytes ": " ++ err
  | .beginTx version err    =>
      bytes "begin tx for migration v" ++ decimal version ++ bytes ": " ++ err
  | .execScript version err => bytes "exec migration v" ++ decimal version ++ bytes ": " ++ err
  | .record version err     => bytes "record migration v" ++ decimal version ++ bytes ": " ++ err
  | .commit version err     => bytes "commit migration v" ++ decimal version ++ bytes ": " ++ err

section

variable {σ : Type}

/-- `CREATE TABLE IF NOT EXISTS schema_version`. -/
def Database.ensure (db : Database σ) : Database σ :=
  { db with schemaVersion := some db.recorded }

/-- What a failing call outside of a transaction, or a failing commit, leaves. -/
def Fault.settle (fault : Fault) (before after : Database σ) : Database σ :=
  if fault.effective then after else before

/-- Whether the row of a version exists, or the error of the query. -/
def queryVersion (fault : Option Fault) (db : Database σ) (version : Nat) :
    Except Bytes Bool :=
  match fault, db.schemaVersion with
  | some fault, _    => .error fault.error
  | none, none       => .error (bytes "no such table: schema_version")
  | none, some rows  => .ok (rows.contains version)

/-- `INSERT INTO schema_version`. The version is the primary key. -/
def insertVersion (fault : Option Fault) (tx : Database σ) (version : Nat) :
    Except Bytes (Database σ) :=
  match fault, tx.schemaVersion with
  | some fault, _   => .error fault.error
  | none, none      => .error (bytes "no such table: schema_version")
  | none, some rows =>
      if rows.contains version then .error (bytes "UNIQUE constraint failed")
      else .ok { tx with schemaVersion := some (rows ++ [version]) }

/-- The transaction of one migration. Each error but that of the commit rolls back, which leaves
the database as it was whether or not `Rollback` itself fails. -/
def migrate (faults : Faults) (version : Nat) (script : σ) (db : Database σ) :
    Except MigrateError Unit × Database σ :=
  match faults (.beginTx version) with
  | some fault => (.error (.beginTx version fault.error), db)
  | none       =>
    match faults (.execScript version) with
    | some fault => (.error (.execScript version fault.error), db)
    | none       =>
      match insertVersion (faults (.record version)) { db with applied := db.applied ++ [script] }
          version with
      | .error err => (.error (.record version err), db)
      | .ok tx     =>
        match faults (.commit version) with
        | some fault => (.error (.commit version fault.error), fault.settle db tx)
        | none       => (.ok (), tx)

/-- The migrations from version `version` on. -/
def applyFrom (faults : Faults) (version : Nat) :
    List σ → Database σ → Except MigrateError Unit × Database σ
  | [], db                => (.ok (), db)
  | script :: scripts, db =>
      match queryVersion (faults (.query version)) db version with
      | .error err => (.error (.query version err), db)
      | .ok true   => applyFrom faults (version + 1) scripts db
      | .ok false  =>
        match migrate faults version script db with
        | (.error err, db) => (.error err, db)
        | (.ok (), db)     => applyFrom faults (version + 1) scripts db

/-- `Migrator.Apply`: every pending migration in order. -/
def apply (scripts : List σ) (faults : Faults) (db : Database σ) :
    Except MigrateError Unit × Database σ :=
  match faults .ensure with
  | some fault => (.error (.ensure fault.error), fault.settle db db.ensure)
  | none       => applyFrom faults 1 scripts db.ensure

/-- The database after the first `n` runs. -/
def databaseAfter (scripts : List σ) (runs : Nat → Faults) : Nat → Database σ
  | 0     => .empty
  | n + 1 => (apply scripts (runs n) (databaseAfter scripts runs n)).2

end

end AiMidi.Ace
