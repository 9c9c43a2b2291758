import AiMidi.Ace.Migrations
import Mathlib.Data.List.AList

/-!
# `AiMidi.Ace.ContextRepo`: the contexts in the store

`shared_context` is a table with the primary key `id`. `context_locks` refers to it, with
`ON DELETE CASCADE`. A `ContextDb` satisfies both constraints. The operations of the repository
execute one statement each, outside of a transaction.

A statement fails when it violates a constraint, which leaves the database as it was. Besides, each
call of the driver can report an error. `now` is the value of `datetime('now')`. Its format is
ordered like the times.

A `nil` payload is bound as `NULL`. `driver` stands for the texts of the constraints, and `quote` is
the verb `%q`. The log line of a failing `rows.Close` is left out.
-/

set_option autoImplicit false

namespace AiMidi.Ace

open AiMidi.Lib

/-! ### The tables

The statements are modelled by what they do to the two tables. A constraint that is violated makes
the statement fail and leaves the tables alone. -/

/-- The payload type of every row that the repository inserts. -/
def payloadTypeV1 : Bytes := bytes "application/vnd.aimidi.context.v1+protobuf"

/-- A row of `shared_context` behind its `id`. -/
structure SharedContext where
  name : Bytes
  payload : Bytes
  payloadType : Bytes
  createdAt : Bytes
  updatedAt : Bytes
  deriving DecidableEq, Repr

/-- A row of `context_locks`. -/
structure ContextLock where
  contextId : Bytes
  trackName : Bytes
  startBar : Int
  endBar : Int
  deriving DecidableEq, Repr

/-- The two tables, the newest row of `shared_context` first. -/
structure ContextDb where
  sharedContext : AList fun _ : Bytes => SharedContext
  contextLocks : List ContextLock
  /-- The foreign key of the locks. -/
  references : ∀ lock ∈ contextLocks, lock.contextId ∈ sharedContext

/-- The constraints that a statement can violate. -/
inductive Constraint where
  | payloadNotNull
  | idUnique
  deriving DecidableEq, Repr

/-- The order of `TEXT`: byte by byte, and a prefix first. -/
def binaryLe : Bytes → Bytes → Bool
  | [], _                => true
  | _ :: _, []           => false
  | x :: xs, y :: ys     => decide (x < y) || (x == y && binaryLe xs ys)

namespace ContextDb

/-- `INSERT INTO shared_context`. -/
def insertContext (db : ContextDb) (now id name : Bytes) (payload : Option Bytes) :
    Except Constraint (Nat × ContextDb) :=
  match payload with
  | none         => .error .payloadNotNull
  | some payload =>
      if id ∈ db.sharedContext then .error .idUnique
      else .ok (1,
        { sharedContext := db.sharedContext.insert id ⟨name, payload, payloadTypeV1, now, now⟩
          contextLocks := db.contextLocks
          references := fun lock hlock =>
            AList.mem_insert _ |>.mpr (.inr (db.references lock hlock)) })

/-- `UPDATE shared_context`. A row is looked at only when there is one. -/
def updateContext (db : ContextDb) (now id : Bytes) (payload : Option Bytes) :
    Except Constraint (Nat × ContextDb) :=
  match db.sharedContext.lookup id, payload with
  | none, _                => .ok (0, db)
  | some _, none           => .error .payloadNotNull
  | some row, some payload => .ok (1,
      { sharedContext :=
          db.sharedContext.replace id { row with payload := payload, updatedAt := now }
        contextLocks := db.contextLocks
        references := fun lock hlock => AList.mem_replace.mpr (db.references lock hlock) })

/-- `DELETE FROM shared_context`, which takes the locks of the row along. -/
def deleteContext (db : ContextDb) (id : Bytes) : Except Constraint (Nat × ContextDb) :=
  if id ∈ db.sharedContext then
    .ok (1,
      { sharedContext := db.sharedContext.erase id
        contextLocks := db.contextLocks.filter fun lock => lock.contextId ≠ id
        references := fun lock hlock => by
          obtain ⟨hmem, hne⟩ := List.mem_filter.mp hlock
          exact AList.mem_erase.mpr ⟨of_decide_eq_true hne, db.references lock hmem⟩ })
  else .ok (0, db)

/-- The rows in the order of the table. -/
def rows (db : ContextDb) : List (Bytes × SharedContext) :=
  db.sharedContext.entries.reverse.map fun entry => (entry.1, entry.2)

/-- `ORDER BY updated_at DESC LIMIT ?`. Rows of one time come in the order of the table. -/
def selectRecent (db : ContextDb) (limit : Nat) : List (Bytes × SharedContext) :=
  (db.rows.mergeSort fun a b => binaryLe b.2.updatedAt a.2.updatedAt).take limit

end ContextDb

/-! ### The repository

An operation executes one statement and looks at its result. Every call of the driver in it may
fail, with or without an effect. -/

/-- The calls of the driver in one operation that fail. -/
structure RepoFaults where
  /-- `ExecContext`, `QueryRowContext` or `QueryContext`. -/
  statement : Option Fault
  /-- `RowsAffected`, or `Scan`. -/
  result : Option Bytes
  /-- `rows.Err`. -/
  rowsErr : Option Bytes

/-- Nothing fails. -/
def RepoFaults.none : RepoFaults := ⟨.none, .none, .none⟩

/-- An error of the driver. -/
inductive DriverError where
  | constraint (c : Constraint)
  | fault (err : Bytes)
  deriving DecidableEq, Repr

/-- The operations that change a row. -/
inductive RepoVerb where
  | create
  | update
  | delete
  deriving DecidableEq, Repr

/-- The verb in the text of an error. -/
def RepoVerb.text : RepoVerb → Bytes
  | .create => bytes "create"
  | .update => bytes "update"
  | .delete => bytes "delete"

/-- The errors of the repository. -/
inductive RepoError where
  | statement (verb : RepoVerb) (id : Bytes) (err : DriverError)
  | rowsAffected (verb : RepoVerb) (id : Bytes) (err : Bytes)
  | noRowsAffected (id : Bytes)
  /-- Wraps `sql.ErrNoRows`. -/
  | noRows (verb : RepoVerb) (id : Bytes)
  | get (id : Bytes) (err : Bytes)
  /-- Wraps `sql.ErrNoRows`. -/
  | getNoRows (id : Bytes)
  | list (err : Bytes)
  | listScan (err : Bytes)
  | listRows (err : Bytes)
  deriving DecidableEq, Repr

/-- `sql.ErrNoRows`. -/
def errNoRows : Bytes := bytes "sql: no rows in result set"

/-- The text of an error below the repository: that of the driver, or the fault's own. -/
def DriverError.text (driver : Constraint → Bytes) : DriverError → Bytes
  | .constraint c => driver c
  | .fault err    => err

/-- The texts of the errors, with `%q` for the identifier. -/
def RepoError.text (quote : Bytes → Bytes) (driver : Constraint → Bytes) : RepoError → Bytes
  | .statement verb id err    =>
      verb.text ++ bytes " context " ++ quote id ++ bytes ": " ++ err.text driver
  | .rowsAffected verb id err =>
      verb.text ++ bytes " context " ++ quote id ++ bytes ": rows affected: " ++ err
  | .noRowsAffected id        => bytes "create context " ++ quote id ++ bytes ": no rows affected"
  | .noRows verb id           =>
      verb.text ++ bytes " context " ++ quote id ++ bytes ": " ++ errNoRows
  | .get id err               => bytes "context " ++ quote id ++ bytes ": " ++ err
  | .getNoRows id             => bytes "context " ++ quote id ++ bytes ": " ++ errNoRows
  | .list err                 => bytes "list contexts: " ++ err
  | .listScan err             => bytes "list contexts scan: " ++ err
  | .listRows err             => bytes "list contexts rows: " ++ err

/-- `errors.Is(err, sql.ErrNoRows)`. -/
def RepoError.isNoRows : RepoError → Bool
  | .noRows .. | .getNoRows _ => true
  | _                         => false

namespace ContextRepo

/-- What the three operations that change a row have in common: the statement is executed, and the
number of rows it affected is looked at. `missing` is the error when there were none. -/
def modify (verb : RepoVerb) (id : Bytes) (missing : RepoError) (faults : RepoFaults)
    (statement : Except Constraint (Nat × ContextDb)) (db : ContextDb) :
    Except RepoError Unit × ContextDb :=
  match statement, faults.statement with
  | .error c, .none             => (.error (.statement verb id (.constraint c)), db)
  | .error _, some fault        => (.error (.statement verb id (.fault fault.error)), db)
  | .ok (_, after), some fault  =>
      (.error (.statement verb id (.fault fault.error)), if fault.effective then after else db)
  | .ok (n, after), .none       =>
      match faults.result with
      | some err => (.error (.rowsAffected verb id err), after)
      | .none    => if n < 1 then (.error missing, after) else (.ok (), after)

/-- `Create`: one `INSERT`. That no row was affected is an error of its own. -/
def create (faults : RepoFaults) (now id name : Bytes) (payload : Option Bytes) (db : ContextDb) :
    Except RepoError Unit × ContextDb :=
  modify .create id (.noRowsAffected id) faults (db.insertContext now id name payload) db

/-- `UpdatePayload`: one `UPDATE` of the payload and the time. Without a row there is
`ErrNoRows`. -/
def updatePayload (faults : RepoFaults) (now id : Bytes) (payload : Option Bytes) (db : ContextDb) :
    Except RepoError Unit × ContextDb :=
  modify .update id (.noRows .update id) faults (db.updateContext now id payload) db

/-- `Delete`: one `DELETE`. Without a row there is `ErrNoRows`. -/
def delete (faults : RepoFaults) (id : Bytes) (db : ContextDb) :
    Except RepoError Unit × ContextDb :=
  modify .delete id (.noRows .delete id) faults (db.deleteContext id) db

/-- What `Get` returns of a row. -/
structure ContextData where
  name : Bytes
  payload : Bytes
  payloadType : Bytes
  updatedAt : Bytes
  deriving DecidableEq, Repr

/-- What `Get` returns of a row. -/
def ContextData.ofRow (row : SharedContext) : ContextData :=
  ⟨row.name, row.payload, row.payloadType, row.updatedAt⟩

/-- The error of a query shows when its row is scanned. -/
def get (faults : RepoFaults) (id : Bytes) (db : ContextDb) : Except RepoError ContextData :=
  match faults.statement, faults.result, db.sharedContext.lookup id with
  | some fault, _, _            => .error (.get id fault.error)
  | .none, some err, _          => .error (.get id err)
  | .none, .none, .none         => .error (.getNoRows id)
  | .none, .none, some row      => .ok (.ofRow row)

/-- What `List` returns of a row. -/
structure ContextSummary where
  id : Bytes
  name : Bytes
  updatedAt : Bytes
  deriving DecidableEq, Repr

/-- The columns that `List` selects. -/
def ContextSummary.ofRow (row : Bytes × SharedContext) : ContextSummary :=
  ⟨row.1, row.2.name, row.2.updatedAt⟩

/-- The limit that a statement is executed with. -/
def listLimit (limit : Int) : Nat := if limit ≤ 0 then 50 else limit.toNat

/-- A failing `Scan` shows only when there is a row. -/
def list (faults : RepoFaults) (limit : Int) (db : ContextDb) :
    Except RepoError (List ContextSummary) :=
  match faults.statement with
  | some fault => .error (.list fault.error)
  | .none      =>
      match faults.result, faults.rowsErr, db.selectRecent (listLimit limit) with
      | some err, _, _ :: _ => .error (.listScan err)
      | _, some err, _      => .error (.listRows err)
      | _, .none, rows      => .ok (rows.map .ofRow)

/-! ### Runs -/

/-- A call of the repository. -/
inductive RepoCall where
  | create (id name : Bytes) (payload : Option Bytes)
  | get (id : Bytes)
  | updatePayload (id : Bytes) (payload : Option Bytes)
  | delete (id : Bytes)
  | list (limit : Int)

/-- What a call returns. -/
inductive RepoReply where
  | modified (result : Except RepoError Unit)
  | got (result : Except RepoError ContextData)
  | listed (result : Except RepoError (List ContextSummary))

/-- A call at the time `now`. -/
def call (c : RepoCall) (now : Bytes) (faults : RepoFaults) (db : ContextDb) :
    RepoReply × ContextDb :=
  match c with
  | .create id name payload   =>
      let (result, db) := create faults now id name payload db
      (.modified result, db)
  | .get id                   => (.got (get faults id db), db)
  | .updatePayload id payload =>
      let (result, db) := updatePayload faults now id payload db
      (.modified result, db)
  | .delete id                =>
      let (result, db) := delete faults id db
      (.modified result, db)
  | .list limit               => (.listed (list faults limit db), db)

end ContextRepo

end AiMidi.Ace
