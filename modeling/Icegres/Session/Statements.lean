import Icegres.Commit.Transaction
import Icegres.Commit.Exact

/-!
# The statements of an open transaction

A transaction pins a table at its first touch. An INSERT buffers its rows, cast to the pinned
schema. The first UPDATE or DELETE materializes the effective rows, and from then on every statement
is applied to them and what it leaves is cast again. The statements themselves are buffered for
COMMIT.
-/

namespace Icegres.Session

open Icegres.Commit

variable {Value : Type}

/-- What the statements call: what the commit calls too, and the join that counts the inserted rows
whose key is taken. -/
structure Environment (Value : Type) where
  backend : Backend Value
  countCollisions : List String → List (Row Value) → List (Row Value) → Except String Nat

/-- One pinned table of the transaction. `answers` records what the client was told. -/
structure SessionTable (Value : Type) where
  pinned : Table
  ops : List (TableOp Value)
  materialized : Option (List (Row Value))
  answers : List Nat

/-- A statement, with the batches the source of an INSERT is evaluated to. -/
inductive Statement (Value : Type) where
  | insert (source : List (List (Row Value)))
  | dml (stmt : DmlStatement Value)

/-- How a statement ends that does not succeed. -/
inductive Stop where
  | panic (text : String)
  | error (text : String)
  deriving DecidableEq

/-- An error is passed on. -/
def raise {α : Type} : Except String α → Except Stop α :=
  Except.mapError Stop.error

theorem raise_eq_ok {α : Type} {ran : Except String α} {value : α} (raised : raise ran = .ok value) :
    ran = .ok value := by
  cases ran with
  | error text => cases raised
  | ok own =>
      cases raised
      rfl

/-- The key columns of the batches that have rows, found in the first of them. -/
def projectPk (columns : List String) (batches : List (List (Row Value))) (pkCols : List String) :
    Except String (List (List (Row Value))) :=
  match batches.filter fun batch => 0 < batch.length with
  | [] => .ok []
  | first :: rest => (first :: rest).mapM fun batch => Dml.projectColumns columns batch pkCols

namespace SessionTable

def pin (pinned : Table) : SessionTable Value :=
  ⟨pinned, [], none, []⟩

variable (table : SessionTable Value)

def columns : List String :=
  table.pinned.fields.map Field.name

def appendBatches : List (Row Value) :=
  table.ops.flatMap TableOp.batch

/-- The rows of the pinned snapshot. -/
def scanPinned (engine : OverwriteEngine) (backend : Backend Value) :
    Except String (List (Row Value)) := do
  let head ← branchHead table.pinned.metadata engine.branch
  let files ← (liveFiles (Job.headManifests head)).mapM backend.readParquetFile
  return files.flatten

/-- The rows a read of the transaction sees. -/
def effectiveRows (engine : OverwriteEngine) (backend : Backend Value) :
    Except String (List (Row Value)) :=
  match table.materialized with
  | some rows => .ok rows
  | none => do
      let rows ← table.scanPinned engine backend
      return rows ++ table.appendBatches

/-- The effective rows are kept from the first UPDATE or DELETE on. -/
def materialize (engine : OverwriteEngine) (backend : Backend Value) :
    Except String (SessionTable Value × List (Row Value)) :=
  match table.materialized with
  | some rows => .ok (table, rows)
  | none => do
      let scanned ← table.scanPinned engine backend
      let aligned ← alignBatch backend table.pinned.fields scanned
      let rows := aligned ++ table.appendBatches
      return ({ table with materialized := some rows }, rows)

section Statements

variable [DecidableEq Value] (engine : OverwriteEngine) (environment : Environment Value)

/-- The inserted keys are not NULL, apart from each other and from the keys of the table. The
schema of the new keys is that of their first batch. -/
def checkInsertPk (newRows : List (List (Row Value))) (pkCols : List String) : Except Stop Unit := do
  let newKeys ← raise (projectPk table.columns newRows pkCols)
  raise (checkPk environment.backend pkCols newKeys.flatten table.pinned.ident.name)
  match newKeys with
  | [] => .error (.panic "index out of bounds: the len is 0 but the index is 0")
  | _ :: _ => do
      let rows ← raise (table.effectiveRows engine environment.backend)
      let collisions ← raise (environment.countCollisions pkCols newKeys.flatten rows)
      if 0 < collisions then
        .error (.error ("duplicate key value violates unique constraint \"" ++
          table.pinned.ident.name ++ "_pkey\": " ++ toString collisions ++
          " inserted row(s) collide with existing key(s) (" ++ ", ".intercalate pkCols ++ ")"))
      else .ok ()

/-- An UPDATE of a key column leaves the key unique. -/
def checkUpdatePk (stmt : DmlStatement Value) (aligned : List (Row Value)) (pkCols : List String) :
    Except Stop Unit :=
  match stmt.kind with
  | .delete => .ok ()
  | .update assignments =>
      if (assignments.any fun assignment => assignment.1 ∈ pkCols) ∧ aligned ≠ [] then raise do
        let keys ← Dml.projectColumns table.columns aligned pkCols
        checkPk environment.backend pkCols keys table.pinned.ident.name
      else .ok ()

/-- A check that is made when the key is enforced and declared. -/
def whenKeyed (check : List String → Except Stop Unit) : Except Stop Unit := do
  match ← raise (engine.pkColumns table.pinned) with
  | some pkCols => check pkCols
  | none => .ok ()

def txnInsert (source : List (List (Row Value))) : Except Stop (SessionTable Value) := do
  let aligned ← raise (source.mapM (alignBatch environment.backend table.pinned.fields))
  table.whenKeyed engine (table.checkInsertPk engine environment aligned)
  return { table with
    ops := table.ops ++ [.append aligned.flatten]
    materialized := table.materialized.map (· ++ aligned.flatten)
    answers := table.answers ++ [aligned.flatten.length] }

def txnDml (stmt : DmlStatement Value) : Except Stop (SessionTable Value) := do
  let (kept, rows) ← raise (table.materialize engine environment.backend)
  let (matched, out) ←
    raise (Dml.applyDmlToBatches environment.backend.engine stmt table.columns rows)
  let aligned ← raise (alignBatch environment.backend table.pinned.fields out)
  table.whenKeyed engine (table.checkUpdatePk environment stmt aligned)
  return { kept with
    ops := table.ops ++ [.dml stmt]
    materialized := some aligned
    answers := table.answers ++ [matched] }

def execute : Statement Value → Except Stop (SessionTable Value)
  | .insert source => table.txnInsert engine environment source
  | .dml stmt => table.txnDml engine environment stmt

/-- A transaction whose statements all succeed. A statement that fails aborts it. -/
def executeAll (statements : List (Statement Value)) : Except Stop (SessionTable Value) :=
  statements.foldlM (fun table statement => table.execute engine environment statement) table

end Statements

/-- What COMMIT is handed. -/
def txnTable (engine : OverwriteEngine) : Except String (TxnTable Value) := do
  let head ← branchHead table.pinned.metadata engine.branch
  return ⟨table.pinned.ident, head.map Snapshot.snapshotId, table.ops⟩

end SessionTable

/-- The rows of the table after COMMIT. -/
def rowsAfter (backend : Backend Value) (old : List ManifestFile) :
    Option (PreparedCommit Value) → Multiset (Row Value)
  | none => rowsIn backend.readParquetFile (liveFiles old)
  | some commit => rowsIn (commit.read backend) (liveFiles commit.snapshot.manifests)

end Icegres.Session
