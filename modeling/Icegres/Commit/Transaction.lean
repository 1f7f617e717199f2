import Icegres.Commit.Table

/-!
# COMMIT of a transaction

The tables a transaction wrote are committed by one multi-table request when the catalog has the
endpoint, and otherwise one table after another; a strict server refuses instead. Other writers
may change any table before any request, so what the catalog answers to each load and each post is
given by the surroundings of the COMMIT; which posts it applied is part of the outcome.
-/

namespace Icegres.Commit

variable {Value : Type} [DecidableEq Value]

/-! ## Errors and answers -/

inductive Sqlstate where
  | constraintViolation
  | serializationFailure
  | featureNotSupported
  | statementCompletionUnknown
  | internalError
  deriving DecidableEq

inductive EngineError where
  | constraintViolation (message : String)
  | commitConflict (message : String)
  | other (message : String)

def EngineError.sqlstate : EngineError → Sqlstate
  | .constraintViolation _ => .constraintViolation
  | .commitConflict _ => .serializationFailure
  | .other _ => .internalError

def EngineError.message : EngineError → String
  | .constraintViolation message => message
  | .commitConflict message => message
  | .other message => message

inductive Answer where
  | commit
  | rollback
  | error (sqlstate : Sqlstate) (message : String)

/-- What the client is told, and the tables whose commit the catalog applied. -/
structure Outcome where
  answer : Answer
  applied : List TableIdent

/-! ## The surroundings of a COMMIT -/

/-- How a request to the catalog ends. -/
inductive Reply where
  /-- The answer arrives. -/
  | answered
  /-- The catalog has handled the request, and the client sees an error. -/
  | failsAfter (error : String)
  /-- The request is not handled, and the client sees an error. -/
  | failsBefore (error : String)

/-- The table as a COMMIT meets it: when it loads it, and when the post reaches the catalog. -/
structure Visit (Value : Type) where
  load : Except String Table
  backend : Backend Value
  timestampMs : Int
  atPost : Catalog.Metadata (List ManifestFile)
  reply : Reply

/-- A probe of the multi-table endpoint. -/
inductive Probe where
  | failed (error : String)
  | status (code : Nat)

structure Surroundings (Value : Type) where
  /-- What the server knows about the endpoint when the COMMIT starts. -/
  txnEndpoint : Option Bool
  probe : Probe
  /-- What another connection has settled about it before this one does. -/
  settled : Option Bool
  /-- The tables as the multi-table commit meets them, and how its post ends. -/
  multi : TableIdent → Visit Value
  multiReply : Reply
  /-- The tables as the commits of one table each meet them. -/
  single : TableIdent → Visit Value

/-! ## The session -/

structure TxnTable (Value : Type) where
  ident : TableIdent
  pinSnapshot : Option Int
  ops : List (TableOp Value)

structure TxnSession (Value : Type) where
  aborted : Bool
  tables : List (TxnTable Value)

/-- The tables that were written, in the order they are committed. -/
def TxnSession.touched (session : TxnSession Value) : List (TxnTable Value) :=
  (session.tables.filter fun table => !table.ops.isEmpty).insertionSort
    fun left right => left.ident.text ≤ right.ident.text

/-! ## One table -/

def showHead : Option Int → String
  | some snapshotId => toString snapshotId
  | none => "<none>"

/-- Why a preparation failed. -/
def Job.prepareError (job : Job Value) (branch message : String) : EngineError :=
  let violated := do
    job.guard
    let head ← branchHead job.metadata branch
    job.validate
    let staged ← job.gather head
    return (job.enforcePk staged).toOption.isNone
  if violated.toOption = some true then .constraintViolation message else .other message

namespace OverwriteEngine

variable (engine : OverwriteEngine)

/-- Load the table and prepare its commit, when its branch has not moved since it was pinned. -/
def stage (visit : Visit Value) (table : TxnTable Value) (advice : String) :
    Except EngineError (Option (PreparedCommit Value)) :=
  match visit.load with
  | .error error => .error (.other
      ("failed to load table " ++ table.ident.text ++ ": " ++ error))
  | .ok loaded =>
      match branchHead loaded.metadata engine.branch with
      | .error error => .error (.other error)
      | .ok freshHead =>
          if freshHead.map Snapshot.snapshotId ≠ table.pinSnapshot then
            .error (.commitConflict
              ("could not serialize access due to concurrent update: table " ++
                table.ident.text ++ " (branch " ++ engine.branch ++ ") moved from snapshot " ++
                showHead table.pinSnapshot ++ " (pinned at BEGIN) to " ++
                showHead (freshHead.map Snapshot.snapshotId) ++ "; " ++ advice))
          else
            match engine.pkColumns loaded with
            | .error error => .error (.other error)
            | .ok pk =>
                let job := loaded.job visit.backend table.ops pk
                match job.prepareCommit engine.branch none with
                | .error error => .error (job.prepareError engine.branch
                    ("transaction COMMIT against " ++ table.ident.text ++ " failed: " ++ error))
                | .ok prepared => .ok prepared

/-- The catalog accepts the commit at the table as it stands. -/
def accepts (visit : Visit Value) (commit : PreparedCommit Value) : Bool :=
  (commit.request visit.timestampMs).Accepted visit.atPost

def stageSingle (around : Surroundings Value) (table : TxnTable Value) :
    Except EngineError (Option (PreparedCommit Value)) :=
  engine.stage (around.single table.ident) table "retry the transaction"

/-- The commit of one table, and whether the catalog applied it. -/
def commitPinned (around : Surroundings Value) (table : TxnTable Value) :
    Except EngineError (Option Int) × Bool :=
  match engine.stageSingle around table with
  | .error error => (.error error, false)
  | .ok none => (.ok none, false)
  | .ok (some commit) =>
      let visit := around.single table.ident
      match visit.reply with
      | .failsBefore error => (.error (.other error), false)
      | .failsAfter error => (.error (.other error), accepts visit commit)
      | .answered =>
          if accepts visit commit then (.ok (some commit.snapshot.snapshotId), true)
          else
            (.error (.commitConflict
              ("could not serialize access due to concurrent update: catalog rejected the " ++
                "commit for " ++ table.ident.text ++ " (409); retry the transaction")), false)

/-! ## Several tables at once -/

inductive MultiTableCommit where
  | committed
  | unsupported
  deriving DecidableEq

/-- The capability a status of the data-free probe shows, if any. -/
def txnEndpointCapability (code : Nat) : Option Bool :=
  if (200 ≤ code ∧ code < 300) ∨ code = 409 then some true
  else if code = 400 ∨ code = 422 then some true
  else if code = 404 ∨ code = 405 ∨ code = 501 then some false
  else none

/-- Whether the catalog has the endpoint, asking it when that is not known. -/
def probeTxnEndpoint (around : Surroundings Value) : Except EngineError Bool :=
  match around.txnEndpoint with
  | some known => .ok known
  | none =>
      match around.probe with
      | .failed error => .error (.other
          ("multi-table transaction capability probe POST failed: " ++ error))
      | .status code =>
          match txnEndpointCapability code with
          | some supported => .ok supported
          | none => .error (.other
              ("could not determine whether the catalog implements the multi-table " ++
                "transaction endpoint: the data-free capability probe answered " ++
                toString code))

/-- The same question when the post is made: the first settled answer is kept. -/
def knownTxnEndpoint (around : Surroundings Value) (supported : Bool) : Bool :=
  around.txnEndpoint.getD (around.settled.getD supported)

/-- Stage every table before anything is posted. -/
def stageMulti (around : Surroundings Value) (tables : List (TxnTable Value)) :
    Except EngineError (List (TxnTable Value × Option (PreparedCommit Value))) :=
  tables.mapM fun table => do
    let prepared ← engine.stage (around.multi table.ident) table
      "nothing was applied — retry the transaction"
    return (table, prepared)

/-- The tables that have something to commit. -/
def liveOf (staged : List (TxnTable Value × Option (PreparedCommit Value))) :
    List (TableIdent × PreparedCommit Value) :=
  staged.filterMap fun (table, prepared) => prepared.map fun commit => (table.ident, commit)

/-- The catalog accepts every change of the multi-table commit. -/
def acceptsAll (around : Surroundings Value) (live : List (TableIdent × PreparedCommit Value)) :
    Bool :=
  live.all fun (ident, commit) => accepts (around.multi ident) commit

def commitPinnedMulti (around : Surroundings Value) (tables : List (TxnTable Value)) :
    Except EngineError MultiTableCommit × List TableIdent :=
  match probeTxnEndpoint around with
  | .error error => (.error error, [])
  | .ok false => (.ok .unsupported, [])
  | .ok true =>
      match engine.stageMulti around tables with
      | .error error => (.error error, [])
      | .ok staged =>
          let live := liveOf staged
          if live.isEmpty then (.ok .committed, [])
          else if !knownTxnEndpoint around true then (.ok .unsupported, [])
          else
            let applied := if acceptsAll around live then live.map Prod.fst else []
            match around.multiReply with
            | .failsBefore error => (.error (.other error), [])
            | .failsAfter error => (.error (.other error), applied)
            | .answered =>
                if acceptsAll around live then (.ok .committed, applied)
                else
                  (.error (.commitConflict
                    ("could not serialize access due to concurrent update: catalog rejected " ++
                      "the multi-table transaction commit (409); nothing was applied — retry " ++
                      "the transaction")), [])

/-! ## COMMIT -/

def rolledBack (error : EngineError) : Answer :=
  .error error.sqlstate
    ("COMMIT failed, transaction rolled back (no changes were applied): " ++ error.message)

/-- One table after another; `committed` are those that answered without an error. -/
def commitTables (around : Surroundings Value) (committed applied : List TableIdent) :
    List (TxnTable Value) → Outcome
  | [] => ⟨.commit, applied⟩
  | table :: remaining =>
      let (result, landed) := engine.commitPinned around table
      let appliedNow := if landed then applied ++ [table.ident] else applied
      match result with
      | .ok _ => commitTables around (committed ++ [table.ident]) appliedNow remaining
      | .error error =>
          if committed.isEmpty then ⟨rolledBack error, appliedNow⟩
          else
            ⟨.error .statementCompletionUnknown
              ("COMMIT PARTIALLY APPLIED: table(s) [" ++
                ", ".intercalate (committed.map TableIdent.text) ++
                "] committed before table " ++ table.ident.text ++ " failed: " ++
                error.message ++ "; table(s) [" ++
                ", ".intercalate (remaining.map fun table => table.ident.text) ++
                "] were NOT committed. Iceberg REST commits are per-table — multi-table " ++
                "transactions are best-effort ordered (see icegres docs). Do NOT blindly retry " ++
                "this COMMIT; reconcile per-table state, or set ICEGRES_TXN_STRICT=true to " ++
                "refuse non-atomic multi-table commits up front."), appliedNow⟩

def strictRefusal (touched : List (TxnTable Value)) : Answer :=
  .error .featureNotSupported
    ("strict transaction mode (ICEGRES_TXN_STRICT): COMMIT touches " ++
      toString touched.length ++ " tables [" ++
      ", ".intercalate (touched.map fun table => table.ident.text) ++
      "] but this catalog does not implement the multi-table transaction endpoint, so the " ++
      "COMMIT cannot be applied atomically across tables; transaction rolled back (nothing " ++
      "applied). Commit one table per transaction, use a catalog with multi-table transactions " ++
      "(e.g. Lakekeeper), or unset ICEGRES_TXN_STRICT to allow best-effort ordered multi-table " ++
      "commits.")

def commitTouched (strict : Bool) (around : Surroundings Value)
    (touched : List (TxnTable Value)) : Outcome :=
  if 1 < touched.length then
    match engine.commitPinnedMulti around touched with
    | (.ok .committed, applied) => ⟨.commit, applied⟩
    | (.error error, applied) => ⟨rolledBack error, applied⟩
    | (.ok .unsupported, _) =>
        if strict then ⟨strictRefusal touched, []⟩
        else engine.commitTables around [] [] touched
  else
    engine.commitTables around [] [] touched

/-- COMMIT; without a transaction there is nothing to apply. -/
def commit (strict : Bool) (around : Surroundings Value) (session : Option (TxnSession Value)) :
    Outcome :=
  match session with
  | none => ⟨.commit, []⟩
  | some session =>
      if session.aborted then ⟨.rollback, []⟩
      else engine.commitTouched strict around session.touched

end OverwriteEngine

end Icegres.Commit
