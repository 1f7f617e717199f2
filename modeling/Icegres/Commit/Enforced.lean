import Icegres.Commit.Keys
import Icegres.Commit.Table
import Icegres.Transition

/-!
# Writers that enforce the key

Any number of engines load tables, prepare commits on what they loaded, and post them, with the
steps of the others in between. The catalog applies a post when every commit of it is accepted by
its table as it stands. A conflict is retried on a fresh load by the statements that commit alone.
-/

namespace Icegres.Commit.Enforced

variable {Value : Type} [DecidableEq Value]

/-! ## Writes -/

/-- What one write does to one table. -/
structure Part (Value : Type) where
  ident : TableIdent
  /-- The head the operations were computed at, where that is asserted. -/
  expectedHead : Option (Option Int)
  ops : List (TableOp Value)

inductive Write (Value : Type) where
  | execute (ident : TableIdent) (stmt : DmlStatement Value)
  | insertEnforced (ident : TableIdent) (batches : List (Row Value))
  | commitPinned (ident : TableIdent) (expectedHead : Option Int) (ops : List (TableOp Value))
  | commitPinnedMulti (tables : List (TableIdent × Option Int × List (TableOp Value)))

def Write.parts : Write Value → List (Part Value)
  | .execute ident stmt => [⟨ident, none, [.dml stmt]⟩]
  | .insertEnforced ident batches => [⟨ident, none, [.append batches]⟩]
  | .commitPinned ident expectedHead ops => [⟨ident, some expectedHead, ops⟩]
  | .commitPinnedMulti tables =>
      tables.map fun (ident, expectedHead, ops) => ⟨ident, some expectedHead, ops⟩

def maxCommitAttempts : Nat :=
  3

/-- Only a statement that commits alone is retried. -/
def Write.attempts : Write Value → Nat
  | .execute _ _ => maxCommitAttempts
  | .insertEnforced _ _ => maxCommitAttempts
  | .commitPinned _ _ _ => 1
  | .commitPinnedMulti _ => 1

def isBuffered : TableOp Value → Bool
  | .appendFiles _ => false
  | _ => true

/-- A transaction buffers appends and statements. -/
def Write.isBuffered (write : Write Value) : Bool :=
  write.parts.all fun part => part.ops.all Enforced.isBuffered

/-! ## The system -/

/-- What rows are read, cast and written with. A writer leaves its id in the paths of its files. -/
structure Environment (Value : Type) where
  engine : Engine Value
  cast : Field → Value → Except String Value
  isNull : Value → Bool
  display : Value → String
  closeWriter : String → List (Row Value) → Except String (List (DataFile × List (Row Value)))
  writerOf : String → String

/-- A writer keeps every row, in files of its own. -/
structure Environment.Writes (env : Environment Value) : Prop where
  rows : ∀ writer rows files, env.closeWriter writer rows = .ok files →
    (files.flatMap Prod.snd).Perm rows
  distinct : ∀ writer rows files, env.closeWriter writer rows = .ok files →
    (files.map fun file => file.1.filePath).Nodup
  named : ∀ writer rows files, env.closeWriter writer rows = .ok files → ∀ file ∈ files,
    env.writerOf file.1.filePath = writer

/-- A write of an engine that is under way. -/
structure Writing (Value : Type) where
  engine : OverwriteEngine
  write : Write Value
  attempt : Nat
  prepared : List (TableIdent × PreparedCommit Value)
  loaded : Option Table
  rest : List (Part Value)

def Writing.start (engine : OverwriteEngine) (write : Write Value) (attempt : Nat) :
    Writing Value :=
  ⟨engine, write, attempt, [], none, write.parts⟩

structure State (Value : Type) where
  tables : TableIdent → Table
  read : DataFile → Except String (List (Row Value))
  /-- The ids of the writers so far. -/
  writers : List String
  writings : Nat → Option (Writing Value)

namespace State

variable (state : State Value)

def set (client : Nat) (writing : Option (Writing Value)) : State Value :=
  { state with writings := Function.update state.writings client writing }

def backend (env : Environment Value) (writer : String) (snapshotId : Int) : Backend Value where
  engine := env.engine
  readParquetFile := state.read
  closeWriter := env.closeWriter writer
  cast := env.cast
  isNull := env.isNull
  display := env.display
  snapshotId

end State

inductive Action (Value : Type) where
  | start (client : Nat) (engine : OverwriteEngine) (write : Write Value)
  | load (client : Nat)
  | prepare (client : Nat) (writer : String) (snapshotId : Int)
  /-- The post reaches the catalog. -/
  | post (client : Nat) (timestampMs : Int)
  | abandon (client : Nat)

/-- The branch is where the operations were computed, if that is asserted. -/
def Part.isAt (part : Part Value) (branch : String) (table : Table) : Bool :=
  match part.expectedHead, branchHead table.metadata branch with
  | none, _ => true
  | some expected, .ok head => head.map Snapshot.snapshotId = expected
  | some _, .error _ => false

/-- One commit of a post. -/
def applyCommit (timestampMs : Int) (tables : TableIdent → Table)
    (change : TableIdent × PreparedCommit Value) : TableIdent → Table :=
  Function.update tables change.1
    { tables change.1 with
      catalog := (change.2.request timestampMs).apply (tables change.1).catalog
      nextSequenceNumber := change.2.snapshot.sequenceNumber + 1 }

/-- The catalog accepts every commit of the post. -/
def Writing.accepted (writing : Writing Value) (timestampMs : Int)
    (tables : TableIdent → Table) : Bool :=
  writing.prepared.all fun change =>
    (change.2.request timestampMs).Accepted (tables change.1).catalog

/-- The preparation of one table, on what was loaded of it. -/
def prepareNext (env : Environment Value) (state : State Value) (client : Nat) (writer : String)
    (snapshotId : Int) (writing : Writing Value) (table : Table) (part : Part Value)
    (rest : List (Part Value)) : State Value :=
  match writing.engine.pkColumns table with
  | .error _ => state.set client none
  | .ok pk =>
      match (table.job (state.backend env writer snapshotId) part.ops pk).prepareCommit
          writing.engine.branch none with
      | .error _ => state.set client none
      | .ok none => state.set client (some { writing with loaded := none, rest })
      | .ok (some commit) =>
          { state.set client (some { writing with
              prepared := writing.prepared ++ [(part.ident, commit)], loaded := none, rest }) with
            read := readAfter state.read commit.writtenFiles
            writers := writer :: state.writers }

/-- The post at the catalog. -/
def land (state : State Value) (client : Nat) (timestampMs : Int) (writing : Writing Value) :
    State Value :=
  if writing.accepted timestampMs state.tables then
    { state.set client none with
      tables := writing.prepared.foldl (applyCommit timestampMs) state.tables }
  else if writing.attempt < writing.write.attempts then
    state.set client (some (.start writing.engine writing.write (writing.attempt + 1)))
  else state.set client none

def step (env : Environment Value) (state : State Value) : Action Value → Option (State Value)
  | .start client engine write =>
      match state.writings client with
      | none =>
          if engine.enforcePk && write.isBuffered then
            some (state.set client (some (.start engine write 1)))
          else none
      | some _ => none
  | .load client =>
      match state.writings client with
      | some ⟨engine, write, attempt, prepared, none, part :: rest⟩ =>
          let table := state.tables part.ident
          if part.isAt engine.branch table then
            some (state.set client
              (some ⟨engine, write, attempt, prepared, some table, part :: rest⟩))
          else some (state.set client none)
      | _ => none
  | .prepare client writer snapshotId =>
      match state.writings client with
      | some ⟨engine, write, attempt, prepared, some table, part :: rest⟩ =>
          if writer ∈ state.writers then none
          else
            some (prepareNext env state client writer snapshotId
              ⟨engine, write, attempt, prepared, some table, part :: rest⟩ table part rest)
      | _ => none
  | .post client timestampMs =>
      match state.writings client with
      | some ⟨engine, write, attempt, prepared, none, []⟩ =>
          some (land state client timestampMs ⟨engine, write, attempt, prepared, none, []⟩)
      | _ => none
  | .abandon client => some (state.set client none)

/-! ## Keys that hold -/

/-- The declared key holds of the rows of a manifest list. -/
def KeyHolds (env : Environment Value) (read : DataFile → Except String (List (Row Value)))
    (table : Table) (manifests : List ManifestFile) : Prop :=
  ∀ cols, pkColumnsOf table = .ok (some cols) →
    KeysHold env.isNull
      ((rowsIn read (liveFiles manifests)).map (tableKey (table.fields.map Field.name) cols))

/-- The check finds the key columns, and casting the rows of rewritten files leaves their keys. -/
def KeepsKeys (env : Environment Value) (state : State Value) : Action Value → Prop
  | .prepare client writer snapshotId =>
      ∀ writing table part cols head, state.writings client = some writing →
        writing.loaded = some table → writing.rest.head? = some part →
        pkColumnsOf table = .ok (some cols) →
        branchHead table.metadata writing.engine.branch = .ok head →
        FindsColumns (table.fields.map Field.name) cols ∧
          (table.job (state.backend env writer snapshotId) part.ops
            (some cols)).RewritesKeepKeys cols (Job.headManifests head)
  | _ => True

end Icegres.Commit.Enforced
