import Icegres.Catalog.Refs
import Icegres.Commit.Prepare
import Icegres.Whitespace

/-!
# A table of the catalog and the commits of an engine to it

A loaded table is its metadata as the catalog has it. A prepared commit is posted as the addition
of its snapshot to a branch, with the table's identity and the head it was prepared on asserted.
-/

namespace Icegres.Commit

variable {Value : Type}

structure TableIdent where
  namespaces : List String
  name : String
  deriving DecidableEq

def TableIdent.text (ident : TableIdent) : String :=
  ".".intercalate ident.namespaces ++ "." ++ ident.name

/-- A table as the catalog has it. -/
structure Table where
  ident : TableIdent
  formatVersion : FormatVersion
  unpartitioned : Bool
  fields : List Field
  nextSequenceNumber : Int
  properties : List (String × String)
  catalog : Catalog.Metadata (List ManifestFile)

/-- A snapshot with its manifest list read. -/
def snapshotOf (snapshot : Catalog.Snapshot (List ManifestFile)) : Snapshot :=
  ⟨snapshot.snapshotId, snapshot.content⟩

/-- The metadata a commit is prepared on. -/
def Table.metadata (table : Table) : TableMetadata where
  name := table.ident.text
  uuid := table.catalog.uuid
  formatVersion := table.formatVersion
  unpartitioned := table.unpartitioned
  fields := table.fields
  nextSequenceNumber := table.nextSequenceNumber
  currentSnapshot := (table.catalog.snapshotForRef mainBranch).map snapshotOf
  refs := table.catalog.refs.filterMap fun ref =>
    (table.catalog.snapshotById ref.2.snapshotId).map fun snapshot =>
      (ref.1, snapshotOf snapshot)

/-! ## The declared key -/

def pkProperty : String :=
  "icegres.primary-key"

/-- The columns a property text lists. -/
def splitColumns (raw : String) : List String :=
  ((raw.toList.splitOn ',').map trim).filterMap fun column =>
    if column = [] then none else some (String.ofList column)

/-- The declared key; a column the table does not have is an error. -/
def pkColumnsOf (table : Table) : Except String (Option (List String)) :=
  match table.properties.lookup pkProperty with
  | none => .ok none
  | some raw =>
      let cols := splitColumns raw
      if cols = [] then .ok none
      else
        match cols.find? fun col => col ∉ table.fields.map Field.name with
        | some col => .error ("table property " ++ pkProperty ++ "=" ++ raw.quote ++
            " names column " ++ col.quote ++ " which does not exist in table " ++
            table.ident.text)
        | none => .ok (some cols)

/-! ## The engine -/

/-- How a server commits: whether the key is enforced, and on which branch. -/
structure OverwriteEngine where
  enforcePk : Bool
  branch : String

def OverwriteEngine.pkColumns (engine : OverwriteEngine) (table : Table) :
    Except String (Option (List String)) :=
  if engine.enforcePk then pkColumnsOf table else .ok none

/-- The work of one commit to a loaded table. -/
def Table.job (table : Table) (backend : Backend Value) (ops : List (TableOp Value))
    (pk : Option (List String)) : Job Value where
  backend
  metadata := table.metadata
  ops
  pk

/-- The commit as it is posted. -/
def PreparedCommit.request (commit : PreparedCommit Value) (timestampMs : Int) :
    Catalog.Request (List ManifestFile) :=
  Catalog.snapshotRequest commit.requiredUuid commit.branch commit.requiredHead
    { snapshotId := commit.snapshot.snapshotId
      parentSnapshotId := commit.snapshot.parentSnapshotId
      timestampMs
      content := commit.snapshot.manifests }

end Icegres.Commit
