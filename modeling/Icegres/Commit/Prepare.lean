import Icegres.Commit.Dml

/-!
# Preparing one commit

The operations are folded over the data files of the branch head and over the appended rows; what
changes is written to new files, and one snapshot is staged whose manifest list carries the
untouched manifests, one rewritten manifest and one of added files.
-/

namespace Icegres.Commit

/-! ## Table metadata -/

inductive EntryStatus where
  | existing
  | added
  | deleted
  deriving DecidableEq

/-- One file in a manifest. -/
structure ManifestEntry where
  status : EntryStatus
  snapshotId : Option Int
  sequenceNumber : Option Int
  fileSequenceNumber : Option Int
  dataFile : DataFile
  deriving DecidableEq

def ManifestEntry.isAlive (entry : ManifestEntry) : Bool :=
  entry.status ≠ .deleted

inductive ManifestContent where
  | data
  | deletes
  deriving DecidableEq

/-- A manifest as the manifest list names it, with the entries it holds. -/
structure ManifestFile where
  content : ManifestContent
  addedSnapshotId : Int
  sequenceNumber : Int
  entries : List ManifestEntry
  deriving DecidableEq

structure Snapshot where
  snapshotId : Int
  manifests : List ManifestFile
  deriving DecidableEq

inductive FormatVersion where
  | v1
  | v2
  | v3
  deriving DecidableEq

def FormatVersion.text : FormatVersion → String
  | .v1 => "V1"
  | .v2 => "V2"
  | .v3 => "V3"

structure Field where
  name : String
  required : Bool

structure TableMetadata where
  name : String
  uuid : String
  formatVersion : FormatVersion
  unpartitioned : Bool
  fields : List Field
  nextSequenceNumber : Int
  currentSnapshot : Option Snapshot
  refs : List (String × Snapshot)

def TableMetadata.columns (metadata : TableMetadata) : List String :=
  metadata.fields.map Field.name

def mainBranch : String :=
  "main"

/-- `main` falls back to the current snapshot; any other branch must exist. -/
def branchHead (metadata : TableMetadata) (branch : String) : Except String (Option Snapshot) :=
  if branch = mainBranch then
    .ok metadata.currentSnapshot
  else
    match metadata.refs.lookup branch with
    | some snapshot => .ok (some snapshot)
    | none => .error ("cannot commit to table " ++ metadata.name ++ ": branch \"" ++ branch ++
        "\" does not exist on this table — create it first with `icegres branch create <table> " ++
        branch ++ "`")

/-! ## Files and casts -/

/-- What the commit calls: the query engine, the file formats and the array casts. -/
structure Backend (Value : Type) where
  engine : Engine Value
  /-- The rows of a data file. -/
  readParquetFile : DataFile → Except String (List (Row Value))
  /-- The data files the writer leaves for the rows written to it, with the rows of each. -/
  closeWriter : List (Row Value) → Except String (List (DataFile × List (Row Value)))
  /-- A value cast to the type of a column. -/
  cast : Field → Value → Except String Value
  isNull : Value → Bool
  display : Value → String
  /-- The generated id of the snapshot. -/
  snapshotId : Int

variable {Value : Type}

/-- One row cast to the table's fields. -/
def alignRow (backend : Backend Value) (fields : List Field) (row : Row Value) :
    Except String (Row Value) :=
  if row.length ≠ fields.length then
    .error ("row batch has " ++ toString row.length ++ " columns, table has " ++
      toString fields.length)
  else
    (fields.zip row).mapM fun (field, value) => do
      let cast ← backend.cast field value
      if field.required && backend.isNull cast then
        .error "rows do not fit the table schema (nullability/type)"
      else
        return cast

def alignBatch (backend : Backend Value) (fields : List Field) (rows : List (Row Value)) :
    Except String (List (Row Value)) :=
  rows.mapM (alignRow backend fields)

def checkPk [DecidableEq Value] (backend : Backend Value) :
    List String → List (Row Value) → String → Except String Unit :=
  Dml.checkPk backend.isNull backend.display

/-! ## The scan of the existing files -/

/-- File-level accounting. -/
structure FileStats where
  files : Nat
  records : Nat
  bytes : Nat

def FileStats.add (stats : FileStats) (file : DataFile) : FileStats where
  files := stats.files + 1
  records := stats.records + file.recordCount
  bytes := stats.bytes + file.fileSizeInBytes

/-- A kept file of a manifest that is rewritten. -/
structure ExistingFile where
  dataFile : DataFile
  snapshotId : Int
  dataSequence : Int
  fileSequence : Option Int

/-- A file this snapshot removes. -/
structure DeletedFile where
  dataFile : DataFile
  dataSequence : Int
  fileSequence : Option Int

/-- An entry's sequence number and snapshot fall back to the manifest's. -/
def ManifestFile.existingFile (manifest : ManifestFile) (entry : ManifestEntry) :
    ExistingFile where
  dataFile := entry.dataFile
  snapshotId := entry.snapshotId.getD manifest.addedSnapshotId
  dataSequence := entry.sequenceNumber.getD manifest.sequenceNumber
  fileSequence := entry.fileSequenceNumber

def ManifestFile.deletedFile (manifest : ManifestFile) (entry : ManifestEntry) :
    DeletedFile where
  dataFile := entry.dataFile
  dataSequence := entry.sequenceNumber.getD manifest.sequenceNumber
  fileSequence := entry.fileSequenceNumber

/-- What the commit has gathered. -/
structure Staged (Value : Type) where
  /-- Manifests whose files are all kept. -/
  carried : List ManifestFile
  existing : List ExistingFile
  deleted : List DeletedFile
  removed : FileStats
  kept : FileStats
  anyFileChanged : Bool
  /-- The key columns of every final row. -/
  pkRows : List (Row Value)
  /-- The rows handed to the data writer. -/
  written : List (Row Value)
  appendedRows : Nat
  rowsByOp : List Nat
  /-- Data files that were written before. -/
  prewritten : List DataFile

/-- What a commit works on. -/
structure Job (Value : Type) where
  backend : Backend Value
  metadata : TableMetadata
  ops : List (TableOp Value)
  pk : Option (List String)

namespace Job

variable (job : Job Value)

def hasDml : Bool :=
  job.ops.any fun
    | .dml _ => true
    | _ => false

/-- Existing files are scanned when DML can touch them, or to assemble the final key set. -/
def needFileScan : Bool :=
  job.hasDml || job.pk.isSome

/-- The fate of a data file, and the counters of the statements folded over it. -/
def fateOf (rows : List (Row Value)) (rowsByOp : List Nat) :
    Except String (FileFate Value × List Nat) :=
  if job.hasDml then do
    let folded ← foldDmlOps job.backend.engine job.metadata.columns job.ops 0 rows rowsByOp
    if !folded.changed then
      return (.keep, folded.rowsByOp)
    else if folded.rows.length = 0 then
      return (.remove rows.length, folded.rowsByOp)
    else
      return (.rewrite (rows.length - folded.rows.length) folded.rows, folded.rowsByOp)
  else
    .ok (.keep, rowsByOp)

/-- The key rows that a set of final rows feeds the check. -/
def keyRows (rows : List (Row Value)) : Except String (List (Row Value)) :=
  Dml.keyRows job.pk job.metadata.columns rows

/-- The key rows of a file's final rows. -/
def keyRowsOf (rows : List (Row Value)) : FileFate Value → Except String (List (Row Value))
  | .keep => job.keyRows rows
  | .remove _ => .ok []
  | .rewrite _ out => job.keyRows out

/-- The scan of one manifest: whether it is rewritten, and the fates of its live files. -/
structure ManifestScan (Value : Type) where
  rewriteManifest : Bool
  fates : List (ManifestEntry × FileFate Value)
  staged : Staged Value

/-- One entry of a manifest. Entries that an earlier snapshot deleted are dropped. -/
def scanEntry (scan : ManifestScan Value) (entry : ManifestEntry) :
    Except String (ManifestScan Value) :=
  if !entry.isAlive then
    .ok { scan with rewriteManifest := true }
  else do
    let rows ← job.backend.readParquetFile entry.dataFile
    let (fate, rowsByOp) ← job.fateOf rows scan.staged.rowsByOp
    let keys ← job.keyRowsOf rows fate
    let staged :=
      { scan.staged with rowsByOp, pkRows := scan.staged.pkRows ++ keys }
    let fates := scan.fates ++ [(entry, fate)]
    match fate with
    | .keep =>
        return { scan with
          fates, staged := { staged with kept := staged.kept.add entry.dataFile } }
    | _ =>
        return { rewriteManifest := true, fates, staged := { staged with anyFileChanged := true } }

/-- One file of a manifest that is rewritten. -/
def fileEntry (manifest : ManifestFile) (staged : Staged Value) :
    ManifestEntry × FileFate Value → Except String (Staged Value)
  | (entry, fate) => do
      let removing : Staged Value :=
        { staged with
          removed := staged.removed.add entry.dataFile
          deleted := staged.deleted ++ [manifest.deletedFile entry] }
      match fate with
      | .keep =>
          return { staged with existing := staged.existing ++ [manifest.existingFile entry] }
      | .remove _ => return removing
      | .rewrite _ rows => do
          let aligned ← alignBatch job.backend job.metadata.fields rows
          return { removing with written := staged.written ++ aligned }

/-- One manifest of the head. -/
def scanManifest (staged : Staged Value) (manifest : ManifestFile) :
    Except String (Staged Value) := do
  let scan ← manifest.entries.foldlM job.scanEntry ⟨false, [], staged⟩
  if !scan.rewriteManifest then
    return { scan.staged with carried := scan.staged.carried ++ [manifest] }
  else
    scan.fates.foldlM (job.fileEntry manifest) scan.staged

/-- The manifests of the head, when none of them holds deletes. -/
def manifestsOf (head : Snapshot) : Except String (List ManifestFile) :=
  if head.manifests.any fun manifest => manifest.content ≠ .data then
    .error ("table has delete manifests (merge-on-read); writes via icegres support " ++
      "copy-on-write tables only")
  else
    .ok head.manifests

/-- Fold the operations over every file of the head. -/
def scanHead (head : Option Snapshot) (staged : Staged Value) : Except String (Staged Value) :=
  match head with
  | some snapshot =>
      if job.needFileScan then do
        let manifests ← manifestsOf snapshot
        manifests.foldlM job.scanManifest staged
      else
        .ok staged
  | none => .ok staged

/-! ## The appended rows -/

/-- A buffered append, folded through every later statement. -/
def stageAppend (staged : Staged Value) : TableOp Value × Nat → Except String (Staged Value)
  | (.append rows, index) => do
      let folded ← foldDmlOps job.backend.engine job.metadata.columns job.ops (index + 1) rows
        (staged.rowsByOp.set index rows.length)
      let staged := { staged with rowsByOp := folded.rowsByOp }
      if folded.rows.length = 0 then
        return staged
      else
        let aligned ← alignBatch job.backend job.metadata.fields folded.rows
        let keys ← job.keyRows aligned
        return { staged with
          appendedRows := staged.appendedRows + folded.rows.length
          pkRows := staged.pkRows ++ keys
          written := staged.written ++ aligned }
  | _ => .ok staged

/-- Files that are already written are added as they are. -/
def stageFiles (staged : Staged Value) : TableOp Value × Nat → Staged Value
  | (.appendFiles files, index) =>
      let records := (files.map DataFile.recordCount).sum
      { staged with
        rowsByOp := staged.rowsByOp.set index records
        appendedRows := staged.appendedRows + records
        prewritten := staged.prewritten ++ files }
  | _ => staged

end Job

/-! ## The staged snapshot -/

inductive Operation where
  | append
  | delete
  | overwrite
  deriving DecidableEq

/-- The snapshot to be added. Its manifests are those of its manifest list. -/
structure NewSnapshot where
  snapshotId : Int
  parentSnapshotId : Option Int
  sequenceNumber : Int
  manifests : List ManifestFile
  operation : Operation
  /-- The summary's properties, as numbers. -/
  summary : List (String × Nat)

structure PreparedCommit (Value : Type) where
  /-- The commit asserts the table's identity and the head it started from. -/
  requiredUuid : String
  branch : String
  requiredHead : Option Int
  snapshot : NewSnapshot
  properties : List (String × String)
  rowsByOp : List Nat
  /-- The files written for this commit, with their rows. -/
  writtenFiles : List (DataFile × List (Row Value))

namespace Job

variable (job : Job Value)

/-- The rewritten manifest holds the kept and the removed entries of every touched manifest. -/
def rewrittenManifest (staged : Staged Value) : Option ManifestFile :=
  if staged.existing = [] ∧ staged.deleted = [] then
    none
  else
    some
      { content := .data
        addedSnapshotId := job.backend.snapshotId
        sequenceNumber := job.metadata.nextSequenceNumber
        entries :=
          (staged.existing.map fun file =>
            { status := .existing
              snapshotId := some file.snapshotId
              sequenceNumber := some file.dataSequence
              fileSequenceNumber := some (file.fileSequence.getD file.dataSequence)
              dataFile := file.dataFile }) ++
          staged.deleted.map fun file =>
            { status := .deleted
              snapshotId := some job.backend.snapshotId
              sequenceNumber := some file.dataSequence
              fileSequenceNumber := some (file.fileSequence.getD file.dataSequence)
              dataFile := file.dataFile } }

/-- The manifest of the added files; they inherit its sequence number. -/
def addedManifest (addedFiles : List DataFile) : Option ManifestFile :=
  if addedFiles = [] then
    none
  else
    some
      { content := .data
        addedSnapshotId := job.backend.snapshotId
        sequenceNumber := job.metadata.nextSequenceNumber
        entries := addedFiles.map fun file =>
          { status := .added
            snapshotId := some job.backend.snapshotId
            sequenceNumber := none
            fileSequenceNumber := none
            dataFile := file } }

/-- An append-only commit reads the manifest list only now: every manifest is carried. -/
def carriedUnscanned (head : Option Snapshot) : Except String (List ManifestFile) :=
  match head with
  | some snapshot => if job.needFileScan then .ok [] else manifestsOf snapshot
  | none => .ok []

/-- The snapshot's summary. The totals are written when every live file was visited. -/
def summaryOf (staged : Staged Value) (addedFiles : List DataFile) : List (String × Nat) :=
  let added := addedFiles.foldl FileStats.add ⟨0, 0, 0⟩
  [("added-data-files", addedFiles.length),
    ("added-records", added.records),
    ("added-files-size", added.bytes),
    ("deleted-data-files", staged.removed.files),
    ("deleted-records", staged.removed.records),
    ("removed-files-size", staged.removed.bytes)] ++
  (if job.needFileScan then
    [("total-data-files", staged.kept.files + addedFiles.length),
      ("total-records", staged.kept.records + added.records),
      ("total-files-size", staged.kept.bytes + added.bytes)]
  else []) ++
  [("total-delete-files", 0), ("total-position-deletes", 0), ("total-equality-deletes", 0),
    ("changed-partition-count", 1)]

/-- The data writer is built when a row is written. -/
def closeFiles (rows : List (Row Value)) : Except String (List (DataFile × List (Row Value))) :=
  if rows.length = 0 then .ok [] else job.backend.closeWriter rows

/-- Write the files and the manifests, and assemble the commit. -/
def produce (head : Option Snapshot) (branch : String)
    (extraProperties : Option (List (String × String))) (staged : Staged Value) :
    Except String (PreparedCommit Value) := do
  let writtenFiles ← job.closeFiles staged.written
  let addedFiles := writtenFiles.map Prod.fst ++ staged.prewritten
  let unscanned ← job.carriedUnscanned head
  let operation : Operation :=
    if !staged.anyFileChanged then .append
    else if addedFiles = [] then .delete
    else .overwrite
  return {
    requiredUuid := job.metadata.uuid
    branch
    requiredHead := head.map Snapshot.snapshotId
    snapshot :=
      { snapshotId := job.backend.snapshotId
        parentSnapshotId := head.map Snapshot.snapshotId
        sequenceNumber := job.metadata.nextSequenceNumber
        manifests := staged.carried ++ unscanned ++ (job.rewrittenManifest staged).toList ++
          (job.addedManifest addedFiles).toList
        operation
        summary := job.summaryOf staged addedFiles }
    properties := extraProperties.getD []
    rowsByOp := staged.rowsByOp
    writtenFiles }

/-- Reject what no commit can be made of. -/
def guard : Except String Unit := do
  if job.metadata.formatVersion ≠ .v2 then
    .error ("writes through icegres require an Iceberg format v2 table (found " ++
      job.metadata.formatVersion.text ++ ")")
  if !job.metadata.unpartitioned then
    .error "writes on partitioned tables are not supported yet"

/-- Every statement is validated before anything is read. -/
def validate : Except String Unit :=
  job.ops.forM fun
    | .dml stmt => do let _ ← Dml.DmlSql.new stmt job.metadata.columns
    | _ => .ok ()

/-- Nothing gathered yet. -/
def unstaged : Staged Value where
  carried := []
  existing := []
  deleted := []
  removed := ⟨0, 0, 0⟩
  kept := ⟨0, 0, 0⟩
  anyFileChanged := false
  pkRows := []
  written := []
  appendedRows := 0
  rowsByOp := List.replicate job.ops.length 0
  prewritten := []

/-- The operations folded over the head and over the appended rows. -/
def gather (head : Option Snapshot) : Except String (Staged Value) := do
  let scanned ← job.scanHead head job.unstaged
  let appended ← job.ops.zipIdx.foldlM job.stageAppend scanned
  return job.ops.zipIdx.foldl stageFiles appended

/-- The key is enforced over the final row set, before anything is posted. -/
def enforcePk [DecidableEq Value] (staged : Staged Value) : Except String Unit :=
  Dml.enforcePk job.backend.isNull job.backend.display job.pk staged.pkRows job.metadata.name

/-- One snapshot applying the operations, or nothing when they net out to no change. -/
def prepareCommit [DecidableEq Value] (branch : String)
    (extraProperties : Option (List (String × String))) :
    Except String (Option (PreparedCommit Value)) := do
  job.guard
  let head ← branchHead job.metadata branch
  job.validate
  let staged ← job.gather head
  if !staged.anyFileChanged && staged.appendedRows = 0 then
    return none
  job.enforcePk staged
  let commit ← job.produce head branch extraProperties staged
  return some commit

end Job

end Icegres.Commit
