import Icegres.Commit.Exact
import Icegres.Compact.Plan

/-!
# One compaction

The live files of the head are walked manifest by manifest and planned; the planned files are read
and rewritten together, and one snapshot replaces them. A manifest that holds a planned file or a
stale deleted entry is rewritten, any other is carried as it is.
-/

namespace Icegres.Compact

open Icegres.Commit

/-- What a compaction works on. -/
structure Compaction (Value : Type) where
  backend : Backend Value
  metadata : TableMetadata
  targetFileMb : Nat
  minInputFiles : Nat
  execute : Bool
  /-- The partition tuple of a file; a table without partitions has empty ones. -/
  partitionOf : DataFile → List String
  unpartitionedFiles : metadata.unpartitioned = true → ∀ file, partitionOf file = []
  /-- The manifest was written under the table's partition spec. -/
  checkSpec : ManifestFile → Except String Unit
  /-- The manifest can be read and was written under the current schema. -/
  checkManifest : ManifestFile → Except String Unit
  /-- The file was written under the current schema. -/
  checkFile : DataFile → Except String Unit

/-- A live entry, with the sequence numbers it is carried forward or removed with. -/
structure LiveEntry where
  manifestIdx : Nat
  dataFile : DataFile
  snapshotId : Int
  dataSeq : Int
  fileSeq : Option Int

def partitionKey (fields : List String) : String :=
  if fields.isEmpty then "" else toString fields

/-- The live entries of one manifest. -/
def liveEntriesOf (manifest : ManifestFile × Nat) : List LiveEntry :=
  (manifest.1.entries.filter ManifestEntry.isAlive).map fun entry =>
    { manifestIdx := manifest.2
      dataFile := entry.dataFile
      snapshotId := entry.snapshotId.getD manifest.1.addedSnapshotId
      dataSeq := entry.sequenceNumber.getD manifest.1.sequenceNumber
      fileSeq := entry.fileSequenceNumber }

def liveEntries (manifests : List ManifestFile) : List LiveEntry :=
  manifests.zipIdx.flatMap liveEntriesOf

/-- The number of live entries of a manifest, and whether it has a stale deleted one. -/
def manifestStats (manifest : ManifestFile) : Nat × Bool :=
  ((manifest.entries.filter ManifestEntry.isAlive).length,
    manifest.entries.any fun entry => !entry.isAlive)

structure CompactCommit (Value : Type) where
  requiredUuid : String
  requiredHead : Int
  snapshotId : Int
  parentSnapshotId : Int
  sequenceNumber : Int
  manifests : List ManifestFile
  summary : List (String × Nat)
  /-- The files written for this commit, with their rows. -/
  writtenFiles : List (DataFile × List (Row Value))

namespace Compaction

variable {Value : Type} (job : Compaction Value) (manifests : List ManifestFile)

def targetBytes : Nat :=
  min (job.targetFileMb * (1024 * 1024)) (2 ^ 64 - 1)

def candidate (entry : LiveEntry) : CompactCandidate where
  path := entry.dataFile.filePath
  sizeBytes := entry.dataFile.fileSizeInBytes
  recordCount := entry.dataFile.recordCount
  partition := partitionKey (job.partitionOf entry.dataFile)

def groups : List CompactGroup :=
  planCompaction ((liveEntries manifests).map job.candidate) job.targetBytes job.minInputFiles

/-- The planned entries, as indices of live ones. -/
def compacted : List Nat :=
  (job.groups manifests).flatMap CompactGroup.inputs

/-- The manifest holds a planned file or a stale deleted entry. -/
def isTouched (manifestIdx : Nat) : Bool :=
  (job.compacted manifests).any (fun idx =>
    ((liveEntries manifests)[idx]?.map LiveEntry.manifestIdx) = some manifestIdx) ||
  (manifests[manifestIdx]?.any fun manifest => (manifestStats manifest).2)

def carried : List ManifestFile :=
  (manifests.zipIdx.filter fun (manifest, manifestIdx) =>
    !job.isTouched manifests manifestIdx && 0 < (manifestStats manifest).1).map Prod.fst

/-- One entry of the rewritten manifest. -/
def rewrittenEntry (entry : LiveEntry × Nat) : Option ManifestEntry :=
  if !job.isTouched manifests entry.1.manifestIdx then none
  else if entry.2 ∈ job.compacted manifests then
    some
      { status := .deleted
        snapshotId := some job.backend.snapshotId
        sequenceNumber := some entry.1.dataSeq
        fileSequenceNumber := some (entry.1.fileSeq.getD entry.1.dataSeq)
        dataFile := entry.1.dataFile }
  else
    some
      { status := .existing
        snapshotId := some entry.1.snapshotId
        sequenceNumber := some entry.1.dataSeq
        fileSequenceNumber := some (entry.1.fileSeq.getD entry.1.dataSeq)
        dataFile := entry.1.dataFile }

def rewrittenManifest : ManifestFile where
  content := .data
  addedSnapshotId := job.backend.snapshotId
  sequenceNumber := job.metadata.nextSequenceNumber
  entries := (liveEntries manifests).zipIdx.filterMap (job.rewrittenEntry manifests)

/-- The manifest of the outputs; they inherit its sequence number. -/
def addedManifest (addedFiles : List DataFile) : List ManifestFile :=
  if addedFiles.isEmpty then []
  else
    [{ content := .data
       addedSnapshotId := job.backend.snapshotId
       sequenceNumber := job.metadata.nextSequenceNumber
       entries := addedFiles.map fun file =>
        { status := .added
          snapshotId := some job.backend.snapshotId
          sequenceNumber := none
          fileSequenceNumber := none
          dataFile := file } }]

/-- The accounting of the files that stay. -/
def keptStats : FileStats :=
  (liveEntries manifests).zipIdx.foldl (fun stats entry =>
    if !job.isTouched manifests entry.1.manifestIdx then stats.add entry.1.dataFile
    else if entry.2 ∈ job.compacted manifests then stats
    else stats.add entry.1.dataFile) ⟨0, 0, 0⟩

def summaryOf (addedFiles : List DataFile) : List (String × Nat) :=
  let groups := job.groups manifests
  let kept := job.keptStats manifests
  let outputRecords := (addedFiles.map DataFile.recordCount).sum
  let addedBytes := (addedFiles.map DataFile.fileSizeInBytes).sum
  [("added-data-files", addedFiles.length),
    ("added-records", outputRecords),
    ("added-files-size", addedBytes),
    ("deleted-data-files", (groups.map fun group => group.inputs.length).sum),
    ("deleted-records", (groups.map CompactGroup.totalRecords).sum),
    ("removed-files-size", (groups.map CompactGroup.totalBytes).sum),
    ("total-data-files", kept.files + addedFiles.length),
    ("total-records", kept.records + outputRecords),
    ("total-files-size", kept.bytes + addedBytes),
    ("total-delete-files", 0), ("total-position-deletes", 0), ("total-equality-deletes", 0),
    ("changed-partition-count", 1)]

/-- Read one input. Every index of a group is that of a live entry. -/
def readInput (idx : Nat) : Except String (List (Row Value)) :=
  match (liveEntries manifests)[idx]? with
  | some entry => do
      let rows ← job.backend.readParquetFile entry.dataFile
      alignBatch job.backend job.metadata.fields rows
  | none => .error "index out of bounds"

/-- Rewrite one group through one writer. -/
def writeGroup (group : CompactGroup) : Except String (List (DataFile × List (Row Value))) := do
  let rows ← group.inputs.mapM (job.readInput manifests)
  job.backend.closeWriter rows.flatten

/-- The inputs' write schema is verified before anything is staged. -/
def checkInputs : Except String Unit :=
  (job.compacted manifests).forM fun idx =>
    match (liveEntries manifests)[idx]? with
    | some entry => job.checkFile entry.dataFile
    | none => .error "index out of bounds"

/-- Reject what is not compacted. -/
def guard : Except String Unit :=
  if job.targetFileMb < 1 then
    .error ("--target-file-mb must be at least 1 (got " ++ toString job.targetFileMb ++ ")")
  else if job.minInputFiles < 2 then
    .error ("--min-input-files must be at least 2 (got " ++ toString job.minInputFiles ++
      "): rewriting fewer than 2 files cannot reduce the file count")
  else if job.metadata.formatVersion ≠ .v2 then
    .error ("refusing to compact " ++ job.metadata.name ++
      ": compaction requires an Iceberg format v2 table (found " ++
      job.metadata.formatVersion.text ++ "); nothing was rewritten")
  else if !job.metadata.unpartitioned then
    .error ("refusing to compact " ++ job.metadata.name ++
      ": the table is partitioned and the icegres write stack is unpartitioned-only (see " ++
      "overwrite.rs) — rewriting partitioned layouts is not supported yet; nothing was rewritten")
  else
    .ok ()

def checkManifests : Except String Unit := do
  manifests.forM fun manifest => do
    if manifest.content ≠ .data then
      .error ("refusing to compact " ++ job.metadata.name ++
        ": the table has delete manifests (merge-on-read deletes written by a foreign engine), " ++
        "and icegres cannot apply those deletes — compacting under them would corrupt row " ++
        "semantics. Nothing was rewritten")
    job.checkSpec manifest
  manifests.forM job.checkManifest

/-- The rows of the inputs are rewritten and counted. -/
def rewriteInputs : Except String (List (DataFile × List (Row Value))) := do
  let written ← (job.groups manifests).mapM (job.writeGroup manifests)
  let outputRecords := (written.flatten.map fun file => file.1.recordCount).sum
  let inputRecords := ((job.groups manifests).map CompactGroup.totalRecords).sum
  if outputRecords ≠ inputRecords then
    .error ("row-count mismatch compacting " ++ job.metadata.name ++ ": " ++
      toString inputRecords ++ " row(s) in, " ++ toString outputRecords ++
      " out — refusing to commit (nothing was changed; the partial output files are " ++
      "unreferenced orphans)")
  else
    return written.flatten

/-- The snapshot that replaces the inputs by the outputs. -/
def replace (head : Snapshot) (written : List (DataFile × List (Row Value))) :
    CompactCommit Value where
  requiredUuid := job.metadata.uuid
  requiredHead := head.snapshotId
  snapshotId := job.backend.snapshotId
  parentSnapshotId := head.snapshotId
  sequenceNumber := job.metadata.nextSequenceNumber
  manifests := job.carried head.manifests ++ [job.rewrittenManifest head.manifests] ++
    job.addedManifest (written.map Prod.fst)
  summary := job.summaryOf head.manifests (written.map Prod.fst)
  writtenFiles := written

/-- Compact the files of one head. -/
def compactHead (head : Snapshot) : Except String (Option (CompactCommit Value)) := do
  job.checkManifests head.manifests
  if (job.groups head.manifests).isEmpty then
    return none
  job.checkInputs head.manifests
  if !job.execute then
    return none
  let written ← job.rewriteInputs head.manifests
  return some (job.replace head written)

/-- The commit of one compaction, or nothing when there is nothing to do. -/
def run : Except String (Option (CompactCommit Value)) := do
  job.guard
  match job.metadata.currentSnapshot with
  | none => return none
  | some head => job.compactHead head

end Compaction

end Icegres.Compact
