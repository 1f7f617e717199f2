import Icegres.Compact.Preserve

/-!
# The snapshot of a compaction

A compaction that commits has planned one group, since the files of a table without partitions are
of one partition. Its snapshot holds the live files less the planned ones, with the outputs, and
shows the rows the head showed.
-/

namespace Icegres.Compact

open Icegres.Commit

variable {Value : Type}

namespace Compaction

variable (job : Compaction Value) (manifests : List ManifestFile)

/-! ## The plan -/

/-- What the plan is for any manifest list. -/
structure PlanSound : Prop where
  disjoint : (job.groups manifests).Pairwise fun left right => left.inputs.Disjoint right.inputs
  distinct : ∀ group ∈ job.groups manifests, group.inputs.Nodup
  several : ∀ group ∈ job.groups manifests, 2 ≤ group.inputs.length
  inputs : ∀ group ∈ job.groups manifests, ∀ idx ∈ group.inputs,
    ∃ entry, (liveEntries manifests)[idx]? = some entry ∧
      entry.dataFile.fileSizeInBytes < job.targetBytes ∧
      partitionKey (job.partitionOf entry.dataFile) = group.partition

theorem planSound (atLeast : 2 ≤ job.minInputFiles) : job.PlanSound manifests where
  disjoint := pairwise_disjoint_inputs
  distinct := fun _ member => nodup_inputs member
  several := by
    intro group member
    exact atLeast.trans (mem_planCompaction member).2
  inputs := by
    intro group member idx input
    obtain ⟨file, found, under, same⟩ := (mem_inputs_iff member).mp input
    rw [List.getElem?_map] at found
    obtain ⟨entry, entryFound, rfl⟩ := Option.map_eq_some_iff.mp found
    exact ⟨entry, entryFound, under, same⟩

/-- The planned entries of one group. -/
def entriesOf (group : CompactGroup) : List LiveEntry :=
  group.inputs.filterMap fun idx => (liveEntries manifests)[idx]?

theorem planned_eq :
    job.planned manifests = (job.groups manifests).flatMap (entriesOf manifests) := by
  rw [planned, compacted]
  induction job.groups manifests with
  | nil => rfl
  | cons group rest ih => simp [ih, entriesOf]

/-- A group is accounted for by its entries. -/
theorem accounting {group : CompactGroup} (member : group ∈ job.groups manifests) :
    group.inputs.length = (entriesOf manifests group).length ∧
      group.totalRecords =
        ((entriesOf manifests group).map fun entry => entry.dataFile.recordCount).sum ∧
      group.totalBytes =
        ((entriesOf manifests group).map fun entry => entry.dataFile.fileSizeInBytes).sum := by
  have of := (mem_planCompaction member).1
  generalize members : membersOf job.targetBytes group.partition
    ((liveEntries manifests).map job.candidate).zipIdx = files at of
  have found : ∀ file ∈ files,
      (liveEntries manifests)[file.2]?.map job.candidate = some file.1 := by
    intro file inside
    rw [← members] at inside
    rw [← List.getElem?_map]
    exact List.mem_zipIdx_iff_getElem?.mp (List.mem_filter.mp inside).1
  have same : (entriesOf manifests group).map job.candidate = files.map Prod.fst := by
    rw [entriesOf, of.inputs, List.filterMap_map, List.map_filterMap, ← List.filterMap_eq_map]
    apply List.filterMap_congr
    intro file inside
    exact found file inside
  constructor
  · rw [of.inputs, List.length_map, ← List.length_map Prod.fst, ← same, List.length_map]
  · constructor
    · have sums := congrArg (fun files => (files.map CompactCandidate.recordCount).sum) same
      simp only [List.map_map] at sums
      rw [of.totalRecords]
      exact sums.symm
    · have sums := congrArg (fun files => (files.map CompactCandidate.sizeBytes).sum) same
      simp only [List.map_map] at sums
      rw [of.totalBytes]
      exact sums.symm

theorem planned_accounting :
    ((job.groups manifests).map fun group => group.inputs.length).sum =
        (job.planned manifests).length ∧
      ((job.groups manifests).map CompactGroup.totalRecords).sum =
        ((job.planned manifests).map fun entry => entry.dataFile.recordCount).sum ∧
      ((job.groups manifests).map CompactGroup.totalBytes).sum =
        ((job.planned manifests).map fun entry => entry.dataFile.fileSizeInBytes).sum := by
  have each := fun group (member : group ∈ job.groups manifests) => job.accounting manifests member
  rw [planned_eq]
  generalize job.groups manifests = groups at each
  induction groups with
  | nil => simp
  | cons group rest ih =>
      rw [List.forall_mem_cons] at each
      obtain ⟨⟨count, records, bytes⟩, others⟩ := each
      obtain ⟨restCount, restRecords, restBytes⟩ := ih others
      simp [count, records, bytes, restCount, restRecords, restBytes]

/-- Without partitions there is at most one group. -/
theorem eq_singleton_of_unpartitioned (unpartitioned : job.metadata.unpartitioned = true)
    (atLeast : 2 ≤ job.minInputFiles) (planned : job.groups manifests ≠ []) :
    ∃ group, job.groups manifests = [group] := by
  have sound := job.planSound manifests atLeast
  have whole : ∀ group ∈ job.groups manifests, group.partition = "" := by
    intro group member
    have nonempty : group.inputs ≠ [] := by
      intro empty
      have enough := sound.several group member
      simp [empty] at enough
    obtain ⟨idx, input⟩ := List.exists_mem_of_ne_nil _ nonempty
    obtain ⟨entry, -, -, same⟩ := sound.inputs group member idx input
    rw [← same, job.unpartitionedFiles unpartitioned]
    rfl
  have apart : (job.groups manifests).Pairwise fun left right =>
      left.partition ≠ right.partition := pairwise_partition
  match shape : job.groups manifests with
  | [] => exact absurd shape planned
  | [group] => exact ⟨group, rfl⟩
  | first :: second :: rest =>
      rw [shape] at apart whole
      have different := (List.pairwise_cons.mp apart).1 second List.mem_cons_self
      apply absurd _ different
      rw [whole first (by simp), whole second (by simp)]

/-! ## The rows -/

/-- A row as the table shows it: cast to the columns' types. -/
def shown (row : Row Value) : Row Value :=
  match alignRow job.backend job.metadata.fields row with
  | .ok stored => stored
  | .error _ => row

variable {job}

theorem shown_of_alignBatch (recasts : Recasts job.backend) {rows stored : List (Row Value)}
    (aligned : alignBatch job.backend job.metadata.fields rows = .ok stored) :
    rows.map job.shown = stored ∧ stored.map job.shown = stored := by
  rw [alignBatch] at aligned
  induction rows generalizing stored with
  | nil =>
      cases aligned
      exact ⟨rfl, rfl⟩
  | cons row rows ih =>
      rw [List.mapM_cons] at aligned
      obtain ⟨first, own, aligned⟩ := bind_eq_ok aligned
      obtain ⟨rest, more, aligned⟩ := bind_eq_ok aligned
      cases aligned
      obtain ⟨shows, again⟩ := ih more
      have same : job.shown row = first := by rw [shown, own]
      have fixed : job.shown first = first := by rw [shown, alignRow_idem recasts own]
      exact ⟨by simp [same, shows], by simp [fixed, again]⟩

variable (job)

/-- What is read of the inputs is what the table shows of them. -/
theorem readInputs_spec (recasts : Recasts job.backend) {inputs : List Nat}
    {rows : List (List (Row Value))} (ran : inputs.mapM (job.readInput manifests) = .ok rows) :
    (rowsIn job.backend.readParquetFile
        ((inputs.filterMap fun idx => (liveEntries manifests)[idx]?).map LiveEntry.dataFile :
          List DataFile)).map job.shown = (rows.flatten : Multiset (Row Value)) ∧
      rows.flatten.map job.shown = rows.flatten := by
  induction inputs generalizing rows with
  | nil =>
      cases ran
      exact ⟨rfl, rfl⟩
  | cons idx inputs ih =>
      rw [List.mapM_cons] at ran
      obtain ⟨first, own, ran⟩ := bind_eq_ok ran
      obtain ⟨rest, more, ran⟩ := bind_eq_ok ran
      cases ran
      obtain ⟨shows, again⟩ := ih more
      rw [readInput] at own
      split at own
      · rename_i entry found
        obtain ⟨raw, read, aligned⟩ := bind_eq_ok own
        obtain ⟨firstShown, firstAgain⟩ := shown_of_alignBatch recasts aligned
        have rowsRead : rowsOf job.backend.readParquetFile entry.dataFile =
            (raw : Multiset (Row Value)) := by
          rw [rowsOf, read]
        constructor
        · rw [List.filterMap_cons_some found, List.map_cons, ← Multiset.cons_coe,
            ← Multiset.singleton_add, rowsIn_add, rowsIn_singleton, Multiset.map_add, shows,
            rowsRead, Multiset.map_coe, firstShown, List.flatten_cons, Multiset.coe_add]
        · rw [List.flatten_cons, List.map_append, firstAgain, again]
      · cases own

/-! ## The totals -/

theorem keptStats_eq :
    job.keptStats manifests =
      statsOf ((job.kept manifests).map LiveEntry.dataFile : List DataFile) := by
  have walk : ∀ entries ⊆ walked manifests, ∀ stats : FileStats,
      entries.foldl (fun stats entry =>
        if !job.isTouched manifests entry.1.manifestIdx then stats.add entry.1.dataFile
        else if entry.2 ∈ job.compacted manifests then stats
        else stats.add entry.1.dataFile) stats =
      (((entries.filter fun entry => entry.2 ∉ job.compacted manifests).map Prod.fst).map
        LiveEntry.dataFile).foldl FileStats.add stats := by
    intro entries within
    induction entries with
    | nil => exact fun _ => rfl
    | cons entry rest ih =>
        intro stats
        have more := ih fun other inside => within (List.mem_cons_of_mem _ inside)
        rw [List.foldl_cons, more]
        by_cases chosen : entry.2 ∈ job.compacted manifests
        · have touched := job.touched_of_compacted manifests (within List.mem_cons_self) chosen
          simp [touched, chosen]
        · simp [chosen]
  have start : (⟨0, 0, 0⟩ : FileStats) = statsOf 0 := rfl
  rw [keptStats, walk _ (List.Subset.refl _), start, foldl_add_statsOf, zero_add]
  rfl

end Compaction

/-! ## The commit -/

/-- What a reader finds after the commit in a data file. -/
def CompactCommit.read (backend : Backend Value) (commit : CompactCommit Value) :
    DataFile → Except String (List (Row Value)) :=
  readAfter backend.readParquetFile commit.writtenFiles

/-- The files the commit adds. -/
def CompactCommit.outputs (commit : CompactCommit Value) : List DataFile :=
  commit.writtenFiles.map Prod.fst

/-- The commit replaces the planned files by its outputs and changes nothing else. -/
structure Preserves (job : Compaction Value) (old : List ManifestFile)
    (commit : CompactCommit Value) : Prop where
  /-- The live files are the old ones less the planned ones, with the outputs. -/
  live : (liveFiles commit.manifests : Multiset DataFile) =
    ((liveFiles old : Multiset DataFile) - (job.planned old).map LiveEntry.dataFile) +
      (commit.outputs : Multiset DataFile)
  /-- Every planned file was live, and every file that stays live keeps what is recorded of it. -/
  kept : ∃ kept : List LiveEntry,
    (liveEntries old).Perm (kept ++ job.planned old) ∧
      (provenances commit.manifests).Perm (kept.map LiveEntry.provenance ++
        commit.outputs.map fun file => (file, commit.snapshotId, commit.sequenceNumber,
          commit.sequenceNumber))
  /-- The deleted entries are the planned files, each once. -/
  deletedOnce : (removedFiles commit.manifests).Perm ((job.planned old).map LiveEntry.dataFile)
  rows : (rowsIn (commit.read job.backend) (liveFiles commit.manifests)).map job.shown =
    (rowsIn job.backend.readParquetFile (liveFiles old)).map job.shown
  totals : commit.summary =
    [("added-data-files", commit.outputs.length),
      ("added-records", (commit.outputs.map DataFile.recordCount).sum),
      ("added-files-size", (commit.outputs.map DataFile.fileSizeInBytes).sum),
      ("deleted-data-files", (job.planned old).length),
      ("deleted-records", ((job.planned old).map fun entry => entry.dataFile.recordCount).sum),
      ("removed-files-size",
        ((job.planned old).map fun entry => entry.dataFile.fileSizeInBytes).sum),
      ("total-data-files", (liveFiles commit.manifests).length),
      ("total-records", ((liveFiles commit.manifests).map DataFile.recordCount).sum),
      ("total-files-size", ((liveFiles commit.manifests).map DataFile.fileSizeInBytes).sum),
      ("total-delete-files", 0), ("total-position-deletes", 0), ("total-equality-deletes", 0),
      ("changed-partition-count", 1)]

namespace Compaction

variable (job : Compaction Value)

/-- What a committing run has done. -/
theorem run_cases {commit : CompactCommit Value} (ran : job.run = .ok (some commit)) :
    job.metadata.unpartitioned = true ∧ 2 ≤ job.minInputFiles ∧
      ∃ head written, job.metadata.currentSnapshot = some head ∧
        job.groups head.manifests ≠ [] ∧
        job.rewriteInputs head.manifests = .ok written ∧ commit = job.replace head written := by
  obtain ⟨⟨⟩, guarded, ran⟩ := bind_eq_ok ran
  have checks : job.metadata.unpartitioned = true ∧ 2 ≤ job.minInputFiles := by
    rw [guard] at guarded
    split at guarded
    · cases guarded
    · split at guarded
      · cases guarded
      · rename_i enough
        split at guarded
        · cases guarded
        · split at guarded
          · cases guarded
          · rename_i whole
            exact ⟨by simpa using whole, by omega⟩
  refine ⟨checks.1, checks.2, ?_⟩
  cases current : job.metadata.currentSnapshot with
  | none =>
      rw [current] at ran
      cases ran
  | some head =>
      rw [current] at ran
      obtain ⟨⟨⟩, -, ran⟩ := bind_eq_ok (ran : job.compactHead head = .ok (some commit))
      split at ran
      · cases ran
      · rename_i planned
        obtain ⟨⟨⟩, -, ran⟩ := bind_eq_ok ran
        split at ran
        · cases ran
        · obtain ⟨written, rewritten, made⟩ := bind_eq_ok ran
          cases made
          exact ⟨head, written, rfl, by simpa using planned, rewritten, rfl⟩

/-- The one group of an unpartitioned table is written through one writer. -/
theorem rewriteInputs_cases {manifests : List ManifestFile} {group : CompactGroup}
    (one : job.groups manifests = [group]) {written : List (DataFile × List (Row Value))}
    (rewritten : job.rewriteInputs manifests = .ok written) :
    ∃ rows, group.inputs.mapM (job.readInput manifests) = .ok rows ∧
      job.backend.closeWriter rows.flatten = .ok written := by
  rw [rewriteInputs, one] at rewritten
  obtain ⟨files, wrote, checked⟩ := bind_eq_ok rewritten
  rw [List.mapM_cons] at wrote
  obtain ⟨own, writes, wrote⟩ := bind_eq_ok wrote
  cases wrote
  obtain ⟨rows, read, closed⟩ := bind_eq_ok writes
  dsimp only at checked
  split at checked
  · cases checked
  · cases checked
    exact ⟨rows, read, by simpa using closed⟩

/-- Taking the planned entries off the live ones leaves the kept ones. -/
theorem live_sub_planned (manifests : List ManifestFile) :
    (liveFiles manifests : Multiset DataFile) -
        (job.planned manifests).map LiveEntry.dataFile =
      ((job.kept manifests).map LiveEntry.dataFile : List DataFile) := by
  have perm := (job.live_perm manifests).map LiveEntry.dataFile
  have files : liveFiles manifests = (liveEntries manifests).map LiveEntry.dataFile := by
    rw [← map_fst_provenances, provenances_eq, List.map_map]
    rfl
  rw [files, Multiset.coe_eq_coe.mpr perm, List.map_append, ← Multiset.coe_add,
    Multiset.add_sub_cancel_right]

theorem liveFiles_replace (head : Snapshot) (written : List (DataFile × List (Row Value))) :
    (liveFiles (job.replace head written).manifests).Perm
      ((job.kept head.manifests).map LiveEntry.dataFile ++ written.map Prod.fst) := by
  have keptPart := (job.provenances_kept head.manifests).map Prod.fst
  rw [map_fst_provenances, List.map_map] at keptPart
  have addedPart : liveFiles (job.addedManifest (written.map Prod.fst)) = written.map Prod.fst := by
    rw [← map_fst_provenances, provenances_added, List.map_map]
    exact List.map_id _
  rw [replace, liveFiles_append, addedPart]
  exact List.Perm.append_right _ keptPart

theorem preserves_replace {head : Snapshot} {written : List (DataFile × List (Row Value))}
    (writes : job.backend.Writes head.manifests) (recasts : Recasts job.backend)
    {group : CompactGroup} (one : job.groups head.manifests = [group])
    (rewritten : job.rewriteInputs head.manifests = .ok written) :
    Preserves job head.manifests (job.replace head written) := by
  obtain ⟨rows, read, closed⟩ := job.rewriteInputs_cases one rewritten
  have live := job.liveFiles_replace head written
  have old : (liveFiles head.manifests).Perm ((job.kept head.manifests).map LiveEntry.dataFile ++
      (job.planned head.manifests).map LiveEntry.dataFile) := by
    rw [← map_fst_provenances, provenances_eq, List.map_map, ← List.map_append]
    exact (job.live_perm head.manifests).map LiveEntry.dataFile
  constructor
  case live =>
    rw [Multiset.coe_eq_coe.mpr live, job.live_sub_planned]
    rfl
  case kept =>
    refine ⟨job.kept head.manifests, job.live_perm head.manifests, ?_⟩
    rw [replace, provenances_append, provenances_added]
    exact List.Perm.append_right _ (job.provenances_kept head.manifests)
  case deletedOnce => exact job.removedFiles_perm head.manifests _
  case rows =>
    have untouched : rowsIn ((job.replace head written).read job.backend)
          ((job.kept head.manifests).map LiveEntry.dataFile : List DataFile) =
        rowsIn job.backend.readParquetFile
          ((job.kept head.manifests).map LiveEntry.dataFile : List DataFile) := by
      apply Multiset.bind_congr
      intro file member
      have inOld : file ∈ liveFiles head.manifests :=
        old.mem_iff.mpr (List.mem_append_left _ member)
      obtain ⟨manifest, inHead, entry, inside, rfl⟩ := Job.mem_liveFiles inOld
      rw [rowsOf, rowsOf, CompactCommit.read, readAfter_of_fresh]
      intro other isWritten
      exact writes.fresh _ _ closed other isWritten manifest inHead entry inside
    have outputs : rowsIn ((job.replace head written).read job.backend)
          (written.map Prod.fst : List DataFile) = (rows.flatten : Multiset (Row Value)) := by
      have all : rowsIn ((job.replace head written).read job.backend)
          (written.map Prod.fst : List DataFile) =
            (written.flatMap Prod.snd : Multiset (Row Value)) :=
        rowsIn_readAfter (writes.distinct _ _ closed)
      rw [all, Multiset.coe_eq_coe]
      exact writes.rows _ _ closed
    have inputs := job.readInputs_spec head.manifests recasts read
    have plannedOne : job.planned head.manifests = entriesOf head.manifests group := by
      rw [planned_eq, one, List.flatMap_singleton]
    rw [Multiset.coe_eq_coe.mpr live, Multiset.coe_eq_coe.mpr old, ← Multiset.coe_add,
      ← Multiset.coe_add, rowsIn_add, rowsIn_add, Multiset.map_add, Multiset.map_add, untouched,
      outputs, plannedOne]
    congr 1
    rw [Multiset.map_coe, inputs.2]
    exact inputs.1.symm
  case totals =>
    have accounted := job.planned_accounting head.manifests
    have stats := job.keptStats_eq head.manifests
    have records := (live.map DataFile.recordCount).sum_eq
    have bytes := (live.map DataFile.fileSizeInBytes).sum_eq
    rw [List.map_append, List.sum_append] at records bytes
    have summary : (job.replace head written).summary =
      job.summaryOf head.manifests (written.map Prod.fst) := rfl
    rw [summary, summaryOf, accounted.1, accounted.2.1, accounted.2.2, stats, live.length_eq,
      List.length_append, records, bytes]
    rfl

/-- Two small files in two manifests, one of which also has a large file and a stale entry of a
file's path, and a third manifest that is carried. -/
def smallFiles : Compaction Nat where
  backend := Job.pairsBackend
  metadata :=
    { Job.pairsJob.metadata with
      currentSnapshot := some
        { snapshotId := 6
          manifests :=
            [⟨.data, 5, 1, [⟨.added, some 5, none, none, ⟨"a", 2, 200⟩⟩,
                ⟨.deleted, some 6, some 1, some 1, ⟨"b", 1, 100⟩⟩,
                ⟨.existing, some 4, some 1, none, ⟨"large", 9, 5000000⟩⟩]⟩,
              ⟨.data, 6, 2, [⟨.added, some 6, none, none, ⟨"b", 1, 100⟩⟩]⟩,
              ⟨.data, 6, 2, [⟨.added, some 6, none, none, ⟨"larger", 9, 6000000⟩⟩]⟩] } }
  targetFileMb := 1
  minInputFiles := 2
  execute := true
  partitionOf _ := []
  unpartitionedFiles _ _ := rfl
  checkSpec _ := .ok ()
  checkManifest _ := .ok ()
  checkFile _ := .ok ()

end Compaction

end Icegres.Compact
