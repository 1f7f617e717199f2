import Icegres.Commit.Scan
import Icegres.Commit.Sequential

/-!
# A commit and the sequential fold

Folding the statements over each data file and each appended batch files every data file exactly
once. It makes of the head's rows what the operations make of them one after another as long as the
statements do not tell uncast rows from cast ones, and leave the rows they do not match.
-/

namespace Icegres.Commit

variable {Value : Type}

namespace Job

variable (job : Job Value)

/-- The appended rows that survive, from an operation on. -/
structure Appended (first : Nat) (ops : List (TableOp Value)) (before : Staged Value)
    (out : List (Row Value)) (rowsByOp : List Nat) : Prop where
  aligned : job.Aligned (appendedParts job.metadata.columns ops).sum out
  size : rowsByOp.length = job.ops.length
  counts : ∀ index, rowsByOp.getD index 0 = before.rowsByOp.getD index 0 +
    if first ≤ index then appendedBy job.metadata.columns ops (index - first) else 0

/-- The commit after some rows are appended. -/
def withRows (before : Staged Value) (out : List (Row Value)) (rowsByOp : List Nat)
    (pkRows : List (Row Value)) : Staged Value :=
  { before with
    rowsByOp, pkRows
    appendedRows := before.appendedRows + out.length
    written := before.written ++ out }

theorem length_of_aligned {rows out : List (Row Value)} (aligned : job.Aligned rows out) :
    out.length = rows.length := by
  simpa using (Multiset.card_eq_card_of_rel aligned).symm

/-- A counter nothing was added to is set as if it were added to. -/
theorem getD_set_zero (counts : List Nat) {at' : Nat} (inside : at' < counts.length)
    (clear : counts.getD at' 0 = 0) (value index : Nat) :
    (counts.set at' value).getD index 0 =
      counts.getD index 0 + if index = at' then value else 0 := by
  rw [List.getD_eq_getElem?_getD] at clear ⊢
  rw [List.getD_eq_getElem?_getD, List.getElem?_set]
  by_cases here : index = at'
  · subst here
    simpa [inside] using clear
  · have elsewhere : at' ≠ index := fun same => here same.symm
    simp [here, elsewhere]

/-- One buffered append meets the statements after it. -/
theorem stageAppend_spec (evaluates : job.Evaluates) {first : Nat}
    {op : TableOp Value} {rest : List (TableOp Value)} (here : job.ops.drop first = op :: rest)
    {before after : Staged Value} (size : before.rowsByOp.length = job.ops.length)
    (clear : ∀ rows, op = .append rows → before.rowsByOp.getD first 0 = 0)
    (ran : job.stageAppend before (op, first) = .ok after) :
    ∃ out rowsByOp pkRows, after = withRows before out rowsByOp pkRows ∧
      job.Aligned (foldParts job.metadata.columns op.parts rest).sum out ∧
      rowsByOp.length = job.ops.length ∧
      ∀ index, rowsByOp.getD index 0 = before.rowsByOp.getD index 0 +
        if first ≤ index then
          (if index = first then op.batch.length
            else matchedBy job.metadata.columns op.parts rest (index - (first + 1)))
        else 0 := by
  have inside : first < job.ops.length := by
    by_contra beyond
    rw [List.drop_eq_nil_of_le (by omega)] at here
    cases here
  have later : job.ops.drop (first + 1) = rest := by
    rw [← List.drop_drop, here]
    rfl
  have nothing (empty : op.batch = []) (none' : op.parts = 0) (same : after = before) :
      ∃ out rowsByOp pkRows, after = withRows before out rowsByOp pkRows ∧
        job.Aligned (foldParts job.metadata.columns op.parts rest).sum out ∧
        rowsByOp.length = job.ops.length ∧
        ∀ index, rowsByOp.getD index 0 = before.rowsByOp.getD index 0 +
          if first ≤ index then
            (if index = first then op.batch.length
              else matchedBy job.metadata.columns op.parts rest (index - (first + 1)))
          else 0 := by
    refine ⟨[], before.rowsByOp, before.pkRows, by simp [withRows, same], ?_, size, ?_⟩
    · rw [none', foldParts_zero]
      exact .zero
    · intro index
      simp [empty, none']
  cases op with
  | appendFiles files =>
      cases ran
      exact nothing rfl rfl rfl
  | dml stmt =>
      cases ran
      exact nothing rfl rfl rfl
  | append rows =>
      obtain ⟨folded, fold, ran⟩ := bind_eq_ok ran
      have room : (before.rowsByOp.set first rows.length).length = job.ops.length := by
        rw [List.length_set, size]
      obtain ⟨becomes, -, length, added⟩ := foldDmlOps_spec evaluates.computes evaluates.rowLocal fold room
      rw [later] at becomes added
      have counts (index : Nat) : folded.rowsByOp.getD index 0 = before.rowsByOp.getD index 0 +
          if first ≤ index then
            (if index = first then rows.length
              else matchedBy job.metadata.columns {(rows : Part Value)} rest (index - (first + 1)))
          else 0 := by
        rw [added, getD_set_zero _ (size ▸ inside) (clear rows rfl), Nat.add_assoc]
        congr 1
        obtain below | same | above := Nat.lt_trichotomy index first
        · rw [if_neg (by omega), if_neg (by omega), if_neg (by omega)]
        · subst same
          rw [if_pos rfl, if_neg (by omega), if_pos le_rfl, if_pos rfl, Nat.add_zero]
        · rw [if_neg (by omega), if_pos (by omega), if_pos (by omega), if_neg (by omega),
            Nat.zero_add]
      split at ran
      case isTrue none' =>
        cases ran
        rw [List.length_eq_zero_iff] at none'
        refine ⟨[], folded.rowsByOp, before.pkRows, by simp [withRows], ?_, length, counts⟩
        rw [TableOp.parts, ← becomes, none', Multiset.sum_singleton]
        exact .zero
      case isFalse =>
        obtain ⟨out, aligned, ran⟩ := bind_eq_ok ran
        obtain ⟨keys, projected, ran⟩ := bind_eq_ok ran
        cases ran
        have stored := job.aligned_of_alignBatch aligned
        refine ⟨out, folded.rowsByOp, before.pkRows ++ keys, ?_, ?_, length, counts⟩
        · rw [withRows, job.length_of_aligned stored]
        · rw [TableOp.parts, ← becomes, Multiset.sum_singleton]
          exact stored

/-- All buffered appends from an operation on. The induction is on the operations; a later
append's counter is still clear because statements alone add to counters. -/
theorem stageAppends_spec (evaluates : job.Evaluates) {ops : List (TableOp Value)}
    {first : Nat} (here : job.ops.drop first = ops) {before after : Staged Value}
    (size : before.rowsByOp.length = job.ops.length)
    (clear : ∀ index rows, ops[index]? = some (.append rows) →
      before.rowsByOp.getD (first + index) 0 = 0)
    (ran : (ops.zipIdx first).foldlM job.stageAppend before = .ok after) :
    ∃ out rowsByOp pkRows, after = withRows before out rowsByOp pkRows ∧
      job.Appended first ops before out rowsByOp := by
  induction ops generalizing first before with
  | nil =>
      cases ran
      refine ⟨[], after.rowsByOp, after.pkRows, by simp [withRows], .zero, size, ?_⟩
      intro index
      simp [appendedBy]
  | cons op rest ih =>
      rw [List.zipIdx_cons, List.foldlM_cons] at ran
      obtain ⟨middle, stepped, ran⟩ := bind_eq_ok ran
      have later : job.ops.drop (first + 1) = rest := by
        rw [← List.drop_drop, here]
        rfl
      obtain ⟨out, rowsByOp, pkRows, rfl, aligned, length, counts⟩ :=
        job.stageAppend_spec evaluates here size
          (fun rows appends => clear 0 rows (by rw [appends]; rfl)) stepped
      have stillClear (index : Nat) (rows : List (Row Value))
          (appends : rest[index]? = some (.append rows)) :
          (withRows before out rowsByOp pkRows).rowsByOp.getD (first + 1 + index) 0 = 0 := by
        have before' := clear (index + 1) rows appends
        have position : first + 1 + index - (first + 1) = index := by omega
        rw [withRows, counts, if_pos (by omega), if_neg (by omega), position,
          matchedBy_of_append _ _ appends, Nat.add_zero]
        rwa [Nat.add_assoc, Nat.add_comm 1]
      obtain ⟨more, allCounts, keys, rfl, appended⟩ := ih later length stillClear ran
      refine ⟨out ++ more, allCounts, keys, ?_, ?_, appended.size, ?_⟩
      · simp [withRows, Nat.add_assoc]
      · rw [← Multiset.coe_add, appendedParts, Multiset.sum_add]
        exact aligned.add job appended.aligned
      · intro index
        rw [appended.counts, withRows, counts, Nat.add_assoc]
        congr 1
        obtain below | same | above := Nat.lt_trichotomy index first
        · rw [if_neg (by omega), if_neg (by omega), if_neg (by omega)]
        · subst same
          rw [if_pos le_rfl, if_pos rfl, if_neg (by omega), if_pos le_rfl, Nat.sub_self,
            Nat.add_zero, appendedBy]
        · obtain ⟨past, rfl⟩ := Nat.exists_eq_add_of_lt above
          have position : first + past + 1 - first = past + 1 := by omega
          have beyond : first + past + 1 - (first + 1) = past := by omega
          rw [if_pos (by omega), if_neg (by omega), if_pos (by omega), if_pos (by omega), position,
            beyond, appendedBy]

theorem stageFiles_buffered (buffered : Buffered job.ops) (staged : Staged Value) :
    job.ops.zipIdx.foldl stageFiles staged = staged := by
  have each : ∀ pair ∈ job.ops.zipIdx, ∀ staged : Staged Value, stageFiles staged pair = staged := by
    rintro ⟨op, index⟩ mem staged
    have isOp : op ∈ job.ops := List.fst_mem_of_mem_zipIdx mem
    cases op with
    | append rows => rfl
    | appendFiles files => exact absurd rfl (buffered _ isOp files)
    | dml stmt => rfl
  generalize job.ops.zipIdx = pairs at each
  induction pairs with
  | nil => rfl
  | cons pair pairs ih =>
      rw [List.forall_mem_cons] at each
      rw [List.foldl_cons, each.1, ih each.2]

/-! ## The staged snapshot -/

end Job

/-- The files that a manifest list records as removed. -/
def removedFiles (manifests : List ManifestFile) : List DataFile :=
  manifests.flatMap fun manifest =>
    (manifest.entries.filter fun entry => entry.status = .deleted).map ManifestEntry.dataFile

/-! ## What is read once files were written -/

/-- Among items with distinct keys, a key finds its item. -/
theorem find?_of_nodup {α β : Type} [DecidableEq β] (key : α → β) {items : List α}
    (distinct : (items.map key).Nodup) {item : α} (mem : item ∈ items) :
    items.find? (fun other => key other = key item) = some item := by
  induction items with
  | nil => cases mem
  | cons first items ih =>
      rw [List.map_cons, List.nodup_cons] at distinct
      rw [List.find?_cons]
      cases mem with
      | head => simp
      | tail _ mem =>
          have other : key first ≠ key item := by
            intro same
            exact distinct.1 (same ▸ List.mem_map_of_mem mem)
          simp [other, ih distinct.2 mem]

/-- What a reader finds in a data file once some files were written. -/
def readAfter (read : DataFile → Except String (List (Row Value)))
    (written : List (DataFile × List (Row Value))) (file : DataFile) :
    Except String (List (Row Value)) :=
  match written.find? fun other => other.1.filePath = file.filePath with
  | some found => .ok found.2
  | none => read file

/-- A file whose path was not written is read as before. -/
theorem readAfter_of_fresh {read : DataFile → Except String (List (Row Value))}
    {written : List (DataFile × List (Row Value))} {file : DataFile}
    (fresh : ∀ other ∈ written, other.1.filePath ≠ file.filePath) :
    readAfter read written file = read file := by
  have absent : written.find? (fun other => other.1.filePath = file.filePath) = none := by
    rw [List.find?_eq_none]
    intro other mem
    simpa using fresh other mem
  rw [readAfter, absent]

/-- What is read from the written files are the rows that were written. -/
theorem rowsIn_readAfter {read : DataFile → Except String (List (Row Value))}
    {written : List (DataFile × List (Row Value))}
    (distinct : (written.map fun file => file.1.filePath).Nodup) :
    rowsIn (readAfter read written) (written.map Prod.fst : List DataFile) =
      (written.flatMap Prod.snd : Multiset (Row Value)) := by
  have each : ∀ file ∈ written,
      rowsOf (readAfter read written) file.1 = (file.2 : Multiset (Row Value)) := by
    intro file mem
    have found : written.find? (fun other => other.1.filePath = file.1.filePath) = some file :=
      find?_of_nodup (fun file : DataFile × List (Row Value) => file.1.filePath) distinct mem
    rw [rowsOf, readAfter, found]
  generalize readAfter read written = after at each
  clear distinct
  induction written with
  | nil => rfl
  | cons file files ih =>
      rw [List.forall_mem_cons] at each
      rw [List.map_cons, ← Multiset.cons_coe, ← Multiset.singleton_add, rowsIn_add,
        rowsIn_singleton, each.1, ih each.2, List.flatMap_cons, ← Multiset.coe_add]

/-- What a reader finds after the commit in a data file. -/
def PreparedCommit.read (backend : Backend Value) (commit : PreparedCommit Value)
    (file : DataFile) : Except String (List (Row Value)) :=
  match commit.writtenFiles.find? fun written => written.1.filePath = file.filePath with
  | some written => .ok written.2
  | none => backend.readParquetFile file

/-- The data writer keeps every row, and names its files by a fresh identifier. -/
structure Backend.Writes (backend : Backend Value) (old : List ManifestFile) : Prop where
  rows : ∀ rows files, backend.closeWriter rows = .ok files →
    (files.flatMap Prod.snd).Perm rows
  distinct : ∀ rows files, backend.closeWriter rows = .ok files →
    (files.map fun file => file.1.filePath).Nodup
  fresh : ∀ rows files, backend.closeWriter rows = .ok files → ∀ file ∈ files,
    ∀ manifest ∈ old, ∀ entry ∈ manifest.entries, file.1.filePath ≠ entry.dataFile.filePath

/-- The rows of some files, one after another. -/
def tableOf (read : DataFile → Except String (List (Row Value))) (files : List DataFile) :
    List (Row Value) :=
  files.flatMap fun file => (read file).toOption.getD []

theorem coe_tableOf (read : DataFile → Except String (List (Row Value))) (files : List DataFile) :
    (tableOf read files : Multiset (Row Value)) = rowsIn read files := by
  induction files with
  | nil => rfl
  | cons file files ih =>
      have own : ((read file).toOption.getD [] : Multiset (Row Value)) = rowsOf read file := by
        rw [rowsOf]
        cases read file <;> rfl
      rw [tableOf, List.flatMap_cons, ← Multiset.coe_add, own, ← tableOf, ih, ← Multiset.cons_coe,
        ← Multiset.singleton_add, rowsIn_add, rowsIn_singleton]

/-- The commit is the sequential fold of the operations over the head. -/
structure SequentialFold (job : Job Value) (old : List ManifestFile)
    (commit : PreparedCommit Value) : Prop where
  /-- The rows and the counts are those of one operation after another. -/
  rows : ∃ table, inSequence job.backend job.metadata.fields
      (tableOf job.backend.readParquetFile (liveFiles old)) job.ops =
        .ok (table, commit.rowsByOp) ∧
    rowsIn (commit.read job.backend) (liveFiles commit.snapshot.manifests) =
      (table : Multiset (Row Value))
  accounted : ∃ carried rewritten added,
    commit.snapshot.manifests = carried ++ rewritten ++ added ∧ carried.Sublist old ∧
    (∀ manifest ∈ rewritten, ∀ entry ∈ manifest.entries, entry.status ≠ .added) ∧
    (liveFiles old).Perm (liveFiles carried ++ liveFiles rewritten ++ removedFiles rewritten) ∧
    liveFiles added = commit.writtenFiles.map Prod.fst
  once : ((liveFiles old).map DataFile.filePath).Nodup →
    ((liveFiles commit.snapshot.manifests).map DataFile.filePath).Nodup
  unrevived : ∀ manifest ∈ old, ∀ entry ∈ manifest.entries,
    entry.dataFile.filePath ∈ (liveFiles commit.snapshot.manifests).map DataFile.filePath →
    entry.dataFile.filePath ∈ (liveFiles old).map DataFile.filePath
  totals : ∀ total,
    (commit.snapshot.summary.lookup "total-data-files" = some total →
      total = (liveFiles commit.snapshot.manifests).length) ∧
    (commit.snapshot.summary.lookup "total-records" = some total →
      total = ((liveFiles commit.snapshot.manifests).map DataFile.recordCount).sum) ∧
    (commit.snapshot.summary.lookup "total-files-size" = some total →
      total = ((liveFiles commit.snapshot.manifests).map DataFile.fileSizeInBytes).sum)

/-- The stored rows have the columns' types, every row that is met can be cast, and the statements
are computed row by row, treat a row as they treat it cast, and leave what they do not match. -/
structure Job.Steady (job : Job Value) (old : List ManifestFile) : Prop where
  typed : ∀ row ∈ rowsIn job.backend.readParquetFile (liveFiles old),
    alignRow job.backend job.metadata.fields row = .ok row
  rowLocal : RowLocalOps job.ops
  castable : Castable job.backend job.metadata.fields job.metadata.columns
    (partsIn job.backend.readParquetFile (liveFiles old)) job.ops
  agree : CastsAgree job.backend job.metadata.fields job.metadata.columns (fun _ _ => false)
    (partsIn job.backend.readParquetFile (liveFiles old)) job.ops

namespace Job

variable (job : Job Value)

theorem mem_liveFiles {manifests : List ManifestFile} {file : DataFile}
    (mem : file ∈ liveFiles manifests) :
    ∃ manifest ∈ manifests, ∃ entry ∈ manifest.entries, entry.dataFile = file := by
  simp only [liveFiles, List.mem_flatMap, List.mem_map, List.mem_filter] at mem
  obtain ⟨manifest, mem, entry, ⟨inside, -⟩, is⟩ := mem
  exact ⟨manifest, mem, entry, inside, is⟩

theorem liveFiles_rewrittenManifest (staged : Staged Value) :
    liveFiles (job.rewrittenManifest staged).toList =
      staged.existing.map ExistingFile.dataFile := by
  rw [rewrittenManifest]
  split
  case isTrue empty => simp [empty.1]
  case isFalse => simp [liveFiles, List.filter_map, Function.comp_def, ManifestEntry.isAlive]

theorem removedFiles_rewrittenManifest (staged : Staged Value) :
    removedFiles (job.rewrittenManifest staged).toList = staged.deletedFiles := by
  rw [rewrittenManifest, Staged.deletedFiles]
  split
  case isTrue empty => simp [empty.2, removedFiles]
  case isFalse => simp [removedFiles, List.filter_map, Function.comp_def]

theorem liveFiles_addedManifest (files : List DataFile) :
    liveFiles (job.addedManifest files).toList = files := by
  rw [addedManifest]
  split
  case isTrue empty => rw [empty]; rfl
  case isFalse => simp [liveFiles, List.filter_map, Function.comp_def, ManifestEntry.isAlive]

theorem status_rewrittenManifest (staged : Staged Value) :
    ∀ manifest ∈ (job.rewrittenManifest staged).toList, ∀ entry ∈ manifest.entries,
      entry.status ≠ .added := by
  intro manifest mem entry inside
  rw [rewrittenManifest] at mem
  split at mem
  · cases mem
  · rw [Option.toList_some, List.mem_singleton] at mem
    subst mem
    rw [List.mem_append, List.mem_map, List.mem_map] at inside
    obtain ⟨file, -, rfl⟩ | ⟨file, -, rfl⟩ := inside
    · exact nofun
    · exact nofun

theorem distinct_written {old : List ManifestFile} (writes : job.backend.Writes old)
    {files : List (DataFile × List (Row Value))} {rows : List (Row Value)}
    (closed : job.closeFiles rows = .ok files) :
    (files.map fun file => file.1.filePath).Nodup := by
  rw [closeFiles] at closed
  split at closed
  · rw [← Except.ok.inj closed]
    exact .nil
  · exact writes.distinct _ _ closed

theorem fresh_written {old : List ManifestFile} (writes : job.backend.Writes old)
    {files : List (DataFile × List (Row Value))} {rows : List (Row Value)}
    (closed : job.closeFiles rows = .ok files) {file : DataFile × List (Row Value)}
    (mem : file ∈ files) {manifest : ManifestFile} (inOld : manifest ∈ old)
    {entry : ManifestEntry} (inside : entry ∈ manifest.entries) :
    file.1.filePath ≠ entry.dataFile.filePath := by
  rw [closeFiles] at closed
  split at closed
  · rw [← Except.ok.inj closed] at mem
    cases mem
  · exact writes.fresh _ _ closed file mem manifest inOld entry inside

/-- A file that was there before is read as before. -/
theorem read_of_old {old : List ManifestFile} (writes : job.backend.Writes old)
    {commit : PreparedCommit Value} {rows : List (Row Value)}
    (closed : job.closeFiles rows = .ok commit.writtenFiles) {file : DataFile}
    (there : ∃ manifest ∈ old, ∃ entry ∈ manifest.entries, entry.dataFile = file) :
    commit.read job.backend file = job.backend.readParquetFile file := by
  obtain ⟨manifest, inOld, entry, inside, rfl⟩ := there
  apply readAfter_of_fresh
  intro written mem
  exact job.fresh_written writes closed mem inOld inside

/-- What is read from the written files are the rows that were written. -/
theorem rowsIn_written {old : List ManifestFile} (writes : job.backend.Writes old)
    {commit : PreparedCommit Value} {rows : List (Row Value)}
    (closed : job.closeFiles rows = .ok commit.writtenFiles) :
    rowsIn (commit.read job.backend) (commit.writtenFiles.map Prod.fst : List DataFile) =
      (rows : Multiset (Row Value)) := by
  have all : rowsIn (commit.read job.backend) (commit.writtenFiles.map Prod.fst : List DataFile) =
      (commit.writtenFiles.flatMap Prod.snd : Multiset (Row Value)) :=
    rowsIn_readAfter (job.distinct_written writes closed)
  rw [all, Multiset.coe_eq_coe]
  rw [closeFiles] at closed
  split at closed
  case isTrue empty =>
    rw [List.length_eq_zero_iff] at empty
    rw [← Except.ok.inj closed, empty]
    exact .refl _
  case isFalse => exact writes.rows _ _ closed

/-- What the operations are gathered to. -/
theorem gather_spec (evaluates : job.Evaluates) (buffered : Buffered job.ops)
    {head : Option Snapshot} {staged : Staged Value} (gathered : job.gather head = .ok staged) :
    ∃ scanned out rowsByOp pkRows,
      Gathered job (headManifests head)
        { scanned with carried := scanned.carried ++ job.unscannedManifests head } ∧
      staged = withRows scanned out rowsByOp pkRows ∧
      job.Appended 0 job.ops scanned out rowsByOp := by
  obtain ⟨scanned, scan, gathered⟩ := bind_eq_ok gathered
  obtain ⟨appended, append, gathered⟩ := bind_eq_ok gathered
  have spec := job.scanHead_spec evaluates scan
  have size : scanned.rowsByOp.length = job.ops.length := spec.size
  have clear (index : Nat) (rows : List (Row Value))
      (appends : job.ops[index]? = some (.append rows)) :
      scanned.rowsByOp.getD (0 + index) 0 = 0 := by
    rw [Nat.zero_add]
    exact (spec.counts index).trans (matchedBy_of_append _ _ appends)
  obtain ⟨out, rowsByOp, pkRows, rfl, rest⟩ :=
    job.stageAppends_spec evaluates List.drop_zero size clear append
  cases gathered
  rw [job.stageFiles_buffered buffered]
  exact ⟨scanned, out, rowsByOp, pkRows, spec, rfl, rest⟩

theorem produce_spec {head : Option Snapshot} {branch : String}
    {extraProperties : Option (List (String × String))} {staged : Staged Value}
    {commit : PreparedCommit Value}
    (produced : job.produce head branch extraProperties staged = .ok commit) :
    job.closeFiles staged.written = .ok commit.writtenFiles ∧
      commit.rowsByOp = staged.rowsByOp ∧
      commit.snapshot.summary =
        job.summaryOf staged (commit.writtenFiles.map Prod.fst ++ staged.prewritten) ∧
      commit.snapshot.manifests = staged.carried ++ job.unscannedManifests head ++
        (job.rewrittenManifest staged).toList ++
        (job.addedManifest (commit.writtenFiles.map Prod.fst ++ staged.prewritten)).toList := by
  obtain ⟨writtenFiles, closed, produced⟩ := bind_eq_ok produced
  obtain ⟨unscanned, carried, produced⟩ := bind_eq_ok produced
  rw [job.carriedUnscanned_spec carried] at produced
  cases produced
  exact ⟨closed, rfl, rfl, rfl⟩

/-- The totals, when they are written, are those of the kept and the added files. -/
theorem totals_summaryOf (staged : Staged Value) {keptFiles : List DataFile}
    (kept : job.needFileScan = true → staged.kept = statsOf keptFiles)
    (addedFiles : List DataFile) (total : Nat) :
    ((job.summaryOf staged addedFiles).lookup "total-data-files" = some total →
      total = (keptFiles ++ addedFiles).length) ∧
    ((job.summaryOf staged addedFiles).lookup "total-records" = some total →
      total = ((keptFiles ++ addedFiles).map DataFile.recordCount).sum) ∧
    ((job.summaryOf staged addedFiles).lookup "total-files-size" = some total →
      total = ((keptFiles ++ addedFiles).map DataFile.fileSizeInBytes).sum) := by
  have added : addedFiles.foldl FileStats.add ⟨0, 0, 0⟩ = statsOf addedFiles := by
    simpa [statsOf] using foldl_add_statsOf addedFiles 0
  rw [summaryOf, added]
  by_cases scans : job.needFileScan = true
  · rw [if_pos scans, kept scans]
    simp [statsOf, List.lookup_cons, eq_comm]
  · rw [if_neg scans]
    simp [List.lookup_cons]

/-- The live files after the commit are the kept ones and the written ones. -/
theorem liveFiles_of_produce {head : Option Snapshot} {branch : String}
    {extraProperties : Option (List (String × String))} {scanned : Staged Value}
    {out : List (Row Value)} {rowsByOp : List Nat} {pkRows : List (Row Value)}
    {commit : PreparedCommit Value} (noFiles : scanned.prewritten = [])
    (produced : job.produce head branch extraProperties (withRows scanned out rowsByOp pkRows) =
      .ok commit) :
    liveFiles commit.snapshot.manifests =
      ({ scanned with carried := scanned.carried ++ job.unscannedManifests head } :
        Staged Value).keptFiles ++ commit.writtenFiles.map Prod.fst := by
  obtain ⟨-, -, -, manifests⟩ := job.produce_spec produced
  simp only [withRows, noFiles, List.append_nil] at manifests
  rw [manifests, liveFiles_append, liveFiles_append, job.liveFiles_rewrittenManifest,
    job.liveFiles_addedManifest, Staged.keptFiles]

/-- The files of the head that the commit keeps. -/
def keptFilesOf (head : Option Snapshot) (staged : Staged Value) : List DataFile :=
  Staged.keptFiles { staged with carried := staged.carried ++ job.unscannedManifests head }

theorem casts_of_aligned {rows stored : Multiset (Row Value)} (aligned : job.Aligned rows stored) :
    Casts job.backend job.metadata.fields rows stored :=
  Multiset.rel_eq.mp (Multiset.rel_map.mpr aligned)

/-- Over rows of the columns' types, the rows of the kept files and those to be written are those of
the operations, cast. -/
theorem casts_of_gather (evaluates : job.Evaluates) (buffered : Buffered job.ops)
    {head : Option Snapshot}
    (typed : ∀ row ∈ rowsIn job.backend.readParquetFile (liveFiles (headManifests head)),
      alignRow job.backend job.metadata.fields row = .ok row) {staged : Staged Value}
    (gathered : job.gather head = .ok staged) :
    Casts job.backend job.metadata.fields
      (applyOps job.metadata.columns
        (partsIn job.backend.readParquetFile (liveFiles (headManifests head))) job.ops).sum
      (rowsIn job.backend.readParquetFile (job.keptFilesOf head staged) + staged.written) := by
  obtain ⟨scanned, out, rowsByOp, pkRows, spec, rfl, appended⟩ :=
    job.gather_spec evaluates buffered gathered
  obtain ⟨rewritten, becomes, aligned⟩ := spec.rows
  have isWritten : ((withRows scanned out rowsByOp pkRows).written : Multiset (Row Value)) =
      scanned.written + out := (Multiset.coe_add _ _).symm
  rw [applyOps_eq_fold, becomes, Multiset.sum_add, Multiset.sum_add, sum_partsIn, isWritten,
    add_assoc]
  refine Casts.add (casts_self fun row isKept => typed row ?_)
    (job.casts_of_aligned (aligned.add job appended.aligned))
  rw [Multiset.coe_eq_coe.mpr spec.live, ← Multiset.coe_add, rowsIn_add]
  exact Multiset.mem_add.mpr (.inl isKept)

/-- The rows after the commit are those of the kept files, as they were, and the written ones. -/
theorem rows_of_produce (evaluates : job.Evaluates)
    (buffered : Buffered job.ops) {head : Option Snapshot}
    (writes : job.backend.Writes (headManifests head)) {staged : Staged Value}
    (gathered : job.gather head = .ok staged) {branch : String}
    {extraProperties : Option (List (String × String))} {commit : PreparedCommit Value}
    (produced : job.produce head branch extraProperties staged = .ok commit) :
    rowsIn (commit.read job.backend) (liveFiles commit.snapshot.manifests) =
      rowsIn job.backend.readParquetFile (job.keptFilesOf head staged) + staged.written := by
  obtain ⟨scanned, out, rowsByOp, pkRows, spec, rfl, appended⟩ :=
    job.gather_spec evaluates buffered gathered
  have noFiles : scanned.prewritten = [] := spec.prewritten
  have live : liveFiles commit.snapshot.manifests =
      job.keptFilesOf head (withRows scanned out rowsByOp pkRows) ++
        commit.writtenFiles.map Prod.fst := (job.liveFiles_of_produce noFiles produced :)
  obtain ⟨closed, -, -, -⟩ := job.produce_spec produced
  rw [live, ← Multiset.coe_add, rowsIn_add, job.rowsIn_written writes closed]
  congr 1
  apply Multiset.bind_congr
  intro file mem
  have old := mem_liveFiles (spec.live.mem_iff.mpr (List.mem_append_left _ mem))
  rw [rowsOf, rowsOf, job.read_of_old writes closed old]

/-- The counters are those of the operations one after another. -/
theorem rowsByOp_of_gather (evaluates : job.Evaluates) (buffered : Buffered job.ops)
    {head : Option Snapshot} {staged : Staged Value} (gathered : job.gather head = .ok staged) :
    staged.rowsByOp = countOps job.metadata.columns
      (partsIn job.backend.readParquetFile (liveFiles (headManifests head))) job.ops := by
  obtain ⟨scanned, out, rowsByOp, pkRows, spec, rfl, appended⟩ :=
    job.gather_spec evaluates buffered gathered
  apply List.ext_getElem
  · exact appended.size.trans (length_countOps _ _ _).symm
  · intro index first second
    have same : rowsByOp.getD index 0 = (countOps job.metadata.columns
        (partsIn job.backend.readParquetFile (liveFiles (headManifests head))) job.ops).getD
          index 0 := by
      rw [appended.counts, countOps_eq_fold _ _ buffered, if_pos (Nat.zero_le _), Nat.sub_zero]
      congr 1
      exact spec.counts index
    have inside : index < rowsByOp.length := first
    simpa [withRows, inside, second] using same

/-- Over rows of the columns' types, the rows after the commit are those of the operations, cast. -/
theorem casts_of_produce (evaluates : job.Evaluates) (buffered : Buffered job.ops)
    {head : Option Snapshot} (writes : job.backend.Writes (headManifests head))
    (typed : ∀ row ∈ rowsIn job.backend.readParquetFile (liveFiles (headManifests head)),
      alignRow job.backend job.metadata.fields row = .ok row) {staged : Staged Value}
    (gathered : job.gather head = .ok staged) {branch : String}
    {extraProperties : Option (List (String × String))} {commit : PreparedCommit Value}
    (produced : job.produce head branch extraProperties staged = .ok commit) :
    Casts job.backend job.metadata.fields
      (applyOps job.metadata.columns
        (partsIn job.backend.readParquetFile (liveFiles (headManifests head))) job.ops).sum
      (rowsIn (commit.read job.backend) (liveFiles commit.snapshot.manifests)) := by
  rw [job.rows_of_produce evaluates buffered writes gathered produced]
  exact job.casts_of_gather evaluates buffered typed gathered

/-- The staged snapshot is the sequential fold. -/
theorem sequentialFold_of_produce (computes : job.backend.engine.Computes meaning)
    (recasts : Recasts job.backend) (buffered : Buffered job.ops) {head : Option Snapshot}
    (steady : job.Steady (headManifests head))
    (writes : job.backend.Writes (headManifests head)) {staged : Staged Value}
    (gathered : job.gather head = .ok staged) {branch : String}
    {extraProperties : Option (List (String × String))} {commit : PreparedCommit Value}
    (produced : job.produce head branch extraProperties staged = .ok commit) :
    SequentialFold job (headManifests head) commit := by
  have evaluates : job.Evaluates := ⟨computes, steady.rowLocal⟩
  obtain ⟨scanned, out, rowsByOp, pkRows, spec, rfl, appended⟩ :=
    job.gather_spec evaluates buffered gathered
  obtain ⟨closed, counts, summary, manifests⟩ := job.produce_spec produced
  have noFiles : scanned.prewritten = [] := spec.prewritten
  have live := job.liveFiles_of_produce noFiles produced
  simp only [withRows, noFiles, List.append_nil] at closed summary manifests
  generalize kept : ({ scanned with
    carried := scanned.carried ++ job.unscannedManifests head } : Staged Value) = whole at spec live
  have old (file : DataFile) (mem : file ∈ whole.keptFiles) : ∃ manifest ∈ headManifests head,
      ∃ entry ∈ manifest.entries, entry.dataFile = file :=
    mem_liveFiles (spec.live.mem_iff.mpr (List.mem_append_left _ mem))
  refine ⟨?_, ?_, ?_, ?_, ?_⟩
  · have starts : Casts job.backend job.metadata.fields
        (partsIn job.backend.readParquetFile (liveFiles (headManifests head))).sum
        (tableOf job.backend.readParquetFile (liveFiles (headManifests head))) := by
      rw [sum_partsIn, coe_tableOf]
      exact casts_self steady.typed
    obtain ⟨table, ran, becomes⟩ :=
      inSequence_spec recasts steady.castable steady.agree steady.rowLocal starts
    refine ⟨table, ?_, ?_⟩
    · rw [ran, counts, job.rowsByOp_of_gather evaluates buffered gathered]
      rfl
    · exact (job.casts_of_produce evaluates buffered writes steady.typed gathered produced).unique
        becomes
  · refine ⟨scanned.carried ++ job.unscannedManifests head,
      (job.rewrittenManifest (withRows scanned out rowsByOp pkRows)).toList,
      (job.addedManifest (commit.writtenFiles.map Prod.fst)).toList, manifests, ?_,
      job.status_rewrittenManifest _, ?_, job.liveFiles_addedManifest _⟩
    · have sublist := spec.carried
      rwa [← kept] at sublist
    · rw [job.liveFiles_rewrittenManifest, job.removedFiles_rewrittenManifest]
      have perm := spec.live
      rwa [← kept] at perm
  · intro distinct
    rw [live, List.map_append, List.map_map]
    have keptOnce : (whole.keptFiles.map DataFile.filePath).Nodup := by
      have all := (spec.live.map DataFile.filePath).nodup_iff.mp distinct
      rw [List.map_append] at all
      exact all.of_append_left
    apply keptOnce.append (job.distinct_written writes closed)
    intro path isKept isWritten
    rw [List.mem_map] at isKept isWritten
    obtain ⟨file, mem, rfl⟩ := isKept
    obtain ⟨other, otherMem, same⟩ := isWritten
    obtain ⟨manifest, inOld, entry, inside, rfl⟩ := old file mem
    exact job.fresh_written writes closed otherMem inOld inside same
  · intro manifest inOld entry inside revived
    rw [live, List.map_append, List.mem_append, List.map_map, List.mem_map, List.mem_map] at revived
    obtain ⟨file, mem, same⟩ | ⟨other, otherMem, same⟩ := revived
    · rw [← same]
      exact List.mem_map_of_mem (spec.live.mem_iff.mpr (List.mem_append_left _ mem))
    · exact absurd same (job.fresh_written writes closed otherMem inOld inside)
  · intro total
    rw [summary]
    have stats (scans : job.needFileScan = true) : whole.kept = statsOf whole.keptFiles :=
      spec.kept scans
    have sameStats : whole.kept = scanned.kept := by rw [← kept]
    rw [sameStats] at stats
    have sums := job.totals_summaryOf (withRows scanned out rowsByOp pkRows) stats
      (commit.writtenFiles.map Prod.fst) total
    rw [← live] at sums
    simpa only [withRows, noFiles] using sums

/-- No statement matches a row of an existing file, and no appended row survives. -/
def NetsOut (old : List ManifestFile) : Prop :=
  (∀ file ∈ liveFiles old, ∀ index, job.matchedIn {job.rowsOfFile file} index = 0) ∧
    (appendedParts job.metadata.columns job.ops).sum = 0

theorem applyOps_of_netsOut {old : List ManifestFile} (netsOut : job.NetsOut old) :
    (applyOps job.metadata.columns (partsIn job.backend.readParquetFile (liveFiles old))
      job.ops).sum = rowsIn job.backend.readParquetFile (liveFiles old) := by
  rw [applyOps_eq_fold, Multiset.sum_add, netsOut.2, add_zero,
    foldParts_of_unmatched _ (job.matchedIn_partsIn_eq_zero netsOut.1), sum_partsIn]

theorem netsOut_iff {head : Option Snapshot} {staged : Staged Value}
    (evaluates : job.Evaluates) (buffered : Buffered job.ops)
    (gathered : job.gather head = .ok staged) :
    (!staged.anyFileChanged && staged.appendedRows = 0) = true ↔
      job.NetsOut (headManifests head) := by
  obtain ⟨scanned, out, rowsByOp, pkRows, spec, rfl, appended⟩ :=
    job.gather_spec evaluates buffered gathered
  have changed : scanned.anyFileChanged = true ↔ ∃ file ∈ liveFiles (headManifests head),
      ∃ index, 0 < job.matchedIn {job.rowsOfFile file} index := spec.changed
  have none' : scanned.appendedRows = 0 := spec.appended
  have size := Multiset.card_eq_card_of_rel appended.aligned
  rw [Multiset.coe_card] at size
  rw [Bool.and_eq_true, Bool.not_eq_true', decide_eq_true_eq, NetsOut]
  apply and_congr
  · rw [withRows, ← Bool.not_eq_true, changed]
    push Not
    simp only [Nat.le_zero]
  · rw [withRows, none', Nat.zero_add, ← size, Multiset.card_eq_zero]

/-- What a preparation gathers, and whether it produces a commit. -/
theorem prepareCommit_cases [DecidableEq Value] {branch : String}
    {extraProperties : Option (List (String × String))} {head : Option Snapshot}
    (resolved : branchHead job.metadata branch = .ok head)
    {outcome : Option (PreparedCommit Value)}
    (prepared : job.prepareCommit branch extraProperties = .ok outcome) :
    ∃ staged, job.gather head = .ok staged ∧
      (((!staged.anyFileChanged && staged.appendedRows = 0) = true ∧ outcome = none) ∨
        ((!staged.anyFileChanged && staged.appendedRows = 0) ≠ true ∧
          ∃ commit, job.produce head branch extraProperties staged = .ok commit ∧
            outcome = some commit)) := by
  obtain ⟨-, -, prepared⟩ := bind_eq_ok prepared
  obtain ⟨head', found, prepared⟩ := bind_eq_ok prepared
  cases resolved.symm.trans found
  obtain ⟨-, -, prepared⟩ := bind_eq_ok prepared
  obtain ⟨staged, gathered, prepared⟩ := bind_eq_ok prepared
  refine ⟨staged, gathered, ?_⟩
  split at prepared
  case isTrue nothing =>
    cases prepared
    exact .inl ⟨nothing, rfl⟩
  case isFalse something =>
    obtain ⟨-, -, prepared⟩ := bind_eq_ok prepared
    obtain ⟨commit, produced, prepared⟩ := bind_eq_ok prepared
    cases prepared
    exact .inr ⟨something, commit, produced, rfl⟩

/-- Two data files of pairs, one entry that is deleted, and everything written to one new file. -/
def pairsBackend : Backend Nat where
  engine := meaning.engine
  readParquetFile file :=
    if file.filePath = "a" then .ok [[1, 10], [2, 20]]
    else if file.filePath = "b" then .ok [[3, 30]]
    else .error "failed to read data file"
  closeWriter rows := .ok [(⟨"new", rows.length, rows.length⟩, rows)]
  cast _ value := .ok value
  isNull _ := false
  display := toString
  snapshotId := 7

/-- `UPDATE t SET v = k WHERE v = 20` -/
def keyToValue : DmlStatement Nat :=
  ⟨.update [("v", .ofRow fun row => row.getD 0 0)], "t",
    some (.ofRow fun row => some (row.getD 1 0 = 20))⟩

/-- `DELETE FROM t WHERE v = 4` -/
def deleteFour : DmlStatement Nat :=
  ⟨.delete, "t", some (.ofRow fun row => some (row.getD 1 0 = 4))⟩

/-- An append, an update of an old and of the appended row, and a delete of the appended one. -/
def pairsJob : Job Nat where
  backend := pairsBackend
  metadata :=
    { name := "t", uuid := "u", formatVersion := .v2, unpartitioned := true
      fields := [⟨"k", true⟩, ⟨"v", false⟩]
      nextSequenceNumber := 3
      currentSnapshot := some
        { snapshotId := 6
          manifests :=
            [⟨.data, 5, 1, [⟨.added, some 5, none, none, ⟨"a", 2, 2⟩⟩,
                ⟨.deleted, some 6, some 1, some 1, ⟨"z", 1, 1⟩⟩]⟩,
              ⟨.data, 6, 2, [⟨.added, some 6, none, none, ⟨"b", 1, 1⟩⟩]⟩] }
      refs := [] }
  ops := [.append [[4, 20]], .dml keyToValue, .dml deleteFour]
  pk := some ["k"]

theorem alignRow_pairs {row : Row Nat} (size : row.length = 2) :
    alignRow pairsBackend pairsJob.metadata.fields row = .ok row := by
  match row, size with
  | [key, value], _ => rfl

theorem keepsTypes_pairs (stmt : DmlStatement Nat) :
    stmt.KeepsTypes pairsBackend pairsJob.metadata.fields := by
  intro row typed beside next becomes
  have size : row.length = 2 := by
    by_contra other
    have differs : row.length ≠ pairsJob.metadata.fields.length := other
    rw [alignRow, if_pos differs] at typed
    cases typed
  exact alignRow_pairs ((Dml.DmlStatement.length_of_onRow becomes).trans size)

theorem steady_pairs : pairsJob.Steady (headManifests pairsJob.metadata.currentSnapshot) := by
  have files : liveFiles (headManifests pairsJob.metadata.currentSnapshot) =
      [⟨"a", 2, 2⟩, ⟨"b", 1, 1⟩] := rfl
  have stored : ∀ file ∈ liveFiles (headManifests pairsJob.metadata.currentSnapshot),
      ∀ row ∈ rowsOf pairsBackend.readParquetFile file, row.length = 2 := by
    rw [files]
    decide
  have statements : ∀ stmt, .dml stmt ∈ pairsJob.ops → stmt = keyToValue ∨ stmt = deleteFour := by
    intro stmt isOp
    simpa [pairsJob] using isOp
  have rowLocal : keyToValue.RowLocal ∧ deleteFour.RowLocal :=
    ⟨⟨by rintro _ ⟨⟩ rows index row found; simp [meaning, Predicate.ofRow, found],
        by intro assignment mem rows index row found
           rw [List.mem_singleton.mp mem]
           simp [meaning, Expr.ofRow, found]⟩,
      ⟨by rintro _ ⟨⟩ rows index row found; simp [meaning, Predicate.ofRow, found], nofun⟩⟩
  have sameTyped : keyToValue.SameTyped ∧ deleteFour.SameTyped :=
    ⟨by intro assignment mem row value
        rw [List.mem_singleton.mp mem]
        rfl,
      nofun⟩
  have typed : Typed pairsBackend pairsJob.metadata.fields
      (partsIn pairsBackend.readParquetFile
        (liveFiles (headManifests pairsJob.metadata.currentSnapshot))) pairsJob.ops := by
    constructor
    case rows =>
      intro part inside row mem
      obtain ⟨file, isFile, rfl⟩ := Multiset.mem_map.mp inside
      exact alignRow_pairs (stored file isFile row mem)
    case appended =>
      intro rows isOp row mem
      simp only [pairsJob, List.mem_cons, TableOp.append.injEq, reduceCtorEq, List.not_mem_nil,
        or_false] at isOp
      subst isOp
      rw [List.mem_singleton.mp mem]
      rfl
    case keeps => exact fun stmt _ => keepsTypes_pairs stmt
    case sameTyped =>
      intro stmt isOp
      obtain rfl | rfl := statements stmt isOp
      · exact sameTyped.1
      · exact sameTyped.2
  refine ⟨?_, ?_, typed.castable, typed.castsAgree _⟩
  · intro row mem
    obtain ⟨file, isFile, isRow⟩ := Multiset.mem_bind.mp mem
    exact alignRow_pairs (stored file isFile row isRow)
  · intro stmt isOp
    obtain rfl | rfl := statements stmt isOp
    · exact rowLocal.1
    · exact rowLocal.2

end Job

/-! ## A cast in a `CASE` -/

/-- Whole numbers, and doubles that are whole or half numbers. -/
inductive Number where
  | int (value : Nat)
  | half (doubled : Nat)
  deriving DecidableEq

def Number.doubled : Number → Nat
  | .int value => 2 * value
  | .half doubled => doubled

/-- The double next to a whole number below 2^54; a tie goes to the even mantissa. -/
def nearestDouble (value : Nat) : Nat :=
  if value < 2 ^ 53 ∨ value % 2 = 0 then value
  else if value % 4 = 1 then value - 1
  else value + 1

def Number.toDouble : Number → Number
  | .int value => .half (2 * nearestDouble value)
  | .half doubled => .half doubled

namespace Job

/-- One data file of two pairs, of which the second has no double as its value. -/
def doublesBackend : Backend Number where
  engine := meaning.engine
  readParquetFile file :=
    if file.filePath = "a" then .ok [[.int 1, .int 2], [.int 2, .int 9007199254740993]]
    else .error "failed to read data file"
  closeWriter rows := .ok [(⟨"new", rows.length, rows.length⟩, rows)]
  cast _ value := .ok (.int (value.doubled / 2))
  isNull _ := false
  display value := toString value.doubled
  snapshotId := 7

/-- `UPDATE t SET v = v * 0.5 WHERE id = 1` -/
def halveFirst : DmlStatement Number :=
  ⟨.update [("v",
      { value rows index := .half (((rows.getD index []).getD 1 (.int 0)).doubled / 2)
        common _ := Number.toDouble })], "t",
    some (.ofRow fun row => some (row.getD 0 (.int 0) = .int 1))⟩

def doublesJob : Job Number where
  backend := doublesBackend
  metadata :=
    { name := "t", uuid := "u", formatVersion := .v2, unpartitioned := true
      fields := [⟨"id", false⟩, ⟨"v", false⟩]
      nextSequenceNumber := 2
      currentSnapshot := some ⟨6, [⟨.data, 6, 1, [⟨.added, some 6, none, none, ⟨"a", 2, 2⟩⟩]⟩]⟩
      refs := [] }
  ops := [.dml halveFirst]
  pk := none

end Job

end Icegres.Commit
