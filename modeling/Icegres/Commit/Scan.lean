import Mathlib.Algebra.Order.BigOperators.Group.Multiset
import Mathlib.Algebra.Order.Group.Nat
import Mathlib.Data.Multiset.Bind
import Mathlib.Tactic.Abel
import Icegres.Commit.Fold
import Icegres.Commit.Prepare

/-!
# The scan of the head

What the scan files each live data file under, and what it makes of the rows of the head.
-/

namespace Icegres.Commit

variable {Value : Type}

/-- The live files of a manifest list. -/
def liveFiles (manifests : List ManifestFile) : List DataFile :=
  manifests.flatMap fun manifest =>
    (manifest.entries.filter ManifestEntry.isAlive).map ManifestEntry.dataFile

@[simp] theorem liveFiles_nil : liveFiles [] = [] :=
  rfl

theorem liveFiles_append (first second : List ManifestFile) :
    liveFiles (first ++ second) = liveFiles first ++ liveFiles second :=
  List.flatMap_append

/-- The rows a reader finds in a file. -/
def rowsOf (read : DataFile → Except String (List (Row Value))) (file : DataFile) :
    Part Value :=
  match read file with
  | .ok rows => rows
  | .error _ => 0

/-- The rows a reader finds in some files. -/
def rowsIn (read : DataFile → Except String (List (Row Value))) (files : Multiset DataFile) :
    Multiset (Row Value) :=
  files.bind (rowsOf read)

@[simp] theorem rowsIn_zero (read : DataFile → Except String (List (Row Value))) :
    rowsIn read 0 = 0 :=
  Multiset.zero_bind _

theorem rowsIn_add (read : DataFile → Except String (List (Row Value)))
    (first second : Multiset DataFile) :
    rowsIn read (first + second) = rowsIn read first + rowsIn read second :=
  Multiset.add_bind _ _ _

@[simp] theorem rowsIn_singleton (read : DataFile → Except String (List (Row Value)))
    (file : DataFile) : rowsIn read {file} = rowsOf read file :=
  Multiset.singleton_bind _ _

/-- Some files, each a part of its own. -/
def partsIn (read : DataFile → Except String (List (Row Value))) (files : Multiset DataFile) :
    Multiset (Part Value) :=
  files.map (rowsOf read)

@[simp] theorem partsIn_zero (read : DataFile → Except String (List (Row Value))) :
    partsIn read 0 = 0 :=
  rfl

theorem partsIn_add (read : DataFile → Except String (List (Row Value)))
    (first second : Multiset DataFile) :
    partsIn read (first + second) = partsIn read first + partsIn read second :=
  Multiset.map_add _ _ _

@[simp] theorem partsIn_singleton (read : DataFile → Except String (List (Row Value)))
    (file : DataFile) : partsIn read {file} = {rowsOf read file} :=
  Multiset.map_singleton _ _

/-- The parts together hold the rows of the files. -/
theorem sum_partsIn (read : DataFile → Except String (List (Row Value)))
    (files : Multiset DataFile) : (partsIn read files).sum = rowsIn read files :=
  rfl

/-- Parts that no operation matches in are left as they are. -/
theorem foldParts_of_unmatched (columns : List String) {parts : Multiset (Part Value)}
    {ops : List (TableOp Value)} (unmatched : ∀ index, matchedBy columns parts ops index = 0) :
    foldParts columns parts ops = parts := by
  induction ops with
  | nil => rfl
  | cons op ops ih =>
      have first : op.onParts columns parts = parts := by
        cases op with
        | append batch => rfl
        | appendFiles files => rfl
        | dml stmt =>
            have none' := Multiset.sum_eq_zero_iff.mp (unmatched 0)
            rw [TableOp.onParts]
            conv_rhs => rw [← Multiset.map_id parts]
            apply Multiset.map_congr rfl
            intro part mem
            exact stmt.onPart_of_unmatched (none' _ (Multiset.mem_map_of_mem _ mem)) columns
      rw [foldParts_cons, first]
      apply ih
      intro index
      have later := unmatched (index + 1)
      rwa [matchedBy, first] at later

/-- An append matches nothing. -/
theorem matchedBy_of_append (columns : List String) (rows : Multiset (Part Value))
    {ops : List (TableOp Value)} {index : Nat} {batch : List (Row Value)}
    (appends : ops[index]? = some (.append batch)) : matchedBy columns rows ops index = 0 := by
  induction ops generalizing rows index with
  | nil => rfl
  | cons op ops ih =>
      cases index with
      | zero =>
          rw [List.getElem?_cons_zero, Option.some.injEq] at appends
          rw [appends]
          rfl
      | succ index => exact ih _ appends

namespace Job

variable (job : Job Value)

/-- Without a statement nothing is matched. -/
theorem matchedBy_of_no_dml (none' : job.hasDml = false) (rows : Multiset (Part Value))
    (index : Nat) : matchedBy job.metadata.columns rows job.ops index = 0 := by
  rw [hasDml] at none'
  generalize job.ops = ops at none' ⊢
  revert none'
  induction ops generalizing rows index with
  | nil => exact fun _ => rfl
  | cons op ops ih =>
      intro none'
      rw [List.any_cons, Bool.or_eq_false_iff] at none'
      cases index with
      | zero =>
          cases op with
          | append batch => rfl
          | appendFiles files => rfl
          | dml stmt => cases none'.1
      | succ index => exact ih _ _ none'.2

/-- The rows of an existing file. -/
abbrev rowsOfFile (file : DataFile) : Part Value :=
  rowsOf job.backend.readParquetFile file

/-- What the operations match among the rows of some files. -/
abbrev matchedIn (parts : Multiset (Part Value)) (index : Nat) : Nat :=
  matchedBy job.metadata.columns parts job.ops index

theorem matchedIn_add (first second : Multiset (Part Value)) (index : Nat) :
    job.matchedIn (first + second) index =
      job.matchedIn first index + job.matchedIn second index :=
  matchedBy_add _ _ _ _ _

/-- A file's fate is what the operations make of its rows. -/
def Fated (part : Part Value) : FileFate Value → Prop
  | .keep => ∀ index, job.matchedIn {part} index = 0
  | .remove _ => (∃ index, 0 < job.matchedIn {part} index) ∧
      foldParts job.metadata.columns {part} job.ops = {0}
  | .rewrite _ out => (∃ index, 0 < job.matchedIn {part} index) ∧
      foldParts job.metadata.columns {part} job.ops = {(out : Part Value)}

/-- The query engine answers what the queries mean, and the statements are computed row by row. -/
structure Evaluates : Prop where
  computes : job.backend.engine.Computes meaning
  rowLocal : RowLocalOps job.ops

theorem fateOf_spec (evaluates : job.Evaluates) {rows : List (Row Value)}
    {rowsByOp counts : List Nat} {fate : FileFate Value}
    (size : rowsByOp.length = job.ops.length)
    (decided : job.fateOf rows rowsByOp = .ok (fate, counts)) :
    job.Fated rows fate ∧ counts.length = job.ops.length ∧
      ∀ index, counts.getD index 0 =
        rowsByOp.getD index 0 + job.matchedIn {(rows : Part Value)} index := by
  rw [fateOf] at decided
  split at decided
  case isTrue =>
    obtain ⟨folded, ran, decided⟩ := bind_eq_ok decided
    obtain ⟨becomes, changed, length, added⟩ := foldDmlOps_spec evaluates.computes evaluates.rowLocal ran size
    simp only [List.drop_zero, Nat.zero_le, if_true, Nat.sub_zero] at becomes changed added
    split at decided
    case isTrue unchanged =>
      cases decided
      refine ⟨?_, length, added⟩
      intro index
      rw [Bool.not_eq_true'] at unchanged
      simpa [unchanged] using mt (fun some' => changed.mpr ⟨index, some'⟩)
    case isFalse some' =>
      have matched := changed.mp (by simpa using some')
      split at decided
      case isTrue none' =>
        cases decided
        rw [List.length_eq_zero_iff] at none'
        exact ⟨⟨matched, by rw [← becomes, none']; rfl⟩, length, added⟩
      case isFalse =>
        cases decided
        exact ⟨⟨matched, becomes.symm⟩, length, added⟩
  case isFalse no =>
    cases decided
    have unmatched := job.matchedBy_of_no_dml (by simpa using no) {(rows : Part Value)}
    exact ⟨unmatched, size, fun index => by rw [matchedIn, unmatched, Nat.add_zero]⟩

/-! ## One manifest -/

abbrev Fates (Value : Type) := List (ManifestEntry × FileFate Value)

end Job

def FileFate.isKeep : FileFate Value → Bool
  | .keep => true
  | _ => false

namespace Job.Fates

/-- The files of the live entries. -/
def files (fates : Fates Value) : List DataFile :=
  fates.map fun pair => pair.1.dataFile

def kept (fates : Fates Value) : List DataFile :=
  files (fates.filter fun pair => pair.2.isKeep)

def changed (fates : Fates Value) : List DataFile :=
  files (fates.filter fun pair => !pair.2.isKeep)

theorem files_append (first second : Fates Value) :
    files (first ++ second) = files first ++ files second :=
  List.map_append

theorem kept_append (first second : Fates Value) :
    kept (first ++ second) = kept first ++ kept second := by
  rw [kept, List.filter_append, files_append]
  rfl

theorem changed_append (first second : Fates Value) :
    changed (first ++ second) = changed first ++ changed second := by
  rw [changed, List.filter_append, files_append]
  rfl

/-- Every live file is kept or changed. -/
theorem kept_add_changed (fates : Fates Value) :
    (kept fates : Multiset DataFile) + changed fates = files fates := by
  rw [Multiset.coe_add, Multiset.coe_eq_coe, kept, changed, ← files_append]
  exact (List.filter_append_perm _ fates).map _

end Job.Fates

namespace Job

variable (job : Job Value)

/-- What the scan of some entries of a manifest comes to. -/
structure Scanned (entries : List ManifestEntry) (before : ManifestScan Value)
    (fates : Fates Value) (rowsByOp : List Nat) : Prop where
  entries : fates.map Prod.fst = entries.filter ManifestEntry.isAlive
  fated : ∀ pair ∈ fates, job.Fated (job.rowsOfFile pair.1.dataFile) pair.2
  size : rowsByOp.length = job.ops.length
  counts : ∀ index, rowsByOp.getD index 0 = before.staged.rowsByOp.getD index 0 +
    job.matchedIn (partsIn job.backend.readParquetFile (Fates.files fates)) index

/-- The scan after some entries with their fates. -/
def ManifestScan.after (before : ManifestScan Value) (entries : List ManifestEntry)
    (fates : Fates Value) (rowsByOp : List Nat) (pkRows : List (Row Value)) :
    ManifestScan Value where
  rewriteManifest := before.rewriteManifest || entries.any (fun entry => !entry.isAlive) ||
    fates.any fun pair => !pair.2.isKeep
  fates := before.fates ++ fates
  staged :=
    { before.staged with
      rowsByOp, pkRows
      kept := (Fates.kept fates).foldl FileStats.add before.staged.kept
      anyFileChanged :=
        before.staged.anyFileChanged || fates.any fun pair => !pair.2.isKeep }

theorem rowsOfFile_of_read {file : DataFile} {rows : List (Row Value)}
    (read : job.backend.readParquetFile file = .ok rows) : job.rowsOfFile file = rows := by
  rw [rowsOfFile, rowsOf, read]

/-- A live entry is read, and its rows decide its fate. -/
theorem scanEntry_spec (evaluates : job.Evaluates) {entry : ManifestEntry}
    {before after : ManifestScan Value}
    (size : before.staged.rowsByOp.length = job.ops.length)
    (ran : job.scanEntry before entry = .ok after) :
    ∃ fates rowsByOp pkRows, job.Scanned [entry] before fates rowsByOp ∧
      after = before.after [entry] fates rowsByOp pkRows := by
  rw [scanEntry] at ran
  split at ran
  case isTrue dead =>
    cases ran
    rw [Bool.not_eq_true'] at dead
    refine ⟨[], before.staged.rowsByOp, before.staged.pkRows, ⟨?_, ?_, size, ?_⟩, ?_⟩
    · simp [dead]
    · simp
    · intro index
      simp [Fates.files]
    · simp [ManifestScan.after, dead, Fates.kept, Fates.files]
  case isFalse alive =>
    rw [Bool.not_eq_true', Bool.not_eq_false] at alive
    obtain ⟨rows, read, ran⟩ := bind_eq_ok ran
    obtain ⟨⟨fate, rowsByOp⟩, decided, ran⟩ := bind_eq_ok ran
    obtain ⟨keys, projected, ran⟩ := bind_eq_ok ran
    obtain ⟨fated, length, counts⟩ := job.fateOf_spec evaluates size decided
    rw [← job.rowsOfFile_of_read read] at fated counts
    have scanned : job.Scanned [entry] before [(entry, fate)] rowsByOp := by
      refine ⟨by simp [alive], ?_, length, ?_⟩
      · intro pair mem
        rw [List.mem_singleton] at mem
        subst mem
        exact fated
      · simpa [Fates.files] using counts
    refine ⟨[(entry, fate)], rowsByOp, before.staged.pkRows ++ keys, scanned, ?_⟩
    cases fate with
    | keep =>
        cases ran
        simp [ManifestScan.after, alive, FileFate.isKeep, Fates.kept, Fates.files]
    | remove matched =>
        cases ran
        simp [ManifestScan.after, FileFate.isKeep, Fates.kept, Fates.files]
    | rewrite matched out =>
        cases ran
        simp [ManifestScan.after, FileFate.isKeep, Fates.kept, Fates.files]

theorem scanEntries_spec (evaluates : job.Evaluates) {entries : List ManifestEntry}
    {before after : ManifestScan Value}
    (size : before.staged.rowsByOp.length = job.ops.length)
    (ran : entries.foldlM job.scanEntry before = .ok after) :
    ∃ fates rowsByOp pkRows, job.Scanned entries before fates rowsByOp ∧
      after = before.after entries fates rowsByOp pkRows := by
  induction entries generalizing before with
  | nil =>
      cases ran
      refine ⟨[], after.staged.rowsByOp, after.staged.pkRows, ⟨rfl, by simp, size, ?_⟩, ?_⟩
      · intro index
        simp [Fates.files]
      · simp [ManifestScan.after, Fates.kept, Fates.files]
  | cons entry entries ih =>
      rw [List.foldlM_cons] at ran
      obtain ⟨middle, stepped, ran⟩ := bind_eq_ok ran
      obtain ⟨now, nowCounts, nowKeys, here, rfl⟩ := job.scanEntry_spec evaluates size stepped
      obtain ⟨later, rowsByOp, pkRows, there, rfl⟩ := ih here.size ran
      refine ⟨now ++ later, rowsByOp, pkRows, ⟨?_, ?_, there.size, ?_⟩, ?_⟩
      · rw [List.map_append, here.entries, there.entries, ← List.filter_append]
        rfl
      · intro pair mem
        rw [List.mem_append] at mem
        exact mem.elim (here.fated pair) (there.fated pair)
      · intro index
        have middle := here.counts index
        rw [there.counts, Fates.files_append, ← Multiset.coe_add, partsIn_add, matchedIn_add,
          ← Nat.add_assoc, ← middle]
        rfl
      · simp [ManifestScan.after, Fates.kept_append, Bool.or_assoc, Bool.or_left_comm]

/-- A row as it is stored: cast to the types of the columns. -/
def AlignsTo (row stored : Row Value) : Prop :=
  alignRow job.backend job.metadata.fields row = .ok stored

def Aligned (rows stored : Multiset (Row Value)) : Prop :=
  Multiset.Rel job.AlignsTo rows stored

theorem Aligned.add {rows stored rows' stored' : Multiset (Row Value)}
    (first : job.Aligned rows stored) (second : job.Aligned rows' stored') :
    job.Aligned (rows + rows') (stored + stored') :=
  Multiset.Rel.add first second

theorem aligned_of_alignBatch {rows out : List (Row Value)}
    (aligned : alignBatch job.backend job.metadata.fields rows = .ok out) :
    job.Aligned rows out := by
  rw [alignBatch] at aligned
  induction rows generalizing out with
  | nil =>
      cases aligned
      exact .zero
  | cons row rows ih =>
      rw [List.mapM_cons] at aligned
      obtain ⟨stored, first, aligned⟩ := bind_eq_ok aligned
      obtain ⟨rest, more, aligned⟩ := bind_eq_ok aligned
      cases aligned
      have head : job.AlignsTo row stored := first
      exact Multiset.Rel.cons head (ih more)

/-- What filing the fates of a rewritten manifest comes to. -/
structure Filed (fates : Fates Value) (existing : List ExistingFile)
    (deleted : List DeletedFile) (out : List (Row Value)) : Prop where
  existing : existing.map ExistingFile.dataFile = Fates.kept fates
  deleted : deleted.map DeletedFile.dataFile = Fates.changed fates
  rows : ∃ rewritten,
    foldParts job.metadata.columns (partsIn job.backend.readParquetFile (Fates.files fates))
        job.ops =
      partsIn job.backend.readParquetFile (Fates.kept fates) + rewritten ∧
    job.Aligned rewritten.sum out

/-- The commit after some fates are filed. -/
def filed (before : Staged Value) (existing : List ExistingFile) (deleted : List DeletedFile)
    (out : List (Row Value)) : Staged Value :=
  { before with
    existing := before.existing ++ existing
    deleted := before.deleted ++ deleted
    removed := (deleted.map DeletedFile.dataFile).foldl FileStats.add before.removed
    written := before.written ++ out }

theorem fileEntry_spec {manifest : ManifestFile} {pair : ManifestEntry × FileFate Value}
    (fated : job.Fated (job.rowsOfFile pair.1.dataFile) pair.2) {before after : Staged Value}
    (ran : job.fileEntry manifest before pair = .ok after) :
    ∃ existing deleted out, job.Filed [pair] existing deleted out ∧
      after = filed before existing deleted out := by
  obtain ⟨entry, fate⟩ := pair
  cases fate with
  | keep =>
      cases ran
      refine ⟨[manifest.existingFile entry], [], [], ⟨rfl, rfl, 0, ?_, .zero⟩, by simp [filed]⟩
      simpa [Fates.files, Fates.kept, FileFate.isKeep] using foldParts_of_unmatched _ fated
  | remove matched =>
      cases ran
      refine ⟨[], [manifest.deletedFile entry], [], ⟨rfl, rfl, {0}, ?_, .zero⟩, ?_⟩
      · simpa [Fates.files, Fates.kept, FileFate.isKeep] using fated.2
      · simp [filed, ManifestFile.deletedFile]
  | rewrite matched rows =>
      obtain ⟨out, aligned, ran⟩ := bind_eq_ok ran
      cases ran
      refine ⟨[], [manifest.deletedFile entry], out,
        ⟨rfl, rfl, {(rows : Part Value)}, ?_, ?_⟩, ?_⟩
      · simpa [Fates.files, Fates.kept, FileFate.isKeep] using fated.2
      · rw [Multiset.sum_singleton]
        exact job.aligned_of_alignBatch aligned
      · simp [filed, ManifestFile.deletedFile]

theorem fileEntries_spec {manifest : ManifestFile} {fates : Fates Value}
    (fated : ∀ pair ∈ fates, job.Fated (job.rowsOfFile pair.1.dataFile) pair.2)
    {before after : Staged Value}
    (ran : fates.foldlM (job.fileEntry manifest) before = .ok after) :
    ∃ existing deleted out, job.Filed fates existing deleted out ∧
      after = filed before existing deleted out := by
  induction fates generalizing before with
  | nil =>
      cases ran
      exact ⟨[], [], [], ⟨rfl, rfl, 0, by simp [Fates.files, Fates.kept], .zero⟩,
        by simp [filed]⟩
  | cons pair fates ih =>
      rw [List.foldlM_cons] at ran
      obtain ⟨middle, stepped, ran⟩ := bind_eq_ok ran
      rw [List.forall_mem_cons] at fated
      obtain ⟨firstExisting, firstDeleted, firstOut, first, rfl⟩ :=
        job.fileEntry_spec fated.1 stepped
      obtain ⟨existing, deleted, out, rest, rfl⟩ := ih fated.2 ran
      obtain ⟨rewritten, becomes, aligned⟩ := first.rows
      obtain ⟨moreRewritten, restBecomes, restAligned⟩ := rest.rows
      refine ⟨firstExisting ++ existing, firstDeleted ++ deleted, firstOut ++ out,
        ⟨?_, ?_, rewritten + moreRewritten, ?_, ?_⟩, by simp [filed]⟩
      · rw [List.map_append, first.existing, rest.existing, ← Fates.kept_append]
        rfl
      · rw [List.map_append, first.deleted, rest.deleted, ← Fates.changed_append]
        rfl
      · rw [← List.singleton_append, Fates.files_append, Fates.kept_append, ← Multiset.coe_add,
          ← Multiset.coe_add, partsIn_add, partsIn_add, foldParts_add, becomes, restBecomes]
        exact add_add_add_comm _ _ _ _
      · rw [← Multiset.coe_add, Multiset.sum_add]
        exact aligned.add job restAligned

end Job

/-! ## All manifests -/

/-- The accounting of some files. -/
def statsOf (files : Multiset DataFile) : FileStats where
  files := files.card
  records := (files.map DataFile.recordCount).sum
  bytes := (files.map DataFile.fileSizeInBytes).sum

theorem foldl_add_statsOf (files : List DataFile) (before : Multiset DataFile) :
    files.foldl FileStats.add (statsOf before) = statsOf (before + files) := by
  induction files generalizing before with
  | nil => simp
  | cons file files ih =>
      have first : (statsOf before).add file = statsOf (before + {file}) := by
        simp [statsOf, FileStats.add]
      rw [List.foldl_cons, first, ih, ← Multiset.cons_coe, ← Multiset.singleton_add, add_assoc]

/-- The files that stay live: carried ones and rewritten ones. -/
def Staged.keptFiles (staged : Staged Value) : List DataFile :=
  liveFiles staged.carried ++ staged.existing.map ExistingFile.dataFile

def Staged.deletedFiles (staged : Staged Value) : List DataFile :=
  staged.deleted.map DeletedFile.dataFile

/-- What a commit has gathered from the manifests of the head. -/
structure Gathered (job : Job Value) (old : List ManifestFile) (staged : Staged Value) : Prop where
  carried : staged.carried.Sublist old
  /-- Every live file is carried, rewritten or removed. -/
  live : (liveFiles old).Perm (staged.keptFiles ++ staged.deletedFiles)
  /-- The folded rows are those of the kept files and the rewritten ones. -/
  rows : ∃ rewritten,
    foldParts job.metadata.columns (partsIn job.backend.readParquetFile (liveFiles old)) job.ops =
      partsIn job.backend.readParquetFile staged.keptFiles + rewritten ∧
    job.Aligned rewritten.sum staged.written
  kept : job.needFileScan = true → staged.kept = statsOf staged.keptFiles
  changed : staged.anyFileChanged = true ↔
    ∃ file ∈ liveFiles old, ∃ index, 0 < job.matchedIn {job.rowsOfFile file} index
  size : staged.rowsByOp.length = job.ops.length
  counts : ∀ index, staged.rowsByOp.getD index 0 =
    job.matchedIn (partsIn job.backend.readParquetFile (liveFiles old)) index
  appended : staged.appendedRows = 0
  prewritten : staged.prewritten = []

namespace Job

variable (job : Job Value)

theorem gathered_unstaged : Gathered job [] job.unstaged where
  carried := .refl _
  live := .refl _
  rows := ⟨0, by simp [unstaged, Staged.keptFiles], .zero⟩
  kept := fun _ => rfl
  changed := by simp [unstaged]
  size := by simp [unstaged]
  counts := by
    intro index
    simp [unstaged, List.getD_eq_getElem?_getD, List.getElem?_replicate]
    split <;> rfl
  appended := rfl
  prewritten := rfl

/-- A kept file is one that nothing matches in. -/
theorem changed_iff {fates : Fates Value}
    (fated : ∀ pair ∈ fates, job.Fated (job.rowsOfFile pair.1.dataFile) pair.2) :
    (fates.any fun pair => !pair.2.isKeep) = true ↔
      ∃ file ∈ Fates.files fates, ∃ index, 0 < job.matchedIn {job.rowsOfFile file} index := by
  simp only [List.any_eq_true, Fates.files, List.mem_map, exists_exists_and_eq_and]
  apply exists_congr
  intro pair
  apply and_congr_right
  intro mem
  have fate := fated pair mem
  generalize job.rowsOfFile pair.1.dataFile = rows at fate ⊢
  cases is : pair.2 with
  | keep =>
      rw [is] at fate
      have unmatched : ∀ index, job.matchedIn {rows} index = 0 := fate
      simp [FileFate.isKeep, unmatched]
  | remove matched =>
      rw [is] at fate
      simp only [FileFate.isKeep, Bool.not_false, true_iff]
      exact fate.1
  | rewrite matched out =>
      rw [is] at fate
      simp only [FileFate.isKeep, Bool.not_false, true_iff]
      exact fate.1

theorem files_eq_liveFiles {manifest : ManifestFile} {fates : Fates Value}
    (entries : fates.map Prod.fst = manifest.entries.filter ManifestEntry.isAlive) :
    Fates.files fates = liveFiles [manifest] := by
  rw [liveFiles, List.flatMap_singleton, ← entries, List.map_map]
  rfl

theorem matchedIn_partsIn_eq_zero {files : List DataFile}
    (each : ∀ file ∈ files, ∀ index, job.matchedIn {job.rowsOfFile file} index = 0)
    (index : Nat) : job.matchedIn (partsIn job.backend.readParquetFile files) index = 0 := by
  induction files with
  | nil => exact matchedBy_zero _ _ _
  | cons file files ih =>
      rw [List.forall_mem_cons] at each
      rw [← Multiset.cons_coe, ← Multiset.singleton_add, partsIn_add, partsIn_singleton,
        matchedIn_add, each.1, ih each.2]

/-- A manifest whose files are all kept. -/
theorem kept_eq_files {fates : Fates Value}
    (kept : (fates.any fun pair => !pair.2.isKeep) = false) : Fates.kept fates = Fates.files fates := by
  rw [Fates.kept, List.filter_eq_self.mpr]
  intro pair mem
  rw [List.any_eq_false] at kept
  simpa using kept pair mem

/-- A manifest without a changed file is folded to its own rows. -/
theorem foldParts_of_kept {fates : Fates Value}
    (fated : ∀ pair ∈ fates, job.Fated (job.rowsOfFile pair.1.dataFile) pair.2)
    (kept : (fates.any fun pair => !pair.2.isKeep) = false) :
    foldParts job.metadata.columns (partsIn job.backend.readParquetFile (Fates.files fates))
      job.ops = partsIn job.backend.readParquetFile (Fates.files fates) := by
  apply foldParts_of_unmatched
  apply job.matchedIn_partsIn_eq_zero
  intro file mem index
  by_contra some'
  have changed := (job.changed_iff fated).mpr ⟨file, mem, index, Nat.pos_of_ne_zero some'⟩
  rw [kept] at changed
  cases changed

/-- The fates of one more manifest are filed: it is carried, or its entries are rewritten. -/
theorem Gathered.file {old : List ManifestFile} {manifest : ManifestFile} {before : Staged Value}
    (gathered : Gathered job old before) {fates : Fates Value} {rowsByOp : List Nat}
    (spec : job.Scanned manifest.entries ⟨false, [], before⟩ fates rowsByOp)
    (pkRows : List (Row Value)) {carried : List ManifestFile}
    (sublist : carried.Sublist [manifest]) {existing : List ExistingFile}
    {deleted : List DeletedFile} {out : List (Row Value)}
    (keeps : liveFiles carried ++ existing.map ExistingFile.dataFile = Fates.kept fates)
    (deletes : deleted.map DeletedFile.dataFile = Fates.changed fates)
    (rows : ∃ rewritten,
      foldParts job.metadata.columns (partsIn job.backend.readParquetFile (Fates.files fates))
          job.ops =
        partsIn job.backend.readParquetFile (Fates.kept fates) + rewritten ∧
      job.Aligned rewritten.sum out) (removed : FileStats) :
    Gathered job (old ++ [manifest])
      { before with
        carried := before.carried ++ carried
        existing := before.existing ++ existing
        deleted := before.deleted ++ deleted
        removed
        kept := (Fates.kept fates).foldl FileStats.add before.kept
        anyFileChanged :=
          before.anyFileChanged || fates.any fun pair => !pair.2.isKeep
        pkRows
        written := before.written ++ out
        rowsByOp } := by
  have files : Fates.files fates = liveFiles [manifest] := files_eq_liveFiles spec.entries
  generalize afterIs : { before with
        carried := before.carried ++ carried
        existing := before.existing ++ existing
        deleted := before.deleted ++ deleted
        removed
        kept := (Fates.kept fates).foldl FileStats.add before.kept
        anyFileChanged :=
          before.anyFileChanged || fates.any fun pair => !pair.2.isKeep
        pkRows
        written := before.written ++ out
        rowsByOp } = after
  have kept : (after.keptFiles : Multiset DataFile) = before.keptFiles + Fates.kept fates := by
    rw [← afterIs, ← keeps]
    simp only [Staged.keptFiles, liveFiles_append, List.map_append, ← Multiset.coe_add]
    abel
  have gone : (after.deletedFiles : Multiset DataFile) =
      before.deletedFiles + Fates.changed fates := by
    rw [← afterIs, ← deletes]
    simp only [Staged.deletedFiles, List.map_append, ← Multiset.coe_add]
  have live : (liveFiles (old ++ [manifest]) : Multiset DataFile) =
      liveFiles old + Fates.files fates := by
    rw [liveFiles_append, files, ← Multiset.coe_add]
  have before' := Multiset.coe_eq_coe.mpr gathered.live
  refine ⟨?_, ?_, ?_, ?_, ?_, ?_, ?_, ?_, ?_⟩
  · subst afterIs
    exact gathered.carried.append sublist
  · rw [← Multiset.coe_eq_coe, ← Multiset.coe_add, live, kept, gone, before',
      ← Fates.kept_add_changed, ← Multiset.coe_add]
    abel
  · obtain ⟨rewritten, becomes, aligned⟩ := gathered.rows
    obtain ⟨more, moreBecomes, moreAligned⟩ := rows
    refine ⟨rewritten + more, ?_, ?_⟩
    · rw [live, partsIn_add, foldParts_add, becomes, moreBecomes, kept, partsIn_add]
      abel
    · subst afterIs
      rw [← Multiset.coe_add, Multiset.sum_add]
      exact aligned.add job moreAligned
  · intro scans
    rw [kept, ← foldl_add_statsOf, ← gathered.kept scans, ← afterIs]
  · subst afterIs
    rw [Bool.or_eq_true, gathered.changed, job.changed_iff spec.fated, liveFiles_append, files]
    simp only [List.mem_append, or_and_right, exists_or]
  · subst afterIs
    exact spec.size
  · subst afterIs
    intro index
    rw [spec.counts, live, partsIn_add, matchedIn_add, ← gathered.counts]
  · subst afterIs
    exact gathered.appended
  · subst afterIs
    exact gathered.prewritten

/-- One more manifest of the head. -/
theorem scanManifest_spec (evaluates : job.Evaluates) {old : List ManifestFile}
    {manifest : ManifestFile} {before after : Staged Value} (gathered : Gathered job old before)
    (ran : job.scanManifest before manifest = .ok after) :
    Gathered job (old ++ [manifest]) after := by
  obtain ⟨scan, scanned, ran⟩ := bind_eq_ok ran
  obtain ⟨fates, rowsByOp, pkRows, spec, scanIs⟩ :=
    job.scanEntries_spec evaluates gathered.size scanned
  split at ran
  case isTrue untouched =>
    cases ran
    rw [scanIs, Bool.not_eq_true'] at untouched
    have kept := (Bool.or_eq_false_iff.mp untouched).2
    have keeps : liveFiles [manifest] ++ ([] : List ExistingFile).map ExistingFile.dataFile =
        Fates.kept fates := by
      rw [List.map_nil, List.append_nil, kept_eq_files kept, files_eq_liveFiles spec.entries]
    have deletes : ([] : List DeletedFile).map DeletedFile.dataFile = Fates.changed fates := by
      rw [List.map_nil, Fates.changed, List.filter_eq_nil_iff.mpr]
      · rfl
      · exact List.any_eq_false.mp kept
    have filed := Gathered.file job gathered spec pkRows (.refl _) keeps deletes
      ⟨0, by rw [job.foldParts_of_kept spec.fated kept, kept_eq_files kept, add_zero], .zero⟩
      before.removed
    rw [scanIs]
    simpa only [ManifestScan.after, List.append_nil] using filed
  case isFalse =>
    rw [scanIs] at ran
    obtain ⟨existing, deleted, out, filing, rfl⟩ := job.fileEntries_spec spec.fated ran
    have filed := Gathered.file job gathered spec pkRows (List.nil_sublist _)
      (by rw [liveFiles_nil, List.nil_append, filing.existing]) filing.deleted filing.rows
      ((deleted.map DeletedFile.dataFile).foldl FileStats.add before.removed)
    simpa only [Job.filed, ManifestScan.after, List.append_nil] using filed

/-- The manifests of a branch head. -/
def headManifests (head : Option Snapshot) : List ManifestFile :=
  head.elim [] Snapshot.manifests

/-- The manifests that are carried without a scan. -/
def unscannedManifests (head : Option Snapshot) : List ManifestFile :=
  if job.needFileScan then [] else headManifests head

theorem manifestsOf_spec {snapshot : Snapshot} {manifests : List ManifestFile}
    (read : manifestsOf snapshot = .ok manifests) : manifests = snapshot.manifests := by
  rw [manifestsOf] at read
  split at read
  · cases read
  · exact (Except.ok.inj read).symm

theorem carriedUnscanned_spec {head : Option Snapshot} {unscanned : List ManifestFile}
    (carried : job.carriedUnscanned head = .ok unscanned) :
    unscanned = job.unscannedManifests head := by
  rw [unscannedManifests]
  cases head with
  | none =>
      cases carried
      exact (ite_self _).symm
  | some snapshot =>
      rw [carriedUnscanned] at carried
      split at carried
      case isTrue scans =>
        cases carried
        rw [if_pos scans]
      case isFalse scans =>
        rw [if_neg scans, manifestsOf_spec carried]
        rfl

theorem scanManifests_spec (evaluates : job.Evaluates)
    {manifests old : List ManifestFile} {before after : Staged Value}
    (gathered : Gathered job old before)
    (ran : manifests.foldlM job.scanManifest before = .ok after) :
    Gathered job (old ++ manifests) after := by
  induction manifests generalizing old before with
  | nil =>
      cases ran
      rwa [List.append_nil]
  | cons manifest manifests ih =>
      rw [List.foldlM_cons] at ran
      obtain ⟨middle, stepped, ran⟩ := bind_eq_ok ran
      rw [← List.singleton_append, ← List.append_assoc]
      exact ih (job.scanManifest_spec evaluates gathered stepped) ran

/-- Without a scan nothing is matched, and every manifest is carried. -/
theorem gathered_unscanned (scans : ¬job.needFileScan = true) (manifests : List ManifestFile) :
    Gathered job manifests
      { job.unstaged with carried := job.unstaged.carried ++ manifests } := by
  have noDml : job.hasDml = false := by
    rw [needFileScan, Bool.or_eq_true, not_or] at scans
    simpa using scans.1
  have unmatched := job.matchedBy_of_no_dml noDml
  have keeps : ({ job.unstaged with
      carried := job.unstaged.carried ++ manifests } : Staged Value).keptFiles =
      liveFiles manifests := by
    simp [Staged.keptFiles, unstaged]
  refine ⟨.refl _, ?_, ⟨0, ?_, .zero⟩, fun counted => absurd counted scans, ?_,
    job.gathered_unstaged.size, ?_, rfl, rfl⟩
  · rw [keeps, Staged.deletedFiles]
    exact .of_eq (List.append_nil _).symm
  · rw [keeps, add_zero]
    exact foldParts_of_unmatched _ (unmatched _)
  · simp [unstaged, matchedIn, unmatched]
  · intro index
    rw [job.gathered_unstaged.counts, matchedIn, matchedIn, unmatched, unmatched]

/-- The scan of the head gathers all its live files; an append-only commit carries every
manifest instead. -/
theorem scanHead_spec (evaluates : job.Evaluates) {head : Option Snapshot}
    {scanned : Staged Value} (ran : job.scanHead head job.unstaged = .ok scanned) :
    Gathered job (headManifests head)
      { scanned with carried := scanned.carried ++ job.unscannedManifests head } := by
  rw [unscannedManifests]
  cases head with
  | none =>
      cases ran
      simp only [headManifests, Option.elim_none, ite_self, List.append_nil]
      exact job.gathered_unstaged
  | some snapshot =>
      rw [scanHead] at ran
      by_cases scans : job.needFileScan = true
      · simp only [scans, if_true] at ran ⊢
        obtain ⟨manifests, read, ran⟩ := bind_eq_ok ran
        have gathered := job.scanManifests_spec evaluates job.gathered_unstaged ran
        rw [manifestsOf_spec read, List.nil_append] at gathered
        simp only [List.append_nil]
        exact gathered
      · rw [if_neg scans]
        simp only [scans] at ran
        cases ran
        exact job.gathered_unscanned scans snapshot.manifests

end Job

end Icegres.Commit
