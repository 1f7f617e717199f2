import Icegres.Commit.Exact

/-!
# The keys that are checked and the keys that are written

The key of every final row is gathered beside the row itself: from a kept file as the file holds
it, from a rewritten file before its rows are cast to the columns' types, and from appended rows
after. They are the keys of the new snapshot as long as that cast leaves each key as it is.
-/

namespace Icegres.Commit

variable {Value : Type}

/-! ## Keys -/

/-- The key columns of a row, as the check finds them: by the first column of the name in any
case. -/
def checkedKey (columns cols : List String) (row : Row Value) : Row Value :=
  cols.filterMap fun col =>
    (columns.findIdx? fun column => column.toLower = col.toLower).bind fun index => row[index]?

/-- The key columns of a row. -/
def tableKey (columns cols : List String) (row : Row Value) : Row Value :=
  cols.filterMap fun col =>
    (columns.findIdx? fun column => column = col).bind fun index => row[index]?

/-- Each key column is the first column of its name in any case. -/
def FindsColumns (columns cols : List String) : Prop :=
  ∀ col ∈ cols, (columns.findIdx? fun column => column.toLower = col.toLower) =
    columns.findIdx? fun column => column = col

instance (columns cols : List String) : Decidable (FindsColumns columns cols) :=
  inferInstanceAs (Decidable (∀ col ∈ cols, _ = _))

theorem checkedKey_eq {columns cols : List String} (finds : FindsColumns columns cols) :
    (checkedKey columns cols : Row Value → Row Value) = tableKey columns cols := by
  funext row
  rw [checkedKey, tableKey]
  apply List.filterMap_congr
  rintro col mem
  rw [finds col mem]

theorem projectColumns_ok {columns cols : List String} {rows keys : List (Row Value)}
    (projected : Dml.projectColumns columns rows cols = .ok keys) :
    keys = rows.map (checkedKey columns cols) := by
  obtain ⟨indices, found, projected⟩ := bind_eq_ok projected
  cases projected
  have is : indices = cols.filterMap fun col =>
      columns.findIdx? fun column => column.toLower = col.toLower := by
    clear projected
    induction cols generalizing indices with
    | nil =>
        cases found
        rfl
    | cons col cols ih =>
        rw [List.mapM_cons] at found
        obtain ⟨index, first, found⟩ := bind_eq_ok found
        obtain ⟨rest, later, found⟩ := bind_eq_ok found
        cases found
        split at first
        · next index' here =>
          cases first
          rw [List.filterMap_cons, here, ih _ later]
        · cases first
  apply List.map_congr_left
  rintro row -
  rw [is, List.filterMap_filterMap]
  rfl

/-- No key is there twice, and none has a null. -/
structure KeysHold (isNull : Value → Bool) (keys : Multiset (Row Value)) : Prop where
  distinct : keys.Nodup
  present : ∀ key ∈ keys, key.any isNull = false

/-- What the check accepts. -/
theorem checkPk_ok [DecidableEq Value] {backend : Backend Value} {cols : List String}
    {keys : List (Row Value)} {table : String}
    (checked : checkPk backend cols keys table = .ok ()) :
    KeysHold backend.isNull (keys : Multiset (Row Value)) := by
  rw [checkPk, Dml.checkPk] at checked
  split at checked
  · cases checked
  · next noNulls =>
    split at checked
    · cases checked
    · next once =>
      constructor
      · rw [Multiset.coe_nodup, List.nodup_iff_count_le_one]
        rintro key
        by_cases mem : key ∈ keys
        · rw [List.find?_eq_none] at once
          simpa using once key mem
        · rw [List.count_eq_zero_of_not_mem mem]
          exact Nat.zero_le 1
      · rintro key mem
        have none := List.countP_eq_zero.mp (Nat.eq_zero_of_not_pos noNulls) key
          (Multiset.mem_coe.mp mem)
        exact Bool.eq_false_iff.mpr none

namespace Job

variable (job : Job Value) (cols : List String)

abbrev key : Row Value → Row Value :=
  checkedKey job.metadata.columns cols

/-- Casting the rows of a rewritten file to the columns' types leaves their keys. -/
def RewritesKeepKeys (old : List ManifestFile) : Prop :=
  ∀ file ∈ liveFiles old, ∀ rows counts matched out after,
    job.backend.readParquetFile file = .ok rows →
    job.fateOf rows counts = .ok (.rewrite matched out, after) →
    ∀ row ∈ out, ∀ stored, job.AlignsTo row stored → job.key cols stored = job.key cols row

theorem alignBatch_keys {rows out : List (Row Value)}
    (keeps : ∀ row ∈ rows, ∀ stored, job.AlignsTo row stored →
      job.key cols stored = job.key cols row)
    (aligned : alignBatch job.backend job.metadata.fields rows = .ok out) :
    out.map (job.key cols) = rows.map (job.key cols) := by
  rw [alignBatch] at aligned
  induction rows generalizing out with
  | nil =>
      cases aligned
      rfl
  | cons row rows ih =>
      rw [List.mapM_cons] at aligned
      obtain ⟨stored, first, aligned⟩ := bind_eq_ok aligned
      obtain ⟨rest, more, aligned⟩ := bind_eq_ok aligned
      cases aligned
      rw [List.map_cons, List.map_cons, keeps row List.mem_cons_self stored first,
        ih (fun row mem => keeps row (List.mem_cons_of_mem _ mem)) more]

variable {cols}

theorem keyRows_ok (enforced : job.pk = some cols) {rows keys : List (Row Value)}
    (ran : job.keyRows rows = .ok keys) : keys = rows.map (job.key cols) := by
  rw [keyRows, enforced] at ran
  dsimp only [Dml.keyRows] at ran
  split at ran
  · next none =>
    cases ran
    rw [List.length_eq_zero_iff.mp none, List.map_nil]
  · exact projectColumns_ok ran

/-! ## The scan of one manifest -/

variable (cols) in
/-- The keys of a file's final rows. -/
def fateKeys (pair : ManifestEntry × FileFate Value) : Multiset (Row Value) :=
  match pair.2 with
  | .keep => (job.rowsOfFile pair.1.dataFile).map (job.key cols)
  | .remove _ => 0
  | .rewrite _ out => (out : Multiset (Row Value)).map (job.key cols)

/-- The fate was decided from the rows of the file. -/
def Decided (pair : ManifestEntry × FileFate Value) : Prop :=
  ∃ rows counts after, job.backend.readParquetFile pair.1.dataFile = .ok rows ∧
    job.fateOf rows counts = .ok (pair.2, after)

/-- What the scan leaves of the commit as it was. -/
structure SameFiles (before after : Staged Value) : Prop where
  carried : after.carried = before.carried
  existing : after.existing = before.existing
  deleted : after.deleted = before.deleted
  written : after.written = before.written
  prewritten : after.prewritten = before.prewritten

variable (cols) in
/-- The keys that scanning some entries gathers. -/
structure EntriesKeyed (entries : List ManifestEntry) (before after : ManifestScan Value)
    (fates : Fates Value) : Prop where
  filed : after.fates = before.fates ++ fates
  live : fates.map Prod.fst = entries.filter ManifestEntry.isAlive
  decided : ∀ pair ∈ fates, job.Decided pair
  keys : job.pk = some cols → (after.staged.pkRows : Multiset (Row Value)) =
    before.staged.pkRows + (fates.map (job.fateKeys cols)).sum
  same : SameFiles before.staged after.staged
  touched : before.rewriteManifest = true → after.rewriteManifest = true
  kept : after.rewriteManifest = false → ∀ pair ∈ fates, pair.2 = .keep
  alive : after.rewriteManifest = false → entries.filter ManifestEntry.isAlive = entries

theorem keyRowsOf_ok (enforced : job.pk = some cols) {entry : ManifestEntry}
    {rows keys : List (Row Value)} (read : job.backend.readParquetFile entry.dataFile = .ok rows)
    {fate : FileFate Value} (ran : job.keyRowsOf rows fate = .ok keys) :
    (keys : Multiset (Row Value)) = job.fateKeys cols (entry, fate) := by
  rw [fateKeys]
  cases fate with
  | keep =>
      rw [job.keyRows_ok enforced ran, job.rowsOfFile_of_read read]
      rfl
  | remove matched =>
      cases ran
      rfl
  | rewrite matched out =>
      rw [job.keyRows_ok enforced ran]
      rfl

variable (cols) in
theorem scanEntry_keys {entry : ManifestEntry}
    {before after : ManifestScan Value} (ran : job.scanEntry before entry = .ok after) :
    ∃ fates, job.EntriesKeyed cols [entry] before after fates := by
  rw [scanEntry] at ran
  split at ran
  · next dead =>
    cases ran
    rw [Bool.not_eq_true'] at dead
    refine ⟨[], by simp, by simp [dead], by simp, by simp, ⟨rfl, rfl, rfl, rfl, rfl⟩, fun _ => rfl,
      by simp, by rintro ⟨⟩⟩
  · next alive =>
    rw [Bool.not_eq_true', Bool.not_eq_false] at alive
    obtain ⟨rows, read, ran⟩ := bind_eq_ok ran
    obtain ⟨⟨fate, rowsByOp⟩, decided, ran⟩ := bind_eq_ok ran
    obtain ⟨keys, projected, ran⟩ := bind_eq_ok ran
    have gathered (enforced : job.pk = some cols) := job.keyRowsOf_ok enforced read projected
    have decides : ∀ pair ∈ [(entry, fate)], job.Decided pair := by
      rintro pair mem
      rw [List.mem_singleton.mp mem]
      exact ⟨rows, _, _, read, decided⟩
    refine ⟨[(entry, fate)], ?_⟩
    cases fate with
    | keep =>
        cases ran
        refine ⟨rfl, by simp [alive], decides, ?_, ⟨rfl, rfl, rfl, rfl, rfl⟩, id, ?_, ?_⟩
        · intro enforced
          rw [← Multiset.coe_add, gathered enforced]
          simp
        · rintro - pair mem
          rw [List.mem_singleton.mp mem]
        · rintro -
          simp [alive]
    | remove matched =>
        cases ran
        refine ⟨rfl, by simp [alive], decides, ?_, ⟨rfl, rfl, rfl, rfl, rfl⟩, fun _ => rfl,
          by rintro ⟨⟩, by rintro ⟨⟩⟩
        intro enforced
        rw [← Multiset.coe_add, gathered enforced]
        simp
    | rewrite matched out =>
        cases ran
        refine ⟨rfl, by simp [alive], decides, ?_, ⟨rfl, rfl, rfl, rfl, rfl⟩, fun _ => rfl,
          by rintro ⟨⟩, by rintro ⟨⟩⟩
        intro enforced
        rw [← Multiset.coe_add, gathered enforced]
        simp

variable (cols) in
theorem scanEntries_keys {entries : List ManifestEntry}
    {before after : ManifestScan Value} (ran : entries.foldlM job.scanEntry before = .ok after) :
    ∃ fates, job.EntriesKeyed cols entries before after fates := by
  induction entries generalizing before with
  | nil =>
      cases ran
      exact ⟨[], by simp, rfl, by simp, by simp, ⟨rfl, rfl, rfl, rfl, rfl⟩, id, by simp,
        fun _ => rfl⟩
  | cons entry entries ih =>
      rw [List.foldlM_cons] at ran
      obtain ⟨middle, stepped, ran⟩ := bind_eq_ok ran
      obtain ⟨now, here⟩ := job.scanEntry_keys cols stepped
      obtain ⟨later, there⟩ := ih ran
      have untouched (none : after.rewriteManifest = false) : middle.rewriteManifest = false := by
        by_contra touched
        rw [Bool.not_eq_false] at touched
        rw [there.touched touched] at none
        cases none
      refine ⟨now ++ later, ?_, ?_, ?_, ?_, ?_, ?_, ?_, ?_⟩
      · rw [there.filed, here.filed, List.append_assoc]
      · rw [List.map_append, here.live, there.live, ← List.filter_append]
        rfl
      · rintro pair mem
        exact (List.mem_append.mp mem).elim (here.decided pair) (there.decided pair)
      · intro enforced
        rw [there.keys enforced, here.keys enforced, List.map_append, List.sum_append, add_assoc]
      · exact ⟨there.same.carried.trans here.same.carried,
          there.same.existing.trans here.same.existing,
          there.same.deleted.trans here.same.deleted,
          there.same.written.trans here.same.written,
          there.same.prewritten.trans here.same.prewritten⟩
      · exact fun touched => there.touched (here.touched touched)
      · rintro none pair mem
        exact (List.mem_append.mp mem).elim (here.kept (untouched none) pair)
          (there.kept none pair)
      · intro none
        rw [← List.singleton_append, List.filter_append, here.alive (untouched none),
          there.alive none]

/-! ## All manifests -/

variable (cols) in
/-- The key is enforced, and rewriting files leaves the keys. -/
def Enforces (old : List ManifestFile) : Prop :=
  job.pk = some cols ∧ job.RewritesKeepKeys cols old

variable (cols) in
/-- What is gathered comes from the head, and its keys are those of the kept files and of the rows
to be written. -/
structure Keyed (old : List ManifestFile) (staged : Staged Value) : Prop where
  keys : job.Enforces cols old → (staged.pkRows : Multiset (Row Value)) =
    (rowsIn job.backend.readParquetFile staged.keptFiles + staged.written).map (job.key cols)
  kept : ∀ file ∈ staged.keptFiles, file ∈ liveFiles old
  deleted : ∀ file ∈ staged.deletedFiles, file ∈ liveFiles old
  carried : ∀ manifest ∈ staged.carried, manifest ∈ old
  prewritten : staged.prewritten = []

variable (cols) in
/-- What filing some fates adds to the kept files and to the rows to be written. -/
structure FilesKeyed (old : List ManifestFile) (fates : Fates Value) (before after : Staged Value) :
    Prop where
  keys : job.RewritesKeepKeys cols old →
    (rowsIn job.backend.readParquetFile after.keptFiles + after.written).map (job.key cols) =
      (rowsIn job.backend.readParquetFile before.keptFiles + before.written).map (job.key cols) +
        (fates.map (job.fateKeys cols)).sum
  kept : ∀ file ∈ after.keptFiles, file ∈ before.keptFiles ∨ file ∈ Fates.files fates
  deleted : ∀ file ∈ after.deletedFiles, file ∈ before.deletedFiles ∨ file ∈ Fates.files fates
  carried : after.carried = before.carried
  gathered : after.pkRows = before.pkRows
  prewritten : after.prewritten = before.prewritten

variable (cols) in
theorem fileEntry_keys {old : List ManifestFile} {manifest : ManifestFile}
    {pair : ManifestEntry × FileFate Value} (decided : job.Decided pair)
    (live : pair.1.dataFile ∈ liveFiles old) {before after : Staged Value}
    (ran : job.fileEntry manifest before pair = .ok after) :
    job.FilesKeyed cols old [pair] before after := by
  obtain ⟨entry, fate⟩ := pair
  cases fate with
  | keep =>
      cases ran
      refine ⟨?_, ?_, fun file mem => .inl mem, rfl, rfl, rfl⟩
      · rintro -
        simp only [Staged.keptFiles, List.map_append, List.map_cons, List.map_nil, fateKeys,
          ManifestFile.existingFile, ← Multiset.coe_add, rowsIn_add, Multiset.map_add,
          Multiset.coe_singleton, rowsIn_singleton, List.sum_singleton]
        abel
      · rintro file mem
        simp only [Staged.keptFiles, List.map_append, List.map_cons, List.map_nil,
          ManifestFile.existingFile, ← List.append_assoc] at mem ⊢
        exact (List.mem_append.mp mem).imp_right id
  | remove matched =>
      cases ran
      refine ⟨?_, fun file mem => .inl mem, ?_, rfl, rfl, rfl⟩
      · simp [fateKeys, Staged.keptFiles]
      · rintro file mem
        simp only [Staged.deletedFiles, List.map_append] at mem
        exact List.mem_append.mp mem
  | rewrite matched out =>
      obtain ⟨stored, aligned, ran⟩ := bind_eq_ok ran
      cases ran
      obtain ⟨rows, counts, after, read, fate⟩ := decided
      refine ⟨?_, fun file mem => .inl mem, ?_, rfl, rfl, rfl⟩
      · intro keeps
        have same := job.alignBatch_keys cols
          (keeps _ live rows counts matched out after read fate) aligned
        simp only [Staged.keptFiles, fateKeys, ← Multiset.coe_add, Multiset.map_add,
          Multiset.map_coe, same, List.map_cons, List.map_nil, List.sum_singleton, ← add_assoc]
      · rintro file mem
        simp only [Staged.deletedFiles, List.map_append] at mem
        exact List.mem_append.mp mem

variable (cols) in
theorem fileEntries_keys {old : List ManifestFile} {manifest : ManifestFile}
    {fates : Fates Value} (decided : ∀ pair ∈ fates, job.Decided pair)
    (live : ∀ file ∈ Fates.files fates, file ∈ liveFiles old) {before after : Staged Value}
    (ran : fates.foldlM (job.fileEntry manifest) before = .ok after) :
    job.FilesKeyed cols old fates before after := by
  induction fates generalizing before with
  | nil =>
      cases ran
      exact ⟨by simp, fun file mem => .inl mem, fun file mem => .inl mem, rfl, rfl, rfl⟩
  | cons pair fates ih =>
      rw [List.foldlM_cons] at ran
      obtain ⟨middle, stepped, ran⟩ := bind_eq_ok ran
      rw [List.forall_mem_cons] at decided
      have here := job.fileEntry_keys cols decided.1 (live _ List.mem_cons_self) stepped
      have there := ih decided.2 (fun file mem => live file (List.mem_cons_of_mem _ mem)) ran
      refine ⟨?_, ?_, ?_, there.carried.trans here.carried, there.gathered.trans here.gathered,
        there.prewritten.trans here.prewritten⟩
      · intro keeps
        rw [there.keys keeps, here.keys keeps, add_assoc, ← List.sum_append, ← List.map_append,
          List.singleton_append]
      · rintro file mem
        obtain earlier | now := there.kept file mem
        · obtain before' | first := here.kept file earlier
          · exact .inl before'
          · exact .inr (List.mem_cons.mpr (.inl (List.mem_singleton.mp first)))
        · exact .inr (List.mem_cons_of_mem _ now)
      · rintro file mem
        obtain earlier | now := there.deleted file mem
        · obtain before' | first := here.deleted file earlier
          · exact .inl before'
          · exact .inr (List.mem_cons.mpr (.inl (List.mem_singleton.mp first)))
        · exact .inr (List.mem_cons_of_mem _ now)

/-- A manifest whose files are all kept gathers the keys of its files. -/
theorem sum_fateKeys_of_kept {fates : Fates Value} (kept : ∀ pair ∈ fates, pair.2 = .keep) :
    (fates.map (job.fateKeys cols)).sum =
      (rowsIn job.backend.readParquetFile (Fates.files fates)).map (job.key cols) := by
  induction fates with
  | nil => simp [Fates.files]
  | cons pair fates ih =>
      rw [List.forall_mem_cons] at kept
      have files : (Fates.files (pair :: fates) : Multiset DataFile) =
          {pair.1.dataFile} + Fates.files fates := by
        rw [Multiset.singleton_add, Multiset.cons_coe]
        rfl
      rw [List.map_cons, List.sum_cons, ih kept.2, fateKeys, kept.1, files, rowsIn_add,
        rowsIn_singleton, Multiset.map_add]

variable (cols) in
theorem scanManifest_keys {old : List ManifestFile} {manifest : ManifestFile}
    (inOld : manifest ∈ old) {before after : Staged Value} (keyed : job.Keyed cols old before)
    (ran : job.scanManifest before manifest = .ok after) : job.Keyed cols old after := by
  obtain ⟨scan, scanned, ran⟩ := bind_eq_ok ran
  obtain ⟨fates, spec⟩ := job.scanEntries_keys cols scanned
  have filed : scan.fates = fates := by
    rw [spec.filed, List.nil_append]
  have files : Fates.files fates = liveFiles [manifest] := files_eq_liveFiles spec.live
  have live : ∀ file ∈ Fates.files fates, file ∈ liveFiles old := by
    rintro file mem
    rw [files, liveFiles, List.flatMap_singleton] at mem
    exact List.mem_flatMap.mpr ⟨manifest, inOld, mem⟩
  have keptFiles : scan.staged.keptFiles = before.keptFiles := by
    rw [Staged.keptFiles, Staged.keptFiles, spec.same.carried, spec.same.existing]
  have keys (enforces : job.Enforces cols old) : (scan.staged.pkRows : Multiset (Row Value)) =
      (rowsIn job.backend.readParquetFile before.keptFiles + before.written).map (job.key cols) +
        (fates.map (job.fateKeys cols)).sum := by
    rw [spec.keys enforces.1, keyed.keys enforces]
  split at ran
  case isTrue untouched =>
    cases ran
    rw [Bool.not_eq_true'] at untouched
    have kept : (({ scan.staged with carried := scan.staged.carried ++ [manifest] } :
        Staged Value).keptFiles : Multiset DataFile) =
        before.keptFiles + Fates.files fates := by
      rw [files, ← keptFiles]
      simp only [Staged.keptFiles, liveFiles_append, ← Multiset.coe_add]
      abel
    refine ⟨?_, ?_, ?_, ?_, ?_⟩
    · intro enforces
      rw [kept, rowsIn_add]
      simp only [spec.same.written]
      rw [keys enforces, job.sum_fateKeys_of_kept (spec.kept untouched), ← Multiset.map_add]
      congr 1
      abel
    · rintro file mem
      have mem' := Multiset.mem_coe.mpr mem
      rw [kept, Multiset.mem_add] at mem'
      exact mem'.elim (fun earlier => keyed.kept file earlier) (fun now => live file now)
    · rintro file mem
      rw [Staged.deletedFiles, spec.same.deleted] at mem
      exact keyed.deleted file mem
    · rintro other mem
      rw [spec.same.carried] at mem
      obtain earlier | now := List.mem_append.mp mem
      · exact keyed.carried other earlier
      · rwa [List.mem_singleton.mp now]
    · exact spec.same.prewritten.trans keyed.prewritten
  case isFalse =>
    rw [filed] at ran
    have filing := job.fileEntries_keys cols spec.decided live ran
    refine ⟨?_, ?_, ?_, ?_, ?_⟩
    · intro enforces
      rw [filing.keys enforces.2, filing.gathered, keys enforces, keptFiles, spec.same.written]
    · rintro file mem
      obtain earlier | now := filing.kept file mem
      · rw [keptFiles] at earlier
        exact keyed.kept file earlier
      · exact live file now
    · rintro file mem
      obtain earlier | now := filing.deleted file mem
      · rw [Staged.deletedFiles, spec.same.deleted] at earlier
        exact keyed.deleted file earlier
      · exact live file now
    · rw [filing.carried, spec.same.carried]
      exact keyed.carried
    · rw [filing.prewritten, spec.same.prewritten, keyed.prewritten]

variable (cols) in
theorem scanManifests_keys {old manifests : List ManifestFile}
    (inOld : ∀ manifest ∈ manifests, manifest ∈ old) {before after : Staged Value}
    (keyed : job.Keyed cols old before)
    (ran : manifests.foldlM job.scanManifest before = .ok after) : job.Keyed cols old after := by
  induction manifests generalizing before with
  | nil =>
      cases ran
      exact keyed
  | cons manifest manifests ih =>
      rw [List.foldlM_cons] at ran
      obtain ⟨middle, stepped, ran⟩ := bind_eq_ok ran
      rw [List.forall_mem_cons] at inOld
      exact ih inOld.2 (job.scanManifest_keys cols inOld.1 keyed stepped) ran

variable (cols) in
theorem scanHead_keys {head : Option Snapshot} {scanned : Staged Value}
    (ran : job.scanHead head job.unstaged = .ok scanned) :
    job.Keyed cols (headManifests head) scanned := by
  have unstaged : job.Keyed cols (headManifests head) job.unstaged :=
    ⟨by simp [unstaged, Staged.keptFiles], by simp [unstaged, Staged.keptFiles],
      by simp [unstaged, Staged.deletedFiles], by simp [unstaged], rfl⟩
  cases head with
  | none =>
      cases ran
      exact unstaged
  | some snapshot =>
      rw [scanHead] at ran
      split at ran
      · obtain ⟨manifests, read, ran⟩ := bind_eq_ok ran
        rw [manifestsOf_spec read] at ran
        exact job.scanManifests_keys cols (fun manifest mem => mem) unstaged ran
      · cases ran
        exact unstaged

/-! ## The appended rows -/

theorem stageAppend_keys {old : List ManifestFile} {before after : Staged Value}
    (keyed : job.Keyed cols old before) {pair : TableOp Value × Nat}
    (ran : job.stageAppend before pair = .ok after) : job.Keyed cols old after := by
  obtain ⟨op, index⟩ := pair
  cases op with
  | appendFiles files =>
      cases ran
      exact keyed
  | dml stmt =>
      cases ran
      exact keyed
  | append rows =>
      obtain ⟨folded, -, ran⟩ := bind_eq_ok ran
      split at ran
      · cases ran
        exact ⟨keyed.keys, keyed.kept, keyed.deleted, keyed.carried, keyed.prewritten⟩
      · obtain ⟨aligned, -, ran⟩ := bind_eq_ok ran
        obtain ⟨keys, projected, ran⟩ := bind_eq_ok ran
        cases ran
        refine ⟨?_, keyed.kept, keyed.deleted, keyed.carried, keyed.prewritten⟩
        intro enforces
        rw [job.keyRows_ok enforces.1 projected]
        simp only [← Multiset.coe_add, keyed.keys enforces, Staged.keptFiles, Multiset.map_add,
          Multiset.map_coe, add_assoc]

theorem stageAppends_keys {old : List ManifestFile} {pairs : List (TableOp Value × Nat)}
    {before after : Staged Value} (keyed : job.Keyed cols old before)
    (ran : pairs.foldlM job.stageAppend before = .ok after) : job.Keyed cols old after := by
  induction pairs generalizing before with
  | nil =>
      cases ran
      exact keyed
  | cons pair pairs ih =>
      rw [List.foldlM_cons] at ran
      obtain ⟨middle, stepped, ran⟩ := bind_eq_ok ran
      exact ih (job.stageAppend_keys keyed stepped) ran

variable (cols) in
theorem gather_keys (buffered : Buffered job.ops) {head : Option Snapshot}
    {staged : Staged Value} (gathered : job.gather head = .ok staged) :
    job.Keyed cols (headManifests head) staged := by
  obtain ⟨scanned, scan, gathered⟩ := bind_eq_ok gathered
  obtain ⟨appended, append, gathered⟩ := bind_eq_ok gathered
  cases gathered
  rw [job.stageFiles_buffered buffered]
  exact job.stageAppends_keys (job.scanHead_keys cols scan) append

/-! ## The new snapshot -/

/-- The keys of the new snapshot are those that are gathered. -/
theorem keys_of_produce {head : Option Snapshot}
    (enforces : job.Enforces cols (headManifests head))
    (writes : job.backend.Writes (headManifests head)) {staged : Staged Value}
    (keyed : job.Keyed cols (headManifests head) staged) {branch : String}
    {extraProperties : Option (List (String × String))} {commit : PreparedCommit Value}
    (produced : job.produce head branch extraProperties staged = .ok commit) :
    (rowsIn (commit.read job.backend) (liveFiles commit.snapshot.manifests)).map (job.key cols) =
      staged.pkRows := by
  obtain ⟨closed, -, -, manifests⟩ := job.produce_spec produced
  have scans : job.needFileScan = true := by
    rw [needFileScan, enforces.1]
    exact Bool.or_true _
  have live : liveFiles commit.snapshot.manifests =
      staged.keptFiles ++ commit.writtenFiles.map Prod.fst := by
    rw [manifests, unscannedManifests, if_pos scans, List.append_nil, keyed.prewritten,
      List.append_nil, liveFiles_append, liveFiles_append, job.liveFiles_rewrittenManifest,
      job.liveFiles_addedManifest, Staged.keptFiles]
  have keptRows : rowsIn (commit.read job.backend) staged.keptFiles =
      rowsIn job.backend.readParquetFile staged.keptFiles := by
    apply Multiset.bind_congr
    rintro file mem
    rw [rowsOf, rowsOf, job.read_of_old writes closed (mem_liveFiles (keyed.kept file mem))]
  rw [live, ← Multiset.coe_add, rowsIn_add, keptRows, job.rowsIn_written writes closed,
    keyed.keys enforces]

/-- Every file of the new snapshot is one of the head or was written for it. -/
theorem files_of_produce {head : Option Snapshot} {staged : Staged Value}
    (keyed : job.Keyed cols (headManifests head) staged) {branch : String}
    {extraProperties : Option (List (String × String))} {commit : PreparedCommit Value}
    (produced : job.produce head branch extraProperties staged = .ok commit)
    {manifest : ManifestFile} (mem : manifest ∈ commit.snapshot.manifests)
    {entry : ManifestEntry} (inside : entry ∈ manifest.entries) :
    (∃ other ∈ headManifests head, ∃ old ∈ other.entries, old.dataFile = entry.dataFile) ∨
      ∃ written ∈ commit.writtenFiles, written.1 = entry.dataFile := by
  obtain ⟨-, -, -, manifests⟩ := job.produce_spec produced
  rw [manifests, keyed.prewritten, List.append_nil] at mem
  simp only [List.mem_append] at mem
  obtain ((carried | unscanned) | rewritten) | added := mem
  · exact .inl ⟨manifest, keyed.carried manifest carried, entry, inside, rfl⟩
  · rw [unscannedManifests] at unscanned
    split at unscanned
    · cases unscanned
    · exact .inl ⟨manifest, unscanned, entry, inside, rfl⟩
  · rw [rewrittenManifest] at rewritten
    split at rewritten
    · cases rewritten
    · rw [Option.mem_toList.mp rewritten |> Option.some.inj |>.symm] at inside
      left
      obtain kept | deleted := List.mem_append.mp inside
      · obtain ⟨file, mem, rfl⟩ := List.mem_map.mp kept
        exact mem_liveFiles (keyed.kept _ (List.mem_append_right _ (List.mem_map_of_mem mem)))
      · obtain ⟨file, mem, rfl⟩ := List.mem_map.mp deleted
        exact mem_liveFiles (keyed.deleted _ (List.mem_map_of_mem mem))
  · rw [addedManifest] at added
    split at added
    · cases added
    · rw [Option.mem_toList.mp added |> Option.some.inj |>.symm] at inside
      obtain ⟨file, mem, rfl⟩ := List.mem_map.mp inside
      obtain ⟨written, isWritten, rfl⟩ := List.mem_map.mp mem
      exact .inr ⟨written, isWritten, rfl⟩

variable (cols) in
/-- A prepared commit has been gathered and produced, and its keys are checked. -/
theorem prepareCommit_keyed [DecidableEq Value] (buffered : Buffered job.ops) {branch : String}
    {extraProperties : Option (List (String × String))} {head : Option Snapshot}
    (resolved : branchHead job.metadata branch = .ok head) {commit : PreparedCommit Value}
    (prepared : job.prepareCommit branch extraProperties = .ok (some commit)) :
    ∃ staged, job.Keyed cols (headManifests head) staged ∧
      job.produce head branch extraProperties staged = .ok commit ∧
      (job.pk = some cols →
        KeysHold job.backend.isNull (staged.pkRows : Multiset (Row Value))) := by
  obtain ⟨-, -, prepared⟩ := bind_eq_ok prepared
  obtain ⟨head', found, prepared⟩ := bind_eq_ok prepared
  cases resolved.symm.trans found
  obtain ⟨-, -, prepared⟩ := bind_eq_ok prepared
  obtain ⟨staged, gathered, prepared⟩ := bind_eq_ok prepared
  split at prepared
  · cases prepared
  · obtain ⟨_, checked, prepared⟩ := bind_eq_ok prepared
    obtain ⟨produced, ran, prepared⟩ := bind_eq_ok prepared
    cases prepared
    refine ⟨staged, job.gather_keys cols buffered gathered, ran, ?_⟩
    intro enforced
    apply checkPk_ok
    rw [← checked, enforcePk, enforced]
    rfl

end Job

end Icegres.Commit
