import Icegres.Session.Statements

/-!
# What a transaction shows and what its COMMIT stores

The transaction evaluates a statement over all its rows and casts them after every statement, COMMIT
folds the statements over the uncast rows of each data file and casts once. Both come to the same
when every statement treats a row that it meets in its file as it treats the row, cast to the
columns' types, among all of them.
-/

namespace Icegres.Session

open Icegres.Commit

variable {Value : Type}

variable {backend : Backend Value} {fields : List Field}

/-! ## The session -/

/-- What the session keeps of a pinned table: the effective rows are the rows of the operations,
cast, and the client was told their counts. -/
structure Follows (backend : Backend Value) (live : Multiset (Commit.Part Value))
    (table : SessionTable Value) : Prop where
  rows : ∀ rows, table.materialized = some rows →
    Casts backend table.pinned.fields (applyOps table.columns live table.ops).sum rows
  appended : table.materialized = none →
    (applyOps table.columns live table.ops).sum = live.sum + table.appendBatches
  typed : ∀ row ∈ table.appendBatches, alignRow backend table.pinned.fields row = .ok row
  answers : table.answers = countOps table.columns live table.ops
  buffered : Buffered table.ops

theorem follows_pin (backend : Backend Value) (live : Multiset (Commit.Part Value)) (pinned : Table) :
    Follows backend live (.pin pinned) where
  rows := by
    rintro rows ⟨⟩
  appended := by
    intro _
    simp [SessionTable.pin, SessionTable.appendBatches, applyOps]
  typed := by simp [SessionTable.pin, SessionTable.appendBatches]
  answers := rfl
  buffered := by
    intro op inside
    cases inside

/-- The pinned scan reads the live files. -/
theorem rowsIn_of_mapM {read : DataFile → Except String (List (Row Value))}
    {files : List DataFile} {rows : List (List (Row Value))} (scanned : files.mapM read = .ok rows) :
    (rows.flatten : Multiset (Row Value)) = rowsIn read files := by
  induction files generalizing rows with
  | nil =>
      cases scanned
      rfl
  | cons file files ih =>
      rw [List.mapM_cons] at scanned
      obtain ⟨first, own, scanned⟩ := bind_eq_ok scanned
      obtain ⟨rest, more, scanned⟩ := bind_eq_ok scanned
      cases scanned
      rw [List.flatten_cons, ← Multiset.coe_add, ih more, ← Multiset.cons_coe,
        ← Multiset.singleton_add, rowsIn_add, rowsIn_singleton, rowsOf, own]

/-- The rows of the pinned snapshot. -/
def pinnedRows (backend : Backend Value) (head : Option Snapshot) : Multiset (Row Value) :=
  rowsIn backend.readParquetFile (liveFiles (Job.headManifests head))

/-- The rows of each of its files. -/
def pinnedParts (backend : Backend Value) (head : Option Snapshot) : Multiset (Commit.Part Value) :=
  partsIn backend.readParquetFile (liveFiles (Job.headManifests head))

theorem sum_pinnedParts (backend : Backend Value) (head : Option Snapshot) :
    (pinnedParts backend head).sum = pinnedRows backend head :=
  sum_partsIn _ _

variable {engine : OverwriteEngine} {table : SessionTable Value} {head : Option Snapshot}

theorem scanPinned_spec (resolved : branchHead table.pinned.metadata engine.branch = .ok head)
    {rows : List (Row Value)} (scanned : table.scanPinned engine backend = .ok rows) :
    (rows : Multiset (Row Value)) = pinnedRows backend head := by
  obtain ⟨head', found, scanned⟩ := bind_eq_ok scanned
  cases resolved.symm.trans found
  obtain ⟨files, read, scanned⟩ := bind_eq_ok scanned
  cases scanned
  exact rowsIn_of_mapM read

theorem materialize_kept {kept : SessionTable Value} {rows : List (Row Value)}
    (ran : table.materialize engine backend = .ok (kept, rows)) :
    kept = { table with materialized := some rows } := by
  rw [SessionTable.materialize] at ran
  split at ran
  case h_1 already =>
    cases ran
    rw [← already]
  case h_2 none' =>
    obtain ⟨scanned, -, ran⟩ := bind_eq_ok ran
    obtain ⟨aligned, -, ran⟩ := bind_eq_ok ran
    cases ran
    rfl

theorem materialize_spec (resolved : branchHead table.pinned.metadata engine.branch = .ok head)
    (follows : Follows backend (pinnedParts backend head) table)
    {kept : SessionTable Value} {rows : List (Row Value)}
    (ran : table.materialize engine backend = .ok (kept, rows)) :
    Casts backend table.pinned.fields
      (applyOps table.columns (pinnedParts backend head) table.ops).sum rows := by
  rw [SessionTable.materialize] at ran
  split at ran
  case h_1 already =>
    cases ran
    exact follows.rows _ already
  case h_2 none' =>
    obtain ⟨scanned, scan, ran⟩ := bind_eq_ok ran
    obtain ⟨aligned, align, ran⟩ := bind_eq_ok ran
    cases ran
    rw [follows.appended none', sum_pinnedParts, ← scanPinned_spec resolved scan,
      ← Multiset.coe_add]
    exact (casts_of_alignBatch align).add (casts_self follows.typed)

/-- What a read of the transaction sees is what its operations leave, cast. -/
theorem effectiveRows_spec {live : Multiset (Commit.Part Value)}
    (follows : Follows backend live table)
    (scans : ∀ rows, table.scanPinned engine backend = .ok rows →
      (rows : Multiset (Row Value)) = live.sum)
    (typed : ∀ row ∈ live.sum, alignRow backend table.pinned.fields row = .ok row)
    {rows : List (Row Value)} (effective : table.effectiveRows engine backend = .ok rows) :
    Casts backend table.pinned.fields (applyOps table.columns live table.ops).sum rows := by
  rw [SessionTable.effectiveRows] at effective
  split at effective
  case h_1 already =>
    cases effective
    exact follows.rows _ already
  case h_2 none' =>
    obtain ⟨scanned, scan, effective⟩ := bind_eq_ok effective
    cases effective
    rw [follows.appended none', ← Multiset.coe_add, scans scanned scan]
    exact (casts_self typed).add (casts_self follows.typed)

/-- Aligned batches have the columns' types. -/
theorem typed_of_alignBatches (recasts : Recasts backend)
    {source aligned : List (List (Row Value))}
    (ran : source.mapM (alignBatch backend fields) = .ok aligned) :
    ∀ row ∈ aligned.flatten, alignRow backend fields row = .ok row := by
  induction source generalizing aligned with
  | nil =>
      cases ran
      intro row mem
      cases mem
  | cons batch source ih =>
      rw [List.mapM_cons] at ran
      obtain ⟨first, own, ran⟩ := bind_eq_ok ran
      obtain ⟨rest, more, ran⟩ := bind_eq_ok ran
      cases ran
      intro row mem
      rw [List.flatten_cons, List.mem_append] at mem
      obtain inFirst | later := mem
      · exact (casts_of_alignBatch own).typed recasts row (Multiset.mem_coe.mpr inFirst)
      · exact ih more row later

section Statements

variable [DecidableEq Value] {environment : Environment Value}

theorem txnInsert_spec (recasts : Recasts environment.backend)
    {live : Multiset (Commit.Part Value)} (follows : Follows environment.backend live table)
    {source : List (List (Row Value))} {next : SessionTable Value}
    (ran : table.txnInsert engine environment source = .ok next) :
    Follows environment.backend live next := by
  obtain ⟨aligned, align, ran⟩ := bind_eq_ok ran
  obtain ⟨-, -, ran⟩ := bind_eq_ok ran
  cases ran
  have typed := typed_of_alignBatches recasts (raise_eq_ok align)
  have batches : SessionTable.appendBatches
      { table with ops := table.ops ++ [.append aligned.flatten] } =
        table.appendBatches ++ aligned.flatten := by
    simp [SessionTable.appendBatches, TableOp.batch]
  constructor
  case rows =>
    intro rows some'
    obtain ⟨before, already, rfl⟩ := Option.map_eq_some_iff.mp some'
    have old := follows.rows before already
    rw [applyOps_concat, TableOp.apply, Multiset.sum_add, Multiset.sum_singleton]
    exact old.add (casts_self typed)
  case appended =>
    intro none'
    have old := follows.appended (Option.map_eq_none_iff.mp none')
    show (applyOps table.columns live (table.ops ++ [.append aligned.flatten])).sum = live.sum +
      (SessionTable.appendBatches { table with ops := table.ops ++ [.append aligned.flatten] })
    rw [applyOps_concat, TableOp.apply, Multiset.sum_add, Multiset.sum_singleton, old, batches,
      ← Multiset.coe_add, Multiset.add_assoc]
  case typed =>
    intro row inside
    have inside' : row ∈ table.appendBatches ++ aligned.flatten := batches ▸ inside
    rcases List.mem_append.mp inside' with older | new
    · exact follows.typed row older
    · exact typed row new
  case answers =>
    show table.answers ++ [aligned.flatten.length] =
      countOps table.columns live (table.ops ++ [.append aligned.flatten])
    rw [countOps_concat, follows.answers, TableOp.count]
  case buffered => exact buffered_concat follows.buffered (by rintro _ ⟨⟩)

/-- An unmatched row of the session is selected again when any row is matched. -/
def besideAny (parts : Multiset (Commit.Part Value)) (stmt : DmlStatement Value) : Bool :=
  decide (0 < TableOp.matched parts (.dml stmt))

theorem txnDml_spec (computes : environment.backend.engine.Computes meaning)
    (resolved : branchHead table.pinned.metadata engine.branch = .ok head)
    (follows : Follows environment.backend (pinnedParts environment.backend head) table)
    {stmt : DmlStatement Value} (rowLocal : stmt.RowLocal)
    (same : ∀ part ∈ applyOps table.columns (pinnedParts environment.backend head) table.ops,
      ∀ row ∈ part, SameOnCast environment.backend table.pinned.fields table.columns stmt
        (decide (0 < part.countP fun row => stmt.Matches row))
        (besideAny (applyOps table.columns (pinnedParts environment.backend head) table.ops) stmt)
        row)
    {next : SessionTable Value} (ran : table.txnDml engine environment stmt = .ok next) :
    Follows environment.backend (pinnedParts environment.backend head) next := by
  obtain ⟨⟨kept, rows⟩, materialized, ran⟩ := bind_eq_ok ran
  obtain ⟨⟨matched, out⟩, applied, ran⟩ := bind_eq_ok ran
  obtain ⟨aligned, align, ran⟩ := bind_eq_ok ran
  obtain ⟨-, -, ran⟩ := bind_eq_ok ran
  cases ran
  have casts := materialize_spec resolved follows (raise_eq_ok materialized)
  cases materialize_kept (raise_eq_ok materialized)
  obtain ⟨counted, becomes⟩ := applyDmlToBatches_onPart computes rowLocal (raise_eq_ok applied)
  obtain ⟨sameCount, sameRows⟩ := casts.statement _ same
  rw [besideAny, sameCount] at sameRows
  rw [DmlStatement.onPart] at becomes
  have typed : ∀ row ∈ SessionTable.appendBatches
      { table with ops := table.ops ++ [.dml stmt] },
      alignRow environment.backend table.pinned.fields row = .ok row := by
    intro row inside
    refine follows.typed row ?_
    simpa [SessionTable.appendBatches, TableOp.batch] using inside
  constructor
  case rows =>
    rintro _ ⟨⟩
    show Casts environment.backend table.pinned.fields (applyOps table.columns
      (pinnedParts environment.backend head) (table.ops ++ [.dml stmt])).sum aligned
    rw [applyOps_concat, TableOp.apply, Casts]
    refine sameRows.trans ?_
    have left : (rows : Multiset (Row Value)).filterMap (stmt.onRow table.columns
        (decide (0 < (rows : Multiset (Row Value)).countP fun row => stmt.Matches row))) =
        (out : Multiset (Row Value)) := becomes.symm
    rw [left]
    exact casts_of_alignBatch (raise_eq_ok align)
  case appended =>
    intro none'
    cases none'
  case typed => exact typed
  case answers =>
    show table.answers ++ [matched] = countOps table.columns
      (pinnedParts environment.backend head) (table.ops ++ [.dml stmt])
    rw [countOps_concat, follows.answers, TableOp.count, sameCount, counted]
  case buffered => exact buffered_concat follows.buffered (by rintro _ ⟨⟩)

/-- A statement buffers itself, and leaves the pinned table. -/
theorem execute_extends {statement : Statement Value} {next : SessionTable Value}
    (ran : table.execute engine environment statement = .ok next) :
    next.pinned = table.pinned ∧
      ∃ op, next.ops = table.ops ++ [op] ∧ ∀ stmt, statement = .dml stmt → op = .dml stmt := by
  cases statement with
  | insert source =>
      obtain ⟨aligned, -, ran⟩ := bind_eq_ok ran
      obtain ⟨-, -, ran⟩ := bind_eq_ok ran
      cases ran
      exact ⟨rfl, _, rfl, nofun⟩
  | dml stmt =>
      obtain ⟨⟨kept, rows⟩, materialized, ran⟩ := bind_eq_ok ran
      obtain ⟨⟨matched, out⟩, -, ran⟩ := bind_eq_ok ran
      obtain ⟨aligned, -, ran⟩ := bind_eq_ok ran
      obtain ⟨-, -, ran⟩ := bind_eq_ok ran
      cases ran
      cases materialize_kept (raise_eq_ok materialized)
      refine ⟨rfl, _, rfl, ?_⟩
      rintro _ ⟨⟩
      rfl

theorem executeAll_extends {statements : List (Statement Value)}
    {table final : SessionTable Value}
    (ran : table.executeAll engine environment statements = .ok final) :
    final.pinned = table.pinned ∧ table.ops <+: final.ops := by
  induction statements generalizing table with
  | nil =>
      cases ran
      exact ⟨rfl, List.prefix_refl _⟩
  | cons statement statements ih =>
      obtain ⟨next, first, rest⟩ := bind_eq_ok ran
      obtain ⟨samePin, op, grown, -⟩ := execute_extends first
      obtain ⟨laterPin, later⟩ := ih rest
      refine ⟨laterPin.trans samePin, List.IsPrefix.trans ?_ later⟩
      rw [grown]
      exact List.prefix_append _ _

/-- A transaction whose statements all succeed shows the rows of its operations, cast, and has
answered their counts. The induction is on the statements that are left. -/
theorem executeAll_spec (computes : environment.backend.engine.Computes meaning)
    (recasts : Recasts environment.backend) {statements : List (Statement Value)}
    {table final : SessionTable Value}
    (resolved : branchHead table.pinned.metadata engine.branch = .ok head)
    (follows : Follows environment.backend (pinnedParts environment.backend head) table)
    (ran : table.executeAll engine environment statements = .ok final)
    (rowLocal : RowLocalOps final.ops)
    (agree : CastsAgree environment.backend table.pinned.fields table.columns besideAny
      (pinnedParts environment.backend head) final.ops) :
    Follows environment.backend (pinnedParts environment.backend head) final := by
  induction statements generalizing table with
  | nil =>
      cases ran
      exact follows
  | cons statement statements ih =>
      obtain ⟨next, first, rest⟩ := bind_eq_ok ran
      obtain ⟨samePin, op, grown, isDml⟩ := execute_extends first
      obtain ⟨-, more, whole⟩ := executeAll_extends rest
      have sameColumns : next.columns = table.columns := by
        rw [SessionTable.columns, samePin, SessionTable.columns]
      have nextFollows :
          Follows environment.backend (pinnedParts environment.backend head) next := by
        cases statement with
        | insert source => exact txnInsert_spec recasts follows first
        | dml stmt =>
            cases isDml stmt rfl
            have split : final.ops = table.ops ++ .dml stmt :: more := by
              rw [← whole, grown, List.append_assoc, List.singleton_append]
            exact txnDml_spec computes resolved follows (rowLocal stmt (by rw [split]; simp))
              (agree table.ops stmt more split) first
      refine ih (by rw [samePin]; exact resolved) nextFollows rest ?_
      rw [samePin, sameColumns]
      exact agree

end Statements

/-! ## COMMIT -/

/-- The rows after a COMMIT are the rows of the operations, cast. -/
theorem rowsAfter_spec [DecidableEq Value] (job : Job Value) (evaluates : job.Evaluates)
    (buffered : Buffered job.ops) {branch : String}
    {extraProperties : Option (List (String × String))}
    (resolved : branchHead job.metadata branch = .ok head)
    (writes : job.backend.Writes (Job.headManifests head))
    (typed : ∀ row ∈ pinnedRows job.backend head,
      alignRow job.backend job.metadata.fields row = .ok row)
    {outcome : Option (PreparedCommit Value)}
    (prepared : job.prepareCommit branch extraProperties = .ok outcome) :
    Casts job.backend job.metadata.fields
      (applyOps job.metadata.columns (pinnedParts job.backend head) job.ops).sum
      (rowsAfter job.backend (Job.headManifests head) outcome) := by
  obtain ⟨staged, gathered, ⟨nothing, rfl⟩ | ⟨-, commit, produced, rfl⟩⟩ :=
    job.prepareCommit_cases resolved prepared
  · rw [pinnedParts,
      job.applyOps_of_netsOut ((job.netsOut_iff evaluates buffered gathered).mp nothing)]
    exact casts_self typed
  · exact job.casts_of_produce evaluates buffered writes typed gathered produced

/-- The counts of a COMMIT are those of the operations one after another. -/
theorem rowsByOp_of_prepared [DecidableEq Value] (job : Job Value) (evaluates : job.Evaluates)
    (buffered : Buffered job.ops) {branch : String}
    {extraProperties : Option (List (String × String))}
    (resolved : branchHead job.metadata branch = .ok head) {commit : PreparedCommit Value}
    (prepared : job.prepareCommit branch extraProperties = .ok (some commit)) :
    commit.rowsByOp =
      countOps job.metadata.columns (pinnedParts job.backend head) job.ops := by
  obtain ⟨staged, gathered, ⟨-, none'⟩ | ⟨-, commit', produced, isCommit⟩⟩ :=
    job.prepareCommit_cases resolved prepared
  · cases none'
  · cases isCommit
    exact (job.produce_spec produced).2.1.trans
      (job.rowsByOp_of_gather evaluates buffered gathered)

/-- What COMMIT has done when it stages a table. -/
theorem stage_spec [DecidableEq Value] {visit : Visit Value} {handed : TxnTable Value}
    {advice : String} {outcome : Option (PreparedCommit Value)}
    (staged : engine.stage visit handed advice = .ok outcome) :
    ∃ loaded freshHead pk, visit.load = .ok loaded ∧
      branchHead loaded.metadata engine.branch = .ok freshHead ∧
      freshHead.map Snapshot.snapshotId = handed.pinSnapshot ∧
      (loaded.job visit.backend handed.ops pk).prepareCommit engine.branch none = .ok outcome := by
  rw [OverwriteEngine.stage] at staged
  split at staged
  · cases staged
  · rename_i loaded isLoaded
    split at staged
    · cases staged
    · rename_i freshHead resolved
      split at staged
      · cases staged
      · rename_i unmoved
        split at staged
        · cases staged
        · rename_i pk declared
          dsimp only at staged
          split at staged <;> cases staged
          rename_i prepared
          exact ⟨loaded, freshHead, pk, isLoaded, resolved, not_not.mp unmoved, prepared⟩

/-- Data files are not changed once they are written, and values are cast alike. -/
structure SameStorage (first second : Backend Value) : Prop where
  read : second.readParquetFile = first.readParquetFile
  cast : second.cast = first.cast
  isNull : second.isNull = first.isNull

theorem SameStorage.alignRow_eq {first second : Backend Value} (same : SameStorage first second)
    (fields : List Field) : alignRow second fields = alignRow first fields := by
  funext row
  rw [alignRow, alignRow, same.cast, same.isNull]

/-- The schema is still the pinned one at COMMIT, the pinned rows have its types, and every
statement is computed row by row and treats a row that it meets in its file as it treats the row,
cast, among all rows. -/
structure Agrees (backend : Backend Value) (head : Option Snapshot) (loaded : Table)
    (session : SessionTable Value) : Prop where
  fields : loaded.fields = session.pinned.fields
  typed : ∀ row ∈ pinnedRows backend head,
    alignRow backend session.pinned.fields row = .ok row
  rowLocal : RowLocalOps session.ops
  casts : CastsAgree backend session.pinned.fields session.columns besideAny
    (pinnedParts backend head) session.ops

/-- A transaction that agrees with a COMMIT shows the rows of its operations, cast. -/
theorem Agrees.shows [DecidableEq Value] {environment : Environment Value}
    (computes : environment.backend.engine.Computes meaning) (recasts : Recasts environment.backend)
    {pinned loaded : Table} (resolved : branchHead pinned.metadata engine.branch = .ok head)
    {statements : List (Statement Value)} {session : SessionTable Value}
    (ran : (SessionTable.pin pinned).executeAll engine environment statements = .ok session)
    (agrees : Agrees environment.backend head loaded session) :
    Follows environment.backend (pinnedParts environment.backend head) session ∧
      ∀ rows, session.effectiveRows engine environment.backend = .ok rows →
        Casts environment.backend session.pinned.fields (applyOps session.columns
          (pinnedParts environment.backend head) session.ops).sum rows := by
  obtain ⟨samePin, -⟩ := executeAll_extends ran
  have pinnedHead : branchHead session.pinned.metadata engine.branch = .ok head := by
    rw [samePin]
    exact resolved
  have casts := agrees.casts
  rw [SessionTable.columns, samePin] at casts
  have startHead : branchHead (SessionTable.pin pinned : SessionTable Value).pinned.metadata
      engine.branch = .ok head := resolved
  have follows : Follows environment.backend (pinnedParts environment.backend head) session :=
    executeAll_spec computes recasts startHead (follows_pin _ _ _) ran agrees.rowLocal casts
  refine ⟨follows, fun rows effective => effectiveRows_spec follows ?_ ?_ effective⟩
  · exact fun rows scanned => (scanPinned_spec pinnedHead scanned).trans (sum_pinnedParts _ _).symm
  · rw [sum_pinnedParts]
    exact agrees.typed

/-- One data file of the row 1, and columns of whole numbers. -/
def wholeBackend : Backend Number where
  engine := meaning.engine
  readParquetFile file :=
    if file.filePath = "a" then .ok [[.int 1]] else .error "failed to read data file"
  closeWriter rows := .ok [(⟨"new", rows.length, rows.length⟩, rows)]
  cast _ value := .ok (.int (value.doubled / 2))
  isNull _ := false
  display value := toString value.doubled
  snapshotId := 7

def wholeTable : Table where
  ident := ⟨["demo"], "t"⟩
  formatVersion := .v2
  unpartitioned := true
  fields := [⟨"k", false⟩]
  nextSequenceNumber := 2
  properties := []
  catalog :=
    { uuid := "u"
      snapshots :=
        [⟨6, none, 0, [⟨.data, 6, 1, [⟨.added, some 6, none, none, ⟨"a", 1, 1⟩⟩]⟩]⟩]
      refs := [("main", ⟨6, .branch⟩)] }

def wholeEnvironment : Environment Number :=
  ⟨wholeBackend, fun _ _ _ => .ok 0⟩

def wholeVisit : Visit Number where
  load := .ok wholeTable
  backend := wholeBackend
  timestampMs := 1
  atPost := wholeTable.catalog
  reply := .answered

def mainEngine : OverwriteEngine :=
  ⟨false, "main"⟩

/-- `DELETE WHERE k = doubled / 2` -/
def deleteWhere (doubled : Nat) : DmlStatement Number :=
  ⟨.delete, "t", some (.ofRow fun row => some ((row.getD 0 (.int 0)).doubled = doubled))⟩

/-- `UPDATE SET k = k + 0.5` -/
def addHalf : DmlStatement Number :=
  ⟨.update [("k", .ofRow fun row => .half ((row.getD 0 (.int 0)).doubled + 1))], "t", none⟩

/-- An INSERT of 2 and a DELETE of 1, of which the transaction shows the row 2. -/
def insertedSession : SessionTable Number :=
  ⟨wholeTable, [.append [[.int 2]], .dml (deleteWhere 2)], some [[.int 2]], [1, 1]⟩

theorem alignRow_whole {row : Row Number} (mem : row = [.int 1] ∨ row = [.int 2]) :
    alignRow wholeBackend wholeTable.fields row = .ok row := by
  obtain rfl | rfl := mem
  · rfl
  · rfl

theorem inserted_agrees :
    Agrees wholeBackend wholeTable.metadata.currentSnapshot wholeTable insertedSession := by
  have live : pinnedRows wholeBackend wholeTable.metadata.currentSnapshot =
      {([.int 1] : Row Number)} := by
    decide +kernel
  have stored : ∀ row ∈ pinnedRows wholeBackend wholeTable.metadata.currentSnapshot,
      alignRow wholeBackend wholeTable.fields row = .ok row := by
    rw [live]
    intro row inside
    exact alignRow_whole (.inl (Multiset.mem_singleton.mp inside))
  have statement : ∀ stmt, .dml stmt ∈ insertedSession.ops → stmt = deleteWhere 2 := by
    intro stmt isOp
    simpa [insertedSession] using isOp
  have typed : Typed wholeBackend wholeTable.fields
      (pinnedParts wholeBackend wholeTable.metadata.currentSnapshot) insertedSession.ops := by
    constructor
    case rows =>
      intro part inside row mem
      exact stored row (by rw [← sum_pinnedParts]; exact Multiset.mem_join.mpr ⟨part, inside, mem⟩)
    case appended =>
      intro rows isOp row mem
      simp only [insertedSession, List.mem_cons, TableOp.append.injEq, reduceCtorEq,
        List.not_mem_nil, or_false] at isOp
      subst isOp
      exact alignRow_whole (.inr (List.mem_singleton.mp mem))
    case keeps =>
      intro stmt isOp row typed beside next becomes
      obtain rfl := statement stmt isOp
      rw [Dml.DmlStatement.onRow_of_delete rfl becomes]
      exact typed
    case sameTyped =>
      intro stmt isOp
      obtain rfl := statement stmt isOp
      intro assignment mem
      cases mem
  refine ⟨rfl, stored, ?_, typed.castsAgree _⟩
  intro stmt isOp
  obtain rfl := statement stmt isOp
  constructor
  case truth =>
    rintro _ ⟨⟩ rows index row found
    simp [meaning, Predicate.ofRow, found]
  case value =>
    intro assignment mem
    cases mem

/-- The transaction of an UPDATE by 0.5 and a DELETE of 1.5: its column holds whole numbers, so the
DELETE is told to match nothing. -/
def halvedSession : SessionTable Number :=
  ⟨wholeTable, [.dml addHalf, .dml (deleteWhere 3)], some [[.int 1]], [1, 0]⟩

end Icegres.Session
