import Icegres.Commit.Enforced

/-!
# The key in every committed snapshot

A commit checks the keys of all rows of the snapshot it adds, so a snapshot that is committed
holds the declared key, whatever the other engines committed before it. Files that are written
later leave the rows of earlier snapshots.
-/

namespace Icegres.Commit.Enforced

variable {Value : Type} [DecidableEq Value]

/-! ## Files that were written before -/

/-- Every file of the manifests is of one of the writers so far. -/
def Issued (env : Environment Value) (writers : List String) (manifests : List ManifestFile) :
    Prop :=
  ∀ manifest ∈ manifests, ∀ entry ∈ manifest.entries,
    env.writerOf entry.dataFile.filePath ∈ writers

/-- The files are of the writer. -/
def WrittenBy (env : Environment Value) (writer : String)
    (written : List (DataFile × List (Row Value))) : Prop :=
  ∀ file ∈ written, env.writerOf file.1.filePath = writer

variable {env : Environment Value}

omit [DecidableEq Value] in
theorem Issued.cons {writers : List String} {manifests : List ManifestFile}
    (issued : Issued env writers manifests) (writer : String) :
    Issued env (writer :: writers) manifests := fun manifest mem entry inside =>
  List.mem_cons_of_mem _ (issued manifest mem entry inside)

omit [DecidableEq Value] in
/-- What another writer writes leaves the rows of these files. -/
theorem Issued.rowsIn_readAfter {writers : List String} {manifests : List ManifestFile}
    (issued : Issued env writers manifests) {writer : String} (fresh : writer ∉ writers)
    {written : List (DataFile × List (Row Value))} (by' : WrittenBy env writer written)
    (read : DataFile → Except String (List (Row Value))) :
    rowsIn (readAfter read written) (liveFiles manifests) = rowsIn read (liveFiles manifests) := by
  apply Multiset.bind_congr
  rintro file mem
  obtain ⟨manifest, inside, entry, isEntry, rfl⟩ := Job.mem_liveFiles mem
  rw [rowsOf, rowsOf, readAfter_of_fresh]
  rintro other isWritten same
  apply fresh
  rw [← by' other isWritten, same]
  exact issued manifest inside entry isEntry

/-! ## Tables -/

/-- The table declares the same columns and the same key. -/
structure SameDeclaration (table first : Table) : Prop where
  ident : table.ident = first.ident
  fields : table.fields = first.fields
  properties : table.properties = first.properties

theorem SameDeclaration.pkColumnsOf_eq {table first : Table}
    (same : SameDeclaration table first) : pkColumnsOf table = pkColumnsOf first := by
  rw [pkColumnsOf, pkColumnsOf, same.ident, same.fields, same.properties]

/-- A table as it was loaded at some time. -/
structure TableSound (env : Environment Value) (writers : List String) (first table : Table) :
    Prop where
  same : SameDeclaration table first
  issued : ∀ snapshot ∈ table.catalog.snapshots, Issued env writers snapshot.content

omit [DecidableEq Value] in
theorem TableSound.cons {writers : List String} {first table : Table}
    (sound : TableSound env writers first table) (writer : String) :
    TableSound env (writer :: writers) first table :=
  ⟨sound.same, fun snapshot mem => (sound.issued snapshot mem).cons writer⟩

theorem mem_snapshots_of_snapshotForRef {table : Table} {ref : String}
    {snapshot : Catalog.Snapshot (List ManifestFile)}
    (points : table.catalog.snapshotForRef ref = some snapshot) :
    snapshot ∈ table.catalog.snapshots := by
  obtain ⟨snapshotId, _, found⟩ := Option.bind_eq_some_iff.mp points
  exact List.mem_of_find?_eq_some found

/-- The manifests of a branch head are those of a snapshot of the table. -/
theorem headManifests_mem {table : Table} {branch : String} {head : Option Snapshot}
    (resolved : branchHead table.metadata branch = .ok head) {manifest : ManifestFile}
    (mem : manifest ∈ Job.headManifests head) :
    ∃ snapshot ∈ table.catalog.snapshots, manifest ∈ snapshot.content := by
  rw [branchHead] at resolved
  split at resolved
  · cases resolved
    cases points : table.catalog.snapshotForRef mainBranch with
    | none =>
        rw [Table.metadata, points] at mem
        cases mem
    | some snapshot =>
        rw [Table.metadata, points] at mem
        exact ⟨snapshot, mem_snapshots_of_snapshotForRef points, mem⟩
  · split at resolved
    · next pointed found =>
      cases resolved
      obtain ⟨front, rest, split', -⟩ := List.lookup_eq_some_iff.mp found
      have listed : (branch, pointed) ∈ table.metadata.refs := by
        rw [split']
        exact List.mem_append_right _ List.mem_cons_self
      obtain ⟨ref, _, is⟩ := List.mem_filterMap.mp listed
      obtain ⟨snapshot, byId, is⟩ := Option.map_eq_some_iff.mp is
      cases is
      exact ⟨snapshot, List.mem_of_find?_eq_some byId, mem⟩
    · cases resolved

omit [DecidableEq Value] in
theorem TableSound.head {writers : List String} {first table : Table}
    (sound : TableSound env writers first table) {branch : String} {head : Option Snapshot}
    (resolved : branchHead table.metadata branch = .ok head) :
    Issued env writers (Job.headManifests head) := by
  rintro manifest mem
  obtain ⟨snapshot, listed, inside⟩ := headManifests_mem resolved mem
  exact sound.issued snapshot listed manifest inside

/-! ## The invariant -/

/-- A commit that is prepared adds a snapshot that holds the key. -/
structure PreparedSound (env : Environment Value) (first : TableIdent → Table)
    (state : State Value) (change : TableIdent × PreparedCommit Value) : Prop where
  issued : Issued env state.writers change.2.snapshot.manifests
  holds : KeyHolds env state.read (first change.1) change.2.snapshot.manifests

structure WritingSound (env : Environment Value) (first : TableIdent → Table)
    (state : State Value) (writing : Writing Value) : Prop where
  enforces : writing.engine.enforcePk = true
  buffered : writing.write.isBuffered = true
  parts : ∀ part ∈ writing.rest, part ∈ writing.write.parts
  loaded : ∀ table part, writing.loaded = some table → writing.rest.head? = some part →
    TableSound env state.writers (first part.ident) table
  prepared : ∀ change ∈ writing.prepared, PreparedSound env first state change

structure Sound (env : Environment Value) (first state : State Value) : Prop where
  tables : ∀ ident, TableSound env state.writers (first.tables ident) (state.tables ident)
  kept : ∀ ident, ∀ snapshot ∈ (first.tables ident).catalog.snapshots,
    Issued env state.writers snapshot.content ∧
      rowsIn state.read (liveFiles snapshot.content) = rowsIn first.read (liveFiles snapshot.content)
  holds : ∀ ident, ∀ snapshot ∈ (state.tables ident).catalog.snapshots,
    snapshot ∈ (first.tables ident).catalog.snapshots ∨
      KeyHolds env state.read (first.tables ident) snapshot.content
  writings : ∀ client writing, state.writings client = some writing →
    WritingSound env first.tables state writing

omit [DecidableEq Value] in
/-- What is known of a write is about the files that can be read. -/
theorem WritingSound.congr {first : TableIdent → Table} {state other : State Value}
    {writing : Writing Value} (sound : WritingSound env first state writing)
    (read : other.read = state.read) (writers : other.writers = state.writers) :
    WritingSound env first other writing := by
  refine ⟨sound.enforces, sound.buffered, sound.parts, ?_, ?_⟩
  · rw [writers]
    exact sound.loaded
  · rintro change mem
    have prepared := sound.prepared change mem
    constructor
    · rw [writers]
      exact prepared.issued
    · rw [read]
      exact prepared.holds

omit [DecidableEq Value] in
/-- A write changes its own entry. -/
theorem Sound.set {first state : State Value} (sound : Sound env first state) (client : Nat)
    {writing : Option (Writing Value)}
    (entry : ∀ entry, writing = some entry → WritingSound env first.tables state entry) :
    Sound env first (state.set client writing) := by
  refine ⟨sound.tables, sound.kept, sound.holds, ?_⟩
  rintro other found is
  suffices before : WritingSound env first.tables state found from before.congr rfl rfl
  simp only [State.set] at is
  by_cases here : other = client
  · subst here
    rw [Function.update_self] at is
    exact entry found is
  · rw [Function.update_of_ne here] at is
    exact sound.writings other found is

omit [DecidableEq Value] in
theorem WritingSound.start {first : TableIdent → Table} {state : State Value}
    {engine : OverwriteEngine} (enforces : engine.enforcePk = true) {write : Write Value}
    (buffered : write.isBuffered = true) (attempt : Nat) :
    WritingSound env first state (.start engine write attempt) :=
  ⟨enforces, buffered, fun part mem => mem, by rintro table part ⟨⟩, by rintro change ⟨⟩⟩

/-! ## Writing files -/

/-- The state after a writer has written some files. -/
def State.withFiles (state : State Value) (writer : String)
    (written : List (DataFile × List (Row Value))) : State Value :=
  { state with read := readAfter state.read written, writers := writer :: state.writers }

omit [DecidableEq Value] in
theorem KeyHolds.withFiles {state : State Value} {first : Table} {manifests : List ManifestFile}
    (holds : KeyHolds env state.read first manifests)
    (issued : Issued env state.writers manifests) {writer : String}
    (fresh : writer ∉ state.writers) {written : List (DataFile × List (Row Value))}
    (by' : WrittenBy env writer written) :
    KeyHolds env (state.withFiles writer written).read first manifests := by
  rintro cols declared
  rw [State.withFiles, issued.rowsIn_readAfter fresh by']
  exact holds cols declared

omit [DecidableEq Value] in
theorem Sound.withFiles {first state : State Value} (sound : Sound env first state)
    {writer : String} (fresh : writer ∉ state.writers)
    {written : List (DataFile × List (Row Value))} (by' : WrittenBy env writer written) :
    Sound env first (state.withFiles writer written) := by
  constructor
  · exact fun ident => (sound.tables ident).cons writer
  · rintro ident snapshot mem
    obtain ⟨issued, same⟩ := sound.kept ident snapshot mem
    refine ⟨issued.cons writer, ?_⟩
    rw [State.withFiles, issued.rowsIn_readAfter fresh by', same]
  · rintro ident snapshot mem
    exact (sound.holds ident snapshot mem).imp_right fun holds =>
      holds.withFiles ((sound.tables ident).issued snapshot mem) fresh by'
  · rintro client writing is
    have before := sound.writings client writing is
    refine ⟨before.enforces, before.buffered, before.parts, ?_, ?_⟩
    · exact fun table part loaded next => (before.loaded table part loaded next).cons writer
    · rintro change mem
      have prepared := before.prepared change mem
      exact ⟨prepared.issued.cons writer, prepared.holds.withFiles prepared.issued fresh by'⟩

/-! ## Preparing a commit -/

omit [DecidableEq Value] in
/-- A new writer keeps off the files of the others. -/
theorem Environment.Writes.backend (writes : env.Writes) {state : State Value} {writer : String}
    (fresh : writer ∉ state.writers) {old : List ManifestFile}
    (issued : Issued env state.writers old) (snapshotId : Int) :
    (state.backend env writer snapshotId).Writes old := by
  constructor
  · exact writes.rows writer
  · exact writes.distinct writer
  · rintro rows files closed file mem manifest inside entry isEntry same
    apply fresh
    rw [← writes.named writer rows files closed file mem, same]
    exact issued manifest inside entry isEntry

omit [DecidableEq Value] in
theorem Environment.Writes.writtenBy (writes : env.Writes) {job : Job Value} {writer : String}
    (own : job.backend.closeWriter = env.closeWriter writer) {rows : List (Row Value)}
    {written : List (DataFile × List (Row Value))} (closed : job.closeFiles rows = .ok written) :
    WrittenBy env writer written := by
  rw [Job.closeFiles] at closed
  split at closed
  · cases closed
    rintro file ⟨⟩
  · rw [own] at closed
    exact writes.named writer rows written closed

section Prepare

variable {first table : Table} {state : State Value} {writer : String} {snapshotId : Int}
  {ops : List (TableOp Value)} {pk : Option (List String)} {branch : String}
  {commit : PreparedCommit Value}

/-- The files of a prepared commit are its writer's or were of its head. -/
theorem Environment.Writes.prepared_issued (writes : env.Writes)
    (loaded : TableSound env state.writers first table) (buffered : Buffered ops)
    (prepared : (table.job (state.backend env writer snapshotId) ops pk).prepareCommit branch none =
      .ok (some commit)) :
    WrittenBy env writer commit.writtenFiles ∧
      Issued env (writer :: state.writers) commit.snapshot.manifests := by
  obtain ⟨_, _, found⟩ := bind_eq_ok prepared
  obtain ⟨head, resolved, _⟩ := bind_eq_ok found
  obtain ⟨staged, keyed, produced, -⟩ := Job.prepareCommit_keyed _ [] buffered resolved prepared
  have mine : WrittenBy env writer commit.writtenFiles :=
    writes.writtenBy rfl (Job.produce_spec _ produced).1
  refine ⟨mine, ?_⟩
  rintro manifest mem entry inside
  obtain ⟨other, inHead, old, isOld, same⟩ | ⟨written, isWritten, same⟩ :=
    Job.files_of_produce _ keyed produced mem inside
  · rw [← same]
    exact List.mem_cons_of_mem _ (loaded.head resolved other inHead old isOld)
  · rw [← same, mine written isWritten]
    exact List.mem_cons_self

/-- The key holds of the rows of a prepared commit. -/
theorem Environment.Writes.prepared_holds (writes : env.Writes)
    (loaded : TableSound env state.writers first table) (fresh : writer ∉ state.writers)
    (buffered : Buffered ops) (declared : pkColumnsOf table = .ok pk)
    (keeps : ∀ cols head, pkColumnsOf table = .ok (some cols) →
      branchHead table.metadata branch = .ok head →
      FindsColumns (table.fields.map Field.name) cols ∧
        (table.job (state.backend env writer snapshotId) ops (some cols)).RewritesKeepKeys cols
          (Job.headManifests head))
    (prepared : (table.job (state.backend env writer snapshotId) ops pk).prepareCommit branch none =
      .ok (some commit)) :
    KeyHolds env (readAfter state.read commit.writtenFiles) first commit.snapshot.manifests := by
  rintro cols named
  rw [← loaded.same.pkColumnsOf_eq, declared] at named
  cases named
  obtain ⟨_, _, found⟩ := bind_eq_ok prepared
  obtain ⟨head, resolved, _⟩ := bind_eq_ok found
  obtain ⟨finds, casts⟩ := keeps cols head declared resolved
  obtain ⟨staged, keyed, produced, checked⟩ :=
    Job.prepareCommit_keyed _ cols buffered resolved prepared
  have keys := Job.keys_of_produce _ ⟨rfl, casts⟩
    (writes.backend fresh (loaded.head resolved) snapshotId) keyed produced
  rw [← loaded.same.fields, ← checkedKey_eq finds]
  exact keys ▸ checked rfl

end Prepare

omit [DecidableEq Value] in
theorem Write.isBuffered_parts {write : Write Value} (buffered : write.isBuffered = true)
    {part : Part Value} (mem : part ∈ write.parts) : Buffered part.ops := by
  rintro op isOp files rfl
  have all := List.all_eq_true.mp (List.all_eq_true.mp buffered part mem) _ isOp
  cases all

/-! ## The steps -/

theorem Sound.prepareNext (writes : env.Writes) {first state : State Value}
    (sound : Sound env first state) {client : Nat} {writer : String} {snapshotId : Int}
    {engine : OverwriteEngine} {write : Write Value} {attempt : Nat}
    {prepared : List (TableIdent × PreparedCommit Value)} {table : Table} {part : Part Value}
    {rest : List (Part Value)}
    (is : state.writings client =
      some ⟨engine, write, attempt, prepared, some table, part :: rest⟩)
    (fresh : writer ∉ state.writers)
    (keeps : KeepsKeys env state (.prepare client writer snapshotId)) :
    Sound env first (prepareNext env state client writer snapshotId
      ⟨engine, write, attempt, prepared, some table, part :: rest⟩ table part rest) := by
  have before := sound.writings client _ is
  have loaded := before.loaded table part rfl rfl
  have buffered : Buffered part.ops :=
    Write.isBuffered_parts before.buffered (before.parts part List.mem_cons_self)
  have later : ∀ other ∈ rest, other ∈ write.parts := fun other mem =>
    before.parts other (List.mem_cons_of_mem _ mem)
  rw [Enforced.prepareNext]
  split
  · exact sound.set client (by rintro entry ⟨⟩)
  · next pk declared =>
    rw [OverwriteEngine.pkColumns, if_pos before.enforces] at declared
    split
    · exact sound.set client (by rintro entry ⟨⟩)
    · apply sound.set client
      rintro entry ⟨⟩
      exact ⟨before.enforces, before.buffered, later, by rintro table part ⟨⟩, before.prepared⟩
    · next commit ready =>
      obtain ⟨mine, issued⟩ := writes.prepared_issued loaded buffered ready
      have holds := writes.prepared_holds loaded fresh buffered declared
        (fun cols head named resolved => keeps _ table part cols head is rfl rfl named resolved)
        ready
      have written := sound.withFiles fresh mine
      have after := written.writings client _ is
      apply written.set client
      rintro entry ⟨⟩
      refine ⟨before.enforces, before.buffered, later, by rintro table part ⟨⟩, ?_⟩
      rintro change mem
      obtain earlier | now := List.mem_append.mp mem
      · exact after.prepared change earlier
      · rw [List.mem_singleton.mp now]
        exact ⟨issued, holds⟩

omit [DecidableEq Value] in
/-- A commit of a post adds its snapshot to its table. -/
theorem Sound.applyCommit {first state : State Value} (sound : Sound env first state)
    {change : TableIdent × PreparedCommit Value}
    (prepared : PreparedSound env first.tables state change) (timestampMs : Int) :
    Sound env first { state with tables := applyCommit timestampMs state.tables change } := by
  refine ⟨?_, sound.kept, ?_, ?_⟩
  · intro ident
    by_cases here : ident = change.1
    · subst here
      have before := sound.tables change.1
      simp only [Enforced.applyCommit, Function.update_self]
      refine ⟨⟨before.same.ident, before.same.fields, before.same.properties⟩, ?_⟩
      rintro snapshot mem
      obtain earlier | now := List.mem_append.mp mem
      · exact before.issued snapshot earlier
      · rw [List.mem_singleton.mp now]
        exact prepared.issued
    · simp only [Enforced.applyCommit, Function.update_of_ne here]
      exact sound.tables ident
  · rintro ident snapshot mem
    by_cases here : ident = change.1
    · subst here
      simp only [Enforced.applyCommit, Function.update_self] at mem
      obtain earlier | now := List.mem_append.mp mem
      · exact sound.holds change.1 snapshot earlier
      · rw [List.mem_singleton.mp now]
        exact .inr prepared.holds
    · simp only [Enforced.applyCommit, Function.update_of_ne here] at mem
      exact sound.holds ident snapshot mem
  · exact fun client writing is => (sound.writings client writing is).congr rfl rfl

omit [DecidableEq Value] in
/-- The induction is on the commits of the post. -/
theorem Sound.applyCommits {first state : State Value} (sound : Sound env first state)
    {changes : List (TableIdent × PreparedCommit Value)}
    (prepared : ∀ change ∈ changes, PreparedSound env first.tables state change)
    (timestampMs : Int) :
    Sound env first
      { state with tables := changes.foldl (Enforced.applyCommit timestampMs) state.tables } := by
  induction changes generalizing state with
  | nil => exact sound
  | cons change changes ih =>
      rw [List.forall_mem_cons] at prepared
      apply ih (sound.applyCommit prepared.1 timestampMs)
      rintro other mem
      exact ⟨(prepared.2 other mem).issued, (prepared.2 other mem).holds⟩

omit [DecidableEq Value] in
theorem Sound.land {first state : State Value} (sound : Sound env first state) {client : Nat}
    {writing : Writing Value} (is : state.writings client = some writing) (timestampMs : Int) :
    Sound env first (land state client timestampMs writing) := by
  have before := sound.writings client _ is
  have closed : Sound env first (state.set client none) := sound.set client (by rintro entry ⟨⟩)
  rw [Enforced.land]
  split
  · apply closed.applyCommits
    rintro change mem
    exact ⟨(before.prepared change mem).issued, (before.prepared change mem).holds⟩
  · split
    · apply sound.set client
      rintro entry ⟨⟩
      exact .start before.enforces before.buffered _
    · exact closed

/-- Every step keeps the invariant. -/
theorem Sound.step (writes : env.Writes) {first state next : State Value} {action : Action Value}
    (sound : Sound env first state) (keeps : KeepsKeys env state action)
    (taken : step env state action = some next) : Sound env first next := by
  cases action with
  | start client engine write =>
      simp only [Enforced.step] at taken
      split at taken
      · split at taken
        · next admitted =>
          cases taken
          rw [Bool.and_eq_true] at admitted
          apply sound.set client
          rintro entry ⟨⟩
          exact .start admitted.1 admitted.2 1
        · cases taken
      · cases taken
  | load client =>
      simp only [Enforced.step] at taken
      split at taken
      · next is =>
        have before := sound.writings client _ is
        split at taken
        · cases taken
          apply sound.set client
          rintro entry ⟨⟩
          refine ⟨before.enforces, before.buffered, before.parts, ?_, before.prepared⟩
          rintro table part ⟨⟩ ⟨⟩
          exact sound.tables _
        · cases taken
          exact sound.set client (by rintro entry ⟨⟩)
      · cases taken
  | prepare client writer snapshotId =>
      simp only [Enforced.step] at taken
      split at taken
      · next is =>
        split at taken
        · cases taken
        · next fresh =>
          cases taken
          exact sound.prepareNext writes is fresh keeps
      · cases taken
  | post client timestampMs =>
      simp only [Enforced.step] at taken
      split at taken
      · next is =>
        cases taken
        exact sound.land is timestampMs
      · cases taken
  | abandon client =>
      cases taken
      exact sound.set client (by rintro entry ⟨⟩)

/-! ## Runs -/

/-- Nothing is being written, and the files of the tables are of writers that are known. -/
structure State.Idle (env : Environment Value) (state : State Value) : Prop where
  writings : ∀ client, state.writings client = none
  issued : ∀ ident, ∀ snapshot ∈ (state.tables ident).catalog.snapshots,
    Issued env state.writers snapshot.content

omit [DecidableEq Value] in
theorem State.Idle.sound {first : State Value} (idle : first.Idle env) : Sound env first first := by
  refine ⟨fun ident => ⟨⟨rfl, rfl, rfl⟩, idle.issued ident⟩, ?_, ?_, ?_⟩
  · exact fun ident snapshot mem => ⟨idle.issued ident snapshot mem, rfl⟩
  · exact fun ident snapshot mem => .inl mem
  · rintro client writing is
    rw [idle.writings client] at is
    cases is

omit [DecidableEq Value] in
/-- Where casts leave values, rewriting a file leaves its rows. -/
theorem rewritesKeepKeys_of_cast {job : Job Value}
    (leaves : ∀ field value, job.backend.cast field value = .ok value) (cols : List String)
    (old : List ManifestFile) : job.RewritesKeepKeys cols old := by
  have zipped (fields : List Field) (row stored : Row Value) (size : row.length = fields.length)
      (ran : (fields.zip row).mapM (fun pair => do
        let cast ← job.backend.cast pair.1 pair.2
        if pair.1.required && job.backend.isNull cast then
          .error "rows do not fit the table schema (nullability/type)"
        else
          return cast) = .ok stored) : stored = row := by
    induction fields generalizing row stored with
    | nil =>
        cases ran
        exact (List.length_eq_zero_iff.mp size).symm
    | cons field fields ih =>
        cases row with
        | nil => cases size
        | cons value row =>
            rw [List.zip_cons_cons, List.mapM_cons] at ran
            obtain ⟨here, first, ran⟩ := bind_eq_ok ran
            obtain ⟨rest, more, ran⟩ := bind_eq_ok ran
            cases ran
            obtain ⟨cast, casted, first⟩ := bind_eq_ok first
            cases (leaves field value).symm.trans casted
            split at first
            · cases first
            · cases first
              rw [ih row rest (by simpa using size) more]
  rintro file - rows counts matched out after - - row - stored aligned
  rw [Job.AlignsTo, alignRow] at aligned
  split at aligned
  · cases aligned
  · next size =>
    rw [zipped job.metadata.fields row stored (not_not.mp size) aligned]

/-- A table of the keys 2 and 3 in a file of the writer `a`. Numbers are counted in halves. -/
def keyedTable : Table where
  ident := ⟨["demo"], "t"⟩
  formatVersion := .v2
  unpartitioned := true
  fields := [⟨"k", true⟩, ⟨"v", false⟩]
  nextSequenceNumber := 2
  properties := [("icegres.primary-key", "k")]
  catalog :=
    { uuid := "u"
      snapshots :=
        [⟨1, none, 0, [⟨.data, 1, 1, [⟨.added, some 1, none, none, ⟨"a", 2, 2⟩⟩]⟩]⟩]
      refs := [("main", ⟨1, .branch⟩)] }

/-- Every writer writes one file. -/
def oneFile (cast : Field → Nat → Except String Nat) : Environment Nat where
  engine := meaning.engine
  cast
  isNull _ := false
  display := toString
  closeWriter writer rows := .ok [(⟨writer, rows.length, rows.length⟩, rows)]
  writerOf path := path

def keyedState : State Nat where
  tables _ := keyedTable
  read file := if file.filePath = "a" then .ok [[4, 10], [6, 20]] else .error "no such file"
  writers := ["a"]
  writings _ := none

theorem oneFile_writes (cast : Field → Nat → Except String Nat) : (oneFile cast).Writes := by
  constructor
  · rintro writer rows files ⟨⟩
    simp
  · rintro writer rows files ⟨⟩
    simp
  · rintro writer rows files ⟨⟩
    simp [oneFile]

theorem keyedState_idle (cast : Field → Nat → Except String Nat) :
    keyedState.Idle (oneFile cast) := by
  refine ⟨fun client => rfl, ?_⟩
  rintro ident snapshot mem
  rw [List.mem_singleton.mp mem]
  simp [Issued, oneFile, keyedState]

theorem pkColumnsOf_keyedTable : pkColumnsOf keyedTable = .ok (some ["k"]) := by
  decide +kernel

theorem keyHolds_keyedTable (cast : Field → Nat → Except String Nat) :
    ∀ snapshot ∈ keyedTable.catalog.snapshots,
      KeyHolds (oneFile cast) keyedState.read keyedTable snapshot.content := by
  rintro snapshot mem cols declared
  rw [List.mem_singleton.mp mem]
  cases pkColumnsOf_keyedTable.symm.trans declared
  constructor
  · decide +kernel
  · rintro key -
    rw [List.any_eq_false]
    exact fun value _ => Bool.false_ne_true

def enforcing : OverwriteEngine :=
  ⟨true, "main"⟩

/-- Load, prepare and post of a client. -/
def attempt (client : Nat) (writer : String) (snapshotId : Int) : List (Action Nat) :=
  [.load client, .prepare client writer snapshotId, .post client snapshotId]

/-- Two clients insert the key 5. The second is refused by the catalog, and by the check when it
retries. -/
def racingInserts : List (Action Nat) :=
  [.start 0 enforcing (.insertEnforced keyedTable.ident [[10, 30]]),
    .start 1 enforcing (.insertEnforced keyedTable.ident [[10, 31]]),
    .load 0, .load 1, .prepare 0 "b" 2, .prepare 1 "c" 3, .post 0 2, .post 1 3] ++
  attempt 1 "d" 4

/-- The key of the loaded table is `k`, and its column is found. -/
def findsColumns (state : State Nat) : Action Nat → Bool
  | .prepare client _ _ =>
      match (state.writings client).bind Writing.loaded with
      | some table => table.properties.lookup pkProperty = some "k" &&
          FindsColumns (table.fields.map Field.name) ["k"]
      | none => true
  | _ => true

def unchanged (_ : Field) (value : Nat) : Except String Nat :=
  .ok value

theorem keepsKeys_of_findsColumns {state : State Nat} {action : Action Nat}
    (finds : findsColumns state action = true) : KeepsKeys (oneFile unchanged) state action := by
  cases action with
  | prepare client writer snapshotId =>
      rintro writing table part cols head is loaded next declared resolved
      simp only [findsColumns, is, Option.bind_some, loaded, Bool.and_eq_true,
        decide_eq_true_eq] at finds
      obtain ⟨property, finds⟩ := finds
      have listed : splitColumns "k" = ["k"] := by
        decide +kernel
      have named : cols = ["k"] := by
        simp only [pkColumnsOf, property, listed] at declared
        split at declared
        · cases declared
        · split at declared
          · cases declared
          · cases declared
            rfl
      subst named
      exact ⟨finds, rewritesKeepKeys_of_cast (fun field value => rfl) _ _⟩
  | _ => exact trivial

/-- A column of whole numbers takes the whole part. -/
def wholePart (_ : Field) (value : Nat) : Except String Nat :=
  .ok (value / 2 * 2)

/-- `UPDATE SET k = k * 0.5` -/
def halveKeys : List (Action Nat) :=
  .start 0 enforcing (.execute keyedTable.ident
    ⟨.update [("k", .ofRow fun row => row.getD 0 0 / 2)], "t", none⟩) :: attempt 0 "b" 2

end Icegres.Commit.Enforced
