import Icegres.Commit.Extended
import Icegres.Session.Agreement

/-!
# The key check of an INSERT and the one of its COMMIT

An INSERT in a transaction is checked against the rows the transaction shows; COMMIT checks the
keys it has gathered itself, before it casts the rewritten rows. Where the earlier statements do not
tell uncast rows from cast ones and a cast leaves the key, both see the same keys.
-/

namespace Icegres.Session

open Icegres.Commit

variable {Value : Type}

/-! ## What the projections find -/

theorem exists_mapM_ok {ε α β : Type} {step : α → Except ε β} {items : List α}
    (each : ∀ item ∈ items, ∃ value, step item = .ok value) :
    ∃ values, items.mapM step = .ok values := by
  induction items with
  | nil => exact ⟨[], rfl⟩
  | cons item items ih =>
      obtain ⟨value, first⟩ := each item List.mem_cons_self
      obtain ⟨values, rest⟩ := ih fun other mem => each other (List.mem_cons_of_mem _ mem)
      refine ⟨value :: values, ?_⟩
      rw [List.mapM_cons, first, rest]
      rfl

theorem exists_bind_ok {ε α β : Type} {first : Except ε α} {next : α → Except ε β}
    (starts : ∃ value, first = .ok value) (goesOn : ∀ value, ∃ result, next value = .ok result) :
    ∃ result, (first >>= next) = .ok result := by
  obtain ⟨value, rfl⟩ := starts
  exact goesOn value

/-- Columns that the table has are found. -/
theorem projectColumns_of_mem {columns cols : List String} (declared : ∀ col ∈ cols, col ∈ columns)
    (rows : List (Row Value)) :
    Dml.projectColumns columns rows cols = .ok (rows.map (checkedKey columns cols)) := by
  have found : ∃ keys, Dml.projectColumns columns rows cols = .ok keys := by
    refine exists_bind_ok (exists_mapM_ok fun col mem => ?_) fun indices => ⟨_, rfl⟩
    split
    · exact ⟨_, rfl⟩
    · next missing =>
      rw [List.findIdx?_eq_none_iff] at missing
      simpa using missing col (declared col mem)
  obtain ⟨keys, projected⟩ := found
  rw [projected, projectColumns_ok projected]

/-- The projected batches hold the keys of all rows, and there are none exactly without rows. -/
theorem projectPk_of_mem {columns cols : List String} (declared : ∀ col ∈ cols, col ∈ columns)
    (batches : List (List (Row Value))) :
    ∃ keys, projectPk columns batches cols = .ok keys ∧
      keys.flatten = batches.flatten.map (checkedKey columns cols) ∧
      (keys = [] ↔ batches.flatten = []) := by
  have flat : (batches.filter fun batch => 0 < batch.length).flatten = batches.flatten := by
    induction batches with
    | nil => rfl
    | cons batch batches ih =>
        cases batch with
        | nil => simpa using ih
        | cons row rows => simpa using ih
  have filled : ∀ batch ∈ batches.filter fun batch => 0 < batch.length, batch ≠ [] := by
    intro batch mem
    exact List.ne_nil_of_length_pos (of_decide_eq_true (List.mem_filter.mp mem).2)
  rw [projectPk]
  cases kept : batches.filter fun batch => 0 < batch.length with
  | nil =>
      rw [kept] at flat
      exact ⟨[], rfl, by rw [← flat]; rfl, by simp [← flat]⟩
  | cons first rest =>
      rw [kept] at flat filled
      have mapped : ∀ some' : List (List (Row Value)),
          (some'.mapM fun batch => Dml.projectColumns columns batch cols) =
            .ok (some'.map fun batch => batch.map (checkedKey columns cols)) := by
        intro some'
        induction some' with
        | nil => rfl
        | cons batch some' ih =>
            rw [List.mapM_cons, projectColumns_of_mem declared, ih]
            rfl
      refine ⟨_, mapped _, ?_, ?_⟩
      · rw [← flat, List.map_flatten]
      · rw [← flat]
        have some' := filled first List.mem_cons_self
        simp [some']

/-- The check accepts exactly keys that are all there once and have no null. -/
theorem checkPk_eq_ok_iff [DecidableEq Value] {backend : Backend Value} {cols : List String}
    {keys : List (Row Value)} {table : String} :
    checkPk backend cols keys table = .ok () ↔
      KeysHold backend.isNull (keys : Multiset (Row Value)) := by
  refine ⟨checkPk_ok, fun holds => ?_⟩
  have noNulls : ¬ 0 < keys.countP fun key => key.any backend.isNull := by
    rw [Nat.not_lt, Nat.le_zero, List.countP_eq_zero]
    intro key mem
    simp [holds.present key mem]
  have once : (keys.find? fun key => 1 < keys.count key) = none := by
    rw [List.find?_eq_none]
    intro key _
    have atMost := List.nodup_iff_count_le_one.mp (Multiset.coe_nodup.mp holds.distinct) key
    simpa using atMost
  simp only [checkPk, Dml.checkPk, if_neg noNulls, once]

/-- Keys that are gathered one part behind the other hold when both parts do and share no key. -/
theorem keysHold_add {isNull : Value → Bool} {front back : List (Row Value)} :
    KeysHold isNull ((front ++ back : List (Row Value)) : Multiset (Row Value)) ↔
      KeysHold isNull (front : Multiset (Row Value)) ∧
        KeysHold isNull (back : Multiset (Row Value)) ∧ ∀ key ∈ back, key ∉ front := by
  constructor
  · rintro ⟨distinct, present⟩
    rw [Multiset.coe_nodup, List.nodup_append'] at distinct
    refine ⟨⟨Multiset.coe_nodup.mpr distinct.1, fun key mem => ?_⟩,
      ⟨Multiset.coe_nodup.mpr distinct.2.1, fun key mem => ?_⟩,
      fun key inBack inFront => distinct.2.2 inFront inBack⟩
    · exact present key (Multiset.mem_coe.mpr (List.mem_append_left _ (Multiset.mem_coe.mp mem)))
    · exact present key (Multiset.mem_coe.mpr (List.mem_append_right _ (Multiset.mem_coe.mp mem)))
  · rintro ⟨⟨firstOnce, firstPresent⟩, ⟨laterOnce, laterPresent⟩, apart⟩
    refine ⟨?_, fun key mem => ?_⟩
    · rw [Multiset.coe_nodup, List.nodup_append']
      exact ⟨Multiset.coe_nodup.mp firstOnce, Multiset.coe_nodup.mp laterOnce,
        fun key inFront inBack => apart key inBack inFront⟩
    · rcases List.mem_append.mp (Multiset.mem_coe.mp mem) with inFront | inBack
      · exact firstPresent key (Multiset.mem_coe.mpr inFront)
      · exact laterPresent key (Multiset.mem_coe.mpr inBack)

/-! ## The check at COMMIT -/

/-- The keys that COMMIT gathers for a list of operations before it checks them. -/
def gatheredKeys (job : Job Value) (branch : String) : Except String (List (Row Value)) := do
  job.guard
  let head ← branchHead job.metadata branch
  job.validate
  let staged ← job.gather head
  return staged.pkRows

/-- COMMIT is not stopped before it checks the key. -/
def ReachesKeyCheck (job : Job Value) (branch : String) : Prop :=
  ∃ gathered, gatheredKeys job branch = .ok gathered

/-- COMMIT comes as far as the check of the key, and that refuses. -/
def RejectedByKey [DecidableEq Value] (job : Job Value) (branch : String) : Prop :=
  ∃ head staged why, job.guard = .ok () ∧ branchHead job.metadata branch = .ok head ∧
    job.validate = .ok () ∧ job.gather head = .ok staged ∧
    (!staged.anyFileChanged && decide (staged.appendedRows = 0)) = false ∧
    job.enforcePk staged = .error why

theorem validate_extended (job : Job Value) (inserted : List (Row Value)) :
    (job.extended inserted).validate = job.validate := by
  simp only [Job.validate, Job.extended, List.forM_eq_forM, List.forM_append, List.forM_cons,
    List.forM_nil]
  exact bind_pure _

section Agree

variable [DecidableEq Value] {engine : OverwriteEngine} {environment : Environment Value}
  {table : SessionTable Value} {pkCols : List String}

/-- The join counts the pairs of an inserted and a shown row with one key. Nothing equals NULL. -/
def Environment.CountsCollisions (environment : Environment Value) (columns : List String) : Prop :=
  ∀ cols keys rows, environment.countCollisions cols keys rows =
    .ok (keys.map fun key => rows.countP fun row =>
      !key.any environment.backend.isNull && decide (checkedKey columns cols row = key)).sum

/-- The check of an INSERT does not panic, and refuses exactly what the check of a COMMIT of the
operations with the INSERT behind them refuses. -/
def InsertAgrees (engine : OverwriteEngine) (environment : Environment Value)
    (table : SessionTable Value) (pkCols : List String) (newRows : List (List (Row Value))) : Prop :=
  (∀ text, table.checkInsertPk engine environment newRows pkCols ≠ .error (.panic text)) ∧
    ((∃ stop, table.checkInsertPk engine environment newRows pkCols = .error stop) ↔
      RejectedByKey ((table.pinned.job environment.backend table.ops (some pkCols)).extended
        newRows.flatten) engine.branch)

/-- The statements before the INSERT do not tell the rows that COMMIT folds from the rows that the
transaction shows, the cast of a row leaves its key, and nothing else stops COMMIT. -/
structure KeysKept (engine : OverwriteEngine) (backend : Backend Value) (head : Option Snapshot)
    (table : SessionTable Value) (pkCols : List String) : Prop where
  agrees : Agrees backend head table.pinned table
  keeps : (table.pinned.job backend table.ops (some pkCols)).RewritesKeepKeys pkCols
    (Job.headManifests head)
  reaches : ReachesKeyCheck (table.pinned.job backend table.ops (some pkCols)) engine.branch

omit [DecidableEq Value] in
theorem columns_of_declared (declared : engine.pkColumns table.pinned = .ok (some pkCols)) :
    ∀ col ∈ pkCols, col ∈ table.columns := by
  rw [OverwriteEngine.pkColumns] at declared
  split at declared
  · rw [pkColumnsOf] at declared
    split at declared
    · cases declared
    · dsimp only at declared
      split at declared
      · cases declared
      · split at declared
        · cases declared
        · next none =>
          obtain rfl := Option.some.inj (Except.ok.inj declared)
          intro col mem
          rw [List.find?_eq_none] at none
          simpa [SessionTable.columns] using none col mem
  · cases declared

/-- An INSERT without rows panics. -/
theorem checkInsertPk_of_empty (declared : ∀ col ∈ pkCols, col ∈ table.columns)
    {newRows : List (List (Row Value))} (none : newRows.flatten = []) :
    table.checkInsertPk engine environment newRows pkCols =
      .error (.panic "index out of bounds: the len is 0 but the index is 0") := by
  obtain ⟨keys, projected, -, noneIff⟩ := projectPk_of_mem declared newRows
  obtain rfl : keys = [] := noneIff.mpr none
  rw [SessionTable.checkInsertPk, projected]
  rfl

/-- An INSERT with rows is refused without a panic, or it is accepted: exactly when its keys hold
and none of them is shown. -/
theorem checkInsertPk_of_rows (declared : ∀ col ∈ pkCols, col ∈ table.columns)
    (counts : environment.CountsCollisions table.columns) {rows : List (Row Value)}
    (effective : table.effectiveRows engine environment.backend = .ok rows)
    {newRows : List (List (Row Value))} (some' : newRows.flatten ≠ []) :
    (∀ text, table.checkInsertPk engine environment newRows pkCols ≠ .error (.panic text)) ∧
      (table.checkInsertPk engine environment newRows pkCols = .ok () ↔
        KeysHold environment.backend.isNull
            ((newRows.flatten.map (checkedKey table.columns pkCols) : List (Row Value)) :
              Multiset (Row Value)) ∧
          ∀ key ∈ newRows.flatten.map (checkedKey table.columns pkCols),
            key ∉ rows.map (checkedKey table.columns pkCols)) := by
  obtain ⟨keys, projected, flat, noneIff⟩ := projectPk_of_mem declared newRows
  have someKeys : keys ≠ [] := mt noneIff.mp some'
  rw [← flat]
  cases keys with
  | nil => exact absurd rfl someKeys
  | cons first rest =>
      cases checked : checkPk environment.backend pkCols (first :: rest).flatten
          table.pinned.ident.name with
      | error why =>
          have stopped : table.checkInsertPk engine environment newRows pkCols =
              .error (.error why) := by
            rw [SessionTable.checkInsertPk, projected]
            simp only [raise, Except.mapError, bind, Except.bind, checked]
          have broken : ¬ KeysHold environment.backend.isNull
              ((first :: rest).flatten : Multiset (Row Value)) := by
            intro holds
            cases (checkPk_eq_ok_iff.mpr holds).symm.trans checked
          rw [stopped]
          exact ⟨nofun, iff_of_false nofun fun both => broken both.1⟩
      | ok done =>
          have holds := checkPk_ok checked
          have join := counts pkCols (first :: rest).flatten rows
          generalize total : ((first :: rest).flatten.map fun key => rows.countP fun row =>
            !key.any environment.backend.isNull &&
              decide (checkedKey table.columns pkCols row = key)).sum = collisions at join
          have apart : collisions = 0 ↔ ∀ key ∈ (first :: rest).flatten,
              key ∉ rows.map (checkedKey table.columns pkCols) := by
            rw [← total, List.sum_eq_zero_iff_forall_eq_nat]
            simp only [List.mem_map, forall_exists_index, and_imp, forall_apply_eq_imp_iff₂,
              List.countP_eq_zero]
            constructor
            · rintro clear key mem ⟨row, shown, same⟩
              exact clear key mem row shown (by
                simp [holds.present key (Multiset.mem_coe.mpr mem), same])
            · intro clear key mem row shown clash
              simp only [Bool.and_eq_true, decide_eq_true_eq] at clash
              exact clear key mem ⟨row, shown, clash.2⟩
          by_cases collide : 0 < collisions
          · have stopped : ∃ why, table.checkInsertPk engine environment newRows pkCols =
                .error (.error why) := by
              rw [SessionTable.checkInsertPk, projected]
              simp only [raise, Except.mapError, bind, Except.bind, checked, effective, join,
                if_pos collide]
              exact ⟨_, rfl⟩
            obtain ⟨why, stopped⟩ := stopped
            rw [stopped]
            refine ⟨nofun, iff_of_false nofun fun both => ?_⟩
            have := apart.mpr both.2
            omega
          · have accepted : table.checkInsertPk engine environment newRows pkCols =
                .ok () := by
              rw [SessionTable.checkInsertPk, projected]
              simp only [raise, Except.mapError, bind, Except.bind, checked, effective, join,
                if_neg collide]
            rw [accepted]
            exact ⟨nofun, iff_of_true rfl ⟨holds, apart.mp (by omega)⟩⟩

/-! ## The two together -/

omit [DecidableEq Value] in
theorem alignBatch_of_typed {backend : Backend Value} {fields : List Field} {rows : List (Row Value)}
    (typed : ∀ row ∈ rows, alignRow backend fields row = .ok row) :
    alignBatch backend fields rows = .ok rows := by
  rw [alignBatch]
  induction rows with
  | nil => rfl
  | cons row rows ih =>
      rw [List.forall_mem_cons] at typed
      rw [List.mapM_cons, typed.1, ih typed.2]
      rfl

/-- With an INSERT that brings rows, COMMIT refuses exactly when the keys it gathers and the
inserted ones do not hold together. -/
theorem rejectedByKey_extended_iff (recasts : Recasts environment.backend)
    (declared : ∀ col ∈ pkCols, col ∈ table.columns)
    {source newRows : List (List (Row Value))}
    (aligned : source.mapM (alignBatch environment.backend table.pinned.fields) = .ok newRows)
    (some' : newRows.flatten ≠ []) :
    RejectedByKey ((table.pinned.job environment.backend table.ops (some pkCols)).extended
        newRows.flatten) engine.branch ↔
      ∃ gathered, gatheredKeys (table.pinned.job environment.backend table.ops (some pkCols))
          engine.branch = .ok gathered ∧
        ¬ KeysHold environment.backend.isNull
          ((gathered ++ newRows.flatten.map (checkedKey table.columns pkCols) :
            List (Row Value)) : Multiset (Row Value)) := by
  generalize isJob : table.pinned.job environment.backend table.ops (some pkCols) = job
  have typed : alignBatch job.backend job.metadata.fields newRows.flatten =
      .ok newRows.flatten := by
    subst isJob
    exact alignBatch_of_typed (typed_of_alignBatches recasts aligned)
  have projected : job.keyRows newRows.flatten =
      .ok (newRows.flatten.map (checkedKey table.columns pkCols)) := by
    subst isJob
    have filled : ¬ newRows.flatten.length = 0 := mt List.length_eq_zero_iff.mp some'
    simp only [Job.keyRows, Dml.keyRows, Table.job, if_neg filled]
    exact projectColumns_of_mem declared _
  have checks (staged : Staged Value) : job.enforcePk staged =
      checkPk environment.backend pkCols staged.pkRows job.metadata.name := by
    subst isJob
    rfl
  have refuses (keys : List (Row Value)) (name : String) :
      (∃ why, checkPk environment.backend pkCols keys name = .error why) ↔
        ¬ KeysHold environment.backend.isNull (keys : Multiset (Row Value)) := by
    have accepts : checkPk environment.backend pkCols keys name = .ok () ↔ _ := checkPk_eq_ok_iff
    rw [← accepts]
    cases checkPk environment.backend pkCols keys name with
    | error why => simp
    | ok done => simp
  constructor
  · rintro ⟨head, after, why, guarded, resolved, valid, ran, -, refused⟩
    cases gathers : job.gather head with
    | error other => cases (job.gather_extended_error newRows.flatten gathers).symm.trans ran
    | ok staged =>
        obtain ⟨after', ran', keys, -⟩ :=
          job.gather_extended newRows.flatten typed projected gathers
        obtain rfl : after' = after := Except.ok.inj (ran'.symm.trans ran)
        have valid' : job.validate = .ok () := (validate_extended job _).symm.trans valid
        refine ⟨staged.pkRows, ?_, ?_⟩
        · have guarded' : job.guard = .ok () := guarded
          have resolved' : branchHead job.metadata engine.branch = .ok head := resolved
          simp only [gatheredKeys, guarded', resolved', valid', gathers, bind, Except.bind, pure,
            Except.pure]
        · rw [← keys]
          refine (refuses _ job.metadata.name).mp ⟨why, ?_⟩
          rw [← checks]
          exact refused
  · rintro ⟨gathered, ran, broken⟩
    obtain ⟨_, guarded, ran⟩ := bind_eq_ok ran
    obtain ⟨head, resolved, ran⟩ := bind_eq_ok ran
    obtain ⟨_, valid, ran⟩ := bind_eq_ok ran
    obtain ⟨staged, gathers, ran⟩ := bind_eq_ok ran
    obtain rfl : staged.pkRows = gathered := Except.ok.inj ran
    obtain ⟨after, ran', keys, appended⟩ :=
      job.gather_extended newRows.flatten typed projected gathers
    rw [← keys] at broken
    obtain ⟨why, refused⟩ := (refuses _ job.metadata.name).mpr broken
    refine ⟨head, after, why, guarded, resolved, (validate_extended job _).trans valid, ran', ?_,
      ?_⟩
    · have filled := List.length_pos_iff.mpr some'
      have changes : ¬ after.appendedRows = 0 := by omega
      simp [changes]
    · rw [← checks] at refused
      exact refused

omit [DecidableEq Value] in
/-- What COMMIT gathers are the keys of the rows that its operations leave, cast. -/
theorem keys_of_gather {job : Job Value} (evaluates : job.Evaluates) (buffered : Buffered job.ops)
    {head : Option Snapshot}
    (typed : ∀ row ∈ pinnedRows job.backend head,
      alignRow job.backend job.metadata.fields row = .ok row)
    (enforces : job.Enforces pkCols (Job.headManifests head)) {staged : Staged Value}
    (gathered : job.gather head = .ok staged) {shown : Multiset (Row Value)}
    (casts : Casts job.backend job.metadata.fields
      (applyOps job.metadata.columns (pinnedParts job.backend head) job.ops).sum shown) :
    (staged.pkRows : Multiset (Row Value)) = shown.map (job.key pkCols) := by
  have scans : job.needFileScan = true := by
    rw [Job.needFileScan, enforces.1]
    exact Bool.or_true _
  have files : job.keptFilesOf head staged = staged.keptFiles := by
    rw [Job.keptFilesOf, Job.unscannedManifests, if_pos scans, List.append_nil]
  rw [(job.gather_keys pkCols buffered gathered).keys enforces, ← files]
  exact congrArg _ ((job.casts_of_gather evaluates buffered typed gathered).unique casts)

omit [DecidableEq Value] in
/-- A COMMIT that gets to its key check has gathered its operations. -/
theorem gather_of_gatheredKeys {job : Job Value} {branch : String} {head : Option Snapshot}
    (resolved : branchHead job.metadata branch = .ok head) {gathered : List (Row Value)}
    (ran : gatheredKeys job branch = .ok gathered) :
    ∃ staged, job.gather head = .ok staged ∧ staged.pkRows = gathered := by
  obtain ⟨-, -, ran⟩ := bind_eq_ok ran
  obtain ⟨head', found, ran⟩ := bind_eq_ok ran
  cases resolved.symm.trans found
  obtain ⟨-, -, ran⟩ := bind_eq_ok ran
  obtain ⟨staged, gathers, ran⟩ := bind_eq_ok ran
  exact ⟨staged, gathers, Except.ok.inj ran⟩

/-- COMMIT gathers the keys of the rows that the transaction shows. -/
theorem KeysKept.gathers (computes : environment.backend.engine.Computes meaning)
    (recasts : Recasts environment.backend) {pinned : Table} {head : Option Snapshot}
    (resolved : branchHead pinned.metadata engine.branch = .ok head)
    {statements : List (Statement Value)}
    (ran : (SessionTable.pin pinned).executeAll engine environment statements = .ok table)
    {rows : List (Row Value)}
    (effective : table.effectiveRows engine environment.backend = .ok rows)
    (kept : KeysKept engine environment.backend head table pkCols) :
    ∃ gathered, gatheredKeys (table.pinned.job environment.backend table.ops (some pkCols))
        engine.branch = .ok gathered ∧
      (gathered : Multiset (Row Value)) =
        (rows.map (checkedKey table.columns pkCols) : List (Row Value)) := by
  obtain ⟨follows, shows⟩ := kept.agrees.shows computes recasts resolved ran
  obtain ⟨gathered, gathers⟩ := kept.reaches
  have pinnedHead : branchHead table.pinned.metadata engine.branch = .ok head := by
    rw [(executeAll_extends ran).1]
    exact resolved
  obtain ⟨staged, runs, rfl⟩ := gather_of_gatheredKeys pinnedHead gathers
  have evaluates : (table.pinned.job environment.backend table.ops (some pkCols)).Evaluates :=
    ⟨computes, kept.agrees.rowLocal⟩
  exact ⟨_, gathers, keys_of_gather evaluates follows.buffered kept.agrees.typed
    ⟨rfl, kept.keeps⟩ runs (shows rows effective)⟩

end Agree

/-! ## INSERTs on fixed inputs -/

def keyedTable : Table :=
  { wholeTable with properties := [("icegres.primary-key", "k")] }

def keyedEngine : OverwriteEngine :=
  ⟨true, "main"⟩

def keyedEnvironment : Environment Number where
  backend := wholeBackend
  countCollisions cols keys rows := .ok (keys.map fun key => rows.countP fun row =>
    !key.any wholeBackend.isNull && decide (checkedKey keyedTable.metadata.columns cols row = key)).sum

/-- The transaction that has inserted 2 and deleted 1. -/
def keyedSession : SessionTable Number :=
  { insertedSession with pinned := keyedTable }

theorem keysKept_keyedSession :
    KeysKept keyedEngine wholeBackend keyedTable.metadata.currentSnapshot keyedSession ["k"] := by
  refine ⟨⟨rfl, inserted_agrees.typed, inserted_agrees.rowLocal, inserted_agrees.casts⟩, ?_, ?_⟩
  · intro file live rows counts matched out after read fate
    obtain rfl : file = ⟨"a", 1, 1⟩ := List.mem_singleton.mp live
    obtain rfl : [[Number.int 1]] = rows := Except.ok.inj read
    have removed : (keyedSession.pinned.job wholeBackend keyedSession.ops (some ["k"])).fateOf
        [[.int 1]] counts = .ok (.remove 1, counts.modify 1 (· + 1)) := rfl
    cases removed.symm.trans fate
  · refine ⟨[[.int 2]], ?_⟩
    decide +kernel

/-- The key is checked as the INSERT is buffered. -/
theorem executeAll_keyedSession : (SessionTable.pin keyedTable).executeAll keyedEngine
    keyedEnvironment [.insert [[[.int 2]]], .dml (deleteWhere 2)] = .ok keyedSession := by
  have declared : keyedEngine.pkColumns keyedTable = .ok (some ["k"]) := by
    decide +kernel
  have free : (SessionTable.pin keyedTable).checkInsertPk keyedEngine keyedEnvironment
      [[[.int 2]]] ["k"] = .ok () := by
    decide +kernel
  have first : (SessionTable.pin keyedTable).execute keyedEngine keyedEnvironment
      (.insert [[[.int 2]]]) = .ok ⟨keyedTable, [.append [[.int 2]]], none, [1]⟩ := by
    simp only [SessionTable.execute, SessionTable.txnInsert, SessionTable.whenKeyed]
    show (raise (keyedEngine.pkColumns keyedTable) >>= _) >>= _ = _
    rw [declared]
    show SessionTable.checkInsertPk _ _ _ [[[Number.int 2]]] _ >>= _ = _
    rw [free]
    rfl
  have second : (⟨keyedTable, [.append [[.int 2]]], none, [1]⟩ : SessionTable Number).execute
      keyedEngine keyedEnvironment (.dml (deleteWhere 2)) = .ok keyedSession := by
    simp only [SessionTable.execute, SessionTable.txnDml, SessionTable.whenKeyed, declared]
    rfl
  rw [SessionTable.executeAll, List.foldlM_cons, first]
  exact congrArg (· >>= pure) second

end Icegres.Session
