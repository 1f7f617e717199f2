import Icegres.Evolution.Statements
import Mathlib.Data.List.Perm.Basic

/-!
# Commits to a table whose schema has changed

A commit reads each live file raw and writes the rows that a statement changes back under the
current schema. It preserves what a reader finds by the ids of the columns as long as the live files
hold no column that was dropped or renamed since they were written.
-/

namespace Icegres.Evolution

variable {Kind Value : Type} [DecidableEq Kind] {scalars : Scalars Kind Value}

open Dml (Row)

/-! ## Operations -/

/-- One buffered operation, in statement order. -/
inductive TableOp (scalars : Scalars Kind Value) where
  | append (batch : Batch Value)
  /-- Data files that are already written. -/
  | appendFiles (files : List (DataFile scalars))
  | dml (stmt : DmlStatement Kind Value)

abbrev Ops (scalars : Scalars Kind Value) := List (TableOp scalars)

def DataFile.batch (file : DataFile scalars) : Batch Value :=
  ⟨file.layout.names, file.rows.map Fitted.values⟩

/-- Whether a statement changed anything, and the rows after all of them. -/
def foldDmlOps (fields : List String) : Ops scalars → Batch Value →
    Except String (Bool × Batch Value)
  | [], batch => .ok (false, batch)
  | .dml stmt :: rest, batch => do
      let (matched, out) ← applyDmlToBatches scalars stmt fields batch
      let (changed, last) ← foldDmlOps fields rest out
      return (decide (0 < matched) || changed, last)
  | .append _ :: rest, batch => foldDmlOps fields rest batch
  | .appendFiles _ :: rest, batch => foldDmlOps fields rest batch

/-- What the statements make of one row, each of what the one before leaves: whether one matched it,
and the row if it survives. -/
def afterOps (fields : List String) : Ops scalars → Row Value → Bool × Option (Row Value)
  | [], row => (false, some row)
  | .dml stmt :: rest, row =>
      let touched := stmt.Matches (meaning scalars fields) row
      match stmt.onRow (meaning scalars fields) fields false row with
      | none => (touched, none)
      | some next => (touched || (afterOps fields rest next).1, (afterOps fields rest next).2)
  | .append _ :: rest, row => afterOps fields rest row
  | .appendFiles _ :: rest, row => afterOps fields rest row

/-- No `CASE` of the statements changes a value of a column. -/
def KeepColumns (ops : Ops scalars) : Prop :=
  ∀ stmt, .dml stmt ∈ ops → KeepsColumns scalars stmt

/-! ## Alignment -/

/-- A value cast to the kind of a column. -/
def alignValue (scalars : Scalars Kind Value) (column : Column Kind) (value : Value) :
    Except String Value := do
  let cast ←
    if scalars.kindOf value = column.kind then .ok value else scalars.cast column.kind value
  if column.required && scalars.isNull cast then
    .error "rows do not fit the table schema (nullability/type)"
  else return cast

def alignRow (scalars : Scalars Kind Value) (current : Layout Kind) (row : List Value) :
    Except String (Fitted scalars current) := do
  let values ← (current.zip row).mapM fun (column, value) => alignValue scalars column value
  if fits : values.map scalars.kindOf = current.map Column.kind then return ⟨values, fits⟩
  else .error "rows do not fit the table schema (nullability/type)"

def alignBatch (scalars : Scalars Kind Value) (current : Layout Kind) (batch : Batch Value) :
    Except String (List (Fitted scalars current)) :=
  if batch.names.length ≠ current.length then
    .error ("row batch has " ++ toString batch.names.length ++ " columns, table has " ++
      toString current.length)
  else
    match (current.zip batch.names).find? fun (column, name) =>
        name.toLower ≠ column.name.toLower with
    | some (column, name) =>
        .error ("row batch column is named " ++ name.quote ++ ", expected " ++ column.name.quote)
    | none => batch.rows.mapM (alignRow scalars current)

/-! ## A commit -/

def hasDml (ops : Ops scalars) : Bool :=
  ops.any fun
    | .dml _ => true
    | _ => false

/-- What a commit has gathered: the files that are kept, the rows for new files, and the keys of
every final row. -/
structure Staged (scalars : Scalars Kind Value) (current : Layout Kind) where
  kept : List (DataFile scalars)
  written : List (Fitted scalars current)
  anyFileChanged : Bool
  pkRows : List (List Value)

/-- One live file. -/
def scanFile (current : Layout Kind) (ops : Ops scalars) (pk : Option (List String))
    (staged : Staged scalars current) (file : DataFile scalars) :
    Except String (Staged scalars current) := do
  let (changed, out) ←
    (if hasDml ops then foldDmlOps current.names ops file.batch else .ok (false, file.batch))
  if !changed then do
    let keys ← Dml.keyRows pk file.batch.names file.batch.rows
    return { staged with kept := staged.kept ++ [file], pkRows := staged.pkRows ++ keys }
  else if out.rows.length = 0 then
    -- Nothing survived.
    return { staged with anyFileChanged := true }
  else do
    let keys ← Dml.keyRows pk out.names out.rows
    let aligned ← alignBatch scalars current out
    return { staged with
      written := staged.written ++ aligned
      anyFileChanged := true
      pkRows := staged.pkRows ++ keys }

/-- The rows of the appends, each folded through the statements after it. -/
def appendedRows (current : Layout Kind) : Ops scalars →
    Except String (List (Fitted scalars current))
  | [] => .ok []
  | .append batch :: rest => do
      let (_, out) ← foldDmlOps current.names rest batch
      let aligned ← if out.rows.length = 0 then .ok [] else alignBatch scalars current out
      let later ← appendedRows current rest
      return aligned ++ later
  | .appendFiles _ :: rest => appendedRows current rest
  | .dml _ :: rest => appendedRows current rest

def prewritten (ops : Ops scalars) : List (DataFile scalars) :=
  ops.flatMap fun
    | .appendFiles files => files
    | _ => []

/-- Every statement is validated before anything is read. -/
def validate (fields : List String) (ops : Ops scalars) : Except String Unit :=
  ops.forM fun
    | .dml stmt => (Dml.DmlSql.new stmt fields).map fun _ => ()
    | _ => .ok ()

/-- Existing files are scanned when a statement can touch them, or for their keys. -/
def scanFiles (current : Layout Kind) (files : List (DataFile scalars)) (ops : Ops scalars)
    (pk : Option (List String)) : Except String (Staged scalars current) :=
  if hasDml ops || pk.isSome then files.foldlM (scanFile current ops pk) ⟨[], [], false, []⟩
  else .ok ⟨files, [], false, []⟩

/-- The rows that are written go to a new file with the current columns. -/
def newFiles {current : Layout Kind} (rows : List (Fitted scalars current)) :
    List (DataFile scalars) :=
  if rows.length = 0 then [] else [⟨current, rows⟩]

/-- The live files after the commit, if there is anything to commit. -/
def prepareCommit [DecidableEq Value] (current : Layout Kind) (files : List (DataFile scalars))
    (ops : Ops scalars) (pk : Option (List String)) (table : String) :
    Except String (Option (List (DataFile scalars))) := do
  validate current.names ops
  let staged ← scanFiles current files ops pk
  let appended ← appendedRows current ops
  let added := appended.length + ((prewritten ops).map fun file => file.rows.length).sum
  if !staged.anyFileChanged && added = 0 then return none
  else do
    let keys ← Dml.keyRows pk current.names (appended.map Fitted.values)
    Dml.enforcePk scalars.isNull scalars.display pk (staged.pkRows ++ keys) table
    return some (staged.kept ++ newFiles (staged.written ++ appended) ++ prewritten ops)

/-! ## The statements over one file -/

omit [DecidableEq Kind] in
theorem afterOps_of_untouched {fields : List String} {ops : Ops scalars} {row : Row Value}
    (untouched : (afterOps fields ops row).1 = false) :
    (afterOps fields ops row).2 = some row := by
  induction ops with
  | nil => rfl
  | cons op rest ih =>
      cases op with
      | append other => exact ih untouched
      | appendFiles files => exact ih untouched
      | dml stmt =>
          rw [afterOps] at untouched ⊢
          cases matched : stmt.Matches (meaning scalars fields) row with
          | true =>
              rw [matched] at untouched
              split at untouched
              · cases untouched
              · cases untouched
          | false =>
              have next : stmt.onRow (meaning scalars fields) fields false row = some row :=
                Dml.DmlStatement.onRow_of_unmatched matched fields
              simp only [matched, next, Bool.false_or] at untouched ⊢
              exact ih untouched

omit [DecidableEq Kind] in
theorem afterOps_of_no_dml {ops : Ops scalars} (none' : hasDml ops = false) (fields : List String)
    (row : Row Value) : afterOps fields ops row = (false, some row) := by
  induction ops with
  | nil => rfl
  | cons op rest ih =>
      rw [hasDml, List.any_cons, Bool.or_eq_false_iff] at none'
      cases op with
      | append other => exact ih none'.2
      | appendFiles files => exact ih none'.2
      | dml stmt => cases none'.1

omit [DecidableEq Kind] in
/-- A row is touched when the first statement matches it or a later one touches what is left. -/
theorem any_touched (fields : List String) (stmt : DmlStatement Kind Value) (rest : Ops scalars)
    (rows : List (Row Value)) :
    (rows.any fun row => (afterOps fields (.dml stmt :: rest) row).1) =
      (rows.any (stmt.Matches (meaning scalars fields)) ||
        (rows.filterMap (stmt.onRow (meaning scalars fields) fields false)).any fun row =>
          (afterOps fields rest row).1) := by
  induction rows with
  | nil => rfl
  | cons row rows ih =>
      rw [List.any_cons, List.any_cons, ih, List.filterMap_cons, afterOps]
      cases stmt.onRow (meaning scalars fields) fields false row with
      | none => simp only [Bool.or_assoc]
      | some next =>
          simp only [List.any_cons]
          ac_rfl

omit [DecidableEq Kind] in
/-- A fold that succeeds does to the rows of a batch what the statements make of the rows a reader
finds. -/
theorem foldDmlOps_spec {fields : List String} (nodup : fields.Nodup) {ops : Ops scalars}
    (keep : KeepColumns ops) {batch last : Batch Value} {logical : List (Row Value)}
    (shows' : List.Forall₂ (Shows fields batch.names) batch.rows logical) {changed : Bool}
    (ran : foldDmlOps fields ops batch = .ok (changed, last)) :
    ∃ left, List.Forall₂ (Shows fields last.names) last.rows left ∧
      left.Perm (logical.filterMap fun row => (afterOps fields ops row).2) ∧
      changed = (logical.any fun row => (afterOps fields ops row).1) ∧
      (changed = false → last = batch ∧ left = logical) ∧
      (changed = true → last = ⟨fields, left⟩) := by
  induction ops generalizing batch logical changed with
  | nil =>
      cases ran
      refine ⟨logical, shows', ?_, ?_, fun _ => ⟨rfl, rfl⟩, nofun⟩
      · simp [afterOps]
      · simp [afterOps]
  | cons op rest ih =>
      have later : KeepColumns rest := fun stmt mem => keep stmt (List.mem_cons_of_mem _ mem)
      cases op with
      | append other => exact ih later shows' ran
      | appendFiles files => exact ih later shows' ran
      | dml stmt =>
          obtain ⟨⟨matched, out⟩, applied, ran⟩ := bind_eq_ok ran
          obtain ⟨⟨more, final⟩, folded, ran⟩ := bind_eq_ok ran
          cases ran
          obtain ⟨first, shown, now, counts, unmatched, named⟩ :=
            applyDmlToBatches_spec nodup shows' (keep stmt List.mem_cons_self) applied
          obtain ⟨left, shownLast, after, isChanged, unchanged, namedLast⟩ :=
            ih later shown folded
          have isMatched : decide (0 < matched) =
              logical.any (stmt.Matches (meaning scalars fields)) := by
            rw [counts, Bool.eq_iff_iff, decide_eq_true_iff, List.countP_pos_iff, List.any_eq_true]
          refine ⟨left, shownLast, ?_, ?_, ?_, ?_⟩
          · refine after.trans ((now.filterMap _).trans (.of_eq ?_))
            rw [List.filterMap_filterMap]
            apply List.filterMap_congr
            intro row _
            rw [afterOps]
            cases stmt.onRow (meaning scalars fields) fields false row <;> rfl
          · rw [isMatched, isChanged, any_touched, now.any_eq]
          · intro none'
            rw [Bool.or_eq_false_iff, decide_eq_false_iff_not] at none'
            obtain ⟨rfl, rfl⟩ := unchanged none'.2
            exact unmatched (Nat.eq_zero_of_not_pos none'.1)
          · intro some'
            cases more with
            | true => exact namedLast rfl
            | false =>
                obtain ⟨rfl, rfl⟩ := unchanged rfl
                rw [Bool.or_false, decide_eq_true_iff] at some'
                exact named some'

/-! ## Rows before and after -/

/-- The row a reader finds afterwards: an unmatched row as it was, a matched one as the statements
compute it from the values the reader found. -/
def Outcome (scalars : Scalars Kind Value) (current : Layout Kind) (ops : Ops scalars)
    (row : Row Value) (out : Option (Row Value)) : Prop :=
  match afterOps current.names ops row with
  | (false, _) => out = some row
  | (true, none) => out = none
  | (true, some next) => ∃ aligned, alignRow scalars current next = .ok aligned ∧
      out = some aligned.values

/-- The rows a reader finds in some files. -/
def logicalRowsOf (current : Layout Kind) (files : List (DataFile scalars)) : List (Row Value) :=
  files.flatMap (DataFile.logicalRows current)

/-- After the commit the table has an outcome for every row it had, and the rows that were
appended. -/
def Preserves (current : Layout Kind) (files : List (DataFile scalars)) (ops : Ops scalars)
    (after : List (DataFile scalars)) : Prop :=
  ∃ outs appended, List.Forall₂ (Outcome scalars current ops) (logicalRowsOf current files) outs ∧
    appendedRows current ops = .ok appended ∧
    (logicalRowsOf current after).Perm
      (outs.filterMap id ++ appended.map Fitted.values ++ logicalRowsOf current (prewritten ops))

theorem alignValue_of_kind {column : Column Kind} {value cast : Value}
    (kind : scalars.kindOf value = column.kind) (is : alignValue scalars column value = .ok cast) :
    cast = value := by
  rw [alignValue, if_pos kind] at is
  simp only [bind, Except.bind] at is
  split at is
  · cases is
  · cases is
    rfl

theorem alignValues_of_fits {current : Layout Kind} {row values : List Value}
    (fits : row.map scalars.kindOf = current.map Column.kind)
    (aligns : List.Forall₂ (fun pair value => alignValue scalars pair.1 pair.2 = .ok value)
      (current.zip row) values) : values = row := by
  induction current generalizing row values with
  | nil =>
      rw [List.map_nil, List.map_eq_nil_iff] at fits
      cases aligns
      exact fits.symm
  | cons column current ih =>
      cases row with
      | nil => cases fits
      | cons value row =>
          obtain ⟨kind, fitsLater⟩ := List.cons.inj fits
          cases aligns with
          | cons first later => rw [alignValue_of_kind kind first, ih fitsLater later]

/-- A row that already has the kinds of the columns is aligned to itself. -/
theorem alignRow_of_fits {current : Layout Kind} {row : List Value}
    {aligned : Fitted scalars current} (is : alignRow scalars current row = .ok aligned)
    (fits : row.map scalars.kindOf = current.map Column.kind) : aligned.values = row := by
  obtain ⟨values, aligns, is⟩ := bind_eq_ok is
  split at is
  · cases is
    exact alignValues_of_fits fits (mapM_eq_ok aligns)
  · cases is

theorem alignBatch_eq_ok {current : Layout Kind} {batch : Batch Value}
    {aligned : List (Fitted scalars current)}
    (is : alignBatch scalars current batch = .ok aligned) :
    List.Forall₂ (fun row out => alignRow scalars current row = .ok out) batch.rows aligned := by
  rw [alignBatch] at is
  split at is
  · cases is
  · split at is
    · cases is
    · exact mapM_eq_ok is

theorem outcome_of_untouched {current : Layout Kind} {ops : Ops scalars} {row : Row Value}
    (untouched : (afterOps current.names ops row).1 = false) :
    Outcome scalars current ops row (some row) := by
  rw [Outcome]
  cases is : afterOps current.names ops row with
  | mk touched last =>
      rw [is] at untouched
      cases untouched
      rfl

/-- The aligned survivors of the statements are the outcomes. -/
theorem outcomes_of_aligned {current : Layout Kind} {ops : Ops scalars}
    {logical : List (Row Value)}
    (fits : ∀ row ∈ logical, row.map scalars.kindOf = current.map Column.kind)
    {aligned : List (Fitted scalars current)}
    (aligns : List.Forall₂ (fun row out => alignRow scalars current row = .ok out)
      (logical.filterMap fun row => (afterOps current.names ops row).2) aligned) :
    ∃ finals, List.Forall₂ (Outcome scalars current ops) logical finals ∧
      finals.filterMap id = aligned.map Fitted.values := by
  induction logical generalizing aligned with
  | nil =>
      cases aligns
      exact ⟨[], .nil, rfl⟩
  | cons row logical ih =>
      have fitsLater : ∀ row ∈ logical, row.map scalars.kindOf = current.map Column.kind :=
        fun other mem => fits other (List.mem_cons_of_mem _ mem)
      cases is : afterOps current.names ops row with
      | mk touched survivor =>
          cases survivor with
          | none =>
              rw [List.filterMap_cons_none (by rw [is])] at aligns
              obtain ⟨finals, all, same⟩ := ih fitsLater aligns
              cases touched with
              | false =>
                  have kept := afterOps_of_untouched (congrArg Prod.fst is)
                  rw [is] at kept
                  cases kept
              | true =>
                  exact ⟨none :: finals, .cons (by rw [Outcome, is]) all, same⟩
          | some next =>
              rw [List.filterMap_cons_some (by rw [is])] at aligns
              cases aligns with
              | @cons _ first _ others isAligned aligns =>
                  obtain ⟨finals, all, same⟩ := ih fitsLater aligns
                  refine ⟨some first.values :: finals, .cons ?_ all, ?_⟩
                  · rw [Outcome, is]
                    cases touched with
                    | true => exact ⟨first, isAligned, rfl⟩
                    | false =>
                        have kept := afterOps_of_untouched (congrArg Prod.fst is)
                        rw [is] at kept
                        cases kept
                        exact congrArg some
                          (alignRow_of_fits isAligned (fits row List.mem_cons_self))
                  · rw [List.map_cons, ← same]
                    rfl

/-! ## One file -/

omit [DecidableEq Kind] in
/-- A value in a row has the kind of its column. -/
theorem kindOf_cell {layout : Layout Kind} {row : List Value}
    (fits : row.map scalars.kindOf = layout.map Column.kind) {id : Nat} {value : Value}
    (found : cell layout.ids row id = some value) :
    ∃ column ∈ layout, column.id = id ∧ scalars.kindOf value = column.kind := by
  induction layout generalizing row with
  | nil => cases found
  | cons column layout ih =>
      cases row with
      | nil => cases fits
      | cons head row =>
          obtain ⟨kind, fitsLater⟩ := List.cons.inj fits
          rw [Layout.ids, List.map_cons, cell_cons] at found
          split at found
          · next same =>
            cases found
            exact ⟨column, List.mem_cons_self, same.symm, kind⟩
          · obtain ⟨other, mem, isId, isKind⟩ := ih fitsLater found
            exact ⟨other, List.mem_cons_of_mem _ mem, isId, isKind⟩

omit [DecidableEq Kind] in
/-- A row a reader finds has the kinds of the current columns. -/
theorem logicalRow_fits {history : History Kind} (sound : history.Sound) {layout : Layout Kind}
    (known : layout ∈ history.schemas) (row : Fitted scalars layout) :
    (logicalRow history.current row).map scalars.kindOf = history.current.map Column.kind := by
  rw [logicalRow, List.map_map]
  apply List.map_congr_left
  rintro column mem
  simp only [Function.comp]
  cases found : cell layout.ids row.values column.id with
  | none => exact scalars.kindOf_null column.kind
  | some value =>
      obtain ⟨other, inFile, isId, isKind⟩ := kindOf_cell row.fits found
      have same := sound.same _ known _ sound.current other inFile column mem isId
      exact isKind.trans same.1

/-- Every column of the layout is one of the current schema, under its name. -/
def Kept (current layout : Layout Kind) : Prop :=
  ∀ column ∈ layout, column ∈ current

omit [DecidableEq Kind] in
theorem shows_file {history : History Kind} (sound : history.Sound) {file : DataFile scalars}
    (known : file.layout ∈ history.schemas) (kept : Kept history.current file.layout) :
    List.Forall₂ (Shows history.current.names file.batch.names) file.batch.rows
      (file.logicalRows history.current) := by
  rw [DataFile.batch, DataFile.logicalRows, List.forall₂_map_left_iff, List.forall₂_map_right_iff,
    List.forall₂_same]
  rintro row -
  refine ⟨row.length.trans (List.length_map _).symm, ?_, ?_⟩
  · exact (length_logicalRow _ _).trans (List.length_map _).symm
  · rintro name mem
    obtain ⟨column, inFile, rfl⟩ := List.mem_map.mp mem
    exact cell_names_eq (sound.ids _ known) (sound.names _ known) (sound.names _ sound.current) row
      inFile (kept column inFile)

omit [DecidableEq Kind] in
/-- A file is folded to its unchanged batch or to what the statements leave of the rows a reader
finds. -/
theorem foldFile_spec {history : History Kind} (sound : history.Sound) {ops : Ops scalars}
    (keep : KeepColumns ops) {file : DataFile scalars} (known : file.layout ∈ history.schemas)
    (kept : Kept history.current file.layout) {changed : Bool} {out : Batch Value}
    (ran : (if hasDml ops then foldDmlOps history.current.names ops file.batch
      else .ok (false, file.batch)) = .ok (changed, out)) :
    (changed = false → ∀ row ∈ file.logicalRows history.current,
        (afterOps history.current.names ops row).1 = false) ∧
      (changed = true → out.rows.Perm ((file.logicalRows history.current).filterMap fun row =>
        (afterOps history.current.names ops row).2)) := by
  split at ran
  · obtain ⟨left, -, after, isChanged, -, named⟩ := foldDmlOps_spec
      (sound.names _ sound.current) keep (shows_file sound known kept) ran
    constructor
    · intro none' row mem
      rw [none', eq_comm, List.any_eq_false] at isChanged
      exact Bool.eq_false_iff.mpr (isChanged row mem)
    · intro some'
      rw [named some']
      exact after
  · next no =>
    cases ran
    refine ⟨fun _ row _ => ?_, nofun⟩
    rw [afterOps_of_no_dml (by simpa using no)]

theorem outcomes_of_untouched {current : Layout Kind} {ops : Ops scalars}
    {logical : List (Row Value)}
    (none' : ∀ row ∈ logical, (afterOps current.names ops row).1 = false) :
    List.Forall₂ (Outcome scalars current ops) logical (logical.map some) := by
  rw [List.forall₂_map_right_iff, List.forall₂_same]
  exact fun row mem => outcome_of_untouched (none' row mem)

/-- The rows a reader finds in what is gathered so far. -/
def Staged.rows {current : Layout Kind} (staged : Staged scalars current) : List (List Value) :=
  logicalRowsOf current staged.kept ++ staged.written.map Fitted.values

theorem scanFile_spec {history : History Kind} (sound : history.Sound) {ops : Ops scalars}
    (keep : KeepColumns ops) {pk : Option (List String)} {staged next : Staged scalars history.current}
    {file : DataFile scalars} (known : file.layout ∈ history.schemas)
    (kept : Kept history.current file.layout)
    (ran : scanFile history.current ops pk staged file = .ok next) :
    ∃ finals, List.Forall₂ (Outcome scalars history.current ops)
        (file.logicalRows history.current) finals ∧
      next.rows.Perm (staged.rows ++ finals.filterMap id) := by
  have fits : ∀ row ∈ file.logicalRows history.current,
      row.map scalars.kindOf = history.current.map Column.kind := by
    rintro row mem
    obtain ⟨stored, -, rfl⟩ := List.mem_map.mp mem
    exact logicalRow_fits sound known stored
  obtain ⟨⟨changed, out⟩, folded, ran⟩ := bind_eq_ok ran
  obtain ⟨untouched, left⟩ := foldFile_spec sound keep known kept folded
  cases changed with
  | false =>
      obtain ⟨keys, -, ran⟩ := bind_eq_ok ran
      cases ran
      refine ⟨_, outcomes_of_untouched (untouched rfl), ?_⟩
      simp only [Staged.rows, logicalRowsOf, List.flatMap_append, List.flatMap_singleton,
        List.append_assoc, List.filterMap_map, Function.comp_def, id]
      rw [List.filterMap_some]
      exact List.perm_append_comm.append_left _
  | true =>
      simp only [Bool.not_true, Bool.false_eq_true, if_false] at ran
      split at ran
      case isTrue empty =>
        cases ran
        rw [List.length_eq_zero_iff] at empty
        have none' := left rfl
        rw [empty] at none'
        have left : List.Forall₂ (fun row out => alignRow scalars history.current row = .ok out)
            ((file.logicalRows history.current).filterMap fun row =>
              (afterOps history.current.names ops row).2) [] := by
          rw [← none'.nil_eq]
          exact .nil
        obtain ⟨finals, all, same⟩ := outcomes_of_aligned fits left
        refine ⟨finals, all, ?_⟩
        rw [same]
        simp [Staged.rows]
      case isFalse =>
        obtain ⟨keys, -, ran⟩ := bind_eq_ok ran
        obtain ⟨aligned, aligns, ran⟩ := bind_eq_ok ran
        cases ran
        obtain ⟨ordered, isOrdered, perm⟩ :=
          List.perm_comp_forall₂ (left rfl).symm (alignBatch_eq_ok aligns)
        obtain ⟨finals, all, same⟩ := outcomes_of_aligned fits isOrdered
        refine ⟨finals, all, ?_⟩
        rw [same]
        simp only [Staged.rows, List.map_append, ← List.append_assoc]
        exact (perm.symm.map _).append_left _

/-! ## All files -/

theorem foldlM_scanFile_spec {history : History Kind} (sound : history.Sound) {ops : Ops scalars}
    (keep : KeepColumns ops) {pk : Option (List String)} {staged last : Staged scalars history.current}
    {files : List (DataFile scalars)} (known : ∀ file ∈ files, file.layout ∈ history.schemas)
    (kept : ∀ file ∈ files, Kept history.current file.layout)
    (ran : files.foldlM (scanFile history.current ops pk) staged = .ok last) :
    ∃ finals, List.Forall₂ (Outcome scalars history.current ops)
        (logicalRowsOf history.current files) finals ∧
      last.rows.Perm (staged.rows ++ finals.filterMap id) := by
  induction files generalizing staged with
  | nil =>
      cases ran
      exact ⟨[], .nil, by simp⟩
  | cons file rest ih =>
      rw [List.foldlM_cons] at ran
      obtain ⟨middle, first, ran⟩ := bind_eq_ok ran
      obtain ⟨here, outcomes, now⟩ :=
        scanFile_spec sound keep (known file List.mem_cons_self) (kept file List.mem_cons_self) first
      obtain ⟨later, others, after⟩ :=
        ih (fun other mem => known other (List.mem_cons_of_mem _ mem))
          (fun other mem => kept other (List.mem_cons_of_mem _ mem)) ran
      refine ⟨here ++ later, List.rel_append outcomes others, ?_⟩
      rw [List.filterMap_append, ← List.append_assoc]
      exact after.trans (now.append_right _)

theorem scanFiles_spec {history : History Kind} (sound : history.Sound) {ops : Ops scalars}
    (keep : KeepColumns ops) {pk : Option (List String)} {files : List (DataFile scalars)}
    {staged : Staged scalars history.current}
    (known : ∀ file ∈ files, file.layout ∈ history.schemas)
    (kept : ∀ file ∈ files, Kept history.current file.layout)
    (ran : scanFiles history.current files ops pk = .ok staged) :
    ∃ finals, List.Forall₂ (Outcome scalars history.current ops)
        (logicalRowsOf history.current files) finals ∧
      staged.rows.Perm (finals.filterMap id) := by
  rw [scanFiles] at ran
  split at ran
  · simpa [Staged.rows, logicalRowsOf] using foldlM_scanFile_spec sound keep known kept ran
  · next no =>
    cases ran
    rw [Bool.not_eq_true, Bool.or_eq_false_iff] at no
    refine ⟨(logicalRowsOf history.current files).map some, ?_, ?_⟩
    · rw [List.forall₂_map_right_iff]
      exact List.forall₂_same.mpr fun row _ =>
        outcome_of_untouched (by rw [afterOps_of_no_dml no.1])
    · simp [Staged.rows, List.filterMap_map]

omit [DecidableEq Kind] in
theorem logicalRowsOf_newFiles {history : History Kind} (sound : history.Sound)
    (rows : List (Fitted scalars history.current)) :
    logicalRowsOf history.current (newFiles rows) = rows.map Fitted.values := by
  have same : rows.map (logicalRow history.current) = rows.map Fitted.values :=
    List.map_congr_left fun row _ => logicalRow_self (sound.ids _ sound.current) row
  rw [newFiles]
  split
  · next empty =>
    rw [List.eq_nil_of_length_eq_zero empty]
    rfl
  · simpa [logicalRowsOf, DataFile.logicalRows] using same

/-- Where no live file holds a column that was dropped or renamed, and no `CASE` changes a value, a
commit preserves what a reader finds. -/
theorem preserves_of_kept [DecidableEq Value] {history : History Kind} (sound : history.Sound)
    {files after : List (DataFile scalars)} {ops : Ops scalars} (keep : KeepColumns ops)
    {pk : Option (List String)} {table : String}
    (known : ∀ file ∈ files, file.layout ∈ history.schemas)
    (kept : ∀ file ∈ files, Kept history.current file.layout)
    (ran : prepareCommit history.current files ops pk table = .ok (some after)) :
    Preserves history.current files ops after := by
  obtain ⟨_, -, ran⟩ := bind_eq_ok ran
  obtain ⟨staged, scanned, ran⟩ := bind_eq_ok ran
  obtain ⟨appended, appends, ran⟩ := bind_eq_ok ran
  simp only at ran
  split at ran
  · cases ran
  · obtain ⟨keys, -, ran⟩ := bind_eq_ok ran
    obtain ⟨_, -, ran⟩ := bind_eq_ok ran
    cases ran
    obtain ⟨finals, outcomes, perm⟩ := scanFiles_spec sound keep known kept scanned
    refine ⟨finals, appended, outcomes, appends, ?_⟩
    rw [logicalRowsOf, List.flatMap_append, List.flatMap_append, ← logicalRowsOf, ← logicalRowsOf,
      ← logicalRowsOf, logicalRowsOf_newFiles sound, List.map_append, ← List.append_assoc]
    exact (perm.append_right _).append_right _

end Icegres.Evolution
