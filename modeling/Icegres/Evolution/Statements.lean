import Icegres.Dml
import Icegres.Evolution.Schema

/-!
# Statements on the rows of a file

A statement is evaluated by queries over the rows as they are read, so its expressions resolve their
columns by the names the file has. A query that names a column the rows do not have is not planned.
-/

namespace Icegres.Evolution

open Dml (Row)

variable {Kind Value : Type} {scalars : Scalars Kind Value}

/-! ## Expressions -/

/-- An expression computes its value from the values of the columns it names. -/
structure Expr (Kind Value : Type) where
  names : List String
  value : List Value → Value
  /-- The cast of a `CASE` with it to the common type with a column of the kind. -/
  common : Kind → Value → Value

def Expr.eval (expr : Expr Kind Value) (columns : List String) (row : Row Value) : Value :=
  expr.value (expr.names.filterMap (cell columns row))

abbrev DmlStatement (Kind Value : Type) :=
  Dml.DmlStatement (Expr Kind Value) (Expr Kind Value)

abbrev Projection (Kind Value : Type) :=
  Dml.Projection (Expr Kind Value) (Expr Kind Value)

/-- A query is planned when the rows have each column it names. -/
def plan (columns names : List String) : Except String Unit :=
  match names.find? fun name => name ∉ columns with
  | some name => .error ("failed to plan: no field named " ++ name)
  | none => .ok ()

def projectionNames : Projection Kind Value → List String
  | .keep column => [column]
  | .replace expr => expr.names
  | .replaceWhen predicate expr column => column :: (predicate.names ++ expr.names)

/-- The cast of a branch of a `CASE` beside a column. -/
def castBranch (scalars : Scalars Kind Value) (columns : List String) (expr : Expr Kind Value)
    (column : String) (row : Row Value) (branch : Value) : Value :=
  match cell columns row column with
  | some old => expr.common (scalars.kindOf old) branch
  | none => branch

/-- What the rewrite query selects from a row for one column. -/
def selectColumn (scalars : Scalars Kind Value) (columns : List String) (row : Row Value) :
    Projection Kind Value → Option Value
  | .keep column => cell columns row column
  | .replace expr => some (expr.eval columns row)
  | .replaceWhen predicate expr column => do
      let old ← cell columns row column
      return castBranch scalars columns expr column row
        (if scalars.isTrue (predicate.eval columns row) then expr.eval columns row else old)

/-- The queries over rows with some columns, for a table with the fields. -/
def queries (scalars : Scalars Kind Value) (fields columns : List String) :
    Dml.Engine (Expr Kind Value) (Expr Kind Value) Value where
  countQuery predicate rows := do
    plan columns predicate.names
    return rows.countP fun row => scalars.isTrue (predicate.eval columns row)
  survivorsQuery predicate rows := do
    plan columns (fields ++ predicate.names)
    return (rows.filter fun row => !scalars.isTrue (predicate.eval columns row)).map fun row =>
      fields.filterMap (cell columns row)
  rewriteQuery projection rows := do
    plan columns (projection.flatMap projectionNames)
    return rows.map fun row => projection.filterMap (selectColumn scalars columns row)

/-! ## Batches -/

/-- Rows with the names of their columns. -/
structure Batch (Value : Type) where
  names : List String
  rows : List (Row Value)

/-- The number of matched rows and the rows after the statement. Rows that a query selects have the
columns of the table. -/
def applyDmlToBatches (scalars : Scalars Kind Value) (stmt : DmlStatement Kind Value)
    (fields : List String) (batch : Batch Value) : Except String (Nat × Batch Value) := do
  let (matched, rows) ←
    Dml.applyDmlToBatches (queries scalars fields batch.names) stmt fields batch.rows
  return (matched, if matched = 0 then batch else ⟨fields, rows⟩)

/-! ## What a statement makes of the rows a reader finds -/

/-- What the expressions are for rows with the columns. -/
def meaning (scalars : Scalars Kind Value) (columns : List String) :
    Dml.Meaning (Expr Kind Value) (Expr Kind Value) Value where
  truthAt predicate rows index :=
    some (scalars.isTrue (predicate.eval columns (rows.getD index [])))
  valueAt expr rows index := expr.eval columns (rows.getD index [])
  common expr column row branch := castBranch scalars columns expr column row branch

/-- No `CASE` of the statement changes a value of the column. -/
def KeepsColumns (scalars : Scalars Kind Value) (stmt : DmlStatement Kind Value) : Prop :=
  stmt.predicate ≠ none → ∀ assignment ∈ stmt.kind.assignments, ∀ value,
    assignment.2.common (scalars.kindOf value) value = value

theorem rowLocal (scalars : Scalars Kind Value) (columns : List String)
    (stmt : DmlStatement Kind Value) : stmt.RowLocal (meaning scalars columns) := by
  constructor
  · intro predicate _ rows index row found
    simp only [meaning, List.getD_eq_getElem?_getD, found, Option.getD_some, List.getElem?_cons_zero]
  · intro assignment _ rows index row found
    simp only [meaning, List.getD_eq_getElem?_getD, found, Option.getD_some, List.getElem?_cons_zero]

theorem cell_getElem {fields : List String} (nodup : fields.Nodup) {row : Row Value} {index : Nat}
    {name : String} {value : Value} (named : fields[index]? = some name)
    (found : row[index]? = some value) : cell fields row name = some value := by
  induction fields generalizing row index with
  | nil => cases named
  | cons first fields ih =>
      rw [List.nodup_cons] at nodup
      cases row with
      | nil => cases found
      | cons head row =>
          rw [cell_cons]
          cases index with
          | zero =>
              rw [List.getElem?_cons_zero] at named found
              rw [if_pos (Option.some.inj named).symm, found]
          | succ index =>
              rw [List.getElem?_cons_succ] at named found
              have apart : name ≠ first := fun same =>
                nodup.1 (same ▸ List.mem_of_getElem? named)
              rw [if_neg apart, ih nodup.2 named found]

/-- A row is left as it is beside a matched one. -/
theorem onRow_beside {fields : List String} (nodup : fields.Nodup) {stmt : DmlStatement Kind Value}
    (keeps : KeepsColumns scalars stmt) (here there : Bool) (row : Row Value) :
    stmt.onRow (meaning scalars fields) fields here row =
      stmt.onRow (meaning scalars fields) fields there row := by
  cases predicate : stmt.predicate with
  | none =>
      exact Dml.DmlStatement.onRow_of_matched (by rw [Dml.DmlStatement.Matches, predicate]) _ _ _
  | some isTrue =>
      refine Dml.DmlStatement.onRow_of_keepsRow (fun index column old expr named found assigns => ?_)
        _ _
      simp only [meaning, castBranch, cell_getElem nodup named found]
      exact keeps (by rw [predicate]; exact Option.some_ne_none _) _
        (Dml.assigned_mem assigns) old

/-- Where no `CASE` changes a column, a statement does to each row what it does to the row alone. -/
theorem onRows_eq {fields : List String} (nodup : fields.Nodup) {stmt : DmlStatement Kind Value}
    (keeps : KeepsColumns scalars stmt) (rows : List (Row Value)) :
    stmt.onRows (meaning scalars fields) fields rows =
      rows.filterMap (stmt.onRow (meaning scalars fields) fields false) := by
  apply List.filterMap_congr
  intro row _
  exact onRow_beside nodup keeps _ _ row

/-! ## Rows of a file and rows a reader finds -/

/-- The row has the same value as a reader's row under each of its names. -/
structure Shows (fields columns : List String) (row logical : Row Value) : Prop where
  length : row.length = columns.length
  logicalLength : logical.length = fields.length
  same : ∀ name ∈ columns, cell columns row name = cell fields logical name

theorem shows_self {fields : List String} {row : Row Value} (sized : row.length = fields.length) :
    Shows fields fields row row :=
  ⟨sized, sized, fun _ _ => rfl⟩

theorem plan_eq_ok {columns names : List String} (planned : plan columns names = .ok ()) :
    ∀ name ∈ names, name ∈ columns := by
  rw [plan] at planned
  split at planned
  · cases planned
  · next none =>
    rintro name mem
    simpa using List.find?_eq_none.mp none name mem

/-- One value for each field, of the value at its place. -/
theorem filterMap_eq_mapIdx {fields : List String} {row : Row Value}
    (sized : row.length = fields.length) {select : String → Option Value}
    {value : Nat → Value → Value} (each : ∀ index name old, fields[index]? = some name →
      row[index]? = some old → select name = some (value index old)) :
    fields.filterMap select = row.mapIdx value := by
  induction fields generalizing row value with
  | nil =>
      rw [List.eq_nil_of_length_eq_zero sized]
      rfl
  | cons first fields ih =>
      cases row with
      | nil => cases sized
      | cons head row =>
          rw [List.filterMap_cons_some (each 0 first head rfl rfl), List.mapIdx_cons]
          congr 1
          exact ih (Nat.succ.inj sized) fun index name old named found =>
            each (index + 1) name old named found

theorem filterMap_cell_self {fields : List String} (nodup : fields.Nodup) {row : Row Value}
    (sized : row.length = fields.length) : fields.filterMap (cell fields row) = row := by
  have same : fields.filterMap (cell fields row) = row.mapIdx fun _ old => old :=
    filterMap_eq_mapIdx sized fun index name old named found => cell_getElem nodup named found
  rw [same]
  apply List.ext_getElem?
  intro index
  simp

section Shown

variable {fields columns : List String} {row logical : Row Value}
  (shows' : Shows fields columns row logical)

include shows'

/-- What is computed from columns of the batch is what is computed from the reader's row. -/
theorem eval_eq {expr : Expr Kind Value} (known : ∀ name ∈ expr.names, name ∈ columns) :
    expr.eval columns row = expr.eval fields logical := by
  rw [Expr.eval, Expr.eval]
  congr 1
  apply List.filterMap_congr
  exact fun name mem => shows'.same name (known name mem)

/-- The columns of the table are what a reader finds. -/
theorem filterMap_cell_eq (nodup : fields.Nodup) (known : ∀ name ∈ fields, name ∈ columns) :
    fields.filterMap (cell columns row) = logical := by
  rw [List.filterMap_congr fun name mem => shows'.same name (known name mem),
    filterMap_cell_self nodup shows'.logicalLength]

/-- What the rewrite query selects from a row is what it selects from the reader's row. -/
theorem selectColumns_eq (nodup : fields.Nodup) {stmt : DmlStatement Kind Value}
    {assignments : List (String × Expr Kind Value)}
    (known : ∀ name ∈ (Dml.updateProjection assignments fields stmt.predicate).flatMap
      projectionNames, name ∈ columns) :
    (Dml.updateProjection assignments fields stmt.predicate).filterMap
        (selectColumn scalars columns row) =
      stmt.selected (meaning scalars fields) assignments fields logical := by
  rw [Dml.updateProjection, List.filterMap_map, Dml.DmlStatement.selected]
  apply filterMap_eq_mapIdx shows'.logicalLength
  intro index name old named found
  rw [Dml.updateProjection, List.getElem?_map, named, Option.map_some, Function.comp_apply]
  have mem := List.mem_of_getElem? named
  have isOld := cell_getElem nodup named found
  have names (part : String) (isPart : part ∈ projectionNames
      (Dml.columnProjection assignments stmt.predicate name)) : part ∈ columns :=
    known part (List.mem_flatMap.mpr ⟨_, List.mem_map_of_mem mem, isPart⟩)
  have read (isName : name ∈ columns) : cell columns row name = some old :=
    (shows'.same name isName).trans isOld
  cases assigns : Dml.assigned assignments name with
  | none =>
      simp only [Dml.columnProjection, assigns] at names ⊢
      exact read (names name List.mem_cons_self)
  | some expr =>
      cases predicate : stmt.predicate with
      | none =>
          simp only [Dml.columnProjection, assigns, predicate] at names ⊢
          exact congrArg some (eval_eq shows' names)
      | some isTrue =>
          simp only [Dml.columnProjection, assigns, predicate] at names ⊢
          have isName := names name List.mem_cons_self
          have isTrueNames : ∀ part ∈ isTrue.names, part ∈ columns := fun part mem =>
            names part (List.mem_cons_of_mem _ (List.mem_append_left _ mem))
          have exprNames : ∀ part ∈ expr.names, part ∈ columns := fun part mem =>
            names part (List.mem_cons_of_mem _ (List.mem_append_right _ mem))
          simp [selectColumn, castBranch, Dml.Meaning.projectAt, meaning, read isName, isOld,
            eval_eq shows' isTrueNames, eval_eq shows' exprNames]

theorem matches_eq {stmt : DmlStatement Kind Value} {predicate : Expr Kind Value}
    (is : stmt.predicate = some predicate) (known : ∀ name ∈ predicate.names, name ∈ columns) :
    stmt.Matches (meaning scalars fields) logical =
      scalars.isTrue (predicate.eval columns row) := by
  rw [Dml.DmlStatement.Matches, is, eval_eq shows' known]
  simp [meaning]

end Shown

section Batches

variable {fields columns : List String} (nodup : fields.Nodup) {rows logical : List (Row Value)}
  (shows' : List.Forall₂ (Shows fields columns) rows logical) {stmt : DmlStatement Kind Value}

include shows'

theorem logicalLength_of_shows : ∀ row ∈ logical, row.length = fields.length := by
  induction shows' with
  | nil => exact nofun
  | cons here _ ih =>
      rintro row (_ | ⟨_, later⟩)
      · exact here.logicalLength
      · exact ih row later

/-- The rows that a predicate is true of, among the rows of a file and among those of a reader. -/
theorem countQuery_shows {predicate : Expr Kind Value} (is : stmt.predicate = some predicate)
    {matched : Nat} (ran : (queries scalars fields columns).countQuery predicate rows = .ok matched) :
    (meaning scalars fields).countTrue predicate logical = matched := by
  obtain ⟨_, planned, isOut⟩ := bind_eq_ok ran
  rw [Dml.countTrue_of_rowLocal (rowLocal scalars fields stmt) is, ← Except.ok.inj isOut]
  clear ran isOut
  induction shows' with
  | nil => rfl
  | cons here _ ih =>
      rw [List.countP_cons, List.countP_cons, ih, matches_eq here is (plan_eq_ok planned)]

include nodup

theorem survivorsQuery_shows {predicate : Expr Kind Value} (is : stmt.predicate = some predicate)
    {out : List (Row Value)}
    (ran : (queries scalars fields columns).survivorsQuery predicate rows = .ok out) :
    (meaning scalars fields).notTrue predicate logical = out := by
  obtain ⟨_, planned, isOut⟩ := bind_eq_ok ran
  have known := plan_eq_ok planned
  rw [Dml.notTrue_of_rowLocal (rowLocal scalars fields stmt) is, ← Except.ok.inj isOut]
  clear ran isOut
  induction shows' with
  | nil => rfl
  | @cons row first rows logical here _ ih =>
      rw [List.filter_cons, List.filter_cons, ih,
        matches_eq here is fun name mem => known name (List.mem_append_right _ mem)]
      split
      · rw [List.map_cons, filterMap_cell_eq here nodup
          fun name mem => known name (List.mem_append_left _ mem)]
      · rfl

theorem rewriteQuery_shows {assignments : List (String × Expr Kind Value)}
    (updates : stmt.kind = .update assignments) {out : List (Row Value)}
    (ran : (queries scalars fields columns).rewriteQuery
      (Dml.updateProjection assignments fields stmt.predicate) rows = .ok out) :
    (meaning scalars fields).rewritten (Dml.updateProjection assignments fields stmt.predicate)
      logical = out := by
  obtain ⟨_, planned, isOut⟩ := bind_eq_ok ran
  rw [Dml.rewritten_of_rowLocal (rowLocal scalars fields stmt) updates, ← Except.ok.inj isOut]
  clear ran isOut
  induction shows' with
  | nil => rfl
  | cons here _ ih =>
      rw [List.map_cons, List.map_cons, ih, selectColumns_eq here nodup (plan_eq_ok planned)]

/-- A statement has the same fate over the rows of a file and over those of a reader. -/
theorem evaluateRows_shows {sql : Dml.DmlSql (Expr Kind Value) (Expr Kind Value)}
    (built : Dml.DmlSql.new stmt fields = .ok sql) {fate : Dml.FileFate Value}
    (ran : Dml.evaluateRows (queries scalars fields columns) sql rows = .ok fate) :
    Dml.evaluateRows (meaning scalars fields).engine sql logical = .ok fate := by
  obtain ⟨countMatched, kinds⟩ := Dml.DmlSql.new_cases built
  have sized := shows'.length_eq
  rw [Dml.evaluateRows] at ran ⊢
  obtain ⟨matched, counted, ran⟩ := bind_eq_ok ran
  have count : Dml.countMatches (meaning scalars fields).engine sql logical = .ok matched := by
    rw [Dml.countMatches, countMatched] at counted ⊢
    cases predicate : stmt.predicate with
    | none =>
        rw [predicate] at counted
        rw [← sized]
        exact counted
    | some isTrue =>
        rw [predicate] at counted
        exact congrArg Except.ok (countQuery_shows shows' predicate counted)
  rw [count]
  simp only [bind, Except.bind] at ran ⊢
  split at ran
  case isTrue none' =>
    rw [if_pos none']
    exact ran
  case isFalse some' =>
    rw [if_neg some']
    obtain ⟨deletes, survivors, rewrite⟩ | ⟨assignments, updates, rewrite⟩ := kinds
    · rw [rewrite, survivors] at ran ⊢
      dsimp only at ran ⊢
      rw [← sized]
      split at ran
      case isTrue all =>
        rw [if_pos all]
        exact ran
      case isFalse left =>
        rw [if_neg left]
        cases predicate : stmt.predicate with
        | none =>
            rw [predicate] at ran
            exact ran
        | some isTrue =>
            rw [predicate] at ran
            obtain ⟨out, queried, ran⟩ := bind_eq_ok ran
            have same := survivorsQuery_shows nodup shows' predicate queried
            simp only [Dml.Meaning.engine, same]
            exact ran
    · rw [rewrite] at ran ⊢
      obtain ⟨out, queried, ran⟩ := bind_eq_ok ran
      have same := rewriteQuery_shows nodup shows' updates queried
      simp only [Dml.Meaning.engine, same]
      rw [← sized]
      exact ran

/-- A statement that succeeds does to the rows of a batch what it does to the rows a reader
finds. -/
theorem applyDmlToBatches_spec (keeps : KeepsColumns scalars stmt) {matched : Nat}
    {after : Batch Value}
    (ran : applyDmlToBatches scalars stmt fields ⟨columns, rows⟩ = .ok (matched, after)) :
    ∃ left, List.Forall₂ (Shows fields after.names) after.rows left ∧
      left.Perm (logical.filterMap (stmt.onRow (meaning scalars fields) fields false)) ∧
      matched = logical.countP (stmt.Matches (meaning scalars fields)) ∧
      (matched = 0 → after = ⟨columns, rows⟩ ∧ left = logical) ∧
      (0 < matched → after = ⟨fields, left⟩) := by
  obtain ⟨⟨count, out⟩, applied, ran⟩ := bind_eq_ok ran
  cases ran
  have sized := shows'.length_eq
  -- The reader's rows are evaluated to the same fate.
  obtain ⟨fate, isOut, same⟩ : ∃ fate : Dml.FileFate Value, fate.rows rows = (matched, out) ∧
      Dml.applyDmlToBatches (meaning scalars fields).engine stmt fields logical =
        .ok (fate.rows logical) := by
    rw [Dml.applyDmlToBatches] at applied ⊢
    split at applied
    case isTrue none' =>
      rw [if_pos (sized.symm.trans none')]
      exact ⟨.keep, Except.ok.inj applied, rfl⟩
    case isFalse some' =>
      rw [if_neg (sized ▸ some')]
      obtain ⟨sql, built, applied⟩ := bind_eq_ok applied
      obtain ⟨fate, evaluated, applied⟩ := bind_eq_ok applied
      refine ⟨fate, Except.ok.inj applied, ?_⟩
      rw [built]
      simp only [bind, Except.bind, evaluateRows_shows nodup shows' built evaluated]
      rfl
  have spec : (fate.rows logical).1 = logical.countP (stmt.Matches (meaning scalars fields)) ∧
      (fate.rows logical).2.Perm (stmt.onRows (meaning scalars fields) fields logical) :=
    Dml.applyDmlToBatches_spec (rowLocal scalars fields stmt) (Dml.Meaning.engine_computes _) same
  obtain ⟨isMatched, isLeft⟩ := spec
  have count : matched = logical.countP (stmt.Matches (meaning scalars fields)) := by
    rw [← isMatched]
    cases fate <;> exact (congrArg Prod.fst isOut).symm
  by_cases none' : matched = 0
  · subst none'
    have unmatched : logical.any (stmt.Matches (meaning scalars fields)) = false := by
      rw [← Bool.not_eq_true, List.any_eq_true, ← List.countP_pos_iff, ← count]
      exact Nat.lt_irrefl 0
    refine ⟨logical, shows', ?_, count, fun _ => ⟨rfl, rfl⟩,
      fun positive => absurd positive (Nat.lt_irrefl 0)⟩
    rw [Dml.DmlStatement.filterMap_onRow_of_unmatched unmatched]
  · have isRows : (fate.rows logical).2 = out := by
      cases fate with
      | keep => exact absurd (congrArg Prod.fst isOut).symm none'
      | remove _ => exact congrArg Prod.snd isOut
      | rewrite _ _ => exact congrArg Prod.snd isOut
    rw [isRows, onRows_eq nodup keeps] at isLeft
    refine ⟨out, ?_, isLeft, count, fun zero => absurd zero none', fun _ => if_neg none'⟩
    rw [if_neg none', List.forall₂_same]
    intro row mem
    obtain ⟨source, isSource, becomes⟩ := List.mem_filterMap.mp (isLeft.subset mem)
    exact shows_self ((Dml.DmlStatement.length_of_onRow becomes).trans
      (logicalLength_of_shows shows' source isSource))

end Batches

end Icegres.Evolution
