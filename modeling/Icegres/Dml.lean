import Icegres.Fallible
import Mathlib.Algebra.Ring.Nat
import Mathlib.Data.List.Basic

/-!
# UPDATE and DELETE over a batch of rows

A statement is evaluated over the rows of one data file, or over any other batch, by SQL queries
that are made of its predicate and of its assigned values. What these are, and the query engine that
answers, are parameters.
-/

namespace Icegres.Dml

variable {P E Value : Type}

/-- The column values of a row, in the order of the table's columns. -/
abbrev Row (Value : Type) := List Value

inductive DmlKind (E : Type) where
  | delete
  | update (assignments : List (String × E))

def DmlKind.assignments : DmlKind E → List (String × E)
  | .delete => []
  | .update assignments => assignments

/-- A validated UPDATE or DELETE. -/
structure DmlStatement (P E : Type) where
  kind : DmlKind E
  table : String
  /-- Without a WHERE clause every row matches. -/
  predicate : Option P

/-- How the rewrite query computes one column. -/
inductive Projection (P E : Type) where
  | keep (column : String)
  | replace (expr : E)
  /-- `CASE WHEN (p) THEN (expr) ELSE column END` -/
  | replaceWhen (predicate : P) (expr : E) (column : String)

/-- The queries a statement is evaluated by. -/
structure DmlSql (P E : Type) where
  /-- Counts the rows the predicate is true of. -/
  countMatched : Option P
  /-- Selects the rows the predicate is distinct from TRUE of. -/
  survivors : Option P
  rewrite : Option (List (Projection P E))

/-- The last assignment to a column. -/
def assigned (assignments : List (String × E)) (column : String) : Option E :=
  (assignments.reverse.find? fun assignment => assignment.1 = column).map Prod.snd

/-- One column of an UPDATE's rewrite query. -/
def columnProjection (assignments : List (String × E)) (predicate : Option P) (column : String) :
    Projection P E :=
  match assigned assignments column, predicate with
  | some expr, some predicate => .replaceWhen predicate expr column
  | some expr, none => .replace expr
  | none, _ => .keep column

def updateProjection (assignments : List (String × E)) (columns : List String)
    (predicate : Option P) : List (Projection P E) :=
  columns.map (columnProjection assignments predicate)

theorem assigned_mem {assignments : List (String × E)} {column : String} {expr : E}
    (found : assigned assignments column = some expr) : (column, expr) ∈ assignments := by
  rw [assigned, Option.map_eq_some_iff] at found
  obtain ⟨assignment, first, rfl⟩ := found
  have named := List.find?_some first
  rw [decide_eq_true_eq] at named
  rw [← named]
  exact List.mem_reverse.mp (List.mem_of_find?_eq_some first)

def DmlSql.new (stmt : DmlStatement P E) (columns : List String) : Except String (DmlSql P E) :=
  match stmt.kind with
  | .delete =>
      .ok { countMatched := stmt.predicate, survivors := stmt.predicate, rewrite := none }
  | .update assignments =>
      match assignments.find? fun assignment => assignment.1 ∉ columns with
      | some assignment =>
          .error ("column \"" ++ assignment.1 ++ "\" of relation \"" ++ stmt.table ++
            "\" does not exist")
      | none =>
          .ok
            { countMatched := stmt.predicate
              survivors := none
              rewrite := some (updateProjection assignments columns stmt.predicate) }

/-- What the query engine answers over a batch. -/
structure Engine (P E Value : Type) where
  countQuery : P → List (Row Value) → Except String Nat
  survivorsQuery : P → List (Row Value) → Except String (List (Row Value))
  rewriteQuery : List (Projection P E) → List (Row Value) → Except String (List (Row Value))

/-- What a statement does to one batch. -/
inductive FileFate (Value : Type) where
  | keep
  /-- Nothing survived. -/
  | remove (matched : Nat)
  | rewrite (matched : Nat) (rows : List (Row Value))

/-- Without a WHERE clause everything matches. -/
def countMatches (engine : Engine P E Value) (sql : DmlSql P E) (rows : List (Row Value)) :
    Except String Nat :=
  match sql.countMatched with
  | none => .ok rows.length
  | some predicate => engine.countQuery predicate rows

def evaluateRows (engine : Engine P E Value) (sql : DmlSql P E) (rows : List (Row Value)) :
    Except String (FileFate Value) := do
  let matched ← countMatches engine sql rows
  if matched = 0 then
    return .keep
  match sql.rewrite with
  | none =>
      if matched = rows.length then
        return .remove matched
      match sql.survivors with
      | none => .error "survivors SQL exists for predicated DELETE"
      | some predicate =>
          let out ← engine.survivorsQuery predicate rows
          if out.length + matched ≠ rows.length then
            .error "DELETE row accounting mismatch"
          else if out.length = 0 then
            return .remove matched
          else
            return .rewrite matched out
  | some projection =>
      let out ← engine.rewriteQuery projection rows
      if out.length ≠ rows.length then
        .error "UPDATE row accounting mismatch"
      else
        return .rewrite matched out

/-- What a batch becomes, whatever fate it has. -/
def FileFate.rows (rows : List (Row Value)) : FileFate Value → Nat × List (Row Value)
  | .keep => (0, rows)
  | .remove matched => (matched, [])
  | .rewrite matched out => (matched, out)

/-- The number of matched rows and the rows after the statement. -/
def applyDmlToBatches (engine : Engine P E Value) (stmt : DmlStatement P E)
    (columns : List String) (rows : List (Row Value)) : Except String (Nat × List (Row Value)) :=
  if rows.length = 0 then
    .ok (0, rows)
  else do
    let sql ← DmlSql.new stmt columns
    let fate ← evaluateRows engine sql rows
    return fate.rows rows

/-! ## The primary key -/

/-- The rows cut to the key columns, which are found in whatever case they are written. -/
def projectColumns (columns : List String) (rows : List (Row Value)) (cols : List String) :
    Except String (List (Row Value)) := do
  let indices ← cols.mapM fun col =>
    match columns.findIdx? fun column => column.toLower = col.toLower with
    | some index => .ok index
    | none => .error ("PK column " ++ col.quote ++ " missing from row batch")
  return rows.map fun row => indices.filterMap fun index => row[index]?

/-- The key rows that a set of final rows feeds the check. -/
def keyRows (pk : Option (List String)) (columns : List String) (rows : List (Row Value)) :
    Except String (List (Row Value)) :=
  match pk with
  | some pkCols => if rows.length = 0 then .ok [] else projectColumns columns rows pkCols
  | none => .ok []

section Keys

variable [DecidableEq Value] (isNull : Value → Bool) (display : Value → String)

/-- NOT NULL and uniqueness over the assembled final key rows. -/
def checkPk (pkCols : List String) (pkRows : List (Row Value)) (table : String) :
    Except String Unit :=
  let columns := ", ".intercalate pkCols
  let nulls := pkRows.countP fun key => key.any isNull
  if 0 < nulls then
    .error ("null value in column(s) (" ++ columns ++ ") of relation \"" ++ table ++
      "\" violates not-null constraint (primary key, " ++ toString nulls ++ " row(s))")
  else
    match pkRows.find? fun key => 1 < pkRows.count key with
    | some key =>
        .error ("duplicate key value violates unique constraint \"" ++ table ++ "_pkey\": key (" ++
          columns ++ ") = (" ++ ", ".intercalate (key.map display) ++ ") is not unique")
    | none => .ok ()

/-- A declared key is enforced over the final row set. -/
def enforcePk (pk : Option (List String)) (pkRows : List (Row Value)) (table : String) :
    Except String Unit :=
  match pk with
  | some pkCols => checkPk isNull display pkCols pkRows table
  | none => .ok ()

end Keys

/-! ## The meaning of the queries -/

/-- What the predicates and the assigned values are for the rows of a batch. -/
structure Meaning (P E Value : Type) where
  /-- The truth of a predicate for the row at an index of the batch. -/
  truthAt : P → List (Row Value) → Nat → Option Bool
  valueAt : E → List (Row Value) → Nat → Value
  /-- The cast of a branch of a `CASE` to the common type of the assigned value and the column, over
  rows of the types of the given one. -/
  common : E → String → Row Value → Value → Value

namespace Meaning

variable (meaning : Meaning P E Value)

/-- One column of a rewritten row. Both branches of a `CASE` are cast to their common type. -/
def projectAt (rows : List (Row Value)) (index : Nat) (old : Value) :
    Option (Projection P E) → Value
  | none | some (.keep _) => old
  | some (.replace expr) => meaning.valueAt expr rows index
  | some (.replaceWhen predicate expr column) =>
      meaning.common expr column (rows.getD index [])
        (if meaning.truthAt predicate rows index = some true then
          meaning.valueAt expr rows index
        else old)

def countTrue (predicate : P) (rows : List (Row Value)) : Nat :=
  (List.range rows.length).countP fun index => meaning.truthAt predicate rows index = some true

def notTrue (predicate : P) (rows : List (Row Value)) : List (Row Value) :=
  (rows.zipIdx.filter fun pair =>
    meaning.truthAt predicate rows pair.2 ≠ some true).map Prod.fst

def rewritten (projection : List (Projection P E)) (rows : List (Row Value)) :
    List (Row Value) :=
  rows.mapIdx fun index row => row.mapIdx fun column old =>
    meaning.projectAt rows index old projection[column]?

/-- The engine that answers every query. -/
def engine : Engine P E Value where
  countQuery predicate rows := .ok (meaning.countTrue predicate rows)
  survivorsQuery predicate rows := .ok (meaning.notTrue predicate rows)
  rewriteQuery projection rows := .ok (meaning.rewritten projection rows)

end Meaning

/-- The answers are what the queries mean; rows come back in any order. -/
structure Engine.Computes (engine : Engine P E Value) (meaning : Meaning P E Value) : Prop where
  count : ∀ predicate rows matched, engine.countQuery predicate rows = .ok matched →
    matched = meaning.countTrue predicate rows
  survivors : ∀ predicate rows out, engine.survivorsQuery predicate rows = .ok out →
    out.Perm (meaning.notTrue predicate rows)
  rewrite : ∀ projection rows out, engine.rewriteQuery projection rows = .ok out →
    out.Perm (meaning.rewritten projection rows)

theorem Meaning.engine_computes (meaning : Meaning P E Value) :
    meaning.engine.Computes meaning where
  count _ _ _ counted := (Except.ok.inj counted).symm
  survivors _ _ _ queried := .of_eq (Except.ok.inj queried).symm
  rewrite _ _ _ queried := .of_eq (Except.ok.inj queried).symm

/-! ## Row by row -/

namespace DmlStatement

variable (stmt : DmlStatement P E) (meaning : Meaning P E Value)

/-- The predicate and the assigned values are computed from the row alone. -/
structure RowLocal : Prop where
  truth : ∀ predicate, stmt.predicate = some predicate → ∀ rows index row,
    rows[index]? = some row →
      meaning.truthAt predicate rows index = meaning.truthAt predicate [row] 0
  value : ∀ assignment ∈ stmt.kind.assignments, ∀ rows index row, rows[index]? = some row →
    meaning.valueAt assignment.2 rows index = meaning.valueAt assignment.2 [row] 0

/-- Whether the statement matches a row. -/
def Matches (row : Row Value) : Bool :=
  match stmt.predicate with
  | none => true
  | some predicate => meaning.truthAt predicate [row] 0 = some true

/-- The columns of a row as the rewrite query selects them. -/
def selected (assignments : List (String × E)) (columns : List String) (row : Row Value) :
    Row Value :=
  row.mapIdx fun column old =>
    meaning.projectAt [row] 0 old (updateProjection assignments columns stmt.predicate)[column]?

/-- The row after the statement, if it survives. Beside a row that matches, an UPDATE selects every
row again; a batch without one is kept as it is. -/
def onRow (columns : List String) (beside : Bool) (row : Row Value) : Option (Row Value) :=
  match stmt.kind with
  | .delete => if stmt.Matches meaning row then none else some row
  | .update assignments =>
      some (if stmt.Matches meaning row || beside then
        stmt.selected meaning assignments columns row
      else row)

/-- What the statement makes of a batch. -/
def onRows (columns : List String) (rows : List (Row Value)) : List (Row Value) :=
  rows.filterMap (stmt.onRow meaning columns (rows.any (stmt.Matches meaning)))

variable {stmt meaning}

theorem onRow_of_unmatched {row : Row Value} (unmatched : stmt.Matches meaning row = false)
    (columns : List String) : stmt.onRow meaning columns false row = some row := by
  rw [onRow]
  cases stmt.kind with
  | delete => rw [unmatched, if_neg Bool.false_ne_true]
  | update assignments =>
      rw [unmatched, Bool.or_false]
      exact congrArg some (if_neg Bool.false_ne_true)

/-- A DELETE leaves the rows that survive as they are. -/
theorem onRow_of_delete (deletes : stmt.kind = .delete) {columns : List String} {beside : Bool}
    {row next : Row Value} (becomes : stmt.onRow meaning columns beside row = some next) :
    next = row := by
  rw [onRow, deletes] at becomes
  dsimp only at becomes
  rw [Option.ite_none_left_eq_some] at becomes
  exact (Option.some.inj becomes.2).symm

theorem length_of_onRow {columns : List String} {beside : Bool} {row next : Row Value}
    (becomes : stmt.onRow meaning columns beside row = some next) : next.length = row.length := by
  rw [onRow] at becomes
  split at becomes
  · split at becomes
    · cases becomes
    · rw [Option.some.inj becomes]
  · rw [← Option.some.inj becomes]
    split
    · exact List.length_mapIdx
    · rfl

/-- No `CASE` of the statement changes a value that the row has. -/
def KeepsRow (stmt : DmlStatement P E) (meaning : Meaning P E Value) (columns : List String)
    (row : Row Value) : Prop :=
  ∀ (index : Nat) column old expr, columns[index]? = some column → row[index]? = some old →
    assigned stmt.kind.assignments column = some expr → meaning.common expr column row old = old

/-- An unmatched row is selected as it is when no `CASE` changes its values. -/
theorem selected_of_unmatched {columns : List String} {row : Row Value}
    (keeps : stmt.KeepsRow meaning columns row) (unmatched : stmt.Matches meaning row = false) :
    stmt.selected meaning stmt.kind.assignments columns row = row := by
  obtain ⟨kind, table, predicate⟩ := stmt
  cases predicate with
  | none => cases unmatched
  | some predicate =>
      have isNot : ¬ meaning.truthAt predicate [row] 0 = some true := of_decide_eq_false unmatched
      apply List.ext_getElem?
      intro index
      rw [selected, List.getElem?_mapIdx, updateProjection, List.getElem?_map]
      cases found : row[index]? with
      | none => rfl
      | some old =>
          rw [Option.map_some]
          cases named : columns[index]? with
          | none => rfl
          | some column =>
              rw [Option.map_some]
              cases assigns : assigned kind.assignments column with
              | none => simp only [columnProjection, assigns, Meaning.projectAt]
              | some expr =>
                  simp only [columnProjection, assigns, Meaning.projectAt, List.getD_cons_zero]
                  rw [if_neg isNot, keeps index column old expr named found assigns]

theorem onRow_of_matched {row : Row Value} (matched : stmt.Matches meaning row = true)
    (columns : List String) (here there : Bool) :
    stmt.onRow meaning columns here row = stmt.onRow meaning columns there row := by
  rw [onRow, onRow, matched]
  rfl

/-- What stands beside a row does not matter when no `CASE` changes its values. -/
theorem onRow_of_keepsRow {columns : List String} {row : Row Value}
    (keeps : stmt.KeepsRow meaning columns row) (here there : Bool) :
    stmt.onRow meaning columns here row = stmt.onRow meaning columns there row := by
  cases matched : stmt.Matches meaning row with
  | true => exact onRow_of_matched matched columns here there
  | false =>
      have itself := selected_of_unmatched keeps matched
      rw [onRow, onRow]
      cases kind : stmt.kind with
      | delete => rfl
      | update assignments =>
          rw [kind, DmlKind.assignments] at itself
          simp only [itself, ite_self]

theorem filterMap_onRow_of_unmatched {rows : List (Row Value)}
    (unmatched : rows.any (stmt.Matches meaning) = false) (columns : List String) :
    rows.filterMap (stmt.onRow meaning columns false) = rows := by
  conv_rhs => rw [← List.filterMap_some (l := rows)]
  apply List.filterMap_congr
  intro row mem
  rw [List.any_eq_false] at unmatched
  exact onRow_of_unmatched (Bool.eq_false_iff.mpr (unmatched row mem)) columns

/-- A batch that the statement does not match in is kept. -/
theorem onRows_of_unmatched {rows : List (Row Value)}
    (unmatched : rows.any (stmt.Matches meaning) = false) (columns : List String) :
    stmt.onRows meaning columns rows = rows := by
  rw [onRows, unmatched, filterMap_onRow_of_unmatched unmatched]

end DmlStatement

theorem DmlSql.new_cases {stmt : DmlStatement P E} {columns : List String} {sql : DmlSql P E}
    (built : DmlSql.new stmt columns = .ok sql) :
    sql.countMatched = stmt.predicate ∧
      (stmt.kind = .delete ∧ sql.survivors = stmt.predicate ∧ sql.rewrite = none ∨
        ∃ assignments, stmt.kind = .update assignments ∧
          sql.rewrite = some (updateProjection assignments columns stmt.predicate)) := by
  obtain ⟨kind, table, predicate⟩ := stmt
  cases kind with
  | delete =>
      cases built
      exact ⟨rfl, .inl ⟨rfl, rfl, rfl⟩⟩
  | update assignments =>
      simp only [DmlSql.new] at built
      split at built
      · cases built
      · cases built
        exact ⟨rfl, .inr ⟨assignments, rfl, rfl⟩⟩

/-- Counting the indices of some rows counts the rows. -/
theorem countP_range {rows : List (Row Value)} {holdsAt : Nat → Bool} {holds : Row Value → Bool}
    (same : ∀ index row, rows[index]? = some row → holdsAt index = holds row) :
    (List.range rows.length).countP holdsAt = rows.countP holds := by
  have mapped : rows = (List.range rows.length).map fun index => rows.getD index [] := by
    apply List.ext_getElem
    · rw [List.length_map, List.length_range]
    · intro index inside _
      rw [List.getElem_map, List.getElem_range, List.getD_eq_getElem?_getD,
        List.getElem?_eq_getElem inside, Option.getD_some]
  conv_rhs => rw [mapped, List.countP_map]
  apply List.countP_congr
  intro index inside
  have found := List.getElem?_eq_getElem (List.mem_range.mp inside)
  rw [same index _ found, Function.comp_apply, List.getD_eq_getElem?_getD, found, Option.getD_some]

section Answers

variable {meaning : Meaning P E Value} {stmt : DmlStatement P E}
  (rowLocal : stmt.RowLocal meaning)

include rowLocal

/-- The predicate is true of as many rows as the statement matches. -/
theorem countTrue_of_rowLocal {predicate : P} (is : stmt.predicate = some predicate)
    (rows : List (Row Value)) :
    meaning.countTrue predicate rows = rows.countP (stmt.Matches meaning) := by
  rw [Meaning.countTrue]
  apply countP_range
  intro index row found
  rw [rowLocal.truth predicate is rows index row found, DmlStatement.Matches, is]

theorem notTrue_of_rowLocal {predicate : P} (is : stmt.predicate = some predicate)
    (rows : List (Row Value)) :
    meaning.notTrue predicate rows = rows.filter fun row => !stmt.Matches meaning row := by
  have same : (rows.zipIdx.filter fun pair =>
      decide (meaning.truthAt predicate rows pair.2 ≠ some true)) =
      rows.zipIdx.filter ((fun row => !stmt.Matches meaning row) ∘ Prod.fst) := by
    apply List.filter_congr
    rintro ⟨row, index⟩ mem
    rw [rowLocal.truth predicate is rows index row (List.mem_zipIdx_iff_getElem?.mp mem),
      Function.comp_apply, DmlStatement.Matches, is]
    exact decide_not
  rw [Meaning.notTrue, same, ← List.filter_map, List.zipIdx_map_fst]

/-- The rewrite query selects each row on its own. -/
theorem rewritten_of_rowLocal {assignments : List (String × E)}
    (updates : stmt.kind = .update assignments) (columns : List String)
    (rows : List (Row Value)) :
    meaning.rewritten (updateProjection assignments columns stmt.predicate) rows =
      rows.map (stmt.selected meaning assignments columns) := by
  apply List.ext_getElem
  · rw [Meaning.rewritten, List.length_mapIdx, List.length_map]
  · intro index inside _
    have bound : index < rows.length := by rwa [Meaning.rewritten, List.length_mapIdx] at inside
    have found := List.getElem?_eq_getElem bound
    simp only [Meaning.rewritten, List.getElem_mapIdx, List.getElem_map, DmlStatement.selected]
    congr 1
    funext column old
    simp only [updateProjection, List.getElem?_map]
    cases columns[column]? with
    | none => rfl
    | some name =>
        rw [Option.map_some]
        cases assigns : assigned assignments name with
        | none => simp only [columnProjection, assigns, Meaning.projectAt]
        | some expr =>
            have isAssigned : (name, expr) ∈ stmt.kind.assignments :=
              updates ▸ assigned_mem assigns
            have value := rowLocal.value _ isAssigned rows index _ found
            cases is : stmt.predicate with
            | none => simp only [columnProjection, assigns, Meaning.projectAt, value]
            | some predicate =>
                simp only [columnProjection, assigns, Meaning.projectAt]
                rw [rowLocal.truth predicate is rows index _ found, value,
                  List.getD_eq_getElem?_getD, found, Option.getD_some, List.getD_cons_zero]

variable {engine : Engine P E Value} (computes : engine.Computes meaning)

include computes

/-- The count query counts the rows the statement matches. -/
theorem countMatches_spec {sql : DmlSql P E} (same : sql.countMatched = stmt.predicate)
    {rows : List (Row Value)} {matched : Nat}
    (counted : countMatches engine sql rows = .ok matched) :
    matched = rows.countP (stmt.Matches meaning) := by
  rw [countMatches, same] at counted
  cases predicate : stmt.predicate with
  | none =>
      rw [predicate] at counted
      have every : stmt.Matches meaning = fun _ => true := by
        funext row
        rw [DmlStatement.Matches, predicate]
      rw [every, List.countP_true, ← Except.ok.inj counted]
  | some isTrue =>
      rw [predicate] at counted
      rw [computes.count _ _ _ counted, countTrue_of_rowLocal rowLocal predicate]

/-- A statement is evaluated to its matches and to the rows it leaves. -/
theorem evaluateRows_spec {columns : List String} {sql : DmlSql P E}
    (built : DmlSql.new stmt columns = .ok sql) {rows : List (Row Value)} {fate : FileFate Value}
    (evaluated : evaluateRows engine sql rows = .ok fate) :
    (fate.rows rows).1 = rows.countP (stmt.Matches meaning) ∧
      (fate.rows rows).2.Perm (stmt.onRows meaning columns rows) := by
  obtain ⟨countMatched, kinds⟩ := DmlSql.new_cases built
  rw [evaluateRows] at evaluated
  obtain ⟨matched, counted, evaluated⟩ := bind_eq_ok evaluated
  have exact := countMatches_spec rowLocal computes countMatched counted
  split at evaluated
  case isTrue unmatched =>
    cases evaluated
    rw [unmatched] at exact
    refine ⟨exact, ?_⟩
    rw [DmlStatement.onRows_of_unmatched]
    · exact .refl _
    · rw [← Bool.not_eq_true, List.any_eq_true, ← List.countP_pos_iff]
      omega
  case isFalse some' =>
    have beside : rows.any (stmt.Matches meaning) = true := by
      rw [List.any_eq_true, ← List.countP_pos_iff]
      omega
    rw [DmlStatement.onRows, beside]
    obtain ⟨deletes, survivors, rewrite⟩ | ⟨assignments, updates, rewrite⟩ := kinds
    · rw [rewrite, survivors] at evaluated
      dsimp only at evaluated
      have left : rows.filterMap (stmt.onRow meaning columns true) =
          rows.filter fun row => !stmt.Matches meaning row := by
        rw [← List.filterMap_eq_filter]
        apply List.filterMap_congr
        intro row _
        rw [DmlStatement.onRow, deletes, Option.guard]
        cases stmt.Matches meaning row with
        | false => rfl
        | true => rfl
      rw [left]
      split at evaluated
      case isTrue all =>
        -- Every row matched: there is nothing to select.
        cases evaluated
        rw [exact, List.countP_eq_length] at all
        have none' : (rows.filter fun row => !stmt.Matches meaning row) = [] := by
          rw [List.filter_eq_nil_iff]
          intro row mem
          simp [all row mem]
        exact ⟨exact, by rw [none']; exact .refl _⟩
      case isFalse =>
        split at evaluated
        case h_1 => cases evaluated
        case h_2 isTrue predicate =>
          obtain ⟨out, queried, evaluated⟩ := bind_eq_ok evaluated
          have survive := computes.survivors _ _ _ queried
          rw [notTrue_of_rowLocal rowLocal predicate] at survive
          split at evaluated
          · cases evaluated
          · split at evaluated
            case isTrue none' =>
              cases evaluated
              rw [List.length_eq_zero_iff] at none'
              subst none'
              exact ⟨exact, survive⟩
            case isFalse =>
              cases evaluated
              exact ⟨exact, survive⟩
    · rw [rewrite] at evaluated
      have all : rows.filterMap (stmt.onRow meaning columns true) =
          rows.map (stmt.selected meaning assignments columns) := by
        rw [← List.filterMap_eq_map]
        apply List.filterMap_congr
        intro row _
        rw [DmlStatement.onRow, updates]
        simp only [Bool.or_true, if_true, Function.comp_apply]
      rw [all, ← rewritten_of_rowLocal rowLocal updates]
      obtain ⟨out, rewritten, evaluated⟩ := bind_eq_ok evaluated
      split at evaluated
      · cases evaluated
      · cases evaluated
        exact ⟨exact, computes.rewrite _ _ _ rewritten⟩

/-- Over any batch, a statement answers how many rows it matches and what it makes of them. -/
theorem applyDmlToBatches_spec {columns : List String} {rows out : List (Row Value)}
    {matched : Nat} (applied : applyDmlToBatches engine stmt columns rows = .ok (matched, out)) :
    matched = rows.countP (stmt.Matches meaning) ∧
      out.Perm (stmt.onRows meaning columns rows) := by
  rw [applyDmlToBatches] at applied
  split at applied
  case isTrue none' =>
    cases applied
    rw [List.length_eq_zero_iff] at none'
    subst none'
    exact ⟨rfl, .refl _⟩
  case isFalse =>
    obtain ⟨sql, built, applied⟩ := bind_eq_ok applied
    obtain ⟨fate, evaluated, applied⟩ := bind_eq_ok applied
    have spec := evaluateRows_spec rowLocal computes built evaluated
    rw [Except.ok.inj applied] at spec
    exact spec

end Answers

end Icegres.Dml
