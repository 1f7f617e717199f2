import Icegres.Sql.Translate

/-!
# What the expressions of a statement compute

The query engine resolves the functions that an expression calls. A call may compute its value from
the whole batch of rows that a statement is evaluated over.
-/

namespace Icegres.Sql

variable {Value : Type}

/-- What a call computes its value from. -/
inductive FunctionKind (Value : Type) where
  /-- An immutable scalar function: its arguments. -/
  | scalar (value : List Value → Value)
  /-- An aggregate or a window function: the arguments of every row of the batch, and the place of
  the row. The place also tells the draws of a volatile function apart. -/
  | batch (value : List (List Value) → Nat → Value)

def FunctionKind.isBatch : FunctionKind Value → Bool
  | .scalar _ => false
  | .batch _ => true

/-- The functions and operators the engine knows. -/
structure Registry (Value : Type) where
  operation : String → List Value → Value
  /-- A call of a name, with or without an `OVER` clause. -/
  function : String → Bool → FunctionKind Value
  null : Value
  truth : Value → Option Bool
  /-- The cast of a `CASE` between an expression and a column to their common type, over rows of the
  types of the given one. -/
  common : Expr Value → String → Dml.Row Value → Value → Value
  lowercase : String → String

namespace Registry

variable (registry : Registry Value)

def columnValue (columns : List String) (row : Dml.Row Value) (ident : Ident) : Value :=
  match columns.findIdx? fun column => column = normalizeIdent registry.lowercase ident with
  | some index => row.getD index registry.null
  | none => registry.null

mutual

/-- The value of an expression for one row of a batch. -/
def eval (columns : List String) (rows : List (Dml.Row Value)) (index : Nat) : Expr Value → Value
  | .identifier ident => registry.columnValue columns (rows.getD index []) ident
  | .compoundIdentifier idents =>
      match idents.getLast? with
      | some ident => registry.columnValue columns (rows.getD index []) ident
      | none => registry.null
  | .value value => value
  | .operation operator operands =>
      registry.operation operator (evalAll columns rows index operands)
  | .function name windowed operands =>
      match registry.function (ObjectName.text name) windowed with
      | .scalar value => value (evalAll columns rows index operands)
      | .batch value =>
          value ((List.range rows.length).map fun other => evalAll columns rows other operands)
            index
  | .subquery _ _ _ => registry.null

def evalAll (columns : List String) (rows : List (Dml.Row Value)) (index : Nat) :
    List (Expr Value) → List Value
  | [] => []
  | expr :: rest => eval columns rows index expr :: evalAll columns rows index rest

end

/-- What the expressions are over the rows of a batch. -/
def meaning (columns : List String) : Dml.Meaning (Expr Value) (Expr Value) Value where
  truthAt predicate rows index := registry.truth (registry.eval columns rows index predicate)
  valueAt expr rows index := registry.eval columns rows index expr
  common := registry.common

end Registry

/-! ## Calls that look beyond the row -/

mutual

/-- Every call in the expression is one of those that are computed from their arguments. -/
def Expr.isRowLocal (isBatch : String → Bool → Bool) : Expr Value → Bool
  | .identifier _ => true
  | .compoundIdentifier _ => true
  | .value _ => true
  | .operation _ operands => allRowLocal isBatch operands
  | .function name windowed operands =>
      !isBatch (ObjectName.text name) windowed && allRowLocal isBatch operands
  | .subquery _ _ _ => false

def allRowLocal (isBatch : String → Bool → Bool) : List (Expr Value) → Bool
  | [] => true
  | expr :: rest => expr.isRowLocal isBatch && allRowLocal isBatch rest

end

/-- The registry has the given calls as the ones that look at the whole batch, and a `CASE` of the
given assignments changes no value of the column. -/
structure Registry.Classifies (registry : Registry Value) (isBatch : String → Bool → Bool)
    (keepsColumn : Expr Value → String → Bool) : Prop where
  calls : ∀ name windowed, (registry.function name windowed).isBatch = isBatch name windowed
  cases : ∀ expr column, keepsColumn expr column = true →
    ∀ row old, registry.common expr column row old = old

namespace Registry

variable {registry : Registry Value} {isBatch : String → Bool → Bool}
  {keepsColumn : Expr Value → String → Bool}

mutual

/-- A row-local expression has the same value for a row in any batch. -/
theorem eval_of_isRowLocal (classifies : registry.Classifies isBatch keepsColumn) (columns : List String)
    {rows : List (Dml.Row Value)} {index : Nat} {row : Dml.Row Value} (at' : rows.getD index [] = row)
    {expr : Expr Value} (isLocal : expr.isRowLocal isBatch = true) :
    registry.eval columns rows index expr = registry.eval columns [row] 0 expr := by
  cases expr with
  | identifier ident =>
      simp only [eval]
      rw [at', List.getD_cons_zero]
  | compoundIdentifier idents =>
      simp only [eval]
      rw [at', List.getD_cons_zero]
  | value value => simp only [eval]
  | operation operator operands =>
      simp only [Expr.isRowLocal] at isLocal
      simp only [eval]
      rw [evalAll_of_allRowLocal classifies columns at' isLocal]
  | function name windowed operands =>
      simp only [Expr.isRowLocal, Bool.and_eq_true, Bool.not_eq_true'] at isLocal
      have kind := classifies.calls (ObjectName.text name) windowed
      rw [isLocal.1] at kind
      simp only [eval]
      cases called : registry.function (ObjectName.text name) windowed with
      | scalar value =>
          simp only
          rw [evalAll_of_allRowLocal classifies columns at' isLocal.2]
      | batch value =>
          rw [called] at kind
          cases kind
  | subquery form operands query => simp only [Expr.isRowLocal, Bool.false_eq_true] at isLocal

theorem evalAll_of_allRowLocal (classifies : registry.Classifies isBatch keepsColumn) (columns : List String)
    {rows : List (Dml.Row Value)} {index : Nat} {row : Dml.Row Value} (at' : rows.getD index [] = row)
    {exprs : List (Expr Value)} (isLocal : allRowLocal isBatch exprs = true) :
    registry.evalAll columns rows index exprs = registry.evalAll columns [row] 0 exprs := by
  cases exprs with
  | nil => simp only [evalAll]
  | cons expr rest =>
      simp only [allRowLocal, Bool.and_eq_true] at isLocal
      simp only [evalAll]
      rw [eval_of_isRowLocal classifies columns at' isLocal.1,
        evalAll_of_allRowLocal classifies columns at' isLocal.2]

end

end Registry

/-! ## Columns -/

mutual

/-- What the expression looks up among the columns. -/
def Expr.columnIdents : Expr Value → List Ident
  | .identifier ident => [ident]
  | .compoundIdentifier idents => idents.getLast?.toList
  | .value _ => []
  | .operation _ operands => allColumnIdents operands
  | .function _ _ operands => allColumnIdents operands
  | .subquery _ operands _ => allColumnIdents operands

def allColumnIdents : List (Expr Value) → List Ident
  | [] => []
  | expr :: rest => expr.columnIdents ++ allColumnIdents rest

end

namespace Registry

variable {registry : Registry Value}

mutual

/-- An expression that names no column has the same value for every row on its own. -/
theorem eval_of_no_column (columns : List String) (here there : Dml.Row Value) {expr : Expr Value}
    (none' : expr.columnIdents = []) :
    registry.eval columns [here] 0 expr = registry.eval columns [there] 0 expr := by
  cases expr with
  | identifier ident => cases none'
  | compoundIdentifier idents =>
      simp only [Expr.columnIdents, Option.toList_eq_nil_iff] at none'
      simp only [eval, none']
  | value value => simp only [eval]
  | operation operator operands =>
      simp only [Expr.columnIdents] at none'
      simp only [eval, evalAll_of_no_column columns here there none']
  | function name windowed operands =>
      simp only [Expr.columnIdents] at none'
      simp only [eval, List.length_singleton, List.range_one, List.map_cons, List.map_nil,
        evalAll_of_no_column columns here there none']
  | subquery form operands query => simp only [eval]

theorem evalAll_of_no_column (columns : List String) (here there : Dml.Row Value)
    {exprs : List (Expr Value)} (none' : allColumnIdents exprs = []) :
    registry.evalAll columns [here] 0 exprs = registry.evalAll columns [there] 0 exprs := by
  cases exprs with
  | nil => simp only [evalAll]
  | cons expr rest =>
      simp only [allColumnIdents, List.append_eq_nil_iff] at none'
      simp only [evalAll, eval_of_no_column columns here there none'.1,
        evalAll_of_no_column columns here there none'.2]

end

end Registry

end Icegres.Sql
