import Icegres.Dml
import Icegres.Sql.Ast

/-!
# The translation of UPDATE and DELETE

A statement is accepted when it has a single plain target and none of the clauses the engine does
not evaluate. Subqueries are searched for in the WHERE clause and in every assigned value.
-/

namespace Icegres.Sql

variable {Value : Type}

/-! ## Names -/

def defaultSchema : String :=
  "demo"

def catalogName : String :=
  "icegres"

/-- Unquoted identifiers are folded to lower case. -/
def normalizeIdent (lowercase : String → String) (ident : Ident) : String :=
  if ident.quoted then ident.value else lowercase ident.value

/-- The last identifier of a column reference. -/
def lastIdent (lowercase : String → String) (name : ObjectName) : Except String String :=
  match name.getLast? with
  | some (.identifier ident) => .ok (normalizeIdent lowercase ident)
  | _ => .error ("unsupported assignment target " ++ name.text)

def identifierParts (lowercase : String → String) (name : ObjectName) :
    Except String (List String) :=
  name.mapM fun part =>
    match part with
    | .identifier ident => .ok (normalizeIdent lowercase ident)
    | .function _ => .error ("unsupported table name part in " ++ name.text)

/-- The namespace and the table a name stands for. -/
def splitName : List String → Except String (String × String)
  | [table] => .ok (defaultSchema, table)
  | [schema, table] => .ok (schema, table)
  | [catalog, schema, table] =>
      if catalog = catalogName then .ok (schema, table)
      else .error ("unknown catalog " ++ catalog.quote ++ " (only " ++ catalogName.quote ++
        " is served)")
  | parts => .error ("table name with " ++ toString parts.length ++ " parts is not supported")

structure Target where
  schema : String
  table : String
  tableAlias : Option String
  deriving DecidableEq

/-- A plain table factor without joins. -/
def plainTable (lowercase : String → String) (tables : TableWithJoins Value) :
    Except String Target :=
  if !tables.joins.isEmpty then
    .error "joined tables are not supported in UPDATE/DELETE"
  else
    match tables.relation with
    | .table name tableAlias _ => do
        let parts ← identifierParts lowercase name
        let (schema, table) ← splitName parts
        match tableAlias with
        | none => return ⟨schema, table, none⟩
        | some written =>
            if !written.columns.isEmpty then
              .error "column aliases on the target table are not supported"
            else
              return ⟨schema, table, some (normalizeIdent lowercase written.name)⟩
    | _ => .error "only plain table targets are supported in UPDATE/DELETE"

/-! ## Subqueries -/

mutual

/-- There is a query anywhere in the expression. -/
def Expr.hasQuery : Expr Value → Bool
  | .identifier _ => false
  | .compoundIdentifier _ => false
  | .value _ => false
  | .operation _ operands => anyQuery operands
  | .function _ _ operands => anyQuery operands
  | .subquery _ _ _ => true

def anyQuery : List (Expr Value) → Bool
  | [] => false
  | expr :: rest => expr.hasQuery || anyQuery rest

end

def ensureNoSubquery (expr : Expr Value) (what : String) : Except String Unit :=
  if expr.hasQuery then
    .error ("subqueries in the " ++ what ++ " of UPDATE/DELETE are not supported")
  else .ok ()

/-! ## Statements -/

structure DmlStatement (Value : Type) where
  kind : Dml.DmlKind (Expr Value)
  target : Target
  predicate : Option (Expr Value)

def ensure (holds : Bool) (message : String) : Except String Unit :=
  if holds then .ok () else .error message

/-- One assignment, after those before it. -/
def translateAssignment (lowercase : String → String) (pairs : List (String × Expr Value))
    (assignment : Assignment Value) : Except String (List (String × Expr Value)) :=
  match assignment.target with
  | .tuple _ => .error "tuple assignment targets are not supported"
  | .columnName name => do
      let col ← lastIdent lowercase name
      ensure (pairs.all fun pair => pair.1 ≠ col)
        ("column \"" ++ col ++ "\" is assigned more than once")
      ensureNoSubquery assignment.value "assignment value"
      return pairs ++ [(col, assignment.value)]

def checkSelection (selection : Option (Expr Value)) : Except String Unit :=
  match selection with
  | none => .ok ()
  | some predicate => ensureNoSubquery predicate "WHERE clause"

def translateUpdate (lowercase : String → String) (update : Update Value) :
    Except String (DmlStatement Value) := do
  ensure update.fromTables.isNone "UPDATE ... FROM is not supported"
  ensure update.returning.isNone "UPDATE ... RETURNING is not supported"
  ensure update.onConflict.isNone "UPDATE OR ... is not supported"
  ensure update.limit.isNone "UPDATE ... LIMIT is not supported"
  let target ← plainTable lowercase update.table
  let pairs ← update.assignments.foldlM (translateAssignment lowercase) []
  ensure (!pairs.isEmpty) "UPDATE requires at least one assignment"
  checkSelection update.selection
  return ⟨.update pairs, target, update.selection⟩

def translateDelete (lowercase : String → String) (delete : Delete Value) :
    Except String (DmlStatement Value) := do
  ensure delete.tables.isEmpty "multi-table DELETE is not supported"
  ensure delete.usingTables.isNone "DELETE ... USING is not supported"
  ensure delete.returning.isNone "DELETE ... RETURNING is not supported"
  ensure delete.orderBy.isEmpty "DELETE ... ORDER BY is not supported"
  ensure delete.limit.isNone "DELETE ... LIMIT is not supported"
  match delete.fromTables with
  | [tables] => do
      let target ← plainTable lowercase tables
      checkSelection delete.selection
      return ⟨.delete, target, delete.selection⟩
  | _ => .error "DELETE requires exactly one target table"

/-- An UPDATE or DELETE with its command tag. -/
def translate (lowercase : String → String) :
    Statement Value → Except String (Option (DmlStatement Value × String))
  | .update update => do
      let stmt ← translateUpdate lowercase update
      return some (stmt, "UPDATE")
  | .delete delete => do
      let stmt ← translateDelete lowercase delete
      return some (stmt, "DELETE")
  | _ => .ok none

end Icegres.Sql
