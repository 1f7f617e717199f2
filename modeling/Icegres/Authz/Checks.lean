import Icegres.Sql.Translate

/-!
# The checks a statement requires

A statement is mapped to actions on tables, and a principal is allowed the statement when it holds
a grant for each: on the table, its namespace, or the warehouse. Session and metadata statements
require no check.
-/

namespace Icegres.Authz

open Icegres.Sql

variable {Value : Type}

/-! ## Grants -/

/-- A relation a principal can hold on an entity. -/
inductive Relation where
  | own
  | write
  | read
  | drop
  deriving DecidableEq

/-- Holding a relation satisfies a requirement for another. -/
def Relation.implies : Relation → Relation → Bool
  | .own, _ => true
  | .write, needed => needed = .write || needed = .read
  | .read, needed => needed = .read
  | .drop, needed => needed = .drop

/-- The data-plane action a statement performs on a table. -/
inductive Action where
  | readData
  | writeData
  | dropTable
  deriving DecidableEq

def Action.required : Action → Relation
  | .readData => .read
  | .writeData => .write
  | .dropTable => .drop

inductive Entity where
  | warehouse
  | namespaceOf (schema : String)
  | table (schema table : String)
  deriving DecidableEq

/-- The entity and its ancestors, nearest first. -/
def Entity.selfAndAncestors : Entity → List Entity
  | .warehouse => [.warehouse]
  | .namespaceOf schema => [.namespaceOf schema, .warehouse]
  | .table schema name => [.table schema name, .namespaceOf schema, .warehouse]

structure TableRef where
  schema : String
  table : String
  deriving DecidableEq

def TableRef.entity (target : TableRef) : Entity :=
  .table target.schema target.table

inductive Decision where
  | allow
  | deny (action : Action) (target : TableRef)
  deriving DecidableEq

/-- The policy, with role memberships already flattened. -/
structure FileAuthorizer where
  grants : String → List (Relation × Entity)
  memberships : String → List String

/-- The user and the roles it belongs to. -/
def FileAuthorizer.principalsOf (authorizer : FileAuthorizer) (user : String) : List String :=
  user :: authorizer.memberships user

def FileAuthorizer.check (authorizer : FileAuthorizer) (principal : String) (action : Action)
    (target : TableRef) : Decision :=
  let needed := action.required
  let entities := target.entity.selfAndAncestors
  if (authorizer.principalsOf principal).any fun name =>
      (authorizer.grants name).any fun grant =>
        grant.1.implies needed && decide (grant.2 ∈ entities) then
    .allow
  else .deny action target

/-! ## Table names -/

def isSystemSchema (schema : String) : Bool :=
  schema.toLower ∈ ["pg_catalog", "information_schema", "pg_temp", "pg_toast"]

def tableRef (schema table : String) : Option TableRef :=
  if table = "" then none else some ⟨schema, table⟩

/-- A written name without its quotes, split at the dots. -/
def nameParts (name : String) : List String :=
  ((name.toList.filter fun c => c ≠ doubleQuote).splitOn '.').map String.ofList

def objectNameToRef (name defaultSchema : String) : Option TableRef :=
  match nameParts name with
  | [table] => tableRef defaultSchema table
  | [schema, table] => tableRef schema table
  | [_, schema, table] => tableRef schema table
  | _ => none

/-! ## The names the relation visitor meets -/

mutual

/-- Every name of a table factor at any depth. `TABLE t` holds its name as plain text, which the
visitor does not meet. -/
def queryRelations : Query Value → List ObjectName
  | .mk ctes body operands => ctesRelations ctes ++ bodyRelations body ++ exprsRelations operands

def ctesRelations : List (Ident × Query Value) → List ObjectName
  | [] => []
  | (_, query) :: rest => queryRelations query ++ ctesRelations rest

def bodyRelations : SetExpr Value → List ObjectName
  | .select tables operands => tablesRelations tables ++ exprsRelations operands
  | .query query => queryRelations query
  | .setOperation left right => bodyRelations left ++ bodyRelations right
  | .values operands => exprsRelations operands
  | .table _ => []

def tablesRelations : List (TableWithJoins Value) → List ObjectName
  | [] => []
  | tables :: rest => joinedRelations tables ++ tablesRelations rest

def joinedRelations : TableWithJoins Value → List ObjectName
  | .mk relation joins constraints =>
      factorRelations relation ++ factorsRelations joins ++ exprsRelations constraints

def factorsRelations : List (TableFactor Value) → List ObjectName
  | [] => []
  | factor :: rest => factorRelations factor ++ factorsRelations rest

def factorRelations : TableFactor Value → List ObjectName
  | .table name _ args => name :: exprsRelations args
  | .derived query => queryRelations query
  | .function operands => exprsRelations operands
  | .nestedJoin tables => joinedRelations tables

def exprRelations : Expr Value → List ObjectName
  | .identifier _ => []
  | .compoundIdentifier _ => []
  | .value _ => []
  | .operation _ operands => exprsRelations operands
  | .function _ _ operands => exprsRelations operands
  | .subquery _ operands query => exprsRelations operands ++ queryRelations query

def exprsRelations : List (Expr Value) → List ObjectName
  | [] => []
  | expr :: rest => exprRelations expr ++ exprsRelations rest

end

/-! ## Required checks -/

/-- The check for one written name. -/
def nameChecks (defaultSchema : String) (action : Action) (name : ObjectName) :
    List (Action × TableRef) :=
  ((objectNameToRef name.text defaultSchema).map fun target => (action, target)).toList

def factorChecks (defaultSchema : String) (action : Action) :
    TableFactor Value → List (Action × TableRef)
  | .table name _ _ => nameChecks defaultSchema action name
  | _ => []

def collectQueryReads (defaultSchema : String) (query : Query Value) : List (Action × TableRef) :=
  (queryRelations query).flatMap (nameChecks defaultSchema .readData)

def statementChecks (defaultSchema : String) : Statement Value → List (Action × TableRef)
  | .query query => collectQueryReads defaultSchema query
  | .insert table source =>
      nameChecks defaultSchema .writeData table ++
        match source with
        | some query => collectQueryReads defaultSchema query
        | none => []
  | .update update => factorChecks defaultSchema .writeData update.table.relation
  | .delete delete =>
      delete.tables.flatMap (nameChecks defaultSchema .writeData) ++
        delete.fromTables.flatMap fun tables =>
          factorChecks defaultSchema .writeData tables.relation
  | .copy source toTarget =>
      match source with
      | .table name =>
          nameChecks defaultSchema (if toTarget then .readData else .writeData) name
      | .query query => collectQueryReads defaultSchema query
  | .drop names => names.flatMap (nameChecks defaultSchema .dropTable)
  | _ => []

/-- Checks on metadata schemas are left out. -/
def requiredChecks (stmt : Statement Value) (defaultSchema : String) :
    List (Action × TableRef) :=
  (statementChecks defaultSchema stmt).filter fun check => !isSystemSchema check.2.schema

/-- The first check that is denied denies the statement. -/
def authorizeSql (authorizer : FileAuthorizer) (principal : String) (stmt : Statement Value)
    (defaultSchema : String) : Decision :=
  ((requiredChecks stmt defaultSchema).map fun check =>
    authorizer.check principal check.1 check.2).find? (fun decision => decision ≠ .allow)
    |>.getD .allow

end Icegres.Authz
