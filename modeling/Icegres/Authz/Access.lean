import Icegres.Authz.Checks

/-!
# What a statement reads and writes

The planner resolves a name against the common table expressions in scope, then as a table of the
catalog. A name can also stand for an earlier snapshot of a table or for its metadata. A prepared
statement runs when it is executed.
-/

namespace Icegres.Authz

open Icegres.Sql

variable {Value : Type}

/-! ## Names -/

/-- The schemas the server answers itself. -/
def metadataSchemas : List String :=
  ["pg_catalog", "information_schema", "pg_temp", "pg_toast"]

/-- The digits of a snapshot id, with its sign. -/
def isSnapshotId (text : List Char) : Bool :=
  let (negative, digits) :=
    match text with
    | '-' :: rest => (true, rest)
    | '+' :: rest => (false, rest)
    | rest => (false, rest)
  let value := digits.foldl (fun value c => 10 * value + (c.toNat - 48)) 0
  !digits.isEmpty && digits.all Char.isDigit &&
    decide (value < if negative then 2 ^ 63 + 1 else 2 ^ 63)

/-- The table before `@` and a snapshot id. -/
def parseTimeTravel (name : List Char) : Option (List Char) :=
  let fromEnd := name.reverse
  match fromEnd.dropWhile fun c => c ≠ '@' with
  | [] => none
  | _ :: rest =>
      let base := rest.reverse
      let id := (fromEnd.takeWhile fun c => c ≠ '@').reverse
      if base.isEmpty || '$' ∈ base then none
      else if isSnapshotId id then some base
      else none

/-- The table a catalog name is served from. -/
def baseName (name : String) : String :=
  if '$' ∈ name.toList then
    String.ofList (name.toList.takeWhile fun c => c ≠ '$')
  else
    match parseTimeTravel name.toList with
    | some base => String.ofList base
    | none => name

/-- The table a name resolves to when unquoted identifiers are folded. -/
def tableOf (fold : String → String) (name : ObjectName) : Option TableRef :=
  match identifierParts fold name >>= splitName with
  | .ok (schema, table) => if schema ∈ metadataSchemas then none else some ⟨schema, table⟩
  | .error _ => none

def TableRef.base (target : TableRef) : TableRef :=
  { target with table := baseName target.table }

/-! ## Queries -/

/-- The planner folds ASCII letters. -/
def plannerFold : String → String :=
  String.toLower

/-- The name is that of a common table expression in scope. -/
def inScope (scope : List String) (name : ObjectName) : Bool :=
  match identifierParts plannerFold name with
  | .ok parts => ".".intercalate parts ∈ scope
  | .error _ => false

def cteNames (ctes : List (Ident × Query Value)) : List String :=
  ctes.map fun cte => normalizeIdent plannerFold cte.1

mutual

/-- The tables a query scans. `TABLE t` is not planned. -/
def queryReads (scope : List String) : Query Value → List ObjectName
  | .mk ctes body operands =>
      ctesReads scope ctes ++ bodyReads (cteNames ctes ++ scope) body ++
        exprsReads (cteNames ctes ++ scope) operands

/-- A common table expression sees those before it. -/
def ctesReads (scope : List String) : List (Ident × Query Value) → List ObjectName
  | [] => []
  | (name, query) :: rest =>
      queryReads scope query ++ ctesReads (normalizeIdent plannerFold name :: scope) rest

def bodyReads (scope : List String) : SetExpr Value → List ObjectName
  | .select tables operands => tablesReads scope tables ++ exprsReads scope operands
  | .query query => queryReads scope query
  | .setOperation left right => bodyReads scope left ++ bodyReads scope right
  | .values operands => exprsReads scope operands
  | .table _ => []

def tablesReads (scope : List String) : List (TableWithJoins Value) → List ObjectName
  | [] => []
  | tables :: rest => joinedReads scope tables ++ tablesReads scope rest

def joinedReads (scope : List String) : TableWithJoins Value → List ObjectName
  | .mk relation joins constraints =>
      factorReads scope relation ++ factorsReads scope joins ++ exprsReads scope constraints

def factorsReads (scope : List String) : List (TableFactor Value) → List ObjectName
  | [] => []
  | factor :: rest => factorReads scope factor ++ factorsReads scope rest

/-- A name with arguments calls a table function. -/
def factorReads (scope : List String) : TableFactor Value → List ObjectName
  | .table name _ args =>
      (if args.isEmpty && !inScope scope name then [name] else []) ++ exprsReads scope args
  | .derived query => queryReads scope query
  | .function operands => exprsReads scope operands
  | .nestedJoin tables => joinedReads scope tables

def exprReads (scope : List String) : Expr Value → List ObjectName
  | .identifier _ => []
  | .compoundIdentifier _ => []
  | .value _ => []
  | .operation _ operands => exprsReads scope operands
  | .function _ _ operands => exprsReads scope operands
  | .subquery _ operands query => exprsReads scope operands ++ queryReads scope query

def exprsReads (scope : List String) : List (Expr Value) → List ObjectName
  | [] => []
  | expr :: rest => exprReads scope expr ++ exprsReads scope rest

end

/-! ## Statements -/

/-- A name that is accessed, and how its unquoted identifiers are folded. -/
structure NamedAccess where
  action : Action
  name : ObjectName
  fold : String → String

/-- The table of the name. A snapshot or the metadata of a table is not dropped with it. -/
def NamedAccess.table (access : NamedAccess) : Option TableRef :=
  (tableOf access.fold access.name).map fun target =>
    if access.action = .dropTable then target else target.base

def NamedAccess.target (access : NamedAccess) : Option (Action × TableRef) :=
  access.table.map fun target => (access.action, target)

def queryAccesses (query : Query Value) : List NamedAccess :=
  (queryReads [] query).map fun name => ⟨.readData, name, plannerFold⟩

/-- What a statement does when the planner runs it. -/
def plannedAccesses : Statement Value → List NamedAccess
  | .query query => queryAccesses query
  | .insert table source =>
      ⟨.writeData, table, plannerFold⟩ ::
        match source with
        | some query => queryAccesses query
        | none => []
  | _ => []

/-- The target of an UPDATE or DELETE. -/
def targetAccess (lowercase : String → String) : TableFactor Value → List NamedAccess
  | .table name _ _ => [⟨.writeData, name, lowercase⟩]
  | _ => []

/-- What executing a statement depends on: the prepared statements of the session, and the names
that the planner finds a table of. -/
structure Server (Value : Type) where
  prepared : Ident → Option (Statement Value)
  hasTable : ObjectName → Bool

/-- A table that is there is left by IF NOT EXISTS and dropped by OR REPLACE, and is an error with
both or with neither. -/
def createAccesses (server : Server Value) (name : ObjectName) (orReplace ifNotExists : Bool)
    (query : List NamedAccess) : List NamedAccess :=
  match ifNotExists, orReplace, server.hasTable name with
  | _, _, false => query
  | false, true, true => ⟨.dropTable, name, plannerFold⟩ :: query
  | _, _, true => []

/-- The names whose tables executing a statement reads or writes. An UPDATE or DELETE that is not
translated is not executed, an EXPLAIN executes its statement when it says ANALYZE, and the query of
a view is only planned. -/
def namedAccesses (lowercase : String → String) (server : Server Value) :
    Statement Value → List NamedAccess
  | .query query => plannedAccesses (.query query)
  | .insert table source => plannedAccesses (.insert table source)
  | .update update =>
      match translateUpdate lowercase update with
      | .ok _ => targetAccess lowercase update.table.relation
      | .error _ => []
  | .delete delete =>
      match translateDelete lowercase delete with
      | .ok _ => delete.fromTables.flatMap fun tables => targetAccess lowercase tables.relation
      | .error _ => []
  | .copy (.table name) toTarget =>
      [⟨if toTarget then .readData else .writeData, name, plannerFold⟩]
  | .copy (.query query) _ => queryAccesses query
  | .drop names => names.map fun name => ⟨.dropTable, name, plannerFold⟩
  | .explain analyze statement => if analyze then plannedAccesses statement else []
  | .prepare _ _ => []
  | .execute name =>
      match server.prepared name with
      | some statement => plannedAccesses statement
      | none => []
  | .createTable name orReplace ifNotExists query =>
      createAccesses server name orReplace ifNotExists (query.toList.flatMap queryAccesses)
  | .createView name orReplace _ => createAccesses server name orReplace false []
  | .session _ => []

/-- The base tables executing a statement reads or writes. -/
def accesses (lowercase : String → String) (server : Server Value) (stmt : Statement Value) :
    List (Action × TableRef) :=
  (namedAccesses lowercase server stmt).filterMap NamedAccess.target

/-- Every access has a check on its table with an action at least as strong. -/
def Covered (lowercase : String → String) (server : Server Value) (stmt : Statement Value) : Prop :=
  ∀ access ∈ accesses lowercase server stmt,
    ∃ check ∈ requiredChecks stmt defaultSchema,
      check.2 = access.2 ∧ check.1.required.implies access.1.required = true

/-! ## The names the visitor meets include those a query scans -/

mutual

theorem queryReads_subset (scope : List String) (query : Query Value) :
    ∀ name ∈ queryReads scope query, name ∈ queryRelations query := by
  cases query with
  | mk ctes body operands =>
      simp only [queryReads, queryRelations, List.mem_append]
      rintro name ((inCtes | inBody) | inOperands)
      · exact .inl (.inl (ctesReads_subset _ ctes name inCtes))
      · exact .inl (.inr (bodyReads_subset _ body name inBody))
      · exact .inr (exprsReads_subset _ operands name inOperands)

theorem ctesReads_subset (scope : List String) (ctes : List (Ident × Query Value)) :
    ∀ name ∈ ctesReads scope ctes, name ∈ ctesRelations ctes := by
  match ctes with
  | [] => simp [ctesReads]
  | (ident, query) :: rest =>
      simp only [ctesReads, ctesRelations, List.mem_append]
      rintro name (here | later)
      · exact .inl (queryReads_subset _ query name here)
      · exact .inr (ctesReads_subset _ rest name later)

theorem bodyReads_subset (scope : List String) (body : SetExpr Value) :
    ∀ name ∈ bodyReads scope body, name ∈ bodyRelations body := by
  cases body with
  | select tables operands =>
      simp only [bodyReads, bodyRelations, List.mem_append]
      rintro name (inTables | inOperands)
      · exact .inl (tablesReads_subset _ tables name inTables)
      · exact .inr (exprsReads_subset _ operands name inOperands)
  | query query =>
      simp only [bodyReads, bodyRelations]
      exact queryReads_subset _ query
  | setOperation left right =>
      simp only [bodyReads, bodyRelations, List.mem_append]
      rintro name (inLeft | inRight)
      · exact .inl (bodyReads_subset _ left name inLeft)
      · exact .inr (bodyReads_subset _ right name inRight)
  | values operands =>
      simp only [bodyReads, bodyRelations]
      exact exprsReads_subset _ operands
  | table name => simp [bodyReads]

theorem tablesReads_subset (scope : List String) (tables : List (TableWithJoins Value)) :
    ∀ name ∈ tablesReads scope tables, name ∈ tablesRelations tables := by
  cases tables with
  | nil => simp [tablesReads]
  | cons joined rest =>
      simp only [tablesReads, tablesRelations, List.mem_append]
      rintro name (here | later)
      · exact .inl (joinedReads_subset _ joined name here)
      · exact .inr (tablesReads_subset _ rest name later)

theorem joinedReads_subset (scope : List String) (tables : TableWithJoins Value) :
    ∀ name ∈ joinedReads scope tables, name ∈ joinedRelations tables := by
  cases tables with
  | mk relation joins constraints =>
      simp only [joinedReads, joinedRelations, List.mem_append]
      rintro name ((inFirst | inJoins) | inConstraints)
      · exact .inl (.inl (factorReads_subset _ relation name inFirst))
      · exact .inl (.inr (factorsReads_subset _ joins name inJoins))
      · exact .inr (exprsReads_subset _ constraints name inConstraints)

theorem factorsReads_subset (scope : List String) (factors : List (TableFactor Value)) :
    ∀ name ∈ factorsReads scope factors, name ∈ factorsRelations factors := by
  cases factors with
  | nil => simp [factorsReads]
  | cons factor rest =>
      simp only [factorsReads, factorsRelations, List.mem_append]
      rintro name (here | later)
      · exact .inl (factorReads_subset _ factor name here)
      · exact .inr (factorsReads_subset _ rest name later)

theorem factorReads_subset (scope : List String) (factor : TableFactor Value) :
    ∀ name ∈ factorReads scope factor, name ∈ factorRelations factor := by
  cases factor with
  | table table tableAlias args =>
      simp only [factorReads, factorRelations, List.mem_append, List.mem_cons]
      rintro name (here | inArgs)
      · split at here
        · exact .inl (List.mem_singleton.mp here)
        · cases here
      · exact .inr (exprsReads_subset _ args name inArgs)
  | derived query =>
      simp only [factorReads, factorRelations]
      exact queryReads_subset _ query
  | function operands =>
      simp only [factorReads, factorRelations]
      exact exprsReads_subset _ operands
  | nestedJoin tables =>
      simp only [factorReads, factorRelations]
      exact joinedReads_subset _ tables

theorem exprReads_subset (scope : List String) (expr : Expr Value) :
    ∀ name ∈ exprReads scope expr, name ∈ exprRelations expr := by
  cases expr with
  | identifier ident => simp [exprReads]
  | compoundIdentifier idents => simp [exprReads]
  | value value => simp [exprReads]
  | operation operator operands =>
      simp only [exprReads, exprRelations]
      exact exprsReads_subset _ operands
  | function called windowed operands =>
      simp only [exprReads, exprRelations]
      exact exprsReads_subset _ operands
  | subquery form operands query =>
      simp only [exprReads, exprRelations, List.mem_append]
      rintro name (inOperands | inQuery)
      · exact .inl (exprsReads_subset _ operands name inOperands)
      · exact .inr (queryReads_subset _ query name inQuery)

theorem exprsReads_subset (scope : List String) (exprs : List (Expr Value)) :
    ∀ name ∈ exprsReads scope exprs, name ∈ exprsRelations exprs := by
  cases exprs with
  | nil => simp [exprsReads]
  | cons expr rest =>
      simp only [exprsReads, exprsRelations, List.mem_append]
      rintro name (here | later)
      · exact .inl (exprReads_subset _ expr name here)
      · exact .inr (exprsReads_subset _ rest name later)

end

end Icegres.Authz
