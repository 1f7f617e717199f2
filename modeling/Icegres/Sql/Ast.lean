import Mathlib.Algebra.Ring.Nat
import Mathlib.Data.List.Basic

/-!
# Parsed SQL statements

The parts of the parser's syntax tree that the server inspects: names, expressions, queries and the
statements with the places where they hold a table or a query. An expression form that computes its
value from the values of its operands is an operation, whatever it is written like.
-/

namespace Icegres.Sql

structure Ident where
  value : String
  /-- Written between double quotes. -/
  quoted : Bool
  deriving DecidableEq

def doubleQuote : Char :=
  Char.ofNat 34

def Ident.text (ident : Ident) : String :=
  if ident.quoted then
    String.ofList ([doubleQuote] ++
      (ident.value.toList.flatMap fun c =>
        if c = doubleQuote then [doubleQuote, doubleQuote] else [c]) ++ [doubleQuote])
  else ident.value

inductive ObjectNamePart where
  | identifier (ident : Ident)
  | function (text : String)
  deriving DecidableEq

def ObjectNamePart.text : ObjectNamePart → String
  | .identifier ident => ident.text
  | .function text => text

abbrev ObjectName :=
  List ObjectNamePart

def ObjectName.text (name : ObjectName) : String :=
  ".".intercalate (name.map ObjectNamePart.text)

structure TableAlias where
  name : Ident
  columns : List Ident
  deriving DecidableEq

mutual

inductive Expr (Value : Type) where
  | identifier (ident : Ident)
  | compoundIdentifier (idents : List Ident)
  | value (value : Value)
  /-- An operator, a cast, a `CASE`, a `BETWEEN`, an `IN` over a list and the like. -/
  | operation (operator : String) (operands : List (Expr Value))
  /-- A call. The operands are the arguments and what `FILTER`, `PARTITION BY` and `ORDER BY` name;
  it is windowed when it has an `OVER` clause. -/
  | function (name : ObjectName) (windowed : Bool) (operands : List (Expr Value))
  /-- A scalar subquery, `EXISTS`, `IN`, `ANY`, `ALL`, or a call of a query. -/
  | subquery (form : String) (operands : List (Expr Value)) (query : Query Value)

inductive Query (Value : Type) where
  /-- `operands` are the expressions of `ORDER BY`, `LIMIT` and `FETCH`. -/
  | mk (ctes : List (Ident × Query Value)) (body : SetExpr Value) (operands : List (Expr Value))

inductive SetExpr (Value : Type) where
  /-- `operands` are the projection and the expressions of `WHERE`, `GROUP BY` and the like. -/
  | select (tables : List (TableWithJoins Value)) (operands : List (Expr Value))
  | query (query : Query Value)
  | setOperation (left right : SetExpr Value)
  | values (operands : List (Expr Value))
  | table (name : ObjectName)

inductive TableWithJoins (Value : Type) where
  /-- `constraints` are the expressions of the joins. -/
  | mk (relation : TableFactor Value) (joins : List (TableFactor Value))
    (constraints : List (Expr Value))

inductive TableFactor (Value : Type) where
  | table (name : ObjectName) (tableAlias : Option TableAlias) (args : List (Expr Value))
  | derived (query : Query Value)
  /-- A table function, or `UNNEST`. -/
  | function (operands : List (Expr Value))
  | nestedJoin (tables : TableWithJoins Value)

end

variable {Value : Type}

def TableWithJoins.relation : TableWithJoins Value → TableFactor Value
  | .mk relation _ _ => relation

def TableWithJoins.joins : TableWithJoins Value → List (TableFactor Value)
  | .mk _ joins _ => joins

inductive AssignmentTarget where
  | columnName (name : ObjectName)
  | tuple (names : List ObjectName)

structure Assignment (Value : Type) where
  target : AssignmentTarget
  value : Expr Value

structure Update (Value : Type) where
  table : TableWithJoins Value
  assignments : List (Assignment Value)
  fromTables : Option (List (TableWithJoins Value))
  selection : Option (Expr Value)
  returning : Option (List (Expr Value))
  /-- The clause of `UPDATE OR`. -/
  onConflict : Option String
  limit : Option (Expr Value)

structure Delete (Value : Type) where
  tables : List ObjectName
  fromTables : List (TableWithJoins Value)
  usingTables : Option (List (TableWithJoins Value))
  selection : Option (Expr Value)
  returning : Option (List (Expr Value))
  orderBy : List (Expr Value)
  limit : Option (Expr Value)

inductive CopySource (Value : Type) where
  | table (name : ObjectName)
  | query (query : Query Value)

inductive Statement (Value : Type) where
  | query (query : Query Value)
  | insert (table : ObjectName) (source : Option (Query Value))
  | update (update : Update Value)
  | delete (delete : Delete Value)
  /-- `COPY … TO` when `toTarget` holds, `COPY … FROM` otherwise. -/
  | copy (source : CopySource Value) (toTarget : Bool)
  | drop (names : List ObjectName)
  | explain (analyze : Bool) (statement : Statement Value)
  | prepare (name : Ident) (statement : Statement Value)
  | execute (name : Ident)
  | createTable (name : ObjectName) (orReplace ifNotExists : Bool) (query : Option (Query Value))
  | createView (name : ObjectName) (orReplace : Bool) (query : Query Value)
  /-- A statement that names no table. -/
  | session (text : String)

end Icegres.Sql
