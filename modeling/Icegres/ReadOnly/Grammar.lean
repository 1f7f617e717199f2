import Mathlib.Data.List.Basic

/-!
# What a listener that only reads admits

The syntax tree of a statement as far as it holds queries, with the places where the grammar lets a
query modify data: its body, and the target of `SELECT … INTO`. A listener that only reads inspects
the tree of each statement.
-/

namespace Icegres.ReadOnly

inductive ShowKind where
  | variable
  | variables
  | status
  | tables
  | columns
  | databases
  | schemas
  | views
  | functions
  | create
  | collation

/-- The forms that modify data or tables. -/
inductive WriteKind where
  | insert
  | update
  | delete
  | merge
  | copyFrom
  | createTable
  | createView
  | alterTable
  | drop
  | truncate

mutual

inductive Statement where
  | query (query : Query)
  | shown (kind : ShowKind) (filter : List Expr)
  | explainTable (name : String)
  | set (values : List Expr)
  /-- The statements of a block, and those of its exception handlers. -/
  | startTransaction (statements : List Statement)
  | commit
  | rollback
  | explain (analyze : Bool) (statement : Statement)
  | write (kind : WriteKind) (queries : List Query) (operands : List Expr)
  /-- A form that is not known. -/
  | other

inductive Query where
  /-- `operands` are the expressions of `ORDER BY`, `LIMIT` and `FETCH`. -/
  | mk (ctes : List Query) (body : SetExpr) (operands : List Expr)

inductive SetExpr where
  | select (select : Select)
  | query (query : Query)
  | setOperation (left right : SetExpr)
  | values (operands : List Expr)
  | table (name : String)
  | insert (statement : Statement)
  | update (statement : Statement)
  | delete (statement : Statement)
  | merge (statement : Statement)

inductive Select where
  /-- `operands` are the projection and the expressions of `WHERE`, `GROUP BY` and the like. -/
  | mk (into : Option String) (tables : List TableWithJoins) (operands : List Expr)

inductive TableWithJoins where
  /-- `constraints` are the expressions of the joins. -/
  | mk (relation : TableFactor) (joins : List TableFactor) (constraints : List Expr)

inductive TableFactor where
  | table (name : String) (args : List Expr)
  | derived (subquery : Query)
  /-- A table function, or `UNNEST`. -/
  | function (operands : List Expr)
  | nestedJoin (tables : TableWithJoins)

inductive Expr where
  | value (text : String)
  | operation (operator : String) (operands : List Expr)
  /-- A scalar subquery, `EXISTS`, `IN`, `ANY`, `ALL`, or a call of a query. -/
  | subquery (form : String) (operands : List Expr) (query : Query)

end

def Select.into : Select → Option String
  | .mk into _ _ => into

/-! ## The gate -/

mutual

def queryIsReadOnly : Query → Bool
  | .mk ctes body _ => ctesAreReadOnly ctes && setExprIsReadOnly body

def ctesAreReadOnly : List Query → Bool
  | [] => true
  | cte :: rest => queryIsReadOnly cte && ctesAreReadOnly rest

/-- A body that is a `SELECT` is not looked into. -/
def setExprIsReadOnly : SetExpr → Bool
  | .select _ => true
  | .values _ => true
  | .table _ => true
  | .query query => queryIsReadOnly query
  | .setOperation left right => setExprIsReadOnly left && setExprIsReadOnly right
  | _ => false

end

/-- An `EXPLAIN` without `ANALYZE` executes nothing. -/
def isReadOnly : Statement → Bool
  | .query query => queryIsReadOnly query
  | .shown _ _ => true
  | .explainTable _ => true
  | .set _ => true
  | .startTransaction _ => true
  | .commit => true
  | .rollback => true
  | .explain analyze statement => !analyze || isReadOnly statement
  | _ => false

end Icegres.ReadOnly
