import Icegres.ReadOnly.Grammar
import Mathlib.Logic.Relation

/-!
# What an admitted statement executes

A statement executes every node of its tree that is not below an `EXPLAIN` without `ANALYZE`. The
gate refuses those that modify data where it looks, and it looks neither into a `SELECT` nor into
an expression, a table factor or a block of statements.
-/

namespace Icegres.ReadOnly

/-! ## Nodes -/

inductive Node where
  | statement (statement : Statement)
  | query (query : Query)
  | body (body : SetExpr)
  | select (select : Select)
  | tables (tables : TableWithJoins)
  | factor (factor : TableFactor)
  | expr (expr : Expr)

/-- The nodes right below a node that are executed with it. -/
def Node.children : Node → List Node
  | .statement (.query inner) => [.query inner]
  | .statement (.shown _ filter) => filter.map .expr
  | .statement (.set values) => values.map .expr
  | .statement (.startTransaction statements) => statements.map .statement
  | .statement (.explain analyze inner) => if analyze then [.statement inner] else []
  | .statement (.write _ queries operands) => queries.map .query ++ operands.map .expr
  | .statement _ => []
  | .query (.mk ctes inner operands) => ctes.map .query ++ .body inner :: operands.map .expr
  | .body (.select inner) => [.select inner]
  | .body (.query inner) => [.query inner]
  | .body (.setOperation left right) => [.body left, .body right]
  | .body (.values operands) => operands.map .expr
  | .body (.table _) => []
  | .body (.insert inner) => [.statement inner]
  | .body (.update inner) => [.statement inner]
  | .body (.delete inner) => [.statement inner]
  | .body (.merge inner) => [.statement inner]
  | .select (.mk _ sources operands) => sources.map .tables ++ operands.map .expr
  | .tables (.mk relation joins constraints) =>
    .factor relation :: joins.map .factor ++ constraints.map .expr
  | .factor (.table _ args) => args.map .expr
  | .factor (.derived subquery) => [.query subquery]
  | .factor (.function operands) => operands.map .expr
  | .factor (.nestedJoin inner) => [.tables inner]
  | .expr (.value _) => []
  | .expr (.operation _ operands) => operands.map .expr
  | .expr (.subquery _ operands inner) => .query inner :: operands.map .expr

/-- A node executes itself and everything below it. -/
def Executes : Node → Node → Prop :=
  Relation.ReflTransGen fun parent child => child ∈ parent.children

/-- A node that modifies data or tables. -/
def Node.Modifies : Node → Prop
  | .statement (.write _ _ _) => True
  | .body (.insert _) => True
  | .body (.update _) => True
  | .body (.delete _) => True
  | .body (.merge _) => True
  | _ => False

/-- A node that modifies data or creates a table. -/
def Node.Writes (node : Node) : Prop :=
  node.Modifies ∨ ∃ select target, node = .select select ∧ select.into = some target

/-- Nothing that a statement executes writes. -/
def OnlyReads (stmt : Statement) : Prop :=
  ∀ node, Executes (.statement stmt) node → ¬ node.Writes

/-! ## Where the gate looks -/

/-- A node that the gate has let through. The others it does not look at. -/
def Node.Passed : Node → Prop
  | .statement stmt => isReadOnly stmt
  | .query inner => queryIsReadOnly inner
  | .body inner => setExprIsReadOnly inner
  | _ => True

/-- A query in an expression or a table factor, or a statement of a block. -/
inductive Nested : Node → Node → Prop
  | expr {expr : Expr} {query : Query} (below : .query query ∈ (Node.expr expr).children) :
      Nested (.expr expr) (.query query)
  | factor {factor : TableFactor} {query : Query}
      (below : .query query ∈ (Node.factor factor).children) :
      Nested (.factor factor) (.query query)
  | block {statements : List Statement} {stmt : Statement} (mem : stmt ∈ statements) :
      Nested (.statement (.startTransaction statements)) (.statement stmt)

theorem Nested.mem_children {outer inner : Node} (nested : Nested outer inner) :
    inner ∈ outer.children := by
  cases nested with
  | expr below => exact below
  | factor below => exact below
  | block mem => exact List.mem_map.mpr ⟨_, mem, rfl⟩

theorem queryIsReadOnly_of_mem {ctes : List Query} (all : ctesAreReadOnly ctes) {cte : Query}
    (mem : cte ∈ ctes) : queryIsReadOnly cte := by
  induction ctes with
  | nil => cases mem
  | cons first rest ih =>
      rw [ctesAreReadOnly, Bool.and_eq_true] at all
      rcases List.mem_cons.mp mem with rfl | later
      · exact all.1
      · exact ih all.2 later

/-! ### Below one node -/

section Children

variable {child : Node}

theorem passed_expr {operands : List Expr} (mem : child ∈ operands.map Node.expr) :
    child.Passed := by
  obtain ⟨operand, -, rfl⟩ := List.mem_map.mp mem
  trivial

theorem below_statement {stmt : Statement} (passed : isReadOnly stmt)
    (below : child ∈ (Node.statement stmt).children) :
    child.Passed ∨ Nested (.statement stmt) child := by
  cases stmt with
  | query inner =>
      cases List.mem_singleton.mp below
      exact .inl passed
  | shown kind filter => exact .inl (passed_expr below)
  | set values => exact .inl (passed_expr below)
  | startTransaction statements =>
      obtain ⟨stmt, mem, rfl⟩ := List.mem_map.mp below
      exact .inr (.block mem)
  | explain analyze inner =>
      cases analyze with
      | false => cases below
      | true =>
          cases List.mem_singleton.mp below
          exact .inl passed
  | write kind queries operands => cases passed
  | explainTable name => cases below
  | commit => cases below
  | rollback => cases below
  | other => cases below

/-- The gate looks at the common table expressions and the body of a query. -/
theorem below_query {query : Query} (passed : queryIsReadOnly query)
    (below : child ∈ (Node.query query).children) : child.Passed := by
  obtain ⟨ctes, body, operands⟩ := query
  rw [queryIsReadOnly, Bool.and_eq_true] at passed
  rcases List.mem_append.mp below with isCte | below
  · obtain ⟨cte, mem, rfl⟩ := List.mem_map.mp isCte
    exact queryIsReadOnly_of_mem passed.1 mem
  · rcases List.mem_cons.mp below with rfl | below
    · exact passed.2
    · exact passed_expr below

theorem below_body {body : SetExpr} (passed : setExprIsReadOnly body)
    (below : child ∈ (Node.body body).children) : child.Passed := by
  cases body with
  | select inner =>
      cases List.mem_singleton.mp below
      trivial
  | query inner =>
      cases List.mem_singleton.mp below
      exact passed
  | setOperation left right =>
      rw [setExprIsReadOnly, Bool.and_eq_true] at passed
      rcases List.mem_cons.mp below with rfl | below
      · exact passed.1
      · cases List.mem_singleton.mp below
        exact passed.2
  | values operands => exact passed_expr below
  | table name => cases below
  | insert inner => cases passed
  | update inner => cases passed
  | delete inner => cases passed
  | merge inner => cases passed

theorem below_factor {factor : TableFactor} (below : child ∈ (Node.factor factor).children) :
    child.Passed ∨ Nested (.factor factor) child := by
  cases factor with
  | table name args => exact .inl (passed_expr below)
  | derived subquery =>
      cases List.mem_singleton.mp below
      exact .inr (.factor (List.mem_singleton_self _))
  | function operands => exact .inl (passed_expr below)
  | nestedJoin tables =>
      cases List.mem_singleton.mp below
      exact .inl trivial

theorem below_expr {expr : Expr} (below : child ∈ (Node.expr expr).children) :
    child.Passed ∨ Nested (.expr expr) child := by
  cases expr with
  | value text => cases below
  | operation operator operands => exact .inl (passed_expr below)
  | subquery form operands query =>
      rcases List.mem_cons.mp below with rfl | below
      · exact .inr (.expr List.mem_cons_self)
      · exact .inl (passed_expr below)

end Children

/-- Below a node that is let through are others that are, and what the gate does not look at. -/
theorem passed_or_nested {node child : Node} (passed : node.Passed)
    (below : child ∈ node.children) : child.Passed ∨ Nested node child := by
  cases node with
  | statement stmt => exact below_statement passed below
  | query query => exact .inl (below_query passed below)
  | body body => exact .inl (below_body passed below)
  | select inner =>
      obtain ⟨into, sources, operands⟩ := inner
      rcases List.mem_append.mp below with isTables | below
      · obtain ⟨tables, -, rfl⟩ := List.mem_map.mp isTables
        exact .inl trivial
      · exact .inl (passed_expr below)
  | tables inner =>
      obtain ⟨relation, joins, constraints⟩ := inner
      rcases List.mem_append.mp below with isFactor | below
      · rcases List.mem_cons.mp isFactor with rfl | isJoin
        · exact .inl trivial
        · obtain ⟨factor, -, rfl⟩ := List.mem_map.mp isJoin
          exact .inl trivial
      · exact .inl (passed_expr below)
  | factor inner => exact below_factor below
  | expr inner => exact below_expr below

/-- What is executed below a node that is let through is let through, or is executed by something
that the gate does not look at. The induction is over the path from the node. -/
theorem passed_of_executes {node below : Node} (passed : node.Passed) (executes : Executes node below) :
    below.Passed ∨ ∃ outer inner, Executes node outer ∧ Nested outer inner ∧
      Executes inner below := by
  induction executes with
  | refl => exact .inl passed
  | @tail parent child above step ih =>
      rcases ih with passed | ⟨outer, inner, before, nested, after⟩
      · rcases passed_or_nested passed step with passed | nested
        · exact .inl passed
        · exact .inr ⟨parent, child, above, nested, .refl⟩
      · exact .inr ⟨outer, inner, before, nested, after.tail step⟩

theorem Node.Passed.not_modifies {node : Node} (passed : node.Passed) : ¬ node.Modifies := by
  intro modifies
  cases node with
  | statement stmt =>
      cases stmt <;> cases modifies
      cases passed
  | body body => cases body <;> cases modifies <;> cases passed
  | _ => cases modifies

/-- No `SELECT` has a target, and no query in an expression or a table factor, and no statement of
a block, has something below that modifies data. -/
structure NothingHidden (stmt : Statement) : Prop where
  noInto : ∀ select, Executes (.statement stmt) (.select select) → select.into = none
  noNested : ∀ outer inner below, Executes (.statement stmt) outer → Nested outer inner →
    Executes inner below → ¬ below.Modifies

/-- A statement that is admitted only reads exactly if nothing is hidden from the gate. -/
theorem onlyReads_iff {stmt : Statement} (admitted : isReadOnly stmt) :
    OnlyReads stmt ↔ NothingHidden stmt := by
  constructor
  · intro onlyReads
    constructor
    · intro select executes
      cases target : select.into with
      | none => rfl
      | some name => exact absurd (.inr ⟨select, name, rfl, target⟩) (onlyReads _ executes)
    · intro outer inner below executes nested executes' modifies
      exact onlyReads below ((executes.tail nested.mem_children).trans executes') (.inl modifies)
  · rintro ⟨noInto, noNested⟩ node executes (modifies | ⟨select, target, rfl, isTarget⟩)
    · have start : (Node.statement stmt).Passed := admitted
      rcases passed_of_executes start executes with passed | ⟨outer, inner, before, nested, after⟩
      · exact passed.not_modifies modifies
      · exact noNested outer inner node before nested after modifies
    · rw [noInto select executes] at isTarget
      cases isTarget

/-- What a statement executes is in every list of nodes that holds it and all that is below. -/
theorem mem_of_executes {nodes : List Node}
    (closed : ∀ node ∈ nodes, ∀ child ∈ node.children, child ∈ nodes) {start node : Node}
    (mem : start ∈ nodes) (executes : Executes start node) : node ∈ nodes := by
  induction executes with
  | refl => exact mem
  | tail _ below ih => exact closed _ ih _ below

/-- `SELECT * FROM (SELECT 1) AS d` -/
def selectFromOne : Select :=
  .mk none [.mk (.derived (.mk [] (.select (.mk none [] [.value "1"])) [])) [] []] [.value "*"]

/-- `EXPLAIN ANALYZE WITH c AS (SELECT 1) SELECT * FROM (SELECT 1) AS d` -/
def explainNested : Statement :=
  .explain true (.query (.mk [.mk [] (.select (.mk none [] [.value "1"])) []]
    (.select selectFromOne) []))

def explainNestedNodes : List Node :=
  let one : Select := .mk none [] [.value "1"]
  let query : Query := .mk [.mk [] (.select one) []] (.select selectFromOne) []
  [.statement explainNested, .statement (.query query), .query query,
    .query (.mk [] (.select one) []), .body (.select selectFromOne), .body (.select one),
    .select selectFromOne, .select one, .tables (.mk (.derived (.mk [] (.select one) [])) [] []),
    .factor (.derived (.mk [] (.select one) [])), .expr (.value "*"), .expr (.value "1")]

theorem onlyReads_iff_explainNested : OnlyReads explainNested := by
  have closed : ∀ node ∈ explainNestedNodes, ∀ child ∈ node.children,
      child ∈ explainNestedNodes := by
    simp [explainNestedNodes, explainNested, selectFromOne, Node.children]
  have start : Node.statement explainNested ∈ explainNestedNodes := List.mem_cons_self
  have quiet : ∀ node ∈ explainNestedNodes, ¬ node.Modifies := by
    simp [explainNestedNodes, explainNested, Node.Modifies]
  refine (onlyReads_iff rfl).mpr ⟨fun select executes => ?_,
    fun outer inner below executes nested executes' => quiet below ?_⟩
  · have mem := mem_of_executes closed start executes
    simp only [explainNestedNodes, List.mem_cons, Node.select.injEq, reduceCtorEq, false_or,
      List.not_mem_nil, or_false] at mem
    rcases mem with rfl | rfl <;> rfl
  · exact mem_of_executes closed start
      (executes.trans (.head (nested.mem_children) executes'))

/-- `SELECT 1`, into a table if one is named. -/
def selectOne (into : Option String) : Statement :=
  .query (.mk [] (.select (.mk into [] [.value "1"])) [])

/-- `SELECT * FROM (DELETE FROM t) AS d` -/
def selectFromDelete : Statement :=
  .query (.mk [] (.select (.mk none
    [.mk (.derived (.mk [] (.delete (.write .delete [] [])) [])) [] []] [.value "*"])) [])

/-- `SELECT 1 INTO t` creates a table, and a derived table can be a `DELETE`. -/
theorem admitted_writes :
    (isReadOnly (selectOne (some "t")) ∧ ¬ OnlyReads (selectOne (some "t"))) ∧
      isReadOnly selectFromDelete ∧ ¬ OnlyReads selectFromDelete := by
  refine ⟨⟨rfl, fun onlyReads => ?_⟩, rfl, fun onlyReads => ?_⟩
  · refine onlyReads (.select (.mk (some "t") [] [.value "1"])) ?_ (.inr ⟨_, "t", rfl, rfl⟩)
    exact ((Relation.ReflTransGen.refl.tail List.mem_cons_self).tail List.mem_cons_self).tail
      List.mem_cons_self
  · refine onlyReads (.body (.delete (.write .delete [] []))) ?_ (.inl trivial)
    exact ((((((Relation.ReflTransGen.refl.tail List.mem_cons_self).tail List.mem_cons_self).tail
      List.mem_cons_self).tail List.mem_cons_self).tail List.mem_cons_self).tail
      List.mem_cons_self).tail List.mem_cons_self

end Icegres.ReadOnly
