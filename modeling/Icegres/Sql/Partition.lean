import Icegres.Sql.Evaluate

/-!
# Independence of how the rows are split

A statement is evaluated data file by data file. When every call it makes is computed from the
call's arguments, the queries answer row by row. The files together then come to what the whole
table would if it does not matter to a row which rows are selected with it. The functions and
operators are arbitrary otherwise.
-/

namespace Icegres.Sql

open Dml (Row)

variable {Value : Type}

namespace DmlStatement

/-- The statement that the queries are made of. -/
def parsed (stmt : DmlStatement Value) : Dml.DmlStatement (Expr Value) (Expr Value) :=
  ⟨stmt.kind, stmt.target.table, stmt.predicate⟩

/-- The expressions of the statement: the WHERE clause and the assigned values. -/
def exprs (stmt : DmlStatement Value) : List (Expr Value) :=
  stmt.predicate.toList ++ stmt.kind.assignments.map Prod.snd

def isRowLocal (isBatch : String → Bool → Bool) (stmt : DmlStatement Value) : Bool :=
  stmt.exprs.all fun expr => expr.isRowLocal isBatch

/-- A row that the WHERE clause is not true of is left as it is when rows are selected again. A
clause without a column is true of all rows or of none. -/
def leavesUnmatched (keepsColumn : Expr Value → String → Bool) (stmt : DmlStatement Value) :
    Bool :=
  (stmt.predicate.all fun predicate => predicate.columnIdents.isEmpty) ||
    stmt.kind.assignments.all fun assignment => keepsColumn assignment.2 assignment.1

/-- The statement comes to the same whichever way the rows are split into files. -/
def PartitionIndependent (registry : Registry Value) (stmt : DmlStatement Value) : Prop :=
  ∀ columns (engine : Dml.Engine (Expr Value) (Expr Value) Value),
    engine.Computes (registry.meaning columns) →
    ∀ (files : List (List (Row Value))) (rows : List (Row Value)), rows.Perm files.flatten →
      ∀ parts whole,
        files.mapM (Dml.applyDmlToBatches engine stmt.parsed columns) = .ok parts →
        Dml.applyDmlToBatches engine stmt.parsed columns rows = .ok whole →
          (parts.map Prod.fst).sum = whole.1 ∧ (parts.flatMap Prod.snd).Perm whole.2

end DmlStatement

section Answers

variable {registry : Registry Value} {isBatch : String → Bool → Bool}
  {keepsColumn : Expr Value → String → Bool}
  (classifies : registry.Classifies isBatch keepsColumn) {stmt : DmlStatement Value}

include classifies

theorem rowLocal_of_isRowLocal (isLocal : stmt.isRowLocal isBatch = true)
    (columns : List String) : stmt.parsed.RowLocal (registry.meaning columns) := by
  rw [DmlStatement.isRowLocal, List.all_eq_true] at isLocal
  have same (expr : Expr Value) (used : expr ∈ stmt.exprs) (rows : List (Row Value))
      (index : Nat) (row : Row Value) (found : rows[index]? = some row) :
      registry.eval columns rows index expr = registry.eval columns [row] 0 expr := by
    refine Registry.eval_of_isRowLocal classifies columns ?_ (isLocal expr used)
    rw [List.getD_eq_getElem?_getD, found, Option.getD_some]
  constructor
  case truth =>
    intro predicate is rows index row found
    have used : predicate ∈ stmt.exprs :=
      List.mem_append_left _ (Option.mem_toList.mpr is)
    exact congrArg registry.truth (same predicate used rows index row found)
  case value =>
    intro assignment mem rows index row found
    have used : assignment.2 ∈ stmt.exprs :=
      List.mem_append_right _ (List.mem_map_of_mem mem)
    exact same assignment.2 used rows index row found

/-- What stands beside a row does not matter. -/
theorem onRows_of_leavesUnmatched (leaves : stmt.leavesUnmatched keepsColumn = true) (columns : List String)
    (rows : List (Row Value)) :
    stmt.parsed.onRows (registry.meaning columns) columns rows =
      rows.filterMap (stmt.parsed.onRow (registry.meaning columns) columns false) := by
  rw [DmlStatement.leavesUnmatched, Bool.or_eq_true] at leaves
  obtain constant | keeps := leaves
  · have uniform (here there : Row Value) :
        stmt.parsed.Matches (registry.meaning columns) here =
          stmt.parsed.Matches (registry.meaning columns) there := by
      obtain ⟨kind, target, predicate⟩ := stmt
      cases predicate with
      | none => rfl
      | some predicate =>
          rw [Option.all_some, List.isEmpty_iff] at constant
          have same : registry.eval columns [here] 0 predicate =
              registry.eval columns [there] 0 predicate :=
            Registry.eval_of_no_column columns here there constant
          exact congrArg (fun value => decide (registry.truth value = some true)) same
    rw [Dml.DmlStatement.onRows]
    cases any : rows.any (stmt.parsed.Matches (registry.meaning columns)) with
    | false => rfl
    | true =>
        obtain ⟨first, -, matched⟩ := List.any_eq_true.mp any
        apply List.filterMap_congr
        intro row _
        exact Dml.DmlStatement.onRow_of_matched ((uniform row first).trans matched) columns _ _
  · rw [List.all_eq_true] at keeps
    apply List.filterMap_congr
    intro row _
    refine Dml.DmlStatement.onRow_of_keepsRow (fun _ column old expr _ _ assigns => ?_) _ _
    exact classifies.cases expr column (keeps _ (Dml.assigned_mem assigns)) row old

/-- What a row-local statement answers over the files, one after another. -/
theorem applyDmlToFiles_spec {columns : List String}
    {engine : Dml.Engine (Expr Value) (Expr Value) Value}
    (computes : engine.Computes (registry.meaning columns))
    (isLocal : stmt.isRowLocal isBatch = true)
    (leaves : stmt.leavesUnmatched keepsColumn = true) {files : List (List (Row Value))}
    {parts : List (Nat × List (Row Value))}
    (ran : files.mapM (Dml.applyDmlToBatches engine stmt.parsed columns) = .ok parts) :
    (parts.map Prod.fst).sum =
        files.flatten.countP (stmt.parsed.Matches (registry.meaning columns)) ∧
      (parts.flatMap Prod.snd).Perm (files.flatten.filterMap
        (stmt.parsed.onRow (registry.meaning columns) columns false)) := by
  induction files generalizing parts with
  | nil =>
      cases ran
      exact ⟨rfl, .refl _⟩
  | cons file files ih =>
      rw [List.mapM_cons] at ran
      obtain ⟨⟨matched, out⟩, applied, ran⟩ := bind_eq_ok ran
      obtain ⟨rest, restRan, ran⟩ := bind_eq_ok ran
      cases ran
      obtain ⟨counts, rows⟩ := ih restRan
      obtain ⟨count, left⟩ := Dml.applyDmlToBatches_spec
        (rowLocal_of_isRowLocal classifies isLocal columns) computes applied
      rw [onRows_of_leavesUnmatched classifies leaves] at left
      rw [List.flatten_cons, List.countP_append, List.filterMap_append, List.map_cons,
        List.sum_cons, List.flatMap_cons, counts]
      exact ⟨by rw [count], left.append rows⟩

theorem partitionIndependent_of_isRowLocal (isLocal : stmt.isRowLocal isBatch = true)
    (leaves : stmt.leavesUnmatched keepsColumn = true) :
    stmt.PartitionIndependent registry := by
  rintro columns engine computes files rows same parts ⟨matched, out⟩ split' applied
  obtain ⟨counts, left⟩ := applyDmlToFiles_spec classifies computes isLocal leaves split'
  have whole : [rows].mapM (Dml.applyDmlToBatches engine stmt.parsed columns) =
      .ok [(matched, out)] := by
    rw [List.mapM_cons, applied]
    rfl
  obtain ⟨count, all⟩ := applyDmlToFiles_spec classifies computes isLocal leaves whole
  simp only [List.map_cons, List.map_nil, List.sum_singleton, List.flatMap_cons,
    List.flatMap_nil, List.append_nil, List.flatten_cons, List.flatten_nil] at count all
  exact ⟨by rw [counts, count, same.countP_eq],
    left.trans ((same.symm.filterMap _).trans all.symm)⟩

end Answers

end Icegres.Sql
