import Icegres.Sql.Partition
import Mathlib.Data.Fintype.EquivFin

/-!
# Statements that tell the splits apart

No accepted statement holds a query, but a call that looks beyond the row is accepted wherever it
stands. Functions that pass a mark on show that each such call can tell how the rows are split.
-/

namespace Icegres.Sql

open Dml (Row)

variable {Value : Type}

/-! ## Accepted statements -/

theorem ensure_ok {holds : Bool} {message : String} (ran : ensure holds message = .ok ()) :
    holds = true := by
  cases holds with
  | true => rfl
  | false => cases ran

theorem ensureNoSubquery_ok {expr : Expr Value} {what : String}
    (ran : ensureNoSubquery expr what = .ok ()) : expr.hasQuery = false := by
  rw [ensureNoSubquery] at ran
  split at ran
  · cases ran
  · next none => exact Bool.eq_false_iff.mpr none

theorem checkSelection_ok {selection : Option (Expr Value)}
    (ran : checkSelection selection = .ok ()) : ∀ expr ∈ selection.toList,
      expr.hasQuery = false := by
  rintro expr mem
  cases selection with
  | none => cases mem
  | some predicate =>
      rw [List.mem_singleton.mp mem]
      exact ensureNoSubquery_ok ran

/-- No column is assigned twice, and no assigned value holds a query. -/
structure Plain (pairs : List (String × Expr Value)) : Prop where
  nodup : (pairs.map Prod.fst).Nodup
  noQuery : ∀ pair ∈ pairs, pair.2.hasQuery = false

theorem translateAssignment_plain {lowercase : String → String}
    {pairs after : List (String × Expr Value)} {assignment : Assignment Value}
    (plain : Plain pairs) (ran : translateAssignment lowercase pairs assignment = .ok after) :
    Plain after := by
  rw [translateAssignment] at ran
  split at ran
  · cases ran
  · obtain ⟨col, _, ran⟩ := bind_eq_ok ran
    obtain ⟨_, once, ran⟩ := bind_eq_ok ran
    obtain ⟨_, queryFree, ran⟩ := bind_eq_ok ran
    cases ran
    have fresh := ensure_ok once
    rw [List.all_eq_true] at fresh
    constructor
    · rw [List.map_append, List.map_singleton, List.nodup_append]
      refine ⟨plain.nodup, List.nodup_singleton _, ?_⟩
      rintro name mem other last
      obtain ⟨pair, member, rfl⟩ := List.mem_map.mp mem
      rw [List.mem_singleton.mp last]
      exact of_decide_eq_true (fresh pair member)
    · rintro pair mem
      obtain before | last := List.mem_append.mp mem
      · exact plain.noQuery pair before
      · rw [List.mem_singleton.mp last]
        exact ensureNoSubquery_ok queryFree

theorem translateAssignments_plain {lowercase : String → String}
    {assignments : List (Assignment Value)} {pairs after : List (String × Expr Value)}
    (plain : Plain pairs)
    (ran : assignments.foldlM (translateAssignment lowercase) pairs = .ok after) :
    Plain after := by
  induction assignments generalizing pairs with
  | nil =>
      cases ran
      exact plain
  | cons assignment assignments ih =>
      rw [List.foldlM_cons] at ran
      obtain ⟨next, first, ran⟩ := bind_eq_ok ran
      exact ih (translateAssignment_plain plain first) ran

theorem translateUpdate_plain {lowercase : String → String} {update : Update Value}
    {stmt : DmlStatement Value} (ran : translateUpdate lowercase update = .ok stmt) :
    Plain stmt.kind.assignments ∧ ∀ expr ∈ stmt.predicate.toList, expr.hasQuery = false := by
  rw [translateUpdate] at ran
  obtain ⟨_, _, ran⟩ := bind_eq_ok ran
  obtain ⟨_, _, ran⟩ := bind_eq_ok ran
  obtain ⟨_, _, ran⟩ := bind_eq_ok ran
  obtain ⟨_, _, ran⟩ := bind_eq_ok ran
  obtain ⟨target, _, ran⟩ := bind_eq_ok ran
  obtain ⟨pairs, assigned, ran⟩ := bind_eq_ok ran
  obtain ⟨_, _, ran⟩ := bind_eq_ok ran
  obtain ⟨_, checked, ran⟩ := bind_eq_ok ran
  cases ran
  have start : Plain ([] : List (String × Expr Value)) :=
    ⟨List.nodup_nil, by rintro pair ⟨⟩⟩
  exact ⟨translateAssignments_plain start assigned, checkSelection_ok checked⟩

theorem translateDelete_plain {lowercase : String → String} {delete : Delete Value}
    {stmt : DmlStatement Value} (ran : translateDelete lowercase delete = .ok stmt) :
    Plain stmt.kind.assignments ∧ ∀ expr ∈ stmt.predicate.toList, expr.hasQuery = false := by
  rw [translateDelete] at ran
  obtain ⟨_, _, ran⟩ := bind_eq_ok ran
  obtain ⟨_, _, ran⟩ := bind_eq_ok ran
  obtain ⟨_, _, ran⟩ := bind_eq_ok ran
  obtain ⟨_, _, ran⟩ := bind_eq_ok ran
  obtain ⟨_, _, ran⟩ := bind_eq_ok ran
  split at ran
  · obtain ⟨target, _, ran⟩ := bind_eq_ok ran
    obtain ⟨_, checked, ran⟩ := bind_eq_ok ran
    cases ran
    exact ⟨⟨List.nodup_nil, by rintro pair ⟨⟩⟩, checkSelection_ok checked⟩
  · cases ran

theorem translate_plain {lowercase : String → String} {statement : Statement Value}
    {stmt : DmlStatement Value} {tag : String}
    (accepted : translate lowercase statement = .ok (some (stmt, tag))) :
    Plain stmt.kind.assignments ∧ ∀ expr ∈ stmt.predicate.toList, expr.hasQuery = false := by
  cases statement with
  | update update =>
      obtain ⟨translated, ran, accepted⟩ := bind_eq_ok accepted
      cases accepted
      exact translateUpdate_plain ran
  | delete delete =>
      obtain ⟨translated, ran, accepted⟩ := bind_eq_ok accepted
      cases accepted
      exact translateDelete_plain ran
  | _ => cases accepted

/-! ## Passing a mark on -/

mutual

def Expr.literals : Expr Value → List Value
  | .identifier _ => []
  | .compoundIdentifier _ => []
  | .value value => [value]
  | .operation _ operands => allLiterals operands
  | .function _ _ operands => allLiterals operands
  | .subquery _ operands _ => allLiterals operands

def allLiterals : List (Expr Value) → List Value
  | [] => []
  | expr :: rest => expr.literals ++ allLiterals rest

end

variable [DecidableEq Value]

/-- A call that looks beyond the row answers the mark unless the row is alone. Every other call
and every operation passes the mark on, and the mark alone is not true. -/
def markRegistry (mark clean : Value) (isBatch : String → Bool → Bool)
    (common : Expr Value → String → Row Value → Value → Value) : Registry Value where
  operation _ operands := if mark ∈ operands then mark else clean
  function name windowed :=
    if isBatch name windowed then
      .batch fun every _ => if every.length = 1 then clean else mark
    else .scalar fun operands => if mark ∈ operands then mark else clean
  null := clean
  truth value := some (value ≠ mark)
  common
  lowercase := id

variable {mark clean : Value} {isBatch : String → Bool → Bool}
  {common : Expr Value → String → Row Value → Value → Value}

theorem markRegistry_classifies {keepsColumn : Expr Value → String → Bool}
    (cases' : ∀ expr column, keepsColumn expr column = true →
      ∀ row old, common expr column row old = old) :
    (markRegistry mark clean isBatch common).Classifies isBatch keepsColumn := by
  refine ⟨?_, cases'⟩
  intro name windowed
  rw [markRegistry]
  cases batch : isBatch name windowed with
  | false => simp only [batch, Bool.false_eq_true, if_false, FunctionKind.isBatch]
  | true => simp only [batch, if_true, FunctionKind.isBatch]

theorem passes_iff (distinct : clean ≠ mark) (operands : List Value) :
    (if mark ∈ operands then mark else clean) = mark ↔ mark ∈ operands := by
  split
  · next passes => exact ⟨fun _ => passes, fun _ => rfl⟩
  · next stays => exact ⟨fun same => absurd same distinct, fun passes => absurd passes stays⟩

theorem columnValue_ne_mark (distinct : clean ≠ mark) {columns : List String}
    {rows : List (Row Value)} (unmarked : ∀ row ∈ rows, mark ∉ row) (index : Nat)
    (ident : Ident) :
    (markRegistry mark clean isBatch common).columnValue columns (rows.getD index []) ident ≠ mark := by
  rw [Registry.columnValue]
  split
  · next column _ =>
    intro marked
    rw [List.getD_eq_getElem?_getD] at marked
    cases found : (rows.getD index [])[column]? with
    | none =>
        rw [found] at marked
        exact distinct marked
    | some value =>
        rw [found, Option.getD_some] at marked
        have mem := List.mem_of_getElem? found
        rw [marked, List.getD_eq_getElem?_getD] at mem
        cases at' : rows[index]? with
        | none =>
            rw [at'] at mem
            cases mem
        | some row =>
            rw [at'] at mem
            exact unmarked row (List.mem_of_getElem? at') mem
  · exact distinct

mutual

/-- Over unmarked rows the mark shows exactly where a call looks beyond the row and there is
another row. -/
theorem eval_eq_mark_iff (distinct : clean ≠ mark) {columns : List String}
    {rows : List (Row Value)} (unmarked : ∀ row ∈ rows, mark ∉ row) (index : Nat)
    {expr : Expr Value} (noQuery : expr.hasQuery = false) (fresh : mark ∉ expr.literals) :
    (markRegistry mark clean isBatch common).eval columns rows index expr = mark ↔
      rows.length ≠ 1 ∧ expr.isRowLocal isBatch = false := by
  cases expr with
  | identifier ident =>
      simp only [Registry.eval, Expr.isRowLocal, Bool.true_eq_false, and_false, iff_false]
      exact columnValue_ne_mark distinct unmarked index ident
  | compoundIdentifier idents =>
      simp only [Registry.eval, Expr.isRowLocal, Bool.true_eq_false, and_false, iff_false]
      split
      · exact columnValue_ne_mark distinct unmarked index _
      · exact distinct
  | value value =>
      simp only [Registry.eval, Expr.isRowLocal, Bool.true_eq_false, and_false, iff_false]
      rintro rfl
      exact fresh (by simp only [Expr.literals, List.mem_singleton])
  | operation operator operands =>
      simp only [Expr.hasQuery] at noQuery
      simp only [Expr.literals] at fresh
      simp only [Registry.eval, Expr.isRowLocal]
      exact (passes_iff distinct _).trans (mark_mem_evalAll_iff distinct unmarked index noQuery fresh)
  | function name windowed operands =>
      simp only [Expr.hasQuery] at noQuery
      simp only [Expr.literals] at fresh
      simp only [Registry.eval, Expr.isRowLocal]
      cases batch : isBatch (ObjectName.text name) windowed with
      | false =>
          simp only [markRegistry, batch, Bool.false_eq_true, if_false, Bool.not_false,
            Bool.true_and]
          exact (passes_iff distinct _).trans (mark_mem_evalAll_iff distinct unmarked index noQuery fresh)
      | true =>
          simp only [markRegistry, batch, if_true, Bool.not_true, Bool.false_and, and_true,
            List.length_map, List.length_range]
          split
          · next alone => exact ⟨fun same => absurd same distinct, fun more => absurd alone more⟩
          · next more => exact ⟨fun _ => more, fun _ => rfl⟩
  | subquery form operands query => cases noQuery

theorem mark_mem_evalAll_iff (distinct : clean ≠ mark) {columns : List String}
    {rows : List (Row Value)} (unmarked : ∀ row ∈ rows, mark ∉ row) (index : Nat)
    {exprs : List (Expr Value)} (noQuery : anyQuery exprs = false) (fresh : mark ∉ allLiterals exprs) :
    mark ∈ (markRegistry mark clean isBatch common).evalAll columns rows index exprs ↔
      rows.length ≠ 1 ∧ allRowLocal isBatch exprs = false := by
  cases exprs with
  | nil =>
      simp only [Registry.evalAll, allRowLocal, Bool.true_eq_false, and_false, iff_false]
      exact List.not_mem_nil
  | cons expr rest =>
      simp only [anyQuery, Bool.or_eq_false_iff] at noQuery
      simp only [allLiterals, List.mem_append, not_or] at fresh
      simp only [Registry.evalAll, allRowLocal, List.mem_cons, Bool.and_eq_false_iff]
      rw [eq_comm, eval_eq_mark_iff distinct unmarked index noQuery.1 fresh.1,
        mark_mem_evalAll_iff distinct unmarked index noQuery.2 fresh.2, and_or_left]

end

omit [DecidableEq Value] in
/-- A row of one value has it in every column. -/
theorem columnValue_uniform (registry : Registry Value) {columns : List String} {ident : Ident}
    (known : normalizeIdent registry.lowercase ident ∈ columns) (value : Value) :
    registry.columnValue columns ([columns.map fun _ => value].getD 0 []) ident = value := by
  rw [Registry.columnValue, List.getD_cons_zero]
  cases found : columns.findIdx? fun column =>
      decide (column = normalizeIdent registry.lowercase ident) with
  | none =>
      rw [List.findIdx?_eq_none_iff] at found
      exact absurd rfl (of_decide_eq_false (found _ known))
  | some index =>
      obtain ⟨inside, -⟩ := List.findIdx?_eq_some_iff_getElem.mp found
      have at' : (columns.map fun _ => value)[index]? = some value := by
        rw [List.getElem?_map, List.getElem?_eq_getElem inside, Option.map_some]
      dsimp only
      rw [List.getD_eq_getElem?_getD, at', Option.getD_some]

mutual

/-- Over a row of marks the mark shows exactly where a column is named. -/
theorem eval_marks_iff (distinct : clean ≠ mark) {columns : List String} {expr : Expr Value}
    (noQuery : expr.hasQuery = false) (fresh : mark ∉ expr.literals)
    (isLocal : expr.isRowLocal isBatch = true)
    (known : ∀ ident ∈ expr.columnIdents, normalizeIdent id ident ∈ columns) :
    (markRegistry mark clean isBatch common).eval columns [columns.map fun _ => mark] 0 expr =
      mark ↔ expr.columnIdents ≠ [] := by
  cases expr with
  | identifier ident =>
      simp only [Expr.columnIdents, List.mem_singleton, forall_eq] at known
      simp only [Registry.eval, Expr.columnIdents, ne_eq, List.cons_ne_nil, not_false_eq_true,
        iff_true]
      exact columnValue_uniform _ known mark
  | compoundIdentifier idents =>
      simp only [Expr.columnIdents] at known
      simp only [Registry.eval, Expr.columnIdents]
      cases is : idents.getLast? with
      | none => exact ⟨fun same => absurd same distinct, fun some' => absurd rfl some'⟩
      | some ident =>
          rw [is] at known
          exact ⟨fun _ => List.cons_ne_nil _ _,
            fun _ => columnValue_uniform _ (known ident List.mem_cons_self) mark⟩
  | value value =>
      simp only [Registry.eval, Expr.columnIdents, ne_eq, not_true_eq_false, iff_false]
      rintro rfl
      exact fresh (by simp only [Expr.literals, List.mem_singleton])
  | operation operator operands =>
      simp only [Expr.hasQuery] at noQuery
      simp only [Expr.literals] at fresh
      simp only [Expr.isRowLocal] at isLocal
      simp only [Expr.columnIdents] at known
      simp only [Registry.eval, Expr.columnIdents]
      exact (passes_iff distinct _).trans
        (mark_mem_evalAll_marks_iff distinct noQuery fresh isLocal known)
  | function name windowed operands =>
      simp only [Expr.hasQuery] at noQuery
      simp only [Expr.literals] at fresh
      simp only [Expr.isRowLocal, Bool.and_eq_true, Bool.not_eq_true'] at isLocal
      simp only [Expr.columnIdents] at known
      simp only [Registry.eval, Expr.columnIdents, markRegistry, isLocal.1, Bool.false_eq_true,
        if_false]
      exact (passes_iff distinct _).trans
        (mark_mem_evalAll_marks_iff distinct noQuery fresh isLocal.2 known)
  | subquery form operands query => cases noQuery

theorem mark_mem_evalAll_marks_iff (distinct : clean ≠ mark) {columns : List String}
    {exprs : List (Expr Value)} (noQuery : anyQuery exprs = false)
    (fresh : mark ∉ allLiterals exprs) (isLocal : allRowLocal isBatch exprs = true)
    (known : ∀ ident ∈ allColumnIdents exprs, normalizeIdent id ident ∈ columns) :
    mark ∈ (markRegistry mark clean isBatch common).evalAll columns
      [columns.map fun _ => mark] 0 exprs ↔ allColumnIdents exprs ≠ [] := by
  cases exprs with
  | nil =>
      simp only [Registry.evalAll, allColumnIdents, ne_eq, not_true_eq_false, iff_false]
      exact List.not_mem_nil
  | cons expr rest =>
      simp only [anyQuery, Bool.or_eq_false_iff] at noQuery
      simp only [allLiterals, List.mem_append, not_or] at fresh
      simp only [allRowLocal, Bool.and_eq_true] at isLocal
      simp only [allColumnIdents, List.mem_append] at known
      simp only [Registry.evalAll, allColumnIdents, List.mem_cons, ne_eq, List.append_eq_nil_iff,
        not_and_or]
      rw [eq_comm, eval_marks_iff distinct noQuery.1 fresh.1 isLocal.1
          (fun ident mem => known ident (.inl mem)),
        mark_mem_evalAll_marks_iff distinct noQuery.2 fresh.2 isLocal.2
          (fun ident mem => known ident (.inr mem))]

end

/-! ## Two rows apart and together -/

theorem truthAt_mark (columns : List String) (rows : List (Row Value)) (predicate : Expr Value)
    (index : Nat) :
    ((markRegistry mark clean isBatch common).meaning columns).truthAt predicate rows index =
        some true ↔
      (markRegistry mark clean isBatch common).eval columns rows index predicate ≠ mark := by
  simp only [Registry.meaning, markRegistry, Option.some.injEq, decide_eq_true_eq]

/-- A predicate holds of no row when it is marked, and of every row otherwise. -/
theorem countTrue_mark (distinct : clean ≠ mark) {columns : List String}
    {rows : List (Row Value)} (unmarked : ∀ row ∈ rows, mark ∉ row) {predicate : Expr Value}
    (noQuery : predicate.hasQuery = false) (fresh : mark ∉ predicate.literals) :
    ((markRegistry mark clean isBatch common).meaning columns).countTrue predicate rows =
      if rows.length ≠ 1 ∧ predicate.isRowLocal isBatch = false then 0 else rows.length := by
  rw [Dml.Meaning.countTrue]
  have marked (index : Nat) :
      (markRegistry mark clean isBatch common).eval columns rows index predicate = mark ↔
        rows.length ≠ 1 ∧ predicate.isRowLocal isBatch = false :=
    eval_eq_mark_iff distinct unmarked index noQuery fresh
  split
  · next every =>
    rw [List.countP_eq_zero]
    rintro index - isTrue
    rw [decide_eq_true_eq, truthAt_mark] at isTrue
    exact isTrue ((marked index).mpr every)
  · next none =>
    conv_rhs => rw [← List.length_range (n := rows.length)]
    rw [List.countP_eq_length]
    rintro index -
    rw [decide_eq_true_eq, truthAt_mark]
    exact fun isMark => none ((marked index).mp isMark)

/-- A value of a row on its own stays unmarked. -/
theorem projectAt_ne_mark (distinct : clean ≠ mark) {columns names : List String}
    {row : Row Value} (unmarked : mark ∉ row) {pairs : List (String × Expr Value)}
    (plain : ∀ expr ∈ pairs.map Prod.snd, expr.hasQuery = false ∧ mark ∉ expr.literals)
    (predicate : Option (Expr Value)) (column : Nat) {old : Value} (isOld : old ≠ mark) :
    ((markRegistry mark clean isBatch fun _ _ _ value => value).meaning columns).projectAt [row] 0
      old (Dml.updateProjection pairs names predicate)[column]? ≠ mark := by
  have value {name : String} {expr : Expr Value} (assigns : Dml.assigned pairs name = some expr) :
      (markRegistry mark clean isBatch fun _ _ _ value => value).eval columns [row] 0 expr ≠
        mark := by
    have is := plain expr (List.mem_map.mpr ⟨_, Dml.assigned_mem assigns, rfl⟩)
    intro isMark
    refine ((eval_eq_mark_iff distinct ?_ 0 is.1 is.2).mp isMark).1 rfl
    rintro other mem
    rwa [List.mem_singleton.mp mem]
  rw [Dml.updateProjection, List.getElem?_map]
  cases names[column]? with
  | none => exact isOld
  | some name =>
      rw [Option.map_some]
      cases assigns : Dml.assigned pairs name with
      | none => simpa only [Dml.columnProjection, assigns, Dml.Meaning.projectAt] using isOld
      | some expr =>
          cases predicate with
          | none =>
              simp only [Dml.columnProjection, assigns, Dml.Meaning.projectAt]
              exact value assigns
          | some isTrue =>
              simp only [Dml.columnProjection, assigns, Dml.Meaning.projectAt]
              split
              · exact value assigns
              · exact isOld

/-- A value that looks beyond the row gets the mark in a row among others. -/
theorem projectAt_eq_mark (distinct : clean ≠ mark) {columns names : List String}
    {rows : List (Row Value)} (unmarked : ∀ row ∈ rows, mark ∉ row) (more : rows.length ≠ 1)
    {pairs : List (String × Expr Value)} {predicate : Option (Expr Value)}
    (selection : ∀ expr ∈ predicate.toList, expr.hasQuery = false ∧ mark ∉ expr.literals)
    (isLocal : predicate.any (fun expr => !expr.isRowLocal isBatch) = false) {column : Nat}
    {name : String} (found : names[column]? = some name) {expr : Expr Value}
    (assigns : Dml.assigned pairs name = some expr)
    (is : expr.hasQuery = false ∧ mark ∉ expr.literals) (beyond : expr.isRowLocal isBatch = false)
    (index : Nat) (old : Value) :
    ((markRegistry mark clean isBatch fun _ _ _ value => value).meaning columns).projectAt rows
      index old (Dml.updateProjection pairs names predicate)[column]? = mark := by
  have marked : (markRegistry mark clean isBatch fun _ _ _ value => value).eval columns rows index
      expr = mark :=
    (eval_eq_mark_iff distinct unmarked index is.1 is.2).mpr ⟨more, beyond⟩
  rw [Dml.updateProjection, List.getElem?_map, found]
  simp only [Option.map_some, Dml.columnProjection, assigns]
  cases predicate with
  | none => exact marked
  | some isTrue =>
      have plain := selection isTrue List.mem_cons_self
      rw [Option.any_some, Bool.not_eq_false'] at isLocal
      simp only [Dml.Meaning.projectAt]
      refine Eq.trans (if_pos ?_) marked
      rw [truthAt_mark, ne_eq, eval_eq_mark_iff distinct unmarked index plain.1 plain.2, isLocal]
      rintro ⟨_, ⟨⟩⟩

omit [DecidableEq Value] in
/-- A statement that matches every row or none, and every UPDATE. -/
theorem applyDmlToBatches_engine (meaning : Dml.Meaning (Expr Value) (Expr Value) Value)
    {stmt : Dml.DmlStatement (Expr Value) (Expr Value)} {columns : List String}
    {sql : Dml.DmlSql (Expr Value) (Expr Value)} (built : Dml.DmlSql.new stmt columns = .ok sql)
    {rows : List (Row Value)} (some' : rows ≠ []) {matched : Nat}
    (counted : Dml.countMatches meaning.engine sql rows = .ok matched)
    (all : sql.rewrite = none → matched = 0 ∨ matched = rows.length) :
    ∃ out, Dml.applyDmlToBatches meaning.engine stmt columns rows = .ok (matched, out) ∧
      (matched ≠ 0 → ∀ projection, sql.rewrite = some projection →
        out = meaning.rewritten projection rows) := by
  rw [Dml.applyDmlToBatches, built, if_neg (mt List.length_eq_zero_iff.mp some')]
  simp only [bind, Except.bind, Dml.evaluateRows, counted]
  by_cases unmatched : matched = 0
  · subst unmatched
    exact ⟨rows, rfl, fun some' => absurd rfl some'⟩
  rw [if_neg unmatched]
  cases rewrite : sql.rewrite with
  | none =>
      rw [if_pos ((all rewrite).resolve_left unmatched)]
      exact ⟨[], rfl, by rintro - projection ⟨⟩⟩
  | some projection =>
      have accounts : ¬ (meaning.rewritten projection rows).length ≠ rows.length := by
        rw [Dml.Meaning.rewritten, List.length_mapIdx]
        exact fun differs => differs rfl
      simp only [Dml.Meaning.engine]
      rw [if_neg accounts]
      exact ⟨_, rfl, by rintro - projection ⟨⟩; rfl⟩

omit [DecidableEq Value] in
theorem assigned_of_mem {pairs : List (String × Expr Value)} (nodup : (pairs.map Prod.fst).Nodup)
    {column : String} {expr : Expr Value} (mem : (column, expr) ∈ pairs) :
    Dml.assigned pairs column = some expr := by
  cases found : Dml.assigned pairs column with
  | none =>
      rw [Dml.assigned, Option.map_eq_none_iff, List.find?_eq_none] at found
      exact absurd (decide_eq_true rfl) (found _ (List.mem_reverse.mpr mem))
  | some other =>
      have same := List.inj_on_of_nodup_map nodup (Dml.assigned_mem found) mem rfl
      exact congrArg (fun pair => some (Prod.snd pair)) same

omit [DecidableEq Value] in
/-- The queries over columns with the assigned ones. -/
theorem new_columns (stmt : DmlStatement Value) (columns : List String) :
    ∃ sql, Dml.DmlSql.new stmt.parsed (stmt.kind.assignments.map Prod.fst ++ columns) = .ok sql ∧
      sql.countMatched = stmt.predicate ∧
      ∀ assignments, stmt.kind = .update assignments →
        sql.rewrite = some (Dml.updateProjection assignments
          (assignments.map Prod.fst ++ columns) stmt.predicate) := by
  obtain ⟨kind, target, predicate⟩ := stmt
  cases kind with
  | delete => exact ⟨_, rfl, rfl, by rintro assignments ⟨⟩⟩
  | update assignments =>
      refine ⟨{ countMatched := predicate
                survivors := none
                rewrite := some (Dml.updateProjection assignments
                  (assignments.map Prod.fst ++ columns) predicate) }, ?_, rfl, ?_⟩
      · simp only [Dml.DmlSql.new, DmlStatement.parsed, Dml.DmlKind.assignments]
        split
        · next assignment found =>
          have unknown := List.find?_some found
          exact absurd (List.mem_append_left _
              (List.mem_map_of_mem (List.mem_of_find?_eq_some found)))
            (of_decide_eq_true unknown)
        · rfl
      · rintro same ⟨⟩
        rfl

omit [DecidableEq Value] in
theorem exprs_plain {stmt : DmlStatement Value} (plain : Plain stmt.kind.assignments)
    (selection : ∀ expr ∈ stmt.predicate.toList, expr.hasQuery = false) :
    ∀ expr ∈ stmt.exprs, expr.hasQuery = false := by
  rintro expr mem
  rw [DmlStatement.exprs] at mem
  obtain inWhere | assigned := List.mem_append.mp mem
  · exact selection expr inWhere
  · obtain ⟨pair, member, rfl⟩ := List.mem_map.mp assigned
    exact plain.noQuery pair member

variable (isBatch common) in
/-- The statement over some unmarked rows: how many it matches. -/
theorem countMatches_mark (distinct : clean ≠ mark) (columns : List String)
    {rows : List (Row Value)} (unmarked : ∀ row ∈ rows, mark ∉ row)
    {sql : Dml.DmlSql (Expr Value) (Expr Value)} {predicate : Option (Expr Value)}
    (same : sql.countMatched = predicate)
    (plain : ∀ expr ∈ predicate.toList, expr.hasQuery = false ∧ mark ∉ expr.literals) :
    Dml.countMatches ((markRegistry mark clean isBatch common).meaning columns).engine sql rows =
      .ok (if rows.length ≠ 1 ∧ predicate.any (fun expr => !expr.isRowLocal isBatch) = true then 0
        else rows.length) := by
  rw [Dml.countMatches, same]
  cases predicate with
  | none => simp only [Option.any_none, Bool.false_eq_true, and_false, if_false]
  | some isTrue =>
      have is := plain isTrue List.mem_cons_self
      simp only [Dml.Meaning.engine, Option.any_some, Bool.not_eq_true']
      rw [countTrue_mark distinct unmarked is.1 is.2]

/-- A value that looks beyond the row tells two rows together from each on its own. -/
theorem rewritten_not_perm (distinct : clean ≠ mark) {pairs : List (String × Expr Value)}
    (nodup : (pairs.map Prod.fst).Nodup) {predicate : Option (Expr Value)}
    (isLocal : predicate.any (fun expr => !expr.isRowLocal isBatch) = false)
    (plain : ∀ expr ∈ predicate.toList ++ pairs.map Prod.snd,
      expr.hasQuery = false ∧ mark ∉ expr.literals)
    {blank : Row Value} (unmarked : mark ∉ blank) {names : List String}
    (wide : blank.length = names.length) (named : ∀ name ∈ pairs.map Prod.fst, name ∈ names)
    {pair : String × Expr Value} (mem : pair ∈ pairs)
    (beyond : pair.2.isRowLocal isBatch = false) {columns : List String}
    {out every : List (Row Value)}
    (apart : out = ((markRegistry mark clean isBatch fun _ _ _ value => value).meaning
      columns).rewritten (Dml.updateProjection pairs names predicate) [blank])
    (together : every = ((markRegistry mark clean isBatch fun _ _ _ value => value).meaning
      columns).rewritten (Dml.updateProjection pairs names predicate) [blank, blank]) :
    ¬ (out ++ out).Perm every := by
  intro perm
  obtain ⟨column, inside, is⟩ := List.getElem_of_mem (named _ (List.mem_map_of_mem mem))
  have found : names[column]? = some pair.1 := by
    rw [List.getElem?_eq_getElem inside, is]
  have both : ∀ row ∈ [blank, blank], mark ∉ row := by
    rintro row mem
    obtain first | second := List.mem_cons.mp mem
    · rwa [first]
    · rwa [List.mem_singleton.mp second]
  -- Together, the first row is marked in the column.
  have first : ∃ row ∈ every, mark ∈ row := by
    rw [together, Dml.Meaning.rewritten, List.mapIdx_cons]
    refine ⟨_, List.mem_cons_self, ?_⟩
    rw [List.mem_mapIdx]
    refine ⟨column, wide ▸ inside, ?_⟩
    exact projectAt_eq_mark distinct both (by simp)
      (fun expr mem => plain expr (List.mem_append_left _ mem)) isLocal found
      (assigned_of_mem nodup mem)
      (plain _ (List.mem_append_right _ (List.mem_map_of_mem mem))) beyond _ _
  obtain ⟨row, isRow, marked⟩ := first
  have isOut := perm.symm.subset isRow
  rw [List.mem_append, or_self, apart, Dml.Meaning.rewritten, List.mapIdx_singleton,
    List.mem_singleton] at isOut
  rw [isOut, List.mem_mapIdx] at marked
  obtain ⟨column, inside, isMark⟩ := marked
  refine projectAt_ne_mark distinct unmarked
    (fun expr mem => plain expr (List.mem_append_right _ mem)) predicate column ?_ isMark
  intro same
  exact unmarked (same ▸ List.getElem_mem inside)

/-- Two rows apart and together tell a call that looks beyond the row. -/
theorem isRowLocal_of_partitionIndependent (distinct : clean ≠ mark) {stmt : DmlStatement Value}
    (nodup : (stmt.kind.assignments.map Prod.fst).Nodup)
    (plain : ∀ expr ∈ stmt.exprs, expr.hasQuery = false ∧ mark ∉ expr.literals)
    (independent : stmt.PartitionIndependent
      (markRegistry mark clean isBatch fun _ _ _ value => value)) :
    stmt.isRowLocal isBatch = true := by
  obtain ⟨sql, built, count, rewrite⟩ := new_columns stmt []
  let columns := stmt.kind.assignments.map Prod.fst ++ []
  let blank : Row Value := columns.map fun _ => clean
  have unmarked : mark ∉ blank := by
    intro mem
    obtain ⟨_, _, same⟩ := List.mem_map.mp mem
    exact distinct same
  have alone : ∀ row ∈ [blank], mark ∉ row := by
    rintro row mem
    rwa [List.mem_singleton.mp mem]
  have both : ∀ row ∈ [blank, blank], mark ∉ row := by
    rintro row mem
    obtain first | second := List.mem_cons.mp mem
    · rwa [first]
    · exact alone row second
  have selection : ∀ expr ∈ stmt.predicate.toList,
      expr.hasQuery = false ∧ mark ∉ expr.literals := fun expr mem =>
    plain expr (List.mem_append_left _ mem)
  -- Each file matches its row.
  have part := countMatches_mark isBatch (fun _ _ _ value => value) distinct columns alone count
    selection
  have whole := countMatches_mark isBatch (fun _ _ _ value => value) distinct columns both count
    selection
  rw [if_neg fun more => more.1 rfl] at part
  obtain ⟨out, applied, becomes⟩ := applyDmlToBatches_engine _ built (List.cons_ne_nil _ _) part
    fun _ => .inr rfl
  obtain ⟨every, appliedAll, becomesAll⟩ :=
    applyDmlToBatches_engine _ built (List.cons_ne_nil _ _) whole (by
      intro _
      split
      · exact .inl rfl
      · exact .inr rfl)
  have parts : [[blank], [blank]].mapM (Dml.applyDmlToBatches
      ((markRegistry mark clean isBatch fun _ _ _ value => value).meaning columns).engine
      stmt.parsed columns) = .ok [(1, out), (1, out)] := by
    rw [List.mapM_cons, List.mapM_cons, applied]
    rfl
  obtain ⟨counts, left⟩ := independent columns _ (Dml.Meaning.engine_computes _) _ _ (.refl _) _ _
    parts appliedAll
  cases isLocal : stmt.predicate.any (fun expr => !expr.isRowLocal isBatch) with
  | true =>
      -- Together they match none.
      rw [isLocal, if_pos ⟨by simp, rfl⟩] at counts
      cases counts
  | false =>
      rw [isLocal, if_neg fun more => Bool.false_ne_true more.2] at becomesAll
      rw [DmlStatement.isRowLocal, List.all_eq_true]
      rintro expr mem
      by_contra beyond
      rw [Bool.not_eq_true] at beyond
      rw [DmlStatement.exprs] at mem
      obtain inWhere | assigned := List.mem_append.mp mem
      · rw [Option.mem_toList.mp inWhere, Option.any_some, beyond] at isLocal
        cases isLocal
      obtain ⟨pair, member, rfl⟩ := List.mem_map.mp assigned
      obtain ⟨kind, target, predicate⟩ := stmt
      cases kind with
      | delete => cases member
      | update pairs =>
          have projection := rewrite pairs rfl
          simp only [List.flatMap_cons, List.flatMap_nil, List.append_nil] at left
          exact rewritten_not_perm distinct nodup isLocal plain unmarked (List.length_map _)
            (fun name mem => List.mem_append_left _ mem) member beyond
            (becomes Nat.one_ne_zero _ projection)
            (becomesAll (Nat.succ_ne_zero 1) _ projection) left

omit [DecidableEq Value] in
/-- A `CASE` that casts every value to the same one leaves no mark in its column. -/
theorem selected_ne_marks (distinct : clean ≠ mark) {registry : Registry Value}
    {stmt : DmlStatement Value} {pairs : List (String × Expr Value)} {name : String}
    {expr predicate : Expr Value} (is : stmt.predicate = some predicate)
    (assigns : Dml.assigned pairs name = some expr)
    (casts : ∀ row value, registry.common expr name row value = clean) {columns : List String}
    (named : name ∈ columns) (row : Row Value) :
    stmt.parsed.selected (registry.meaning columns) pairs columns row ≠
      columns.map fun _ => mark := by
  intro same
  obtain ⟨column, inside, found⟩ := List.getElem_of_mem named
  have at' := congrArg (fun row => row[column]?) same
  rw [Dml.DmlStatement.selected, List.getElem?_map, List.getElem?_eq_getElem inside,
    List.getElem?_mapIdx, Option.map_some, Option.map_eq_some_iff] at at'
  obtain ⟨old, -, isMark⟩ := at'
  rw [Dml.updateProjection, List.getElem?_map, List.getElem?_eq_getElem inside, found,
    Option.map_some] at isMark
  simp only [Dml.columnProjection, assigns, DmlStatement.parsed, is, Dml.Meaning.projectAt] at isMark
  exact distinct ((casts _ _).symm.trans isMark)

theorem matches_of_unmarked (distinct : clean ≠ mark) {stmt : DmlStatement Value}
    {predicate : Expr Value} (is : stmt.predicate = some predicate)
    (noQuery : predicate.hasQuery = false) (fresh : mark ∉ predicate.literals)
    {columns : List String} {row : Row Value} (unmarked : mark ∉ row) :
    stmt.parsed.Matches ((markRegistry mark clean isBatch common).meaning columns) row = true := by
  rw [Dml.DmlStatement.Matches, DmlStatement.parsed, is]
  refine decide_eq_true ((truthAt_mark columns [row] predicate 0).mpr fun marked => ?_)
  refine ((eval_eq_mark_iff distinct ?_ 0 noQuery fresh).mp marked).1 rfl
  rintro other mem
  rwa [List.mem_singleton.mp mem]

/-- A clause that names a column is not true of a row of marks. -/
theorem matches_marks (distinct : clean ≠ mark) {stmt : DmlStatement Value}
    {predicate : Expr Value} (is : stmt.predicate = some predicate)
    (noQuery : predicate.hasQuery = false) (fresh : mark ∉ predicate.literals)
    (isLocal : predicate.isRowLocal isBatch = true) {columns : List String}
    (known : ∀ ident ∈ predicate.columnIdents, normalizeIdent id ident ∈ columns)
    (named : predicate.columnIdents ≠ []) :
    stmt.parsed.Matches ((markRegistry mark clean isBatch common).meaning columns)
      (columns.map fun _ => mark) = false := by
  rw [Dml.DmlStatement.Matches, DmlStatement.parsed, is]
  exact decide_eq_false fun isTrue => (truthAt_mark columns _ predicate 0).mp isTrue
    ((eval_marks_iff distinct noQuery fresh isLocal known).mpr named)

/-- A marked row and an unmarked one tell a `CASE` that changes the rows the clause does not
match. -/
theorem leavesUnmatched_of_partitionIndependent (distinct : clean ≠ mark)
    {keepsColumn : Expr Value → String → Bool} {stmt : DmlStatement Value}
    (nodup : (stmt.kind.assignments.map Prod.fst).Nodup)
    (plain : ∀ expr ∈ stmt.exprs, expr.hasQuery = false ∧ mark ∉ expr.literals)
    (isLocal : stmt.isRowLocal isBatch = true)
    (independent : stmt.PartitionIndependent (markRegistry mark clean isBatch
      fun expr column _ value => if keepsColumn expr column then value else clean)) :
    stmt.leavesUnmatched keepsColumn = true := by
  by_contra changes
  rw [Bool.not_eq_true, DmlStatement.leavesUnmatched, Bool.or_eq_false_iff,
    Option.all_eq_false, List.all_eq_false] at changes
  obtain ⟨⟨predicate, is, named⟩, ⟨name, expr⟩, member, casts⟩ := changes
  obtain ⟨sql, built, count, rewrite⟩ :=
    new_columns stmt (predicate.columnIdents.map (normalizeIdent id))
  let columns := stmt.kind.assignments.map Prod.fst ++
    predicate.columnIdents.map (normalizeIdent id)
  let blank : Row Value := columns.map fun _ => clean
  let marks : Row Value := columns.map fun _ => mark
  let registry := markRegistry mark clean isBatch
    fun expr column _ value => if keepsColumn expr column then value else clean
  have classifies : registry.Classifies isBatch keepsColumn :=
    markRegistry_classifies fun expr column keeps _ _ => if_pos keeps
  have rowLocal := rowLocal_of_isRowLocal classifies isLocal columns
  have computes := Dml.Meaning.engine_computes (registry.meaning columns)
  obtain ⟨noQuery, fresh⟩ := plain predicate
    (List.mem_append_left _ (Option.mem_toList.mpr is))
  have predicateLocal : predicate.isRowLocal isBatch = true := by
    rw [DmlStatement.isRowLocal, List.all_eq_true] at isLocal
    exact isLocal predicate (List.mem_append_left _ (Option.mem_toList.mpr is))
  have matchesBlank : stmt.parsed.Matches (registry.meaning columns) blank = true := by
    refine matches_of_unmarked distinct is noQuery fresh fun isMark => ?_
    obtain ⟨_, _, same⟩ := List.mem_map.mp isMark
    exact distinct same
  have unmatched : stmt.parsed.Matches (registry.meaning columns) marks = false :=
    matches_marks distinct is noQuery fresh predicateLocal
      (fun ident mem => List.mem_append_right _ (List.mem_map_of_mem mem))
      (List.isEmpty_eq_false_iff.mp named)
  have counted (rows : List (Row Value)) :
      Dml.countMatches (registry.meaning columns).engine sql rows =
        .ok ((registry.meaning columns).countTrue predicate rows) := by
    rw [Dml.countMatches, count, is]
    rfl
  obtain ⟨pairs, updates⟩ : ∃ pairs, stmt.kind = .update pairs := by
    cases kind : stmt.kind with
    | delete =>
        rw [kind] at member
        cases member
    | update pairs => exact ⟨pairs, rfl⟩
  have rewrites : sql.rewrite ≠ none := by
    rw [rewrite pairs updates]
    exact Option.some_ne_none _
  have applied (row : Row Value) (rows : List (Row Value)) : ∃ answer : Nat × List (Row Value),
      Dml.applyDmlToBatches (registry.meaning columns).engine stmt.parsed columns (row :: rows) =
        .ok answer := by
    obtain ⟨out, ran, -⟩ := applyDmlToBatches_engine (registry.meaning columns) built
      (List.cons_ne_nil row rows) (counted _) fun none' => absurd none' rewrites
    exact ⟨_, ran⟩
  obtain ⟨first, isFirst⟩ := applied blank []
  obtain ⟨⟨matched, second⟩, isSecond⟩ := applied marks []
  obtain ⟨⟨both, whole⟩, isWhole⟩ := applied blank [marks]
  have parts : [[blank], [marks]].mapM (Dml.applyDmlToBatches
      (registry.meaning columns).engine stmt.parsed columns) =
        .ok [first, (matched, second)] := by
    rw [List.mapM_cons, List.mapM_cons, isFirst, isSecond]
    rfl
  obtain ⟨-, left⟩ := independent columns _ computes _ _ (.refl _) _ _ parts isWhole
  have kept := (Dml.applyDmlToBatches_spec rowLocal computes isSecond).2
  rw [Dml.DmlStatement.onRows_of_unmatched (by simp [unmatched])] at kept
  have mem : marks ∈ whole := by
    refine left.subset ?_
    simp only [List.flatMap_cons, List.flatMap_nil, List.append_nil]
    exact List.mem_append_right _ (kept.mem_iff.mpr List.mem_cons_self)
  -- In one batch the marked row is selected again.
  rw [(Dml.applyDmlToBatches_spec rowLocal computes isWhole).2.mem_iff, Dml.DmlStatement.onRows,
    List.any_cons, matchesBlank, Bool.true_or, List.mem_filterMap] at mem
  obtain ⟨row, -, becomes⟩ := mem
  have parsed : stmt.parsed.kind = .update pairs := updates
  rw [Dml.DmlStatement.onRow, parsed] at becomes
  simp only [Bool.or_true, if_true] at becomes
  rw [updates] at nodup member
  refine selected_ne_marks distinct is (assigned_of_mem nodup member) (fun _ _ => if_neg casts) ?_
    row (Option.some.inj becomes)
  refine List.mem_append_left _ ?_
  rw [updates]
  exact List.mem_map_of_mem member

/-- An accepted statement comes to the same however the rows are split, whatever its functions
compute, exactly when every call in it is computed from its arguments and selecting a row again
changes none that the WHERE clause does not match. -/
theorem translate_partitionIndependent_iff [Infinite Value] {lowercase : String → String}
    {statement : Statement Value} {stmt : DmlStatement Value} {tag : String}
    (accepted : translate lowercase statement = .ok (some (stmt, tag)))
    (isBatch : String → Bool → Bool) (keepsColumn : Expr Value → String → Bool) :
    (∀ registry : Registry Value, registry.Classifies isBatch keepsColumn →
        stmt.PartitionIndependent registry) ↔
      stmt.isRowLocal isBatch = true ∧ stmt.leavesUnmatched keepsColumn = true := by
  constructor
  · intro independent
    obtain ⟨plain, selection⟩ := translate_plain accepted
    obtain ⟨mark, fresh⟩ :=
      Infinite.exists_notMem_finset (stmt.exprs.flatMap Expr.literals).toFinset
    obtain ⟨clean, distinct⟩ := exists_ne mark
    rw [List.mem_toFinset, List.mem_flatMap] at fresh
    have plain' : ∀ expr ∈ stmt.exprs, expr.hasQuery = false ∧ mark ∉ expr.literals :=
      fun expr mem => ⟨exprs_plain plain selection expr mem, fun is => fresh ⟨expr, mem, is⟩⟩
    have isLocal := isRowLocal_of_partitionIndependent distinct plain.nodup plain'
      (independent _ (markRegistry_classifies fun _ _ _ _ _ => rfl))
    exact ⟨isLocal, leavesUnmatched_of_partitionIndependent distinct plain.nodup plain' isLocal
      (independent _ (markRegistry_classifies fun expr column keeps _ _ => if_pos keeps))⟩
  · rintro ⟨isLocal, leaves⟩ registry classifies
    exact partitionIndependent_of_isRowLocal classifies isLocal leaves

/-! ## Numbering rows -/

/-- `row_number()` numbers the rows of the batch; `+` adds and `=` compares. -/
def numberRegistry : Registry Nat where
  operation operator operands :=
    if operator = "+" then operands.sum
    else if operands.getD 0 0 = operands.getD 1 0 then 1 else 0
  function name _ :=
    if name = "row_number" then .batch fun _ index => index + 1
    else .scalar fun operands => operands.sum
  null := 0
  truth value := some (value ≠ 0)
  common _ _ _ branch := branch
  lowercase := id

def tableT : TableWithJoins Nat :=
  .mk (.table [.identifier ⟨"t", false⟩] none []) [] []

/-- `UPDATE t SET v = …` -/
def updateT (value : Expr Nat) (selection : Option (Expr Nat)) : Statement Nat :=
  .update ⟨tableT, [⟨.columnName [.identifier ⟨"v", false⟩], value⟩], none, selection, none, none,
    none⟩

def updatedT (value : Expr Nat) (selection : Option (Expr Nat)) : DmlStatement Nat :=
  ⟨.update [("v", value)], ⟨"demo", "t", none⟩, selection⟩

/-- `row_number() OVER ()` -/
def rowNumber : Expr Nat :=
  .function [.identifier ⟨"row_number", false⟩] true []

def columnV : Expr Nat :=
  .identifier ⟨"v", false⟩

/-- `UPDATE t SET v = v + 1 WHERE v = 10` is row-local and of the column's type. -/
theorem partitionIndependent_increment :
    (updatedT (.operation "+" [columnV, .value 1])
      (some (.operation "=" [columnV, .value 10]))).PartitionIndependent numberRegistry :=
  have accepted : translate id (updateT (.operation "+" [columnV, .value 1])
      (some (.operation "=" [columnV, .value 10]))) = .ok (some (updatedT _ _, "UPDATE")) := rfl
  (translate_partitionIndependent_iff accepted (fun name _ => name = "row_number")
    fun _ _ => true).mpr ⟨by decide, by decide⟩ numberRegistry (by
      refine ⟨?_, fun _ _ _ _ _ => rfl⟩
      intro name windowed
      simp only [numberRegistry]
      split
      · next is => simp only [FunctionKind.isBatch, is, decide_true]
      · next other => simp only [FunctionKind.isBatch, other, decide_false])

/-- `UPDATE t SET v = row_number() OVER ()` is accepted and numbers the rows of each file. -/
theorem rowNumber_tells_splits :
    translate id (updateT rowNumber none) = .ok (some (updatedT rowNumber none, "UPDATE")) ∧
      ¬ (updatedT rowNumber none).PartitionIndependent numberRegistry := by
  refine ⟨rfl, fun independent => ?_⟩
  have same := (independent ["v"] _ (Dml.Meaning.engine_computes _) [[[10]], [[20]]] [[10], [20]]
    (.refl _) [(1, [[1]]), (1, [[1]])] (2, [[1], [2]]) rfl rfl).2
  exact absurd same (by decide)

end Icegres.Sql
