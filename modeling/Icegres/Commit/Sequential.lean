import Icegres.Commit.Casts
import Mathlib.Data.Multiset.Bind

/-!
# One operation after another

What the operations of a commit are for: each is applied once to the whole table, whose rows have
the columns' types before it and after it. Folding the statements part by part, without a cast in
between, comes to the same when every statement treats the uncast rows as it treats the cast ones
and an unmatched row is selected as it is.
-/

namespace Icegres.Commit

variable {Value : Type}

namespace DmlStatement

variable (stmt : DmlStatement Value) (backend : Backend Value) (fields : List Field)
  (table : List (Row Value))

def matchesAt (index : Nat) : Bool :=
  match stmt.predicate with
  | none => true
  | some predicate => predicate table index = some true

/-- The columns of the row at an index as an UPDATE computes them from the whole table. -/
def selectedAt (assignments : List (String × Expr Value)) (row : Row Value) (index : Nat) :
    Row Value :=
  row.mapIdx fun column old => meaning.projectAt table index old
    (Dml.updateProjection assignments (fields.map Field.name) stmt.predicate)[column]?

/-- The row at an index after the statement: a matched row is deleted, or updated and cast to the
columns' types; any other row stays as it is. -/
def onTable (pair : Row Value × Nat) : Except String (Option (Row Value)) :=
  if stmt.matchesAt table pair.2 then
    match stmt.kind with
    | .delete => .ok none
    | .update assignments =>
        (alignRow backend fields (stmt.selectedAt fields table assignments pair.1 pair.2)).map some
  else .ok (some pair.1)

end DmlStatement

/-- The table after the operation, and the rows it appends or matches. -/
def TableOp.onTable (backend : Backend Value) (fields : List Field) (table : List (Row Value)) :
    TableOp Value → Except String (List (Row Value) × Nat)
  | .append rows => do
      let aligned ← alignBatch backend fields rows
      return (table ++ aligned, rows.length)
  | .appendFiles files => .ok (table, (files.map DataFile.recordCount).sum)
  | .dml stmt => do
      let left ← table.zipIdx.mapM (stmt.onTable backend fields table)
      return (left.filterMap id, (List.range table.length).countP (stmt.matchesAt table))

/-- The table after the operations, and the count of each. -/
def inSequence (backend : Backend Value) (fields : List Field) :
    List (Row Value) → List (TableOp Value) → Except String (List (Row Value) × List Nat)
  | table, [] => .ok (table, [])
  | table, op :: ops => do
      let (next, count) ← op.onTable backend fields table
      let (last, counts) ← inSequence backend fields next ops
      return (last, count :: counts)

/-! ## Statements that are computed row by row -/

/-- What is left of a row, cast to the columns' types. -/
def castLeft (backend : Backend Value) (fields : List Field) :
    Option (Row Value) → Except String (Option (Row Value))
  | none => .ok none
  | some row => (alignRow backend fields row).map some

section RowLocal

variable {stmt : DmlStatement Value} (rowLocal : stmt.RowLocal) {backend : Backend Value}
  {fields : List Field} {table : List (Row Value)}

include rowLocal

theorem matchesAt_of_rowLocal {row : Row Value} {index : Nat} (found : table[index]? = some row) :
    stmt.matchesAt table index = stmt.Matches row := by
  rw [DmlStatement.matchesAt, DmlStatement.Matches, Dml.DmlStatement.Matches]
  cases predicate : stmt.predicate with
  | none => rfl
  | some isTrue =>
      have same := rowLocal.truth isTrue predicate table index row found
      exact congrArg (fun truth => decide (truth = some true)) same

theorem selectedAt_of_rowLocal {assignments : List (String × Expr Value)}
    (updates : stmt.kind = .update assignments) {row : Row Value} {index : Nat}
    (found : table[index]? = some row) :
    stmt.selectedAt fields table assignments row index =
      Dml.DmlStatement.selected stmt meaning assignments (fields.map Field.name) row := by
  have each := Dml.rewritten_of_rowLocal rowLocal updates (fields.map Field.name) table
  have inside := (List.getElem?_eq_some_iff.mp found).1
  have isRow := (List.getElem?_eq_some_iff.mp found).2
  have own := congrArg (fun rows => rows[index]?) each
  simp only [Dml.Meaning.rewritten, List.getElem?_mapIdx, List.getElem?_map, found,
    Option.map_some, Option.some.injEq] at own
  exact own

/-- Over a table of the columns' types, a row becomes what the statement selects of it, cast. -/
theorem onTable_of_rowLocal {row : Row Value} {index : Nat} (found : table[index]? = some row)
    (typed : alignRow backend fields row = .ok row) :
    stmt.onTable backend fields table (row, index) =
      castLeft backend fields (stmt.onRow (fields.map Field.name) false row) := by
  rw [DmlStatement.onTable, matchesAt_of_rowLocal rowLocal found]
  cases matched : stmt.Matches row with
  | false =>
      have same : stmt.onRow (fields.map Field.name) false row = some row :=
        Dml.DmlStatement.onRow_of_unmatched matched _
      rw [same, if_neg Bool.false_ne_true, castLeft, typed]
      rfl
  | true =>
      rw [if_pos rfl, DmlStatement.onRow, Dml.DmlStatement.onRow]
      have isMatched : Dml.DmlStatement.Matches stmt meaning row = true := matched
      cases kind : stmt.kind with
      | delete => simp only [isMatched, if_true, castLeft]
      | update assignments =>
          simp only [isMatched, Bool.true_or, if_true, castLeft,
            selectedAt_of_rowLocal rowLocal kind found]

theorem countP_matchesAt : (List.range table.length).countP (stmt.matchesAt table) =
    (table : Multiset (Row Value)).countP fun row => stmt.Matches row := by
  rw [Multiset.coe_countP]
  simp only [Bool.decide_eq_true]
  exact Dml.countP_range fun _ _ found => matchesAt_of_rowLocal rowLocal found

omit rowLocal in
/-- Rows that can all be cast after the statement. The induction is on the rows with their
indices. -/
theorem exists_left {columns : List String} {pairs : List (Row Value × Nat)}
    {next : Row Value × Nat → Except String (Option (Row Value))}
    (each : ∀ pair ∈ pairs, next pair =
      castLeft backend fields (stmt.onRow columns false pair.1))
    (castable : ∀ pair ∈ pairs, ∀ row, stmt.onRow columns false pair.1 = some row →
      ∃ cast, alignRow backend fields row = .ok cast) :
    ∃ left, pairs.mapM next = .ok left ∧
      Casts backend fields ((pairs.map Prod.fst).filterMap (stmt.onRow columns false) : List _)
        (left.filterMap id : List (Row Value)) := by
  induction pairs with
  | nil => exact ⟨[], rfl, rfl⟩
  | cons pair pairs ih =>
      rw [List.forall_mem_cons] at each castable
      obtain ⟨left, all, casts⟩ := ih each.2 castable.2
      have own := each.1
      cases becomes : stmt.onRow columns false pair.1 with
      | none =>
          rw [becomes] at own
          refine ⟨none :: left, ?_, ?_⟩
          · rw [List.mapM_cons, own, all]
            rfl
          · rw [List.map_cons, List.filterMap_cons_none becomes]
            exact casts
      | some row =>
          rw [becomes] at own
          obtain ⟨cast, aligned⟩ := castable.1 row becomes
          refine ⟨some cast :: left, ?_, ?_⟩
          · rw [List.mapM_cons, own, all]
            simp only [castLeft, aligned]
            rfl
          · rw [List.map_cons, List.filterMap_cons_some becomes]
            have first : (some cast :: left).filterMap id = cast :: left.filterMap id := rfl
            rw [first]
            simp only [Casts, Multiset.map_coe, List.map_cons] at casts ⊢
            rw [← Multiset.cons_coe, casts, aligned, Multiset.cons_coe]

end RowLocal

/-! ## The fold over the parts -/

/-- Every row that is met can be cast. -/
def Castable (backend : Backend Value) (fields : List Field) (columns : List String)
    (parts : Multiset (Part Value)) (ops : List (TableOp Value)) : Prop :=
  ∀ before after, ops = before ++ after → ∀ part ∈ applyOps columns parts before, ∀ row ∈ part,
    ∃ cast, alignRow backend fields row = .ok cast

section Step

variable {backend : Backend Value} {fields : List Field} {columns : List String}
  {parts : Multiset (Part Value)} {op : TableOp Value} {ops : List (TableOp Value)}

theorem Castable.tail (castable : Castable backend fields columns parts (op :: ops)) :
    Castable backend fields columns (op.apply columns parts) ops := by
  rintro before after rfl part inside
  exact castable (op :: before) after rfl part inside

theorem CastsAgree.tail {beside : Multiset (Part Value) → DmlStatement Value → Bool}
    (agree : CastsAgree backend fields columns beside parts (op :: ops)) :
    CastsAgree backend fields columns beside (op.apply columns parts) ops := by
  rintro before stmt after rfl part inside
  exact agree (op :: before) stmt after rfl part inside

/-- Rows that can all be cast are cast to some rows. -/
theorem exists_casts {rows : Multiset (Row Value)}
    (castable : ∀ row ∈ rows, ∃ cast, alignRow backend fields row = .ok cast) :
    ∃ stored, Casts backend fields rows stored := by
  induction rows using Multiset.induction with
  | empty => exact ⟨0, rfl⟩
  | cons row rows ih =>
      obtain ⟨cast, aligned⟩ := castable row (Multiset.mem_cons_self _ _)
      obtain ⟨stored, casts⟩ := ih fun other mem => castable other (Multiset.mem_cons_of_mem mem)
      refine ⟨cast ::ₘ stored, ?_⟩
      rw [Casts, Multiset.map_cons, Multiset.map_cons, aligned, casts]

theorem alignBatch_of_castable {rows : List (Row Value)}
    (castable : ∀ row ∈ rows, ∃ cast, alignRow backend fields row = .ok cast) :
    ∃ aligned, alignBatch backend fields rows = .ok aligned := by
  rw [alignBatch]
  induction rows with
  | nil => exact ⟨[], rfl⟩
  | cons row rows ih =>
      rw [List.forall_mem_cons] at castable
      obtain ⟨cast, own⟩ := castable.1
      obtain ⟨rest, more⟩ := ih castable.2
      refine ⟨cast :: rest, ?_⟩
      rw [List.mapM_cons, own, more]
      rfl

/-- One operation over the parts and over the table. -/
theorem onTable_spec (recasts : Recasts backend)
    (castable : Castable backend fields (fields.map Field.name) parts (op :: ops))
    (agree : CastsAgree backend fields (fields.map Field.name) (fun _ _ => false) parts (op :: ops))
    (rowLocal : ∀ stmt, op = .dml stmt → stmt.RowLocal) {table : List (Row Value)}
    (casts : Casts backend fields parts.sum table) :
    ∃ next, op.onTable backend fields table = .ok (next, op.count parts) ∧
      Casts backend fields (op.apply (fields.map Field.name) parts).sum
        (next : Multiset (Row Value)) := by
  have met := castable.tail [] ops rfl
  cases op with
  | appendFiles files => exact ⟨table, rfl, casts⟩
  | append rows =>
      have own : ∀ row ∈ rows, ∃ cast, alignRow backend fields row = .ok cast := fun row mem =>
        met _ (Multiset.mem_add.mpr (.inr (Multiset.mem_singleton_self _))) row
          (Multiset.mem_coe.mpr mem)
      obtain ⟨aligned, is⟩ := alignBatch_of_castable own
      refine ⟨table ++ aligned, ?_, ?_⟩
      · rw [TableOp.onTable, is]
        rfl
      · rw [TableOp.apply, Multiset.sum_add, Multiset.sum_singleton, ← Multiset.coe_add]
        exact casts.add (casts_of_alignBatch is)
  | dml stmt =>
      have isLocal := rowLocal stmt rfl
      obtain ⟨count, image⟩ := casts.statement false fun part inside row mem =>
        agree [] stmt ops rfl part inside row mem
      have typed := casts.typed recasts
      -- What the statement leaves of the table can be cast, since its parts can.
      have cast : ∃ stored, Casts backend fields
          (parts.map (stmt.onPart (fields.map Field.name))).sum stored := by
        apply exists_casts
        intro row mem
        obtain ⟨part, inside, isRow⟩ := Multiset.mem_join.mp mem
        exact met part inside row isRow
      obtain ⟨stored, isStored⟩ := cast
      have both : Casts backend fields ((table : Multiset (Row Value)).filterMap
          (stmt.onRow (fields.map Field.name) false)) stored := image.symm.trans isStored
      have each : ∀ pair ∈ table.zipIdx, stmt.onTable backend fields table pair =
          castLeft backend fields (stmt.onRow (fields.map Field.name) false pair.1) := fun pair mem =>
        onTable_of_rowLocal isLocal (List.mem_zipIdx_iff_getElem?.mp mem)
          (typed pair.1 (Multiset.mem_coe.mpr (List.fst_mem_of_mem_zipIdx mem)))
      obtain ⟨left, all, isLeft⟩ := exists_left each (by
        intro pair mem row becomes
        have image : alignRow backend fields row ∈ ((table : Multiset (Row Value)).filterMap
            (stmt.onRow (fields.map Field.name) false)).map (alignRow backend fields) :=
          Multiset.mem_map_of_mem _ ((Multiset.mem_filterMap _ _).mpr
            ⟨pair.1, Multiset.mem_coe.mpr (List.fst_mem_of_mem_zipIdx mem), becomes⟩)
        rw [both] at image
        obtain ⟨cast, -, is⟩ := Multiset.mem_map.mp image
        exact ⟨cast, is.symm⟩)
      rw [List.zipIdx_map_fst] at isLeft
      refine ⟨left.filterMap id, ?_, ?_⟩
      · rw [TableOp.onTable, all, countP_matchesAt isLocal, ← count]
        rfl
      · rw [TableOp.apply, Casts, image]
        exact isLeft

/-- The operations over the parts and over the table. The induction is on the operations. -/
theorem inSequence_spec (recasts : Recasts backend)
    (castable : Castable backend fields (fields.map Field.name) parts ops)
    (agree : CastsAgree backend fields (fields.map Field.name) (fun _ _ => false) parts ops)
    (rowLocal : RowLocalOps ops) {table : List (Row Value)}
    (casts : Casts backend fields parts.sum table) :
    ∃ last, inSequence backend fields table ops =
        .ok (last, countOps (fields.map Field.name) parts ops) ∧
      Casts backend fields (applyOps (fields.map Field.name) parts ops).sum
        (last : Multiset (Row Value)) := by
  induction ops generalizing parts table with
  | nil => exact ⟨table, rfl, casts⟩
  | cons op ops ih =>
      obtain ⟨next, own, isNext⟩ := onTable_spec recasts castable agree
        (fun stmt is => rowLocal stmt (is ▸ List.mem_cons_self)) casts
      obtain ⟨last, rest, isLast⟩ := ih castable.tail agree.tail
        (fun stmt mem => rowLocal stmt (List.mem_cons_of_mem _ mem)) isNext
      refine ⟨last, ?_, isLast⟩
      rw [inSequence, own]
      simp only [bind, Except.bind, rest]
      rfl

end Step

/-! ## Statements that keep the types -/

/-- A `CASE` whose assigned value has the column's type changes no value. -/
def DmlStatement.SameTyped (stmt : DmlStatement Value) : Prop :=
  ∀ assignment ∈ stmt.kind.assignments, ∀ row value, assignment.2.common row value = value

theorem onRow_of_sameTyped {stmt : DmlStatement Value} (same : stmt.SameTyped)
    (columns : List String) (here there : Bool) (row : Row Value) :
    stmt.onRow columns here row = stmt.onRow columns there row :=
  Dml.DmlStatement.onRow_of_keepsRow (fun _ _ old _ _ _ assigns =>
    same _ (Dml.assigned_mem assigns) row old) here there

/-- What the statement leaves of rows of the columns' types has them. -/
def DmlStatement.KeepsTypes (stmt : DmlStatement Value) (backend : Backend Value)
    (fields : List Field) : Prop :=
  ∀ row, alignRow backend fields row = .ok row → ∀ beside next,
    stmt.onRow (fields.map Field.name) beside row = some next →
      alignRow backend fields next = .ok next

/-- Rows of the columns' types, which every operation keeps. -/
structure Typed (backend : Backend Value) (fields : List Field) (parts : Multiset (Part Value))
    (ops : List (TableOp Value)) : Prop where
  rows : ∀ part ∈ parts, ∀ row ∈ part, alignRow backend fields row = .ok row
  appended : ∀ rows, .append rows ∈ ops → ∀ row ∈ rows, alignRow backend fields row = .ok row
  keeps : ∀ stmt, .dml stmt ∈ ops → stmt.KeepsTypes backend fields
  sameTyped : ∀ stmt, .dml stmt ∈ ops → stmt.SameTyped

namespace Typed

variable {backend : Backend Value} {fields : List Field} {parts : Multiset (Part Value)}
  {ops : List (TableOp Value)}

/-- Every row that is met has the columns' types. -/
theorem met (typed : Typed backend fields parts ops) {before after : List (TableOp Value)}
    (split : ops = before ++ after) :
    ∀ part ∈ applyOps (fields.map Field.name) parts before, ∀ row ∈ part,
      alignRow backend fields row = .ok row := by
  induction before using List.reverseRecOn generalizing after with
  | nil => exact typed.rows
  | append_singleton before op ih =>
      have prior := ih (split.trans (List.append_assoc _ _ _))
      have isOp : op ∈ ops := by
        rw [split]
        simp
      rw [applyOps_concat]
      cases op with
      | appendFiles files => exact prior
      | append rows =>
          intro part inside row mem
          obtain older | new := Multiset.mem_add.mp inside
          · exact prior part older row mem
          · rw [Multiset.mem_singleton.mp new] at mem
            exact typed.appended rows isOp row (Multiset.mem_coe.mp mem)
      | dml stmt =>
          intro part inside row mem
          obtain ⟨old, isOld, rfl⟩ := Multiset.mem_map.mp inside
          obtain ⟨source, isSource, becomes⟩ := (Multiset.mem_filterMap _ _).mp mem
          exact typed.keeps stmt isOp source (prior old isOld source isSource) _ row becomes

theorem castable (typed : Typed backend fields parts ops) :
    Castable backend fields (fields.map Field.name) parts ops :=
  fun _ _ split part inside row mem => ⟨row, typed.met split part inside row mem⟩

theorem castsAgree (typed : Typed backend fields parts ops)
    (beside : Multiset (Part Value) → DmlStatement Value → Bool) :
    CastsAgree backend fields (fields.map Field.name) beside parts ops := by
  intro before stmt after split part inside row mem
  refine sameOnCast_of_typed (typed.met split part inside row mem) (onRow_of_sameTyped ?_ _ _ _ _)
  exact typed.sameTyped stmt (by rw [split]; simp)

end Typed

end Icegres.Commit
