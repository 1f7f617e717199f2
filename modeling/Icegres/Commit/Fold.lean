import Icegres.Commit.Dml
import Mathlib.Algebra.BigOperators.Group.Multiset.Basic

/-!
# Folding statements over rows

A table comes in parts, the rows of each data file and of each appended batch, and a statement is
evaluated over one part after another. Folding only the statements over a part and letting each
appended batch meet the statements after it comes to the same as one operation after another.
-/

namespace Icegres.Commit

variable {Value : Type}

/-- The rows that are evaluated together. -/
abbrev Part (Value : Type) := Multiset (Row Value)

/-- What a statement makes of one part. -/
def DmlStatement.onPart (stmt : DmlStatement Value) (columns : List String) (part : Part Value) :
    Part Value :=
  part.filterMap (stmt.onRow columns (decide (0 < part.countP fun row => stmt.Matches row)))

/-- A part that nothing matches in is left as it is. -/
theorem DmlStatement.onPart_of_unmatched {stmt : DmlStatement Value} {part : Part Value}
    (unmatched : (part.countP fun row => stmt.Matches row) = 0) (columns : List String) :
    stmt.onPart columns part = part := by
  rw [onPart, unmatched, decide_eq_false (Nat.lt_irrefl 0)]
  rw [Multiset.countP_eq_zero] at unmatched
  induction part using Quotient.inductionOn with
  | h rows =>
      rw [Multiset.quot_mk_to_coe, Multiset.filterMap_coe]
      conv_rhs => rw [← List.filterMap_some (l := rows)]
      congr 1
      apply List.filterMap_congr
      intro row mem
      exact Dml.DmlStatement.onRow_of_unmatched
        (Bool.eq_false_iff.mpr (unmatched row (Multiset.mem_coe.mpr mem))) columns

/-! ## One operation after another -/

namespace TableOp

/-- The table after the operation. -/
def apply (columns : List String) (parts : Multiset (Part Value)) : TableOp Value →
    Multiset (Part Value)
  | .append batch => parts + {(batch : Part Value)}
  | .appendFiles _ => parts
  | .dml stmt => parts.map (stmt.onPart columns)

/-- How many rows of the parts that are already there the operation matches. -/
def matched (parts : Multiset (Part Value)) : TableOp Value → Nat
  | .dml stmt => (parts.map fun part => part.countP fun row => stmt.Matches row).sum
  | _ => 0

/-- The rows the operation appends or matches. -/
def count (parts : Multiset (Part Value)) : TableOp Value → Nat
  | .append batch => batch.length
  | .appendFiles files => (files.map DataFile.recordCount).sum
  | .dml stmt => (TableOp.dml stmt).matched parts

/-- What the operation does to parts that are already there. -/
def onParts (columns : List String) (parts : Multiset (Part Value)) : TableOp Value →
    Multiset (Part Value)
  | .dml stmt => parts.map (stmt.onPart columns)
  | _ => parts

/-- The rows the operation brings. -/
def batch : TableOp Value → List (Row Value)
  | .append rows => rows
  | _ => []

/-- The part the operation brings. -/
def parts : TableOp Value → Multiset (Part Value)
  | .append rows => {(rows : Part Value)}
  | _ => 0

theorem onParts_add (columns : List String) (first second : Multiset (Part Value))
    (op : TableOp Value) :
    op.onParts columns (first + second) = op.onParts columns first + op.onParts columns second := by
  cases op with
  | append rows => rfl
  | appendFiles files => rfl
  | dml stmt => exact Multiset.map_add _ first second

theorem matched_add (first second : Multiset (Part Value)) (op : TableOp Value) :
    op.matched (first + second) = op.matched first + op.matched second := by
  cases op with
  | append rows => rfl
  | appendFiles files => rfl
  | dml stmt => rw [matched, matched, matched, Multiset.map_add, Multiset.sum_add]

theorem apply_eq (columns : List String) (parts : Multiset (Part Value)) (op : TableOp Value) :
    op.apply columns parts = op.onParts columns parts + op.parts := by
  cases op with
  | append batch => rfl
  | appendFiles files => exact (Multiset.add_zero parts).symm
  | dml stmt => exact (Multiset.add_zero _).symm

end TableOp

/-- The table after the operations. -/
def applyOps (columns : List String) (parts : Multiset (Part Value))
    (ops : List (TableOp Value)) : Multiset (Part Value) :=
  ops.foldl (TableOp.apply columns) parts

/-- The count of each operation. -/
def countOps (columns : List String) : Multiset (Part Value) → List (TableOp Value) → List Nat
  | _, [] => []
  | parts, op :: ops => op.count parts :: countOps columns (op.apply columns parts) ops

/-- What the statements make of parts that are already there. -/
def foldParts (columns : List String) (parts : Multiset (Part Value))
    (ops : List (TableOp Value)) : Multiset (Part Value) :=
  ops.foldl (TableOp.onParts columns) parts

/-- How many rows that are already there each operation matches. -/
def matchedBy (columns : List String) :
    Multiset (Part Value) → List (TableOp Value) → Nat → Nat
  | _, [], _ => 0
  | parts, op :: _, 0 => op.matched parts
  | parts, op :: ops, index + 1 => matchedBy columns (op.onParts columns parts) ops index

/-- The appended parts after the statements that follow them. -/
def appendedParts (columns : List String) : List (TableOp Value) → Multiset (Part Value)
  | [] => 0
  | op :: ops => foldParts columns op.parts ops + appendedParts columns ops

/-- How many rows each operation appends, or matches among the appended ones. -/
def appendedBy (columns : List String) : List (TableOp Value) → Nat → Nat
  | [], _ => 0
  | op :: _, 0 => op.batch.length
  | op :: ops, index + 1 => matchedBy columns op.parts ops index + appendedBy columns ops index

@[simp] theorem foldParts_nil (columns : List String) (parts : Multiset (Part Value)) :
    foldParts columns parts [] = parts :=
  rfl

@[simp] theorem foldParts_cons (columns : List String) (parts : Multiset (Part Value))
    (op : TableOp Value) (ops : List (TableOp Value)) :
    foldParts columns parts (op :: ops) = foldParts columns (op.onParts columns parts) ops :=
  rfl

@[simp] theorem applyOps_cons (columns : List String) (parts : Multiset (Part Value))
    (op : TableOp Value) (ops : List (TableOp Value)) :
    applyOps columns parts (op :: ops) = applyOps columns (op.apply columns parts) ops :=
  rfl

theorem foldParts_add (columns : List String) (first second : Multiset (Part Value))
    (ops : List (TableOp Value)) :
    foldParts columns (first + second) ops =
      foldParts columns first ops + foldParts columns second ops := by
  induction ops generalizing first second with
  | nil => rfl
  | cons op ops ih =>
      simp only [foldParts_cons, TableOp.onParts_add]
      exact ih _ _

theorem onParts_zero (columns : List String) (op : TableOp Value) :
    op.onParts columns (0 : Multiset (Part Value)) = 0 := by
  cases op <;> rfl

@[simp] theorem foldParts_zero (columns : List String) (ops : List (TableOp Value)) :
    foldParts columns (0 : Multiset (Part Value)) ops = 0 := by
  induction ops with
  | nil => rfl
  | cons op ops ih => rw [foldParts_cons, onParts_zero, ih]

theorem matchedBy_add (columns : List String) (first second : Multiset (Part Value))
    (ops : List (TableOp Value)) (index : Nat) :
    matchedBy columns (first + second) ops index =
      matchedBy columns first ops index + matchedBy columns second ops index := by
  induction ops generalizing first second index with
  | nil => rfl
  | cons op ops ih =>
      cases index with
      | zero => exact TableOp.matched_add first second op
      | succ index =>
          simp only [matchedBy, TableOp.onParts_add]
          exact ih _ _ _

@[simp] theorem matchedBy_zero (columns : List String) (ops : List (TableOp Value))
    (index : Nat) : matchedBy columns (0 : Multiset (Part Value)) ops index = 0 := by
  have twice := matchedBy_add columns 0 0 ops index
  rw [Multiset.add_zero] at twice
  omega

/-- Parts that are already there and appended parts are folded apart. -/
theorem applyOps_eq_fold (columns : List String) (parts : Multiset (Part Value))
    (ops : List (TableOp Value)) :
    applyOps columns parts ops = foldParts columns parts ops + appendedParts columns ops := by
  induction ops generalizing parts with
  | nil => exact (Multiset.add_zero parts).symm
  | cons op ops ih =>
      calc applyOps columns parts (op :: ops)
        _ = foldParts columns (op.onParts columns parts + op.parts) ops +
              appendedParts columns ops := by
          rw [applyOps_cons, TableOp.apply_eq, ih]
        _ = foldParts columns parts (op :: ops) + appendedParts columns (op :: ops) := by
          rw [foldParts_add, foldParts_cons, appendedParts, Multiset.add_assoc]

/-- No operation adds files that are already written. -/
def Buffered (ops : List (TableOp Value)) : Prop :=
  ∀ op ∈ ops, ∀ files, op ≠ .appendFiles files

/-- Every statement is computed row by row. -/
def RowLocalOps (ops : List (TableOp Value)) : Prop :=
  ∀ stmt, .dml stmt ∈ ops → stmt.RowLocal

theorem length_countOps (columns : List String) (parts : Multiset (Part Value))
    (ops : List (TableOp Value)) : (countOps columns parts ops).length = ops.length := by
  induction ops generalizing parts with
  | nil => rfl
  | cons op ops ih => simp only [countOps, List.length_cons, ih]

/-- The counts add up the same way as the rows. -/
theorem countOps_eq_fold (columns : List String) (parts : Multiset (Part Value))
    {ops : List (TableOp Value)} (buffered : Buffered ops) (index : Nat) :
    (countOps columns parts ops).getD index 0 =
      matchedBy columns parts ops index + appendedBy columns ops index := by
  induction ops generalizing parts index with
  | nil => rfl
  | cons op ops ih =>
      have rest : Buffered ops := fun op mem => buffered op (List.mem_cons_of_mem _ mem)
      cases index with
      | zero =>
          cases op with
          | append batch => exact (Nat.zero_add _).symm
          | appendFiles files => exact absurd rfl (buffered _ List.mem_cons_self files)
          | dml stmt => rfl
      | succ index =>
          simp only [countOps, List.getD_cons_succ, matchedBy, appendedBy]
          rw [ih _ rest, TableOp.apply_eq, matchedBy_add, Nat.add_assoc]

/-! ## The statements the code folds -/

/-- Over any part, a statement answers how many rows it matches and what it makes of them. -/
theorem applyDmlToBatches_onPart {engine : Engine Value} (computes : engine.Computes meaning)
    {stmt : DmlStatement Value} (rowLocal : stmt.RowLocal) {columns : List String}
    {rows out : List (Row Value)} {matched : Nat}
    (applied : Dml.applyDmlToBatches engine stmt columns rows = .ok (matched, out)) :
    matched = (rows : Part Value).countP (fun row => stmt.Matches row) ∧
      (out : Part Value) = stmt.onPart columns rows := by
  obtain ⟨counted, becomes⟩ := Dml.applyDmlToBatches_spec rowLocal computes applied
  have any : rows.any (Dml.DmlStatement.Matches stmt meaning) =
      decide (0 < (rows : Part Value).countP fun row => stmt.Matches row) := by
    rw [Bool.eq_iff_iff, List.any_eq_true, decide_eq_true_eq, Multiset.coe_countP,
      ← List.countP_pos_iff]
    simp only [Bool.decide_eq_true]
  refine ⟨?_, ?_⟩
  · rw [counted, Multiset.coe_countP]
    simp only [Bool.decide_eq_true]
  · rw [DmlStatement.onPart, Multiset.filterMap_coe, ← any]
    exact Multiset.coe_eq_coe.mpr becomes

/-- Adding to one counter leaves the others. -/
theorem getD_modify_add (counts : List Nat) {at' : Nat} (inside : at' < counts.length)
    (added index : Nat) : (counts.modify at' (· + added)).getD index 0 =
      counts.getD index 0 + if index = at' then added else 0 := by
  rw [List.getD_eq_getElem?_getD, List.getElem?_modify, List.getD_eq_getElem?_getD]
  by_cases here : index = at'
  · subst here
    simp [inside]
  · have elsewhere : at' ≠ index := fun same => here same.symm
    simp [here, elsewhere]

/-- One statement of the fold over a part. -/
theorem Folded.next_spec {engine : Engine Value} (computes : engine.Computes meaning)
    {columns : List String} {before after : Folded Value} {op : TableOp Value} {at' : Nat}
    (rowLocal : ∀ stmt, op = .dml stmt → stmt.RowLocal)
    (folded : before.next engine columns (op, at') = .ok after)
    (inside : at' < before.rowsByOp.length) :
    {(after.rows : Part Value)} = op.onParts columns {(before.rows : Part Value)} ∧
      after.changed =
        (before.changed || decide (0 < op.matched {(before.rows : Part Value)})) ∧
      after.rowsByOp.length = before.rowsByOp.length ∧
      ∀ index, after.rowsByOp.getD index 0 = before.rowsByOp.getD index 0 +
        if index = at' then op.matched {(before.rows : Part Value)} else 0 := by
  cases op with
  | append rows =>
      cases folded
      simp [TableOp.onParts, TableOp.matched]
  | appendFiles files =>
      cases folded
      simp [TableOp.onParts, TableOp.matched]
  | dml stmt =>
      obtain ⟨⟨matched, out⟩, applied, folded⟩ := bind_eq_ok folded
      cases folded
      obtain ⟨matches', becomes⟩ :=
        applyDmlToBatches_onPart computes (rowLocal stmt rfl) applied
      have counted : TableOp.matched {(before.rows : Part Value)} (.dml stmt) = matched := by
        rw [matches', TableOp.matched, Multiset.map_singleton, Multiset.sum_singleton]
      rw [counted, TableOp.onParts, Multiset.map_singleton, ← becomes]
      exact ⟨rfl, rfl, List.length_modify _ _ _, getD_modify_add _ inside _⟩

/-- What folding operations from an index on leaves. The induction is on the operations, the
index counting along. -/
theorem foldlM_next_spec {engine : Engine Value} (computes : engine.Computes meaning)
    {columns : List String} {ops : List (TableOp Value)} (rowLocal : RowLocalOps ops)
    {first : Nat} {before after : Folded Value}
    (folded : (ops.zipIdx first).foldlM (Folded.next engine columns) before = .ok after)
    (room : first + ops.length ≤ before.rowsByOp.length) :
    {(after.rows : Part Value)} = foldParts columns {(before.rows : Part Value)} ops ∧
      (after.changed = true ↔ before.changed = true ∨
        ∃ index, 0 < matchedBy columns {(before.rows : Part Value)} ops index) ∧
      after.rowsByOp.length = before.rowsByOp.length ∧
      ∀ index, after.rowsByOp.getD index 0 = before.rowsByOp.getD index 0 +
        if first ≤ index then
          matchedBy columns {(before.rows : Part Value)} ops (index - first) else 0 := by
  induction ops generalizing first before with
  | nil =>
      cases folded
      simp [matchedBy]
  | cons op ops ih =>
      rw [List.zipIdx_cons, List.foldlM_cons] at folded
      obtain ⟨middle, stepped, folded⟩ := bind_eq_ok folded
      rw [List.length_cons] at room
      obtain ⟨rows, changed, size, counts⟩ := Folded.next_spec computes
        (fun stmt is => rowLocal stmt (is ▸ List.mem_cons_self)) stepped (by omega)
      obtain ⟨restRows, restChanged, restSize, restCounts⟩ :=
        ih (fun stmt mem => rowLocal stmt (List.mem_cons_of_mem _ mem)) folded (by omega)
      rw [rows] at restRows restChanged restCounts
      refine ⟨restRows, ?_, restSize.trans size, ?_⟩
      · rw [restChanged, changed, Bool.or_eq_true, decide_eq_true_eq, or_assoc]
        apply or_congr_right
        constructor
        · rintro (now | ⟨index, later⟩)
          · exact ⟨0, now⟩
          · exact ⟨index + 1, later⟩
        · rintro ⟨index, some'⟩
          cases index with
          | zero => exact .inl some'
          | succ index => exact .inr ⟨index, some'⟩
      · intro index
        rw [restCounts, counts, Nat.add_assoc]
        congr 1
        obtain below | here | above := Nat.lt_trichotomy index first
        · rw [if_neg (by omega), if_neg (by omega), if_neg (by omega)]
        · subst here
          rw [if_pos rfl, if_neg (by omega), if_pos le_rfl, Nat.sub_self, Nat.add_zero, matchedBy]
        · obtain ⟨past, rfl⟩ := Nat.exists_eq_add_of_lt above
          have position : first + past + 1 - first = past + 1 := by omega
          have beyond : first + past + 1 - (first + 1) = past := by omega
          rw [if_neg (by omega), if_pos (by omega), if_pos (by omega), position, beyond,
            Nat.zero_add, matchedBy]

theorem zipIdx_drop {α : Type} (items : List α) (count : Nat) :
    items.zipIdx.drop count = (items.drop count).zipIdx count := by
  apply List.ext_getElem?
  intro index
  simp [List.getElem?_zipIdx]

/-- Folding the statements from `firstOp` on over a part. -/
theorem foldDmlOps_spec {engine : Engine Value} (computes : engine.Computes meaning)
    {columns : List String} {ops : List (TableOp Value)} (rowLocal : RowLocalOps ops)
    {firstOp : Nat} {rows : List (Row Value)} {rowsByOp : List Nat} {folded : Folded Value}
    (ran : foldDmlOps engine columns ops firstOp rows rowsByOp = .ok folded)
    (room : rowsByOp.length = ops.length) :
    {(folded.rows : Part Value)} =
        foldParts columns {(rows : Part Value)} (ops.drop firstOp) ∧
      (folded.changed = true ↔
        ∃ index, 0 < matchedBy columns {(rows : Part Value)} (ops.drop firstOp) index) ∧
      folded.rowsByOp.length = ops.length ∧
      ∀ index, folded.rowsByOp.getD index 0 = rowsByOp.getD index 0 +
        if firstOp ≤ index then
          matchedBy columns {(rows : Part Value)} (ops.drop firstOp) (index - firstOp) else 0 := by
  rw [foldDmlOps, zipIdx_drop] at ran
  by_cases inside : firstOp ≤ ops.length
  · have spec := foldlM_next_spec computes
      (fun stmt mem => rowLocal stmt (List.mem_of_mem_drop mem)) ran
      (by rw [List.length_drop]; dsimp only; omega)
    simp only [Bool.false_eq_true, false_or, room] at spec
    exact spec
  · rw [List.drop_eq_nil_of_le (by omega)] at ran ⊢
    cases ran
    simp [matchedBy, room]

end Icegres.Commit
