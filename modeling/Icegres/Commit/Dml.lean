import Icegres.Dml
import Mathlib.Data.Multiset.Filter

/-!
# The buffered operations of a table

The statements are folded over the rows of each data file and of each appended batch. What a
predicate and an assigned value are is left open but for what they come to over a batch of rows.
-/

namespace Icegres.Commit

abbrev Row (Value : Type) := Dml.Row Value

/-- A predicate is true, false or NULL of the row at an index of a batch. -/
abbrev Predicate (Value : Type) := List (Row Value) → Nat → Option Bool

/-- The value an assignment computes for the row at an index of a batch, and the cast of a `CASE`
with it to the common type, over rows of the types of the given one. -/
structure Expr (Value : Type) where
  value : List (Row Value) → Nat → Value
  common : Row Value → Value → Value

/-- A predicate of the row alone. -/
def Predicate.ofRow {Value : Type} (truth : Row Value → Option Bool) : Predicate Value :=
  fun rows index => truth (rows.getD index [])

/-- A value of the row alone, of the column's type. -/
def Expr.ofRow {Value : Type} (value : Row Value → Value) : Expr Value where
  value rows index := value (rows.getD index [])
  common _ branch := branch

def meaning {Value : Type} : Dml.Meaning (Predicate Value) (Expr Value) Value where
  truthAt predicate := predicate
  valueAt := Expr.value
  common expr _ := expr.common

abbrev DmlStatement (Value : Type) := Dml.DmlStatement (Predicate Value) (Expr Value)

abbrev Engine (Value : Type) := Dml.Engine (Predicate Value) (Expr Value) Value

abbrev FileFate (Value : Type) := Dml.FileFate Value

variable {Value : Type}

/-- A data file as its manifest entry describes it. -/
structure DataFile where
  filePath : String
  recordCount : Nat
  fileSizeInBytes : Nat
  deriving DecidableEq

/-- One buffered operation, in statement order. -/
inductive TableOp (Value : Type) where
  | append (rows : List (Row Value))
  /-- Data files that are already written. -/
  | appendFiles (files : List DataFile)
  | dml (stmt : DmlStatement Value)

/-- What folding the statements over some rows leaves. -/
structure Folded (Value : Type) where
  changed : Bool
  rows : List (Row Value)
  rowsByOp : List Nat

/-- One statement of the fold. -/
def Folded.next (engine : Engine Value) (columns : List String) (folded : Folded Value) :
    TableOp Value × Nat → Except String (Folded Value)
  | (.dml stmt, index) => do
      let (matched, out) ← Dml.applyDmlToBatches engine stmt columns folded.rows
      return { changed := folded.changed || decide (0 < matched)
               rows := out
               rowsByOp := folded.rowsByOp.modify index (· + matched) }
  | _ => .ok folded

/-- Fold the statements from `firstOp` on over the rows. -/
def foldDmlOps (engine : Engine Value) (columns : List String) (ops : List (TableOp Value))
    (firstOp : Nat) (rows : List (Row Value)) (rowsByOp : List Nat) :
    Except String (Folded Value) :=
  (ops.zipIdx.drop firstOp).foldlM (Folded.next engine columns) ⟨false, rows, rowsByOp⟩

/-! ## Row by row -/

namespace DmlStatement

/-- The predicate and the assigned values are computed from the row alone. -/
abbrev RowLocal (stmt : DmlStatement Value) : Prop :=
  Dml.DmlStatement.RowLocal stmt meaning

/-- Whether the statement matches a row. -/
abbrev Matches (stmt : DmlStatement Value) (row : Row Value) : Bool :=
  Dml.DmlStatement.Matches stmt meaning row

/-- The row after the statement, if it survives, beside a row that matches or not. -/
abbrev onRow (stmt : DmlStatement Value) (columns : List String) (beside : Bool)
    (row : Row Value) : Option (Row Value) :=
  Dml.DmlStatement.onRow stmt meaning columns beside row

end DmlStatement

end Icegres.Commit
