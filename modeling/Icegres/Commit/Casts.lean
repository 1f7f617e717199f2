import Icegres.Commit.Fold
import Icegres.Commit.Prepare

/-!
# Rows cast to the columns' types

A commit folds the statements over uncast rows and casts what is left once. A statement that treats
every row it meets so as it treats the row cast comes to the same as one over the cast rows.
-/

namespace Icegres.Commit

variable {Value : Type}

/-- A value that was cast to a column's type is cast to itself. -/
def Recasts (backend : Backend Value) : Prop :=
  ∀ field value cast, backend.cast field value = .ok cast → backend.cast field cast = .ok cast

/-- What leaves its own results alone leaves them alone along a row. -/
theorem mapM_zip_idem {one : Field × Value → Except String Value}
    (idem : ∀ field value cast, one (field, value) = .ok cast → one (field, cast) = .ok cast)
    {fields : List Field} {row stored : Row Value} (size : row.length = fields.length)
    (ran : (fields.zip row).mapM one = .ok stored) :
    stored.length = fields.length ∧ (fields.zip stored).mapM one = .ok stored := by
  induction fields generalizing row stored with
  | nil =>
      cases ran
      exact ⟨rfl, rfl⟩
  | cons field fields ih =>
      cases row with
      | nil => cases size
      | cons value row =>
          rw [List.zip_cons_cons, List.mapM_cons] at ran
          obtain ⟨cast, first, ran⟩ := bind_eq_ok ran
          obtain ⟨rest, more, ran⟩ := bind_eq_ok ran
          cases ran
          obtain ⟨length, again⟩ := ih (by simpa using size) more
          constructor
          · simp [length]
          · rw [List.zip_cons_cons, List.mapM_cons, idem field value cast first, again]
            rfl

theorem alignRow_idem {backend : Backend Value} (recasts : Recasts backend)
    {fields : List Field} {row stored : Row Value}
    (aligned : alignRow backend fields row = .ok stored) :
    alignRow backend fields stored = .ok stored := by
  unfold alignRow at aligned ⊢
  split at aligned
  · cases aligned
  · rename_i size
    rw [not_not] at size
    have whole := mapM_zip_idem (fun field value cast casted => by
      obtain ⟨own, first, kept⟩ := bind_eq_ok casted
      split at kept
      · cases kept
      · rename_i fits
        cases kept
        simp only [recasts field value cast first, bind, Except.bind, if_neg fits]
        rfl) size aligned
    rw [if_neg (not_not_intro whole.1)]
    exact whole.2

/-! ## Casting a multiset of rows -/

/-- Every row is cast to one of the others. -/
def Casts (backend : Backend Value) (fields : List Field) (rows stored : Multiset (Row Value)) :
    Prop :=
  rows.map (alignRow backend fields) = stored.map Except.ok

variable {backend : Backend Value} {fields : List Field}

theorem Casts.add {rows stored rows' stored' : Multiset (Row Value)}
    (first : Casts backend fields rows stored) (second : Casts backend fields rows' stored') :
    Casts backend fields (rows + rows') (stored + stored') := by
  rw [Casts, Multiset.map_add, first, second, Multiset.map_add]

theorem casts_of_alignBatch {rows stored : List (Row Value)}
    (aligned : alignBatch backend fields rows = .ok stored) :
    Casts backend fields rows stored := by
  rw [alignBatch] at aligned
  induction rows generalizing stored with
  | nil =>
      cases aligned
      rfl
  | cons row rows ih =>
      rw [List.mapM_cons] at aligned
      obtain ⟨first, own, aligned⟩ := bind_eq_ok aligned
      obtain ⟨rest, more, aligned⟩ := bind_eq_ok aligned
      cases aligned
      have tail := ih more
      simp only [Casts, Multiset.map_coe] at tail ⊢
      rw [List.map_cons, own, List.map_cons, ← Multiset.cons_coe, tail, Multiset.cons_coe]

/-- Rows of the columns' types are cast to themselves. -/
theorem casts_self {rows : Multiset (Row Value)}
    (typed : ∀ row ∈ rows, alignRow backend fields row = .ok row) :
    Casts backend fields rows rows :=
  Multiset.map_congr rfl typed

theorem Casts.typed (recasts : Recasts backend) {rows stored : Multiset (Row Value)}
    (casts : Casts backend fields rows stored) :
    ∀ row ∈ stored, alignRow backend fields row = .ok row := by
  intro row inside
  have image : Except.ok row ∈ rows.map (alignRow backend fields) := by
    rw [casts]
    exact Multiset.mem_map_of_mem _ inside
  obtain ⟨source, -, aligned⟩ := Multiset.mem_map.mp image
  exact alignRow_idem recasts aligned

/-- Rows are cast to one multiset only. -/
theorem Casts.unique {rows stored other : Multiset (Row Value)}
    (first : Casts backend fields rows stored) (second : Casts backend fields rows other) :
    stored = other := by
  refine Multiset.map_injective (f := Except.ok (ε := String)) ?_ (first.symm.trans second)
  intro left right same
  exact Except.ok.inj same

/-! ## A statement over uncast rows and over cast ones -/

/-- Among the rows it meets, the statement treats the row as it treats the row cast to the columns'
types among those. -/
def SameOnCast (backend : Backend Value) (fields : List Field) (columns : List String)
    (stmt : DmlStatement Value) (here there : Bool) (row : Row Value) : Prop :=
  ∀ cast, alignRow backend fields row = .ok cast →
    stmt.Matches row = stmt.Matches cast ∧
      (stmt.onRow columns here row).map (alignRow backend fields) =
        (stmt.onRow columns there cast).map (alignRow backend fields)

/-- Every statement treats so every row it meets when the operations are applied without a cast, part
by part. `beside` tells of the parts whether an unmatched row of the cast ones is selected again. -/
def CastsAgree (backend : Backend Value) (fields : List Field) (columns : List String)
    (beside : Multiset (Part Value) → DmlStatement Value → Bool) (parts : Multiset (Part Value))
    (ops : List (TableOp Value)) : Prop :=
  ∀ before stmt after, ops = before ++ .dml stmt :: after →
    ∀ part ∈ applyOps columns parts before, ∀ row ∈ part,
      SameOnCast backend fields columns stmt
        (decide (0 < part.countP fun row => stmt.Matches row))
        (beside (applyOps columns parts before) stmt) row

theorem sameOnCast_of_typed {columns : List String} {stmt : DmlStatement Value}
    {here there : Bool} {row : Row Value} (typed : alignRow backend fields row = .ok row)
    (same : stmt.onRow columns here row = stmt.onRow columns there row) :
    SameOnCast backend fields columns stmt here there row := by
  intro cast aligned
  cases typed.symm.trans aligned
  exact ⟨rfl, by rw [same]⟩

/-- A statement over the rows of a part and over the same rows cast matches as many, and what it
leaves is cast to the same. -/
theorem statement_of_rel {columns : List String} {stmt : DmlStatement Value} {here there : Bool}
    {part stored : Multiset (Row Value)}
    (paired : Multiset.Rel (fun row cast => alignRow backend fields row = .ok cast) part stored)
    (same : ∀ row ∈ part, SameOnCast backend fields columns stmt here there row) :
    part.countP (fun row => stmt.Matches row) = stored.countP (fun row => stmt.Matches row) ∧
      (part.filterMap (stmt.onRow columns here)).map (alignRow backend fields) =
        (stored.filterMap (stmt.onRow columns there)).map (alignRow backend fields) := by
  have agrees := paired.mono fun row inside cast _ isCast => same row inside cast isCast
  clear paired same
  induction agrees with
  | zero => exact ⟨rfl, rfl⟩
  | @cons row cast rows stored agree _ ih =>
      obtain ⟨count, image⟩ := ih
      obtain ⟨matches', shows⟩ := agree
      constructor
      · rw [Multiset.countP_cons, Multiset.countP_cons, count, matches']
      · simp only [Multiset.map_filterMap] at image ⊢
        rw [Multiset.filterMap_cons, Multiset.filterMap_cons, image, shows]

/-- The same over all parts of a table. The induction is on the parts. -/
theorem Casts.statement {columns : List String} {stmt : DmlStatement Value}
    {parts : Multiset (Part Value)} {stored : Multiset (Row Value)}
    (casts : Casts backend fields parts.sum stored) (there : Bool)
    (same : ∀ part ∈ parts, ∀ row ∈ part, SameOnCast backend fields columns stmt
      (decide (0 < part.countP fun row => stmt.Matches row)) there row) :
    TableOp.matched parts (.dml stmt) = stored.countP (fun row => stmt.Matches row) ∧
      (parts.map (stmt.onPart columns)).sum.map (alignRow backend fields) =
        (stored.filterMap (stmt.onRow columns there)).map (alignRow backend fields) := by
  have paired : Multiset.Rel (fun row cast => alignRow backend fields row = .ok cast) parts.sum
      stored := Multiset.rel_map.mp (Multiset.rel_eq.mpr casts)
  clear casts
  induction parts using Multiset.induction generalizing stored with
  | empty =>
      obtain rfl := Multiset.rel_zero_left.mp paired
      exact ⟨rfl, rfl⟩
  | cons part parts ih =>
      rw [Multiset.sum_cons] at paired
      obtain ⟨own, rest, isOwn, isRest, rfl⟩ := Multiset.rel_add_left.mp paired
      obtain ⟨count, image⟩ :=
        ih (fun other mem => same other (Multiset.mem_cons_of_mem mem)) isRest
      obtain ⟨ownCount, ownImage⟩ := statement_of_rel isOwn (same part (Multiset.mem_cons_self _ _))
      constructor
      · rw [TableOp.matched] at count ⊢
        rw [Multiset.map_cons, Multiset.sum_cons, Multiset.countP_add, count, ownCount]
      · rw [Multiset.map_cons, Multiset.sum_cons, Multiset.map_add, image, Multiset.filterMap_add,
          Multiset.map_add, ← ownImage, DmlStatement.onPart]

/-! ## One operation more -/

theorem applyOps_concat (columns : List String) (parts : Multiset (Part Value))
    (ops : List (TableOp Value)) (op : TableOp Value) :
    applyOps columns parts (ops ++ [op]) = op.apply columns (applyOps columns parts ops) := by
  rw [applyOps, List.foldl_concat, applyOps]

theorem countOps_concat (columns : List String) (parts : Multiset (Part Value))
    (ops : List (TableOp Value)) (op : TableOp Value) :
    countOps columns parts (ops ++ [op]) =
      countOps columns parts ops ++ [op.count (applyOps columns parts ops)] := by
  induction ops generalizing parts with
  | nil => rfl
  | cons first ops ih => rw [List.cons_append, countOps, ih, countOps, List.cons_append, applyOps_cons]

theorem buffered_concat {ops : List (TableOp Value)} (buffered : Buffered ops) {op : TableOp Value}
    (own : ∀ files, op ≠ .appendFiles files) : Buffered (ops ++ [op]) := by
  intro other inside
  rcases List.mem_append.mp inside with older | isLast
  · exact buffered other older
  · rw [List.mem_singleton.mp isLast]
    exact own

end Icegres.Commit
