import Icegres.Evolution.Commit

/-!
# Columns that were dropped or renamed

A live file with a column that the table does not have any more under that name makes statements
read the wrong values: a DELETE can be made to match a row by a value no reader finds in it.
-/

namespace Icegres.Evolution

variable {Kind Value : Type} [DecidableEq Kind] [DecidableEq Value] {scalars : Scalars Kind Value}

open Dml (Row)

/-! ## A row that is matched by a value it does not have -/

/-- A row with a value in one column. -/
def presentRow (scalars : Scalars Kind Value) (layout : Layout Kind) (id : Nat) :
    Fitted scalars layout where
  values := layout.map fun column =>
    if column.id = id then scalars.present column.kind else scalars.null column.kind
  fits := by
    rw [List.map_map]
    apply List.map_congr_left
    rintro column -
    simp only [Function.comp]
    split
    · exact scalars.kindOf_present column.kind
    · exact scalars.kindOf_null column.kind

/-- `DELETE … WHERE name = value` -/
def deleteWhere (scalars : Scalars Kind Value) (name : String) (value : Value) :
    DmlStatement Kind Value where
  kind := .delete
  table := "trips"
  predicate := some
    { names := [name]
      value values := scalars.ofBool (decide (values = [value]))
      common _ branch := branch }

def deleteOps (scalars : Scalars Kind Value) (column : Column Kind) : Ops scalars :=
  [.dml (deleteWhere scalars column.name (scalars.present column.kind))]

omit [DecidableEq Kind] in
theorem keepColumns_deleteOps (column : Column Kind) : KeepColumns (deleteOps scalars column) := by
  intro stmt mem
  cases List.mem_singleton.mp mem
  exact fun _ => nofun

omit [DecidableEq Kind] in
/-- The DELETE matches the rows with the value. -/
theorem matches_deleteWhere (scalars : Scalars Kind Value) {name : String} {value : Value}
    {columns : List String} {row : Row Value} :
    (deleteWhere scalars name value).Matches (meaning scalars columns) row =
      decide (cell columns row name = some value) := by
  rw [Dml.DmlStatement.Matches]
  cases is : cell columns row name <;>
    simp [deleteWhere, meaning, Expr.eval, is, scalars.isTrue_ofBool]

omit [DecidableEq Kind] in
theorem touched_deleteOps {column : Column Kind} {fields : List String} {row : Row Value} :
    (afterOps fields (deleteOps scalars column) row).1 =
      decide (cell fields row column.name = some (scalars.present column.kind)) := by
  rw [← matches_deleteWhere scalars, deleteOps, afterOps]
  cases (deleteWhere scalars column.name (scalars.present column.kind)).onRow
      (meaning scalars fields) fields false row with
  | none => rfl
  | some next => exact Bool.or_false _

/-- A file without rows. -/
def emptyFile (scalars : Scalars Kind Value) (layout : Layout Kind) : DataFile scalars :=
  ⟨layout, []⟩

def presentFile (scalars : Scalars Kind Value) (layout : Layout Kind) (column : Column Kind) :
    DataFile scalars :=
  ⟨layout, [presentRow scalars layout column.id]⟩

omit [DecidableEq Kind] [DecidableEq Value] in
theorem cell_presentRow {layout : Layout Kind} (ids : layout.ids.Nodup) {column : Column Kind}
    (mem : column ∈ layout) (id : Nat) :
    cell layout.ids (presentRow scalars layout id).values column.id =
      some (if column.id = id then scalars.present column.kind else scalars.null column.kind) :=
  cell_map ids mem

omit [DecidableEq Kind] in
/-- The one row of the file is deleted. -/
theorem foldDmlOps_present {layout : Layout Kind} (names : layout.names.Nodup)
    {column : Column Kind} (mem : column ∈ layout) (fields : List String) :
    foldDmlOps fields (deleteOps scalars column) (presentFile scalars layout column).batch =
      .ok (true, ⟨fields, []⟩) := by
  have found : cell layout.names (presentRow scalars layout column.id).values column.name =
      some (scalars.present column.kind) := by
    rw [Layout.names, presentRow, cell_map names mem, if_pos rfl]
  have planned : plan layout.names [column.name] = .ok () := by
    have known : column.name ∈ layout.names := List.mem_map_of_mem mem
    simp [plan, known]
  have counted : Dml.countMatches (queries scalars fields layout.names)
      ⟨(deleteWhere scalars column.name (scalars.present column.kind)).predicate,
        (deleteWhere scalars column.name (scalars.present column.kind)).predicate, none⟩
      [(presentRow scalars layout column.id).values] = .ok 1 := by
    simp only [Dml.countMatches, deleteWhere, queries, planned, bind, Except.bind]
    simp [Expr.eval, found, scalars.isTrue_ofBool, pure, Except.pure]
  have fate : Dml.evaluateRows (queries scalars fields layout.names)
      ⟨(deleteWhere scalars column.name (scalars.present column.kind)).predicate,
        (deleteWhere scalars column.name (scalars.present column.kind)).predicate, none⟩
      [(presentRow scalars layout column.id).values] = .ok (.remove 1) := by
    rw [Dml.evaluateRows, counted]
    rfl
  have applied : Dml.applyDmlToBatches (queries scalars fields layout.names)
      (deleteWhere scalars column.name (scalars.present column.kind)) fields
      [(presentRow scalars layout column.id).values] = .ok (1, []) := by
    rw [Dml.applyDmlToBatches, if_neg (by simp)]
    have built : Dml.DmlSql.new (deleteWhere scalars column.name (scalars.present column.kind))
        fields = .ok ⟨_, _, none⟩ := rfl
    rw [built]
    simp only [bind, Except.bind, fate]
    rfl
  simp only [deleteOps, foldDmlOps, applyDmlToBatches, presentFile, DataFile.batch, List.map_cons,
    List.map_nil, bind, Except.bind, applied]
  rfl

/-! ## Commits -/

theorem foldlM_scanFile_empty {current : Layout Kind} (column : Column Kind)
    (staged : Staged scalars current) (layouts : List (Layout Kind)) :
    (layouts.map (emptyFile scalars)).foldlM
        (scanFile current (deleteOps scalars column) none) staged =
      .ok { staged with kept := staged.kept ++ layouts.map (emptyFile scalars) } := by
  induction layouts generalizing staged with
  | nil => simp [pure, Except.pure]
  | cons layout rest ih =>
      have first : scanFile current (deleteOps scalars column) none staged
          (emptyFile scalars layout) =
            .ok { staged with kept := staged.kept ++ [emptyFile scalars layout] } := by
        rw [scanFile, if_pos (by rfl)]
        have folded : foldDmlOps current.names (deleteOps scalars column)
            (emptyFile scalars layout).batch = .ok (false, (emptyFile scalars layout).batch) := rfl
        rw [folded]
        simp [bind, Except.bind, Dml.keyRows, pure, Except.pure]
      rw [List.map_cons, List.foldlM_cons, first]
      refine (ih _).trans ?_
      simp

/-- The files of some layouts, of which one has a row. -/
def dropFiles (scalars : Scalars Kind Value) (front : List (Layout Kind)) (layout : Layout Kind)
    (column : Column Kind) (back : List (Layout Kind)) : List (DataFile scalars) :=
  front.map (emptyFile scalars) ++ presentFile scalars layout column :: back.map (emptyFile scalars)

theorem prepareCommit_deleteOps {current : Layout Kind} {front back : List (Layout Kind)}
    {layout : Layout Kind} (names : layout.names.Nodup) {column : Column Kind}
    (mem : column ∈ layout) (table : String) :
    prepareCommit current (dropFiles scalars front layout column back)
        (deleteOps scalars column) none table =
      .ok (some (front.map (emptyFile scalars) ++ back.map (emptyFile scalars))) := by
  have valid : validate current.names (deleteOps scalars column) = .ok () := rfl
  have scanned : scanFiles current (dropFiles scalars front layout column back)
      (deleteOps scalars column) none = .ok ⟨front.map (emptyFile scalars) ++
        back.map (emptyFile scalars), [], true, []⟩ := by
    have one (staged : Staged scalars current) :
        scanFile current (deleteOps scalars column) none staged
          (presentFile scalars layout column) = .ok { staged with anyFileChanged := true } := by
      rw [scanFile, if_pos (by rfl), foldDmlOps_present names mem]
      rfl
    rw [scanFiles, if_pos (by rfl), dropFiles, List.foldlM_append, foldlM_scanFile_empty]
    simp only [bind, Except.bind, List.foldlM_cons, one, foldlM_scanFile_empty, List.nil_append]
  rw [prepareCommit, valid, scanned]
  simp [deleteOps, appendedRows, prewritten, newFiles, Dml.keyRows, Dml.enforcePk, bind,
    Except.bind, pure, Except.pure]

omit [DecidableEq Kind] [DecidableEq Value] in
theorem logicalRowsOf_empty (current : Layout Kind) (layouts : List (Layout Kind)) :
    logicalRowsOf current (layouts.map (emptyFile scalars)) = [] := by
  simp [logicalRowsOf, DataFile.logicalRows, emptyFile]

omit [DecidableEq Kind] [DecidableEq Value] in
/-- A reader does not find the value in the row under the name of the column. -/
theorem cell_logicalRow_ne {history : History Kind} (sound : history.Sound) {layout : Layout Kind}
    (known : layout ∈ history.schemas) {column : Column Kind} (mem : column ∈ layout)
    (gone : column ∉ history.current) :
    ¬ cell history.current.names (logicalRow history.current
      (presentRow scalars layout column.id)) column.name = some (scalars.present column.kind) := by
  intro is
  have inNames := mem_of_cell is
  obtain ⟨field, inCurrent, sameName⟩ := List.mem_map.mp inNames
  have apart : field.id ≠ column.id := by
    intro sameId
    obtain ⟨sameKind, sameRequired⟩ :=
      sound.same _ known _ sound.current column mem field inCurrent sameId.symm
    apply gone
    have same : column = field := by
      cases column
      cases field
      simp_all
    exact same ▸ inCurrent
  rw [← sameName, Layout.names, logicalRow,
    cell_map (sound.names _ sound.current) inCurrent, Option.some.injEq] at is
  cases there : cell layout.ids (presentRow scalars layout column.id).values field.id with
  | none =>
      rw [there, Option.getD_none] at is
      exact scalars.present_ne_null _ _ is.symm
  | some value =>
      obtain ⟨other, inFile, otherId⟩ := List.mem_map.mp (mem_of_cell there)
      rw [there, Option.getD_some] at is
      rw [← otherId, cell_presentRow (sound.ids _ known) inFile, if_neg (otherId ▸ apart),
        Option.some.injEq] at there
      exact scalars.present_ne_null _ _ (is.symm.trans there.symm)

/-- The DELETE removes a row that no reader finds to match. -/
theorem not_preserves {history : History Kind} (sound : history.Sound)
    {front back : List (Layout Kind)} {layout : Layout Kind} (known : layout ∈ history.schemas)
    {column : Column Kind} (mem : column ∈ layout) (gone : column ∉ history.current) :
    ¬ Preserves history.current (dropFiles scalars front layout column back)
      (deleteOps scalars column)
      (front.map (emptyFile scalars) ++ back.map (emptyFile scalars)) := by
  rintro ⟨outs, appended, outcomes, appends, perm⟩
  have before : logicalRowsOf history.current (dropFiles scalars front layout column back) =
      [logicalRow history.current (presentRow scalars layout column.id)] := by
    rw [dropFiles, logicalRowsOf, List.flatMap_append, ← logicalRowsOf, logicalRowsOf_empty,
      List.flatMap_cons, ← logicalRowsOf, logicalRowsOf_empty]
    rfl
  rw [before] at outcomes
  cases outcomes with
  | @cons _ out _ outs outcome rest =>
      cases rest
      have untouched : (afterOps history.current.names (deleteOps scalars column)
          (logicalRow history.current (presentRow scalars layout column.id))).1 = false := by
        rw [touched_deleteOps]
        exact decide_eq_false (cell_logicalRow_ne sound known mem gone)
      have becomes : out = some (logicalRow history.current
          (presentRow scalars layout column.id)) := by
        rw [Outcome] at outcome
        split at outcome
        · exact outcome
        · next is => cases (congrArg Prod.fst is).symm.trans untouched
        · next is => cases (congrArg Prod.fst is).symm.trans untouched
      rw [becomes, logicalRowsOf, List.flatMap_append, ← logicalRowsOf, ← logicalRowsOf,
        logicalRowsOf_empty, logicalRowsOf_empty] at perm
      have lengths := perm.length_eq
      simp at lengths

/-! ## Every history -/

/-- Numbers and nulls. -/
def numbers : Scalars Unit (Option Nat) where
  kindOf _ := ()
  null _ := none
  isNull value := value.isNone
  display value := value.elim "NULL" toString
  isTrue value := value = some 1
  ofBool truth := if truth then some 1 else some 0
  present _ := some 7
  cast _ value := .ok value
  kindOf_null _ := rfl
  kindOf_present _ := rfl
  present_ne_null _ _ := nofun
  isTrue_ofBool truth := by cases truth <;> rfl

def fareColumn (id : Nat) : Column Unit :=
  ⟨id, "fare", (), false⟩

/-- A table as it is created with one column. -/
def created : History Unit :=
  ⟨[fareColumn 1], 1, [[fareColumn 1]]⟩

theorem created_initial : created.Initial :=
  ⟨rfl, by decide, by decide, by decide⟩

end Icegres.Evolution
