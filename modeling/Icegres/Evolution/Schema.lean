import Icegres.Transition
import Mathlib.Algebra.Ring.Nat
import Mathlib.Data.List.Forall2
import Mathlib.Data.List.Nodup

/-!
# Columns over the history of a schema

A column keeps its id while it is renamed and loses it when it is dropped; a column that is added
gets an id that was never used. A data file has the columns of the schema it was written under, and
a reader that knows ids finds the value of a column in it under whatever name the file has for it.
-/

namespace Icegres.Evolution

variable {Kind Value : Type}

/-! ## Cells -/

section Cells

variable {Key Other Item : Type} [DecidableEq Key] [DecidableEq Other]

/-- The value a row has under a key. -/
def cell (keys : List Key) (row : List Value) (key : Key) : Option Value :=
  (keys.zip row).lookup key

theorem cell_cons (first : Key) (keys : List Key) (value : Value) (row : List Value) (key : Key) :
    cell (first :: keys) (value :: row) key =
      if key = first then some value else cell keys row key := by
  rw [cell, List.zip_cons_cons, List.lookup_cons]
  by_cases same : key = first
  · simp [same]
  · rw [if_neg same, beq_false_of_ne same]
    rfl

theorem mem_of_cell {keys : List Key} {row : List Value} {key : Key} {value : Value}
    (found : cell keys row key = some value) : key ∈ keys := by
  induction keys generalizing row with
  | nil => simp [cell] at found
  | cons first keys ih =>
      cases row with
      | nil => simp [cell] at found
      | cons head row =>
          rw [cell_cons] at found
          split at found
          · next same => exact same ▸ List.mem_cons_self
          · exact List.mem_cons_of_mem _ (ih found)

theorem cell_of_mem {keys : List Key} {row : List Value} {key : Key} (mem : key ∈ keys)
    (sized : row.length = keys.length) : ∃ value ∈ row, cell keys row key = some value := by
  induction keys generalizing row with
  | nil => cases mem
  | cons first keys ih =>
      cases row with
      | nil => cases sized
      | cons head row =>
          rw [cell_cons]
          split
          · exact ⟨head, List.mem_cons_self, rfl⟩
          · next differs =>
            obtain ⟨value, inRow, found⟩ :=
              ih ((List.mem_cons.mp mem).resolve_left differs) (Nat.succ.inj sized)
            exact ⟨value, List.mem_cons_of_mem _ inRow, found⟩

/-- Items that are told apart by two keys have the same cell under both. -/
theorem cell_map_congr {items : List Item} {left : Item → Key} {right : Item → Other}
    (leftNodup : (items.map left).Nodup) (rightNodup : (items.map right).Nodup) {row : List Value}
    {item : Item} (mem : item ∈ items) :
    cell (items.map left) row (left item) = cell (items.map right) row (right item) := by
  induction items generalizing row with
  | nil => cases mem
  | cons first items ih =>
      rw [List.map_cons, List.nodup_cons] at leftNodup rightNodup
      cases row with
      | nil => rfl
      | cons head row =>
          rw [List.map_cons, List.map_cons, cell_cons, cell_cons]
          obtain rfl | later := List.mem_cons.mp mem
          · rw [if_pos rfl, if_pos rfl]
          · have leftApart : left item ≠ left first := fun same =>
              leftNodup.1 (same ▸ List.mem_map_of_mem later)
            have rightApart : right item ≠ right first := fun same =>
              rightNodup.1 (same ▸ List.mem_map_of_mem later)
            rw [if_neg leftApart, if_neg rightApart, ih leftNodup.2 rightNodup.2 later]

theorem cell_map {items : List Item} {key : Item → Key} {value : Item → Value}
    (nodup : (items.map key).Nodup) {item : Item} (mem : item ∈ items) :
    cell (items.map key) (items.map value) (key item) = some (value item) := by
  induction items with
  | nil => cases mem
  | cons first items ih =>
      rw [List.map_cons, List.nodup_cons] at nodup
      rw [List.map_cons, List.map_cons, cell_cons]
      obtain rfl | later := List.mem_cons.mp mem
      · rw [if_pos rfl]
      · have apart : key item ≠ key first := fun same =>
          nodup.1 (same ▸ List.mem_map_of_mem later)
        rw [if_neg apart, ih nodup.2 later]

/-- A row is read back cell by cell. -/
theorem map_cell {items : List Item} {key : Item → Key} (nodup : (items.map key).Nodup)
    {row : List Value} (sized : row.length = items.length) (missing : Item → Value) :
    (items.map fun item => (cell (items.map key) row (key item)).getD (missing item)) = row := by
  induction items generalizing row with
  | nil => exact (List.eq_nil_of_length_eq_zero sized).symm
  | cons first items ih =>
      rw [List.map_cons, List.nodup_cons] at nodup
      cases row with
      | nil => cases sized
      | cons head row =>
          have later : items.map (fun item =>
              (cell ((first :: items).map key) (head :: row) (key item)).getD (missing item)) =
                row := by
            rw [← ih nodup.2 (Nat.succ.inj sized)]
            apply List.map_congr_left
            rintro item mem
            have apart : key item ≠ key first := fun same =>
              nodup.1 (same ▸ List.mem_map_of_mem mem)
            rw [List.map_cons, cell_cons, if_neg apart, ih nodup.2 (Nat.succ.inj sized)]
          rw [List.map_cons, later, List.map_cons, cell_cons, if_pos rfl, Option.getD_some]

end Cells

/-! ## Schemas -/

structure Column (Kind : Type) where
  id : Nat
  name : String
  kind : Kind
  required : Bool
  deriving DecidableEq

/-- A schema with its columns in order. -/
abbrev Layout (Kind : Type) := List (Column Kind)

def Layout.ids (layout : Layout Kind) : List Nat :=
  layout.map Column.id

def Layout.names (layout : Layout Kind) : List String :=
  layout.map Column.name

/-- The current schema of a table and every schema it has had. -/
structure History (Kind : Type) where
  current : Layout Kind
  lastColumnId : Nat
  schemas : List (Layout Kind)
  deriving DecidableEq

inductive Change (Kind : Type) where
  | add (name : String) (kind : Kind)
  | drop (id : Nat)
  | rename (id : Nat) (name : String)

namespace History

def next (history : History Kind) (layout : Layout Kind) (lastColumnId : Nat) : History Kind :=
  ⟨layout, lastColumnId, layout :: history.schemas⟩

/-- A change of the schema, when it leaves the names apart. -/
def change (history : History Kind) : Change Kind → Option (History Kind)
  | .add name kind =>
      if name ∈ history.current.names then none
      else
        let id := history.lastColumnId + 1
        some (history.next (history.current ++ [⟨id, name, kind, false⟩]) id)
  | .drop id =>
      some (history.next (history.current.filter fun column => column.id ≠ id)
        history.lastColumnId)
  | .rename id name =>
      if name ∈ history.current.names then none
      else
        some (history.next (history.current.map fun column =>
          if column.id = id then { column with name } else column) history.lastColumnId)

/-- A table as it is created. -/
structure Initial (history : History Kind) : Prop where
  schemas : history.schemas = [history.current]
  ids : history.current.ids.Nodup
  names : history.current.names.Nodup
  bound : ∀ id ∈ history.current.ids, id ≤ history.lastColumnId

/-- Every schema tells its columns apart by id and by name, and an id always stands for the same
column. -/
structure Sound (history : History Kind) : Prop where
  current : history.current ∈ history.schemas
  ids : ∀ layout ∈ history.schemas, layout.ids.Nodup
  names : ∀ layout ∈ history.schemas, layout.names.Nodup
  bound : ∀ layout ∈ history.schemas, ∀ id ∈ layout.ids, id ≤ history.lastColumnId
  same : ∀ layout ∈ history.schemas, ∀ other ∈ history.schemas, ∀ column ∈ layout,
    ∀ again ∈ other, column.id = again.id →
      column.kind = again.kind ∧ column.required = again.required

theorem sound_of_initial {history : History Kind} (initial : history.Initial) : history.Sound := by
  obtain ⟨schemas, ids, names, bound⟩ := initial
  constructor
  · simp [schemas]
  · simpa [schemas] using ids
  · simpa [schemas] using names
  · simpa [schemas] using bound
  · simp only [schemas, List.mem_singleton]
    rintro _ rfl _ rfl column mem again memAgain is
    rw [List.inj_on_of_nodup_map ids mem memAgain is]
    exact ⟨rfl, rfl⟩

/-- A schema is added whose columns are those of the current one, or new. -/
theorem sound_next {history : History Kind} (sound : history.Sound) {layout : Layout Kind}
    {lastColumnId : Nat} (grows : history.lastColumnId ≤ lastColumnId) (ids : layout.ids.Nodup)
    (names : layout.names.Nodup) (bound : ∀ id ∈ layout.ids, id ≤ lastColumnId)
    (from' : ∀ column ∈ layout, (∃ before ∈ history.current, before.id = column.id ∧
      before.kind = column.kind ∧ before.required = column.required) ∨
        history.lastColumnId < column.id) :
    (history.next layout lastColumnId).Sound := by
  have against : ∀ column ∈ layout, ∀ other ∈ history.schemas, ∀ again ∈ other,
      column.id = again.id → column.kind = again.kind ∧ column.required = again.required := by
    rintro column mem other known again memAgain is
    obtain ⟨before, inCurrent, sameId, sameKind, sameRequired⟩ | fresh := from' column mem
    · have like := sound.same _ sound.current other known before inCurrent again memAgain
        (sameId.trans is)
      rwa [sameKind, sameRequired] at like
    · have old := sound.bound other known again.id (List.mem_map_of_mem memAgain)
      omega
  constructor
  · exact List.mem_cons_self
  · rintro other (_ | ⟨_, known⟩)
    · exact ids
    · exact sound.ids other known
  · rintro other (_ | ⟨_, known⟩)
    · exact names
    · exact sound.names other known
  · rintro other (_ | ⟨_, known⟩)
    · exact bound
    · exact fun id mem => Nat.le_trans (sound.bound other known id mem) grows
  · rintro one (_ | ⟨_, oneKnown⟩) other (_ | ⟨_, otherKnown⟩) column mem again memAgain is
    · rw [List.inj_on_of_nodup_map ids mem memAgain is]
      exact ⟨rfl, rfl⟩
    · exact against column mem other otherKnown again memAgain is
    · obtain ⟨kind, required⟩ := against again memAgain one oneKnown column mem is.symm
      exact ⟨kind.symm, required.symm⟩
    · exact sound.same one oneKnown other otherKnown column mem again memAgain is

theorem sound_change {history next : History Kind} {change : Change Kind} (sound : history.Sound)
    (changed : history.change change = some next) : next.Sound := by
  have ids := sound.ids _ sound.current
  have names := sound.names _ sound.current
  have bound := sound.bound _ sound.current
  cases change with
  | add name kind =>
      simp only [History.change] at changed
      split at changed
      · cases changed
      · next fresh =>
        cases changed
        refine sound_next sound (Nat.le_succ _) ?_ ?_ ?_ ?_
        · rw [Layout.ids, List.map_append, List.nodup_append]
          refine ⟨ids, by simp, ?_⟩
          rintro id mem _ last rfl
          have new : id = history.lastColumnId + 1 := by simpa using last
          have old := bound id mem
          omega
        · rw [Layout.names, List.map_append, List.nodup_append]
          refine ⟨names, by simp, ?_⟩
          rintro other mem _ last rfl
          have new : other = name := by simpa using last
          exact fresh (new ▸ mem)
        · rw [Layout.ids, List.map_append]
          rintro id mem
          obtain old | new := List.mem_append.mp mem
          · exact Nat.le_succ_of_le (bound id old)
          · exact Nat.le_of_eq (by simpa using new)
        · rintro column mem
          obtain old | new := List.mem_append.mp mem
          · exact .inl ⟨column, old, rfl, rfl, rfl⟩
          · rw [List.mem_singleton.mp new]
            exact .inr (Nat.lt_succ_self _)
  | drop id =>
      cases changed
      have fewer := (List.filter_sublist (l := history.current)
        (p := fun column => decide (column.id ≠ id)))
      refine sound_next sound (Nat.le_refl _) ?_ ?_ ?_ ?_
      · exact (fewer.map Column.id).nodup ids
      · exact (fewer.map Column.name).nodup names
      · exact fun other mem => bound other ((fewer.map Column.id).subset mem)
      · exact fun column mem => .inl ⟨column, fewer.subset mem, rfl, rfl, rfl⟩
  | rename id name =>
      simp only [History.change] at changed
      split at changed
      · cases changed
      · next fresh =>
        cases changed
        have sameIds : Layout.ids (history.current.map fun column =>
            if column.id = id then { column with name } else column) = history.current.ids := by
          rw [Layout.ids, List.map_map]
          apply List.map_congr_left
          rintro column -
          simp only [Function.comp]
          split <;> rfl
        refine sound_next sound (Nat.le_refl _) (sameIds ▸ ids) ?_ (sameIds ▸ bound) ?_
        · rw [Layout.names, List.map_map, List.nodup_map_iff_inj_on (List.Nodup.of_map _ ids)]
          rintro column mem other otherMem same
          have apart : ∀ column ∈ history.current, column.name ≠ name := fun column mem is =>
            fresh (is ▸ List.mem_map_of_mem mem)
          simp only [Function.comp] at same
          split at same
          · next isId =>
            split at same
            · next otherIs =>
              exact List.inj_on_of_nodup_map ids mem otherMem (isId.trans otherIs.symm)
            · exact absurd same.symm (apart other otherMem)
          · split at same
            · exact absurd same (apart column mem)
            · exact List.inj_on_of_nodup_map names mem otherMem same
        · rintro column mem
          obtain ⟨before, inCurrent, rfl⟩ := List.mem_map.mp mem
          refine .inl ⟨before, inCurrent, ?_⟩
          split <;> exact ⟨rfl, rfl, rfl⟩

/-- Every history a table can have is sound. -/
theorem sound_of_run {first last : History Kind}
    (run : Run History.change Unrestricted first last) (initial : first.Initial) : last.Sound :=
  run.invariant (fun _ _ _ sound _ changed => sound_change sound changed)
    (sound_of_initial initial)

end History

/-! ## Data files -/

/-- What the engine and the casts know of single values. -/
structure Scalars (Kind Value : Type) where
  kindOf : Value → Kind
  null : Kind → Value
  isNull : Value → Bool
  display : Value → String
  isTrue : Value → Bool
  ofBool : Bool → Value
  /-- Some value of the kind that is not null. -/
  present : Kind → Value
  cast : Kind → Value → Except String Value
  kindOf_null : ∀ kind, kindOf (null kind) = kind
  kindOf_present : ∀ kind, kindOf (present kind) = kind
  present_ne_null : ∀ kind other, present kind ≠ null other
  isTrue_ofBool : ∀ truth, isTrue (ofBool truth) = truth

/-- The values of a row, one of each column's kind. -/
structure Fitted (scalars : Scalars Kind Value) (layout : Layout Kind) where
  values : List Value
  fits : values.map scalars.kindOf = layout.map Column.kind

variable {scalars : Scalars Kind Value}

theorem Fitted.length {layout : Layout Kind} (row : Fitted scalars layout) :
    row.values.length = layout.length := by
  simpa using congrArg List.length row.fits

/-- A file has the columns of the schema it was written under. -/
structure DataFile (scalars : Scalars Kind Value) where
  layout : Layout Kind
  rows : List (Fitted scalars layout)

/-- The values of a row for the columns of the current schema, found by their ids. A file that was
written before a column was added has nulls for it. -/
def logicalRow (current : Layout Kind) {layout : Layout Kind} (row : Fitted scalars layout) :
    List Value :=
  current.map fun column => (cell layout.ids row.values column.id).getD (scalars.null column.kind)

def DataFile.logicalRows (current : Layout Kind) (file : DataFile scalars) : List (List Value) :=
  file.rows.map (logicalRow current)

@[simp]
theorem length_logicalRow (current : Layout Kind) {layout : Layout Kind}
    (row : Fitted scalars layout) : (logicalRow current row).length = current.length :=
  List.length_map _

/-- A row of a file with the current columns is what a reader finds. -/
theorem logicalRow_self {current : Layout Kind} (nodup : current.ids.Nodup)
    (row : Fitted scalars current) : logicalRow current row = row.values :=
  map_cell nodup row.length _

/-- A column of the file that the current schema still has under its name is found by the name as it
is by the id. -/
theorem cell_names_eq {current layout : Layout Kind} (ids : layout.ids.Nodup)
    (names : layout.names.Nodup) (currentNames : current.names.Nodup)
    (row : Fitted scalars layout) {column : Column Kind} (mem : column ∈ layout)
    (kept : column ∈ current) :
    cell layout.names row.values column.name =
      cell current.names (logicalRow current row) column.name := by
  have inFile : column.id ∈ layout.ids := List.mem_map_of_mem mem
  obtain ⟨value, -, found⟩ := cell_of_mem inFile (row.length.trans (List.length_map _).symm)
  rw [Layout.names, cell_map_congr names ids mem, Layout.names, logicalRow,
    cell_map currentNames kept]
  change cell layout.ids row.values column.id = _
  rw [found, Option.getD_some]

end Icegres.Evolution
