import Icegres.Authz.Access
import Icegres.Pieces

/-!
# How the check and the engine read a written name

The engine takes the identifiers of a name one by one and folds those without quotes. The check
takes the printed name, drops the quotes and splits it at the dots. The two agree on the names whose
schema and table are written exactly as they are resolved.
-/

namespace Icegres.Authz

open Icegres.Sql

variable {Value : Type}

/-! ## Pieces of a name -/

/-- The characters of an identifier without quotes. -/
def bare (ident : Ident) : List Char :=
  ident.value.toList.filter fun c => c ≠ doubleQuote

theorem filter_text (ident : Ident) :
    (ident.text.toList.filter fun c => c ≠ doubleQuote) = bare ident := by
  rw [Ident.text, bare]
  split
  · rw [String.toList_ofList, List.filter_append, List.filter_append]
    have escaped (text : List Char) : ((text.flatMap fun c =>
        if c = doubleQuote then [doubleQuote, doubleQuote] else [c]).filter
          fun c => c ≠ doubleQuote) = text.filter fun c => c ≠ doubleQuote := by
      induction text with
      | nil => rfl
      | cons c rest ih =>
          rw [List.flatMap_cons, List.filter_append, ih, List.filter_cons]
          split <;> simp_all
    rw [escaped]
    simp
  · rfl

def pieces (ident : Ident) : List (List Char) :=
  (bare ident).splitOn '.'

theorem pieces_ne_nil (ident : Ident) : pieces ident ≠ [] :=
  List.splitOn_ne_nil '.' _

theorem mem_pieces {ident : Ident} {piece : List Char} (mem : piece ∈ pieces ident) :
    '.' ∉ piece ∧ doubleQuote ∉ piece := by
  obtain ⟨noDot, inBare⟩ := mem_piece mem
  refine ⟨noDot, fun inPiece => ?_⟩
  have kept := (List.mem_filter.mp (inBare _ inPiece)).2
  simp at kept

theorem nameParts_eq {idents : List Ident} (some' : idents ≠ []) :
    nameParts (ObjectName.text (idents.map .identifier)) =
      (idents.flatMap pieces).map String.ofList := by
  have quotes : (".".toList.filter fun c => c ≠ doubleQuote) = ['.'] := by decide
  have kept : ((ObjectName.text (idents.map .identifier)).toList.filter fun c =>
      c ≠ doubleQuote) = ['.'].intercalate (idents.map bare) := by
    rw [ObjectName.text, String.toList_intercalate]
    induction idents with
    | nil => exact absurd rfl some'
    | cons ident rest ih =>
        cases rest with
        | nil => simpa [ObjectNamePart.text] using filter_text ident
        | cons next rest =>
            have later := ih (List.cons_ne_nil _ _)
            simp only [List.map_cons, List.intercalate_cons_cons, List.filter_append] at later ⊢
            rw [later, quotes, ObjectNamePart.text, filter_text]
  rw [nameParts, kept, splitOn_intercalate_eq_flatMap (by simpa using some'), List.flatMap_map]
  rfl

/-- A check reads a name of one, two or three pieces. -/
theorem objectNameToRef_eq_some {name schema : String} {target : TableRef} :
    objectNameToRef name schema = some target ↔ target.table ≠ "" ∧
      ((nameParts name = [target.table] ∧ target.schema = schema) ∨
        ∃ front, nameParts name = front ++ [target.schema, target.table] ∧ front.length ≤ 1) := by
  have ref (schema table : String) : tableRef schema table = some target ↔
      target.table ≠ "" ∧ target.schema = schema ∧ target.table = table := by
    rw [tableRef]
    split
    · next empty =>
      simp only [false_iff, reduceCtorEq]
      rintro ⟨some', -, is⟩
      exact some' (is.trans empty)
    · next some' =>
      constructor
      · rintro ⟨⟩
        exact ⟨some', rfl, rfl⟩
      · rintro ⟨-, rfl, rfl⟩
        rfl
  rw [objectNameToRef]
  split
  · next table parts =>
    rw [ref, parts]
    constructor
    · rintro ⟨some', same, rfl⟩
      exact ⟨some', .inl ⟨rfl, same⟩⟩
    · rintro ⟨some', ⟨one, same⟩ | ⟨front, two, -⟩⟩
      · exact ⟨some', same, (List.cons.inj one).1.symm⟩
      · have lengths := congrArg List.length two
        simp at lengths
  · next other table parts =>
    rw [ref, parts]
    constructor
    · rintro ⟨some', rfl, rfl⟩
      exact ⟨some', .inr ⟨[], rfl, Nat.zero_le 1⟩⟩
    · rintro ⟨some', ⟨one, -⟩ | ⟨front, two, -⟩⟩
      · cases one
      · match front with
        | [] =>
            obtain ⟨rfl, last⟩ := List.cons.inj two
            exact ⟨some', rfl, (List.cons.inj last).1.symm⟩
        | _ :: _ =>
            have lengths := congrArg List.length two
            simp at lengths
  · next catalog other table parts =>
    rw [ref, parts]
    constructor
    · rintro ⟨some', rfl, rfl⟩
      exact ⟨some', .inr ⟨[catalog], rfl, Nat.le_refl 1⟩⟩
    · rintro ⟨some', ⟨one, -⟩ | ⟨front, three, -⟩⟩
      · cases one
      · match front with
        | [] => cases three
        | [first] =>
            obtain ⟨rfl, rest⟩ := List.cons.inj three
            obtain ⟨rfl, last⟩ := List.cons.inj rest
            exact ⟨some', rfl, (List.cons.inj last).1.symm⟩
        | _ :: _ :: _ =>
            have lengths := congrArg List.length three
            simp at lengths
  · next none1 none2 none3 =>
    simp only [false_iff, reduceCtorEq]
    rintro ⟨-, ⟨one, -⟩ | ⟨front, parts, short⟩⟩
    · exact none1 _ one
    · match front, short with
      | [], _ => exact none2 _ _ parts
      | [_], _ => exact none3 _ _ _ parts

/-! ## Names that are resolved -/

/-- An identifier without dots and double quotes that folding leaves as it is written. -/
structure PlainIdent (fold : String → String) (ident : Ident) : Prop where
  noDot : '.' ∉ ident.value.toList
  noQuote : doubleQuote ∉ ident.value.toList
  folded : normalizeIdent fold ident = ident.value

theorem pieces_plain {ident : Ident} (noDot : '.' ∉ ident.value.toList)
    (noQuote : doubleQuote ∉ ident.value.toList) : pieces ident = [ident.value.toList] := by
  have kept : bare ident = ident.value.toList := by
    rw [bare, List.filter_eq_self]
    rintro c mem
    exact decide_eq_true fun same => noQuote (same ▸ mem)
  rw [pieces, kept]
  exact List.splitOn_eq_singleton noDot

/-- An identifier without quotes has neither dots nor quotes in it. -/
def Written (ident : Ident) : Prop :=
  ident.quoted = false → '.' ∉ ident.value.toList ∧ doubleQuote ∉ ident.value.toList

/-- An identifier whose last piece is what it is resolved to is a plain one. -/
theorem plain_of_pieces {fold : String → String} {ident : Ident} (written : Written ident)
    {front : List (List Char)}
    (last : pieces ident = front ++ [(normalizeIdent fold ident).toList]) :
    PlainIdent fold ident := by
  obtain ⟨noDot, noQuote⟩ := mem_pieces (last ▸ List.mem_append_right _ List.mem_cons_self)
  cases quoted : ident.quoted with
  | true =>
      have is : normalizeIdent fold ident = ident.value := if_pos quoted
      rw [is] at noDot noQuote
      exact ⟨noDot, noQuote, is⟩
  | false =>
      obtain ⟨noDot, noQuote⟩ := written quoted
      rw [pieces_plain noDot noQuote, ← List.nil_append [ident.value.toList]] at last
      obtain ⟨-, same⟩ := List.append_inj' last rfl
      exact ⟨noDot, noQuote, String.toList_inj.mp (List.cons.inj same).1.symm⟩

theorem identifierParts_eq_ok {fold : String → String} {name : ObjectName} {parts : List String}
    (resolved : identifierParts fold name = .ok parts) :
    ∃ idents : List Ident, name = idents.map .identifier ∧
      parts = idents.map (normalizeIdent fold) := by
  rw [identifierParts] at resolved
  generalize name.text = text at resolved
  induction name generalizing parts with
  | nil =>
      cases resolved
      exact ⟨[], rfl, rfl⟩
  | cons part rest ih =>
      rw [List.mapM_cons] at resolved
      cases part with
      | function call => cases resolved
      | identifier ident =>
          simp only [bind, Except.bind] at resolved
          split at resolved
          · cases resolved
          · next others later =>
            obtain ⟨idents, rfl, rfl⟩ := ih later
            simp only [pure, Except.pure, Except.ok.injEq] at resolved
            exact ⟨ident :: idents, rfl, resolved.symm⟩

/-! ## Tables that are served -/

/-- The base table a catalog serves a name from. `metadataTable` are the suffixes after `$` that the
inner provider has a metadata table for. -/
def servedTable (metadataTable : String → Bool) (name : String) : Option String :=
  if '$' ∈ name.toList then
    if metadataTable (String.ofList ((name.toList.dropWhile fun c => c ≠ '$').drop 1)) then
      some (baseName name)
    else none
  else some (baseName name)

/-- The name has the suffix of a metadata table or a snapshot. -/
def isSuffixed (name : String) : Bool :=
  '$' ∈ name.toList || (parseTimeTravel name.toList).isSome

theorem split_of_mem {c : Char} {text : List Char} (mem : c ∈ text) :
    ∃ rest, text.dropWhile (fun d => d ≠ c) = c :: rest := by
  induction text with
  | nil => cases mem
  | cons d text ih =>
      by_cases same : d = c
      · exact ⟨text, by simp [same]⟩
      · obtain rfl | later := List.mem_cons.mp mem
        · exact absurd rfl same
        · simpa [List.dropWhile_cons, same] using ih later

/-- The id of a snapshot has no dots. -/
theorem noDot_of_isSnapshotId {id : List Char} (isId : isSnapshotId id = true) : '.' ∉ id := by
  have digits {text : List Char} (all : text.all Char.isDigit = true) : '.' ∉ text := fun mem =>
    absurd (List.all_eq_true.mp all _ mem) (by decide)
  simp only [isSnapshotId, Bool.and_eq_true] at isId
  have noDot := digits isId.1.2
  split at noDot <;> simpa using noDot

theorem parseTimeTravel_eq_some {name base : List Char}
    (pinned : parseTimeTravel name = some base) :
    ∃ id, name = base ++ '@' :: id ∧ '.' ∉ id := by
  rw [parseTimeTravel] at pinned
  split at pinned
  · cases pinned
  · next at' rest dropped =>
    simp only at pinned
    split at pinned
    · cases pinned
    · split at pinned
      · next isId =>
        rw [Option.some.injEq] at pinned
        have sign : at' = '@' := by
          have first := List.head?_dropWhile_not (fun c => decide (c ≠ '@')) name.reverse
          rw [dropped] at first
          simpa using first
        have whole := List.takeWhile_append_dropWhile (p := fun c => decide (c ≠ '@'))
          (l := name.reverse)
        rw [dropped, sign] at whole
        refine ⟨_, ?_, noDot_of_isSnapshotId isId⟩
        rw [← pinned, ← List.reverse_reverse name]
        conv_lhs => rw [← whole]
        simp
      · cases pinned

/-- A table is served under its own name or under one that a suffix without dots makes longer. -/
theorem servedTable_eq_some {metadataTable : String → Bool}
    (dotless : ∀ suffix, metadataTable suffix = true → '.' ∉ suffix.toList) {name table : String}
    (served : servedTable metadataTable name = some table) :
    (name = table ∧ isSuffixed name = false) ∨
      ∃ mark suffix, name.toList = table.toList ++ mark :: suffix ∧ mark ≠ '.' ∧
        mark ≠ doubleQuote ∧ '.' ∉ suffix := by
  rw [servedTable] at served
  split at served
  · next marked =>
    obtain ⟨rest, after⟩ := split_of_mem marked
    split at served
    · next known =>
      cases served
      refine .inr ⟨'$', rest, ?_, by decide, by decide, ?_⟩
      · have whole := List.takeWhile_append_dropWhile (p := fun c => decide (c ≠ '$'))
          (l := name.toList)
        rw [after] at whole
        rw [baseName, if_pos marked, String.toList_ofList, whole]
      · have noDot := dotless _ known
        rwa [after, String.toList_ofList] at noDot
    · cases served
  · next unmarked =>
    cases served
    rw [baseName, if_neg unmarked]
    cases pinned : parseTimeTravel name.toList with
    | none => exact .inl ⟨rfl, by simp [isSuffixed, unmarked, pinned]⟩
    | some base =>
        obtain ⟨id, is, noDot⟩ := parseTimeTravel_eq_some pinned
        exact .inr ⟨'@', id, by simpa using is, by decide, by decide, noDot⟩

@[simp]
theorem plannerFold_length (text : String) :
    (plannerFold text).toList.length = text.toList.length := by
  change (text.map Char.toLower).toList.length = _
  rw [String.toList_map, List.length_map]

theorem servedTable_of_not_isSuffixed {metadataTable : String → Bool} {name : String}
    (unsuffixed : isSuffixed name = false) : servedTable metadataTable name = some name := by
  simp only [isSuffixed, Bool.or_eq_false_iff, decide_eq_false_iff_not, Option.isSome_eq_false_iff,
    Option.isNone_iff_eq_none] at unsuffixed
  obtain ⟨unmarked, unpinned⟩ := unsuffixed
  rw [servedTable, if_neg unmarked, baseName, if_neg unmarked, unpinned]

/-! ## References -/

/-- The target of an INSERT. -/
def objectNameToIdent (lowercase : String → String) (name : ObjectName) :
    Except String (String × String) := do
  splitName (← identifierParts lowercase name)

/-- Where a statement names a table: for the planner, or as the target of a write that the server
executes itself. -/
inductive Reference (Value : Type) where
  | planned (name : ObjectName)
  | insertTarget (name : ObjectName)
  | dmlTarget (tables : TableWithJoins Value)

namespace Reference

def name : Reference Value → ObjectName
  | planned name => name
  | insertTarget name => name
  | dmlTarget tables =>
      match tables.relation with
      | .table name _ _ => name
      | _ => []

def fold (lowercase : String → String) : Reference Value → String → String
  | planned _ => plannerFold
  | insertTarget _ => lowercase
  | dmlTarget _ => lowercase

/-- The planner looks the table up in the catalog, which serves metadata tables and snapshots. -/
def served (metadataTable : String → Bool) : Reference Value → String → Option String
  | planned _ => servedTable metadataTable
  | insertTarget _ => some
  | dmlTarget _ => some

/-- The table that is read or written. -/
def resolved (lowercase : String → String) (metadataTable : String → Bool) :
    Reference Value → Option TableRef
  | planned name =>
      match identifierParts plannerFold name >>= splitName with
      | .ok (schema, table) => (servedTable metadataTable table).map fun table => ⟨schema, table⟩
      | .error _ => none
  | insertTarget name =>
      match objectNameToIdent lowercase name with
      | .ok (schema, table) => some ⟨schema, table⟩
      | .error _ => none
  | dmlTarget tables =>
      match plainTable lowercase tables with
      | .ok target => some ⟨target.schema, target.table⟩
      | .error _ => none

/-- The table that is checked. -/
def checked : Reference Value → Option TableRef
  | planned name => objectNameToRef name.text defaultSchema
  | insertTarget name => objectNameToRef name.text defaultSchema
  | dmlTarget tables =>
      match tables.relation with
      | .table name _ _ => objectNameToRef name.text defaultSchema
      | _ => none

/-- The schema and the table are plain identifiers, and the table has no suffix for the planner. A
catalog before them may be written in any way. -/
structure WrittenOut (lowercase : String → String) (reference : Reference Value) : Prop where
  plain : ∀ ident, .identifier ident ∈ reference.name.drop (reference.name.length - 2) →
    PlainIdent (reference.fold lowercase) ident
  table : ∀ ident, reference.name.getLast? = some (.identifier ident) → ident.value ≠ ""
  unsuffixed : ∀ ident, reference.name.getLast? = some (.identifier ident) →
    ∀ name, reference = planned name → isSuffixed ident.value = false

theorem plainTable_eq_ok {lowercase : String → String} {tables : TableWithJoins Value}
    {target : Target} (plain : plainTable lowercase tables = .ok target) :
    ∃ name tableAlias args, tables.relation = .table name tableAlias args ∧
      (identifierParts lowercase name >>= splitName) = .ok (target.schema, target.table) := by
  rw [plainTable] at plain
  split at plain
  · cases plain
  · split at plain
    · next name tableAlias args relation =>
      refine ⟨name, tableAlias, args, relation, ?_⟩
      cases parsed : identifierParts lowercase name >>= splitName with
      | error message =>
          rw [← bind_assoc, parsed] at plain
          cases plain
      | ok names =>
          rw [← bind_assoc, parsed] at plain
          simp only [bind, Except.bind] at plain
          split at plain
          · cases plain
            rfl
          · split at plain
            · cases plain
            · cases plain
              rfl
    · cases plain

/-- Every way of naming a table resolves the identifiers and takes the table as it is served. -/
theorem resolved_eq_some {lowercase : String → String} {metadataTable : String → Bool}
    {reference : Reference Value} {target : TableRef}
    (is : reference.resolved lowercase metadataTable = some target) :
    ∃ table, (identifierParts (reference.fold lowercase) reference.name >>= splitName) =
        .ok (target.schema, table) ∧
      reference.served metadataTable table = some target.table := by
  cases reference with
  | planned name =>
      rw [resolved] at is
      split at is
      · next schema table parts =>
        rw [Option.map_eq_some_iff] at is
        obtain ⟨base, served, rfl⟩ := is
        exact ⟨table, parts, served⟩
      · cases is
  | insertTarget name =>
      rw [resolved] at is
      split at is
      · next schema table parts =>
        cases is
        exact ⟨table, parts, rfl⟩
      · cases is
  | dmlTarget tables =>
      rw [resolved] at is
      split at is
      · next found plain =>
        cases is
        obtain ⟨name, tableAlias, args, relation, parts⟩ := plainTable_eq_ok plain
        refine ⟨found.table, ?_, rfl⟩
        rwa [fold, Reference.name, relation]
      · cases is

theorem checked_eq {reference : Reference Value} {idents : List Ident}
    (named : reference.name = idents.map .identifier) (some' : idents ≠ []) :
    reference.checked =
      objectNameToRef (ObjectName.text (idents.map .identifier)) defaultSchema := by
  cases reference with
  | planned name => rw [checked, ← named, Reference.name]
  | insertTarget name => rw [checked, ← named, Reference.name]
  | dmlTarget tables =>
      rw [← named, checked, Reference.name]
      rw [Reference.name] at named
      split
      · rfl
      · next other =>
        split at named
        · next is => exact absurd is (other _ _ _)
        · exact absurd (List.map_eq_nil_iff.mp named.symm) some'

/-- A table that is found in the last piece of its identifier is written plainly. -/
theorem plain_of_served {lowercase : String → String} {metadataTable : String → Bool}
    (dotless : ∀ suffix, metadataTable suffix = true → '.' ∉ suffix.toList)
    {reference : Reference Value} {ident : Ident} (written : Written ident) {table : String}
    (served : reference.served metadataTable (normalizeIdent (reference.fold lowercase) ident) =
      some table)
    {front : List (List Char)} (last : pieces ident = front ++ [table.toList]) :
    PlainIdent (reference.fold lowercase) ident ∧ ident.value = table ∧
      ∀ name, reference = planned name → isSuffixed ident.value = false := by
  have same (is : normalizeIdent (reference.fold lowercase) ident = table) :
      PlainIdent (reference.fold lowercase) ident ∧ ident.value = table := by
    have plain : PlainIdent (reference.fold lowercase) ident :=
      plain_of_pieces written (by rw [is, last])
    exact ⟨plain, plain.folded.symm.trans is⟩
  cases reference with
  | insertTarget name =>
      obtain ⟨plain, value⟩ := same (Option.some.inj served)
      exact ⟨plain, value, by rintro _ ⟨⟩⟩
  | dmlTarget tables =>
      obtain ⟨plain, value⟩ := same (Option.some.inj served)
      exact ⟨plain, value, by rintro _ ⟨⟩⟩
  | planned name =>
      obtain ⟨is, unsuffixed⟩ | ⟨mark, suffix, is, noDot, noQuote, apart⟩ :=
        servedTable_eq_some dotless served
      · obtain ⟨plain, value⟩ := same is
        refine ⟨plain, value, fun _ _ => ?_⟩
        rwa [plain.folded] at unsuffixed
      · exfalso
        obtain ⟨tableNoDot, tableNoQuote⟩ :=
          mem_pieces (last ▸ List.mem_append_right _ List.mem_cons_self)
        cases quoted : ident.quoted with
        | true =>
            have value : normalizeIdent (fold lowercase (planned name : Reference Value)) ident =
                ident.value := if_pos quoted
            rw [value] at is
            have kept : (table.toList.filter fun c => c ≠ doubleQuote) = table.toList := by
              rw [List.filter_eq_self]
              exact fun c mem => decide_eq_true fun same => tableNoQuote (same ▸ mem)
            have letters : bare ident =
                table.toList ++ mark :: suffix.filter fun c => c ≠ doubleQuote := by
              rw [bare, is, List.filter_append, kept,
                List.filter_cons_of_pos (by simpa using noQuote)]
            have longer : '.' ∉ mark :: suffix.filter fun c => c ≠ doubleQuote := by
              rintro (_ | ⟨_, mem⟩)
              · exact noDot rfl
              · exact apart (List.mem_of_mem_filter mem)
            obtain ⟨others, piece, alone, whole⟩ := splitOn_append table.toList _ longer
            rw [List.splitOn_eq_singleton tableNoDot, ← List.nil_append [table.toList]] at alone
            obtain ⟨rfl, ⟨⟩⟩ := List.append_inj' alone rfl
            rw [pieces, letters, whole] at last
            obtain ⟨-, longer⟩ := List.append_inj' last rfl
            have lengths := congrArg List.length (List.cons.inj longer).1
            simp at lengths
        | false =>
            obtain ⟨valueNoDot, valueNoQuote⟩ := written quoted
            rw [pieces_plain valueNoDot valueNoQuote] at last
            rw [← List.nil_append [ident.value.toList]] at last
            obtain ⟨-, value⟩ := List.append_inj' last rfl
            have folded : normalizeIdent (fold lowercase (planned name : Reference Value)) ident =
                plannerFold ident.value := if_neg (by simp [quoted])
            rw [folded] at is
            have lengths := congrArg List.length is
            rw [plannerFold_length, (List.cons.inj value).1] at lengths
            simp at lengths

theorem served_of_plain {lowercase : String → String} {metadataTable : String → Bool}
    {reference : Reference Value} {ident : Ident}
    (plain : PlainIdent (reference.fold lowercase) ident)
    (unsuffixed : ∀ name, reference = planned name → isSuffixed ident.value = false)
    {table : String}
    (served : reference.served metadataTable (normalizeIdent (reference.fold lowercase) ident) =
      some table) :
    ident.value = table := by
  rw [plain.folded] at served
  cases reference with
  | planned name =>
      rw [Reference.served, servedTable_of_not_isSuffixed (unsuffixed name rfl)] at served
      exact Option.some.inj served
  | insertTarget name => exact Option.some.inj served
  | dmlTarget tables => exact Option.some.inj served

theorem back_of_append {Item : Type} {front back whole : List Item} {item : Item}
    (is : front ++ back = whole ++ [item]) (some' : back ≠ []) :
    ∃ others, back = others ++ [item] ∧ front ++ others = whole := by
  obtain ⟨others, last, rfl⟩ := (List.eq_nil_or_concat back).resolve_left some'
  rw [List.concat_eq_append, ← List.append_assoc] at is
  obtain ⟨same, ⟨⟩⟩ := List.append_inj' is rfl
  exact ⟨others, List.concat_eq_append, same⟩

/-- The pieces of a name that is resolved to a target. -/
theorem pieces_of_checked {idents : List Ident} (some' : idents ≠ []) {target : TableRef} :
    objectNameToRef (ObjectName.text (idents.map .identifier)) defaultSchema = some target ↔
      target.table ≠ "" ∧
        ((idents.flatMap pieces = [target.table.toList] ∧ target.schema = defaultSchema) ∨
          ∃ front, idents.flatMap pieces = front ++ [target.schema.toList, target.table.toList] ∧
            front.length ≤ 1) := by
  have back (texts : List (List Char)) : (texts.map String.ofList).map String.toList = texts := by
    simp
  have there (names : List String) : (names.map String.toList).map String.ofList = names := by
    simp
  rw [objectNameToRef_eq_some, nameParts_eq some']
  refine and_congr_right fun _ => or_congr (and_congr_left fun _ => ?_) ?_
  · constructor
    · intro is
      rw [← back (idents.flatMap pieces), is]
      rfl
    · intro is
      rw [is]
      simp
  · constructor
    · rintro ⟨front, is, short⟩
      refine ⟨front.map String.toList, ?_, by simpa using short⟩
      rw [← back (idents.flatMap pieces), is]
      simp
    · rintro ⟨front, is, short⟩
      refine ⟨front.map String.ofList, ?_, by simpa using short⟩
      rw [is]
      simp

theorem writtenOut_iff {lowercase : String → String} {reference : Reference Value}
    {idents : List Ident} (named : reference.name = idents.map .identifier) :
    reference.WrittenOut lowercase ↔
      (∀ ident ∈ idents.drop (idents.length - 2), PlainIdent (reference.fold lowercase) ident) ∧
        ∀ ident ∈ idents.getLast?, ident.value ≠ "" ∧
          ∀ name, reference = planned name → isSuffixed ident.value = false := by
  have part (ident : Ident) : .identifier ident ∈ reference.name.drop (reference.name.length - 2) ↔
      ident ∈ idents.drop (idents.length - 2) := by
    rw [named, List.length_map, ← List.map_drop, List.mem_map]
    simp
  have last (ident : Ident) : reference.name.getLast? = some (.identifier ident) ↔
      ident ∈ idents.getLast? := by
    rw [named, List.getLast?_map, Option.map_eq_some_iff]
    simp
  constructor
  · rintro ⟨plain, table, unsuffixed⟩
    refine ⟨fun ident mem => plain ident ((part ident).mpr mem), fun ident mem => ?_⟩
    exact ⟨table ident ((last ident).mpr mem), unsuffixed ident ((last ident).mpr mem)⟩
  · rintro ⟨plain, table⟩
    exact ⟨fun ident mem => plain ident ((part ident).mp mem),
      fun ident mem => (table ident ((last ident).mp mem)).1,
      fun ident mem => (table ident ((last ident).mp mem)).2⟩

theorem checked_qualified {lowercase : String → String} {metadataTable : String → Bool}
    (dotless : ∀ suffix, metadataTable suffix = true → '.' ∉ suffix.toList)
    {reference : Reference Value} {front : List Ident} {schema last : Ident}
    (single : (front.flatMap pieces).length ≤ 1) (schemaWritten : Written schema)
    (lastWritten : Written last) {target : TableRef}
    (schemaIs : normalizeIdent (reference.fold lowercase) schema = target.schema)
    (served : reference.served metadataTable (normalizeIdent (reference.fold lowercase) last) =
      some target.table) :
    objectNameToRef (ObjectName.text ((front ++ [schema, last]).map .identifier)) defaultSchema =
        some target ↔
      (PlainIdent (reference.fold lowercase) schema ∧ PlainIdent (reference.fold lowercase) last) ∧
        last.value ≠ "" ∧ ∀ name, reference = planned name → isSuffixed last.value = false := by
  rw [pieces_of_checked (by simp), List.flatMap_append, List.flatMap_cons, List.flatMap_cons,
    List.flatMap_nil, List.append_nil]
  constructor
  · rintro ⟨some', found⟩
    have ⟨whole, two⟩ : ∃ whole, front.flatMap pieces ++ (pieces schema ++ pieces last) =
        (whole ++ [target.schema.toList]) ++ [target.table.toList] := by
      obtain ⟨one, -⟩ | ⟨whole, two, -⟩ := found
      · have lengths := congrArg List.length one
        have schemaSome := List.length_pos_iff.mpr (pieces_ne_nil schema)
        have lastSome := List.length_pos_iff.mpr (pieces_ne_nil last)
        simp only [List.length_append, List.length_singleton] at lengths
        omega
      · exact ⟨whole, by rw [two, List.append_assoc, List.singleton_append]⟩
    rw [← List.append_assoc] at two
    obtain ⟨others, lastPieces, before⟩ := back_of_append two (pieces_ne_nil last)
    obtain ⟨plain, value, unsuffixed⟩ := plain_of_served dotless lastWritten served lastPieces
    rw [pieces_plain plain.noDot plain.noQuote, ← List.nil_append [last.value.toList]] at lastPieces
    obtain ⟨rfl, -⟩ := List.append_inj' lastPieces rfl
    rw [List.append_nil] at before
    obtain ⟨others, schemaPieces, -⟩ := back_of_append before (pieces_ne_nil schema)
    rw [← schemaIs] at schemaPieces
    exact ⟨⟨plain_of_pieces schemaWritten schemaPieces, plain⟩, value ▸ some', unsuffixed⟩
  · rintro ⟨⟨schemaPlain, plain⟩, some', unsuffixed⟩
    have value := served_of_plain plain unsuffixed served
    rw [pieces_plain plain.noDot plain.noQuote, value,
      pieces_plain schemaPlain.noDot schemaPlain.noQuote, ← schemaPlain.folded, schemaIs]
    exact ⟨value ▸ some', .inr ⟨_, rfl, single⟩⟩

/-- A catalog that is served has a single piece, in whatever way it is written. -/
theorem pieces_catalog {fold : String → String} {ident : Ident} (written : Written ident)
    (is : normalizeIdent fold ident = catalogName) : (pieces ident).length = 1 := by
  cases quoted : ident.quoted with
  | true =>
      have value : ident.value = catalogName := (if_pos quoted).symm.trans is
      rw [pieces_plain (by rw [value]; decide) (by rw [value]; decide)]
      rfl
  | false =>
      obtain ⟨noDot, noQuote⟩ := written quoted
      rw [pieces_plain noDot noQuote]
      rfl

/-- The suffixes of the metadata tables. -/
def metadataTables (suffix : String) : Bool :=
  suffix ∈ ["snapshots", "manifests"]

end Reference

end Icegres.Authz
