import Icegres.Authz.Names

/-!
# Completeness of the required checks

A statement of a checked form requires a check for every table it reads or writes, wherever in it
the table is named, as long as the written names are read the way the engine resolves them. The
other forms require no check, also when they execute a query.
-/

namespace Icegres.Authz

open Icegres.Sql

variable {Value : Type}

/-! ## Names that are read alike -/

/-- The name stands for the same table in a check and in the engine. -/
def NamedAccess.ReadAlike (access : NamedAccess) : Prop :=
  ∀ target, access.table = some target →
    objectNameToRef access.name.text defaultSchema = some target ∧
      isSystemSchema target.schema = false

/-- A name of plain identifiers falls into their values. -/
theorem nameParts_text {fold : String → String} {idents : List Ident} (some' : idents ≠ [])
    (plain : ∀ ident ∈ idents, PlainIdent fold ident) :
    nameParts (ObjectName.text (idents.map .identifier)) = idents.map Ident.value := by
  have single : idents.flatMap pieces = idents.map fun ident => ident.value.toList := by
    rw [List.map_eq_flatMap]
    exact List.flatMap_congr fun ident mem =>
      pieces_plain (plain ident mem).noDot (plain ident mem).noQuote
  rw [nameParts_eq some', single, List.map_map]
  exact List.map_congr_left fun ident _ => String.ofList_toList

theorem identifierParts_plain {fold : String → String} {idents : List Ident}
    (plain : ∀ ident ∈ idents, PlainIdent fold ident) :
    identifierParts fold (idents.map .identifier) = .ok (idents.map Ident.value) := by
  rw [identifierParts]
  generalize ObjectName.text (idents.map .identifier) = text
  induction idents with
  | nil => rfl
  | cons ident rest ih =>
      rw [List.map_cons, List.mapM_cons, ih fun ident mem => plain ident (List.mem_cons_of_mem _ mem)]
      simp only [bind, Except.bind, pure, Except.pure, (plain ident List.mem_cons_self).folded,
        List.map_cons]

/-- A name in lower case, without dots and quotes inside a part and without the suffix of a
snapshot or a metadata table. -/
structure PlainName (fold : String → String) (idents : List Ident) : Prop where
  parts : ∀ ident ∈ idents, PlainIdent fold ident
  base : ∀ ident ∈ idents.getLast?, ident.value ≠ "" ∧ baseName ident.value = ident.value
  system : ∀ ident ∈ idents.dropLast, isSystemSchema ident.value = true →
    ident.value ∈ metadataSchemas

theorem isSystemSchema_defaultSchema : isSystemSchema defaultSchema = false := by
  decide +kernel

/-- A plain name stands for its own table, in a check too. -/
theorem tableOf_plain {fold : String → String} {idents : List Ident} (plain : PlainName fold idents)
    {target : TableRef} (resolved : tableOf fold (idents.map .identifier) = some target) :
    objectNameToRef (ObjectName.text (idents.map .identifier)) defaultSchema = some target ∧
      isSystemSchema target.schema = false ∧ target.base = target := by
  rw [tableOf, identifierParts_plain plain.parts] at resolved
  rw [objectNameToRef]
  -- The schema is not one of the server's own, whichever case it is written in.
  have userSchema {ident : Ident} (mem : ident ∈ idents.dropLast)
      (user : ident.value ∉ metadataSchemas) : isSystemSchema ident.value = false := by
    by_contra system
    rw [Bool.not_eq_false] at system
    exact user (plain.system ident mem system)
  rcases idents with _ | ⟨first, _ | ⟨second, _ | ⟨third, _ | ⟨_, _⟩⟩⟩⟩
  · cases resolved
  · -- the table alone
    obtain ⟨some', base⟩ := plain.base first rfl
    rw [nameParts_text (List.cons_ne_nil _ _) plain.parts]
    simp only [List.map_cons, List.map_nil, bind, Except.bind, splitName] at resolved ⊢
    split at resolved
    · cases resolved
    · cases resolved
      exact ⟨if_neg some', isSystemSchema_defaultSchema, by rw [TableRef.base, base]⟩
  · -- with its schema
    obtain ⟨some', base⟩ := plain.base second rfl
    rw [nameParts_text (List.cons_ne_nil _ _) plain.parts]
    simp only [List.map_cons, List.map_nil, bind, Except.bind, splitName] at resolved ⊢
    split at resolved
    · cases resolved
    · next user =>
      cases resolved
      exact ⟨if_neg some', userSchema List.mem_cons_self user, by rw [TableRef.base, base]⟩
  · -- with its schema and the catalog
    obtain ⟨some', base⟩ := plain.base third rfl
    rw [nameParts_text (List.cons_ne_nil _ _) plain.parts]
    simp only [List.map_cons, List.map_nil, bind, Except.bind, splitName] at resolved ⊢
    by_cases served : first.value = catalogName
    · simp only [served, if_true] at resolved
      split at resolved
      · cases resolved
      · next user =>
        cases resolved
        exact ⟨if_neg some', userSchema (List.mem_cons_of_mem _ List.mem_cons_self) user,
          by rw [TableRef.base, base]⟩
    · simp only [served, if_false] at resolved
      cases resolved
  · cases resolved

/-- The names that are read alike are in particular the plain ones. -/
theorem readAlike_of_plain {access : NamedAccess} {idents : List Ident}
    (named : access.name = idents.map .identifier) (plain : PlainName access.fold idents) :
    access.ReadAlike := by
  intro target resolved
  rw [NamedAccess.table, named, Option.map_eq_some_iff] at resolved
  obtain ⟨own, found, is⟩ := resolved
  obtain ⟨read, user, base⟩ := tableOf_plain plain found
  rw [base, ite_self] at is
  rw [← is, named]
  exact ⟨read, user⟩

/-! ## Decisions -/

theorem Relation.implies_trans {held needed other : Relation} (first : held.implies needed = true)
    (second : needed.implies other = true) : held.implies other = true := by
  revert first second
  cases held <;> cases needed <;> cases other <;> decide

/-- A grant that allows an action allows every weaker one. -/
theorem check_weaken {authorizer : FileAuthorizer} {principal : String} {action weaker : Action}
    {target : TableRef} (allowed : authorizer.check principal action target = .allow)
    (implied : action.required.implies weaker.required = true) :
    authorizer.check principal weaker target = .allow := by
  rw [FileAuthorizer.check] at allowed ⊢
  split at allowed
  · next held =>
    apply if_pos
    rw [List.any_eq_true] at held ⊢
    obtain ⟨name, mem, held⟩ := held
    refine ⟨name, mem, ?_⟩
    rw [List.any_eq_true] at held ⊢
    obtain ⟨grant, granted, holds⟩ := held
    rw [Bool.and_eq_true] at holds
    refine ⟨grant, granted, ?_⟩
    rw [Bool.and_eq_true]
    exact ⟨Relation.implies_trans holds.1 implied, holds.2⟩
  · cases allowed

/-- An allowed statement passes each of its checks. -/
theorem check_of_authorizeSql {authorizer : FileAuthorizer} {principal : String}
    {stmt : Statement Value} (allowed : authorizeSql authorizer principal stmt defaultSchema = .allow)
    {check : Action × TableRef} (mem : check ∈ requiredChecks stmt defaultSchema) :
    authorizer.check principal check.1 check.2 = .allow := by
  rw [authorizeSql] at allowed
  cases denied : ((requiredChecks stmt defaultSchema).map fun check =>
      authorizer.check principal check.1 check.2).find? (fun decision => decision ≠ .allow) with
  | none =>
      rw [List.find?_eq_none] at denied
      simpa using denied _ (List.mem_map_of_mem mem)
  | some decision =>
      rw [denied] at allowed
      have refused := List.find?_some denied
      rw [Option.getD_some] at allowed
      rw [allowed] at refused
      cases refused

/-- Where the checks cover the accesses, a principal that is allowed the statement is allowed each
access. -/
theorem Covered.allows {lowercase : String → String} {server : Server Value}
    {stmt : Statement Value} (covered : Covered lowercase server stmt)
    {authorizer : FileAuthorizer} {principal : String}
    (allowed : authorizeSql authorizer principal stmt defaultSchema = .allow) :
    ∀ access ∈ accesses lowercase server stmt,
      authorizer.check principal access.1 access.2 = .allow := by
  rintro access mem
  obtain ⟨check, required, same, implied⟩ := covered access mem
  rw [← same]
  exact check_weaken (check_of_authorizeSql allowed required) implied

/-! ## Checked forms -/

/-- The statement is of a form that checks are collected from. -/
def isChecked : Statement Value → Bool
  | .query _ => true
  | .insert _ _ => true
  | .update _ => true
  | .delete _ => true
  | .copy _ _ => true
  | .drop _ => true
  | _ => false

/-- The check a name of an access asks for, when the name is read alike. -/
def NamedAccess.checks (access : NamedAccess) : List (Action × TableRef) :=
  nameChecks defaultSchema access.action access.name

theorem queryAccesses_checks {query : Query Value} {access : NamedAccess}
    (mem : access ∈ queryAccesses query) :
    ∀ check ∈ access.checks, check ∈ collectQueryReads defaultSchema query := by
  rintro check required
  obtain ⟨name, scanned, rfl⟩ := List.mem_map.mp mem
  exact List.mem_flatMap.mpr ⟨name, queryReads_subset [] query name scanned, required⟩

theorem targetAccess_checks {lowercase : String → String} {factor : TableFactor Value}
    {access : NamedAccess} (mem : access ∈ targetAccess lowercase factor) :
    ∀ check ∈ access.checks, check ∈ factorChecks defaultSchema .writeData factor := by
  cases factor with
  | table name tableAlias args =>
      rw [List.mem_singleton.mp mem]
      exact fun check required => required
  | _ => cases mem

/-- Each name a checked form accesses is checked. -/
theorem namedAccesses_checks {lowercase : String → String}
    {server : Server Value} {stmt : Statement Value}
    (checked : isChecked stmt = true) {access : NamedAccess}
    (mem : access ∈ namedAccesses lowercase server stmt) :
    ∀ check ∈ access.checks, check ∈ statementChecks defaultSchema stmt := by
  rintro check required
  cases stmt with
  | query query => exact queryAccesses_checks mem check required
  | insert table source =>
      simp only [statementChecks, List.mem_append]
      obtain target | inSource := List.mem_cons.mp mem
      · rw [target] at required
        exact .inl required
      · cases source with
        | none => cases inSource
        | some query => exact .inr (queryAccesses_checks inSource check required)
  | update update =>
      rw [namedAccesses] at mem
      split at mem
      · exact targetAccess_checks mem check required
      · cases mem
  | delete delete =>
      rw [namedAccesses] at mem
      split at mem
      · obtain ⟨tables, listed, target⟩ := List.mem_flatMap.mp mem
        simp only [statementChecks, List.mem_append]
        exact .inr (List.mem_flatMap.mpr ⟨tables, listed, targetAccess_checks target check required⟩)
      · cases mem
  | copy source toTarget =>
      cases source with
      | table name =>
          rw [List.mem_singleton.mp mem] at required
          exact required
      | query query => exact queryAccesses_checks mem check required
  | drop names =>
      obtain ⟨name, dropped, rfl⟩ := List.mem_map.mp mem
      exact List.mem_flatMap.mpr ⟨name, dropped, required⟩
  | _ => cases checked

/-- The other forms require no check. -/
theorem requiredChecks_of_unchecked {stmt : Statement Value} (unchecked : isChecked stmt = false)
    (schema : String) : requiredChecks stmt schema = [] := by
  cases stmt <;> first | rfl | cases unchecked

/-- Where the names are read alike, the checks cover the accesses exactly when the statement is
of a checked form or accesses no table. -/
theorem covered_iff {lowercase : String → String} {server : Server Value}
    {stmt : Statement Value}
    (alike : ∀ access ∈ namedAccesses lowercase server stmt, access.ReadAlike) :
    Covered lowercase server stmt ↔
      isChecked stmt = true ∨ accesses lowercase server stmt = [] := by
  constructor
  · intro covered
    cases checked : isChecked stmt with
    | true => exact .inl rfl
    | false =>
        right
        rw [List.eq_nil_iff_forall_not_mem]
        rintro access mem
        obtain ⟨check, required, _⟩ := covered access mem
        rw [requiredChecks_of_unchecked checked] at required
        cases required
  · rintro (checked | none)
    · rintro ⟨action, target⟩ mem
      obtain ⟨access, named, is⟩ := List.mem_filterMap.mp mem
      rw [NamedAccess.target, Option.map_eq_some_iff] at is
      obtain ⟨_, resolved, ⟨⟩⟩ := is
      obtain ⟨read, user⟩ := alike access named target resolved
      have required : (access.action, target) ∈ access.checks := by
        rw [NamedAccess.checks, nameChecks, read]
        exact List.mem_cons_self
      have stated := namedAccesses_checks checked named _ required
      refine ⟨(access.action, target), List.mem_filter.mpr ⟨stated, by rw [user]; rfl⟩, rfl, ?_⟩
      cases access.action <;> rfl
    · rintro access mem
      rw [none] at mem
      cases mem

def unquoted (names : List String) : ObjectName :=
  names.map fun name => .identifier ⟨name, false⟩

/-- `SELECT … FROM …` one table -/
def selectFrom (name : ObjectName) : Query Nat :=
  .mk [] (.select [.mk (.table name none []) [] []] []) []

/-- `INSERT INTO cities SELECT … FROM demo.trips` writes one table and reads the other. -/
def insertSelect : Statement Nat :=
  .insert (unquoted ["cities"]) (some (selectFrom (unquoted ["demo", "trips"])))

/-- A server with the table `demo.trips`. -/
def tripsServer : Server Nat where
  prepared _ := none
  hasTable name := name = unquoted ["demo", "trips"]

/-- `CREATE OR REPLACE TABLE demo.trips AS SELECT …` -/
def replaceTrips : Statement Nat :=
  .createTable (unquoted ["demo", "trips"]) true false (some (.mk [] (.select [] []) []))

end Icegres.Authz
