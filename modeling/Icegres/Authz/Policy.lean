import Icegres.Authz.Checks
import Icegres.Whitespace
import Icegres.Worklist

/-!
# The policy file

A policy is a text of lines: a principal is a member of a role, or holds a relation on an entity.
The grants of a principal are those of every role it is a member of, directly or through other
roles, and memberships may form cycles.
-/

namespace Icegres.Authz

open Icegres.Worklist (Edge search successors)

/-! ## Tokens -/

def Relation.parse (text : String) : Except String Relation :=
  let lower := text.toLower
  if lower ∈ ["own", "ownership"] then .ok .own
  else if lower ∈ ["write", "canwritedata", "modify"] then .ok .write
  else if lower ∈ ["read", "canreaddata", "select"] then .ok .read
  else if lower ∈ ["drop", "candrop"] then .ok .drop
  else .error s!"unknown relation '{lower}' (expected own|write|read|drop)"

/-- Every token names an entity. -/
def Entity.parse (token : String) : Entity :=
  if token = "*" ∨ token.toLower = "warehouse" then
    .warehouse
  else
    let schema := token.toList.takeWhile fun c => c ≠ '.'
    match token.toList.dropWhile fun c => c ≠ '.' with
    | _ :: name =>
      if schema ≠ [] ∧ name ≠ [] then .table (String.ofList schema) (String.ofList name)
      else .namespaceOf token
    | [] => .namespaceOf token

/-! ## Lines -/

/-- The lines of a text, without their ends. A carriage return belongs to the line feed behind
it. -/
def textLines (text : List Char) : List (List Char) :=
  let pieces := text.splitOn '\n'
  let ended := pieces.dropLast.map fun line =>
    if line.getLast? = some '\r' then line.dropLast else line
  ended ++ (pieces.getLast?.filter fun line => line ≠ []).toList

inductive PolicyLine where
  /-- A comment, a blank line, or the declaration of a role. -/
  | nothing
  | member (user role : String)
  | grant (principal : String) (relation : Relation) (entity : Entity)
  deriving DecidableEq

inductive LineError where
  | relation (why : String)
  | form (line : String)
  deriving DecidableEq

/-- The messages, the outermost first. -/
def LineError.chain (lineno : Nat) : LineError → List String
  | .relation why => [s!"authz file line {lineno}", why]
  | .form line =>
    [s!"authz file line {lineno}: expected 'role <name>' | 'member <user> <role>' | 'grant <principal> <relation> <entity>', got: {line}"]

def parseLine (raw : List Char) : Except LineError PolicyLine :=
  let line := trim (raw.takeWhile fun c => c ≠ '#')
  if line = [] then
    .ok .nothing
  else
    match (splitWhitespace line).map String.ofList with
    | ["role", _] => .ok .nothing
    | ["member", user, role] => .ok (.member user role)
    | ["grant", principal, relation, entity] =>
      match Relation.parse relation with
      | .error why => .error (.relation why)
      | .ok relation => .ok (.grant principal relation (Entity.parse entity))
    | _ => .error (.form (String.ofList line))

/-! ## Policies -/

section Entries

variable {Item : Type} [DecidableEq Item]

/-- Put a value into the set of a key. -/
def addTo (key : String) (value : Item) : List (String × List Item) → List (String × List Item)
  | [] => [(key, [value])]
  | (other, values) :: rest =>
    if other = key then
      (other, if value ∈ values then values else values ++ [value]) :: rest
    else
      (other, values) :: addTo key value rest

def valuesAt (entries : List (String × List Item)) (key : String) : List Item :=
  (entries.lookup key).getD []

end Entries

/-- What the lines of a policy say. -/
structure Policy where
  grants : List (String × List (Relation × Entity))
  members : List (String × List String)

def Policy.add (policy : Policy) : PolicyLine → Policy
  | .nothing => policy
  | .member user role => { policy with members := addTo user role policy.members }
  | .grant principal relation entity =>
    { policy with grants := addTo principal (relation, entity) policy.grants }

/-- Read the lines from this number on. -/
def readLines (lineno : Nat) (policy : Policy) : List (List Char) → Except (List String) Policy
  | [] => .ok policy
  | raw :: rest =>
    match parseLine raw with
    | .error why => .error (why.chain (lineno + 1))
    | .ok line => readLines (lineno + 1) (policy.add line) rest

/-- The roles of a user, with the roles of its roles. -/
def rolesOf (direct : List (String × List String)) (user : String) : List String :=
  search direct [] (successors direct user).reverse

def flattenMemberships (direct : List (String × List String)) : List (String × List String) :=
  direct.map fun entry => (entry.1, rolesOf direct entry.1)

def FileAuthorizer.parse (text : String) : Except (List String) FileAuthorizer :=
  (readLines 0 ⟨[], []⟩ (textLines text.toList)).map fun policy =>
    ⟨valuesAt policy.grants, valuesAt (flattenMemberships policy.members)⟩

/-! ## What a policy says -/

/-- Some line makes the user a member of the role. -/
def Member (text : String) (user role : String) : Prop :=
  ∃ raw ∈ textLines text.toList, parseLine raw = .ok (.member user role)

/-- Some line grants the principal the relation on the entity. -/
def Granted (text : String) (principal : String) (relation : Relation) (entity : Entity) : Prop :=
  ∃ raw ∈ textLines text.toList, parseLine raw = .ok (.grant principal relation entity)

section Entries

variable {Item : Type} [DecidableEq Item]

theorem mem_valuesAt_addTo (entries : List (String × List Item)) (key other : String)
    (value item : Item) :
    item ∈ valuesAt (addTo key value entries) other ↔
      item ∈ valuesAt entries other ∨ other = key ∧ item = value := by
  unfold valuesAt
  induction entries with
  | nil =>
      by_cases same : other = key
      · simp [addTo, same]
      · simp [addTo, List.lookup_cons, beq_false_of_ne same, same]
  | cons entry rest ih =>
      obtain ⟨first, values⟩ := entry
      rw [addTo]
      by_cases own : first = key
      · subst own
        rw [if_pos rfl]
        by_cases same : other = first
        · subst same
          rw [List.lookup_cons_self, List.lookup_cons_self]
          split
          · next mem => simpa using fun isValue : item = value => isValue ▸ mem
          · simp
        · simp [List.lookup_cons, beq_false_of_ne same, same]
      · rw [if_neg own]
        by_cases same : other = first
        · subst same
          simp [own]
        · simpa [List.lookup_cons, beq_false_of_ne same] using ih

end Entries

/-- A policy that is read has what the lines add. -/
theorem readLines_spec {lineno : Nat} {policy after : Policy} {lines : List (List Char)}
    (reads : readLines lineno policy lines = .ok after) :
    (∀ user role, role ∈ valuesAt after.members user ↔ role ∈ valuesAt policy.members user ∨
      ∃ raw ∈ lines, parseLine raw = .ok (.member user role)) ∧
    ∀ principal relation entity, (relation, entity) ∈ valuesAt after.grants principal ↔
      (relation, entity) ∈ valuesAt policy.grants principal ∨
        ∃ raw ∈ lines, parseLine raw = .ok (.grant principal relation entity) := by
  induction lines generalizing lineno policy with
  | nil =>
      cases reads
      simp
  | cons raw rest ih =>
      rw [readLines] at reads
      cases parsed : parseLine raw with
      | error why =>
          rw [parsed] at reads
          cases reads
      | ok line =>
          rw [parsed] at reads
          obtain ⟨members, grants⟩ := ih reads
          cases line with
          | nothing => simpa [Policy.add, parsed] using ⟨members, grants⟩
          | member owner added =>
              refine ⟨fun user role => ?_, fun principal relation entity => ?_⟩
              · rw [members, Policy.add, mem_valuesAt_addTo]
                simp only [List.exists_mem_cons_iff, parsed, Except.ok.injEq,
                  PolicyLine.member.injEq, or_assoc, @eq_comm _ user, @eq_comm _ role]
              · rw [grants]
                simp [Policy.add, parsed]
          | grant owner held on =>
              refine ⟨fun user role => ?_, fun principal relation entity => ?_⟩
              · rw [members]
                simp [Policy.add, parsed]
              · rw [grants, Policy.add, mem_valuesAt_addTo]
                simp only [List.exists_mem_cons_iff, parsed, Except.ok.injEq,
                  PolicyLine.grant.injEq, Prod.mk.injEq, or_assoc, @eq_comm _ principal,
                  @eq_comm _ relation, @eq_comm _ entity]

/-! ## Decisions -/

theorem lookup_map_keys (entries : List (String × List String)) (values : String → List String)
    (user : String) :
    (entries.map fun entry => (entry.1, values entry.1)).lookup user =
      (entries.lookup user).map fun _ => values user := by
  induction entries with
  | nil => rfl
  | cons entry rest ih =>
      rw [List.map_cons, List.lookup_cons, List.lookup_cons, ih]
      by_cases same : user = entry.1
      · subst same
        simp
      · simp [beq_false_of_ne same]

/-- The flattened roles of a user are the roles reached from it by memberships, on every graph. -/
theorem mem_flattenMemberships_iff (direct : List (String × List String)) (user role : String) :
    role ∈ valuesAt (flattenMemberships direct) user ↔
      Relation.TransGen (Edge direct) user role := by
  unfold valuesAt flattenMemberships
  rw [lookup_map_keys direct (rolesOf direct), ← Worklist.mem_search_successors_iff]
  cases isEntry : direct.lookup user with
  | some roles => rfl
  | none =>
      -- the user is a member of nothing
      have noRole : successors direct user = [] := by rw [successors, isEntry, Option.getD_none]
      rw [noRole, List.reverse_nil, search]
      rfl

theorem check_eq_allow_iff {authorizer : FileAuthorizer} {principal : String} {action : Action}
    {target : TableRef} :
    authorizer.check principal action target = .allow ↔
      ∃ holder ∈ authorizer.principalsOf principal, ∃ relation entity,
        (relation, entity) ∈ authorizer.grants holder ∧
          relation.implies action.required = true ∧ entity ∈ target.entity.selfAndAncestors := by
  have held : authorizer.check principal action target = .allow ↔
      ((authorizer.principalsOf principal).any fun name =>
        (authorizer.grants name).any fun grant => grant.1.implies action.required &&
          decide (grant.2 ∈ target.entity.selfAndAncestors)) = true := by
    rw [FileAuthorizer.check]
    split
    · next some' => simp only [some']
    · next none' => simp only [none', reduceCtorEq]
  rw [held]
  simp only [List.any_eq_true, Bool.and_eq_true, decide_eq_true_eq, Prod.exists]

/-- What a policy grants: some principal reached by memberships holds a grant that implies what
the action requires, on the table, its namespace or the warehouse. -/
def Allows (text principal : String) (action : Action) (target : TableRef) : Prop :=
  ∃ holder, Relation.ReflTransGen (Member text) principal holder ∧
    ∃ relation entity, Granted text holder relation entity ∧
      relation.implies action.required = true ∧
      entity ∈ [.table target.schema target.table, .namespaceOf target.schema, .warehouse]

theorem check_iff_allows {text : String} {authorizer : FileAuthorizer}
    (parses : FileAuthorizer.parse text = .ok authorizer) (principal : String) (action : Action)
    (target : TableRef) :
    authorizer.check principal action target = .allow ↔ Allows text principal action target := by
  unfold FileAuthorizer.parse at parses
  cases reads : readLines 0 ⟨[], []⟩ (textLines text.toList) with
  | error why =>
      rw [reads] at parses
      cases parses
  | ok policy =>
      rw [reads] at parses
      cases parses
      obtain ⟨members, grants⟩ := readLines_spec reads
      have noMember (user : String) : valuesAt ([] : List (String × List String)) user = [] := rfl
      have noGrant (user : String) :
          valuesAt ([] : List (String × List (Relation × Entity))) user = [] := rfl
      have isMember : Edge policy.members = Member text := by
        funext user role
        refine propext ((members user role).trans ?_)
        simp [noMember, Member]
      have isGranted (holder : String) (relation : Relation) (entity : Entity) :
          (relation, entity) ∈ valuesAt policy.grants holder ↔
            Granted text holder relation entity := by
        rw [grants, Granted]
        simp [noGrant]
      have reached (holder : String) :
          holder ∈ principal :: valuesAt (flattenMemberships policy.members) principal ↔
            Relation.ReflTransGen (Member text) principal holder := by
        rw [List.mem_cons, mem_flattenMemberships_iff, isMember,
          Relation.reflTransGen_iff_eq_or_transGen]
      rw [check_eq_allow_iff, Allows]
      simp only [FileAuthorizer.principalsOf, reached, isGranted]
      rfl

/-- A policy with more lines says more. -/
theorem Allows.mono {text more : String}
    (lines : (textLines text.toList).Sublist (textLines more.toList)) {principal : String}
    {action : Action} {target : TableRef} (allows : Allows text principal action target) :
    Allows more principal action target := by
  obtain ⟨holder, reached, relation, entity, ⟨raw, mem, parsed⟩, rest⟩ := allows
  have more (user role : String) : Member text user role → Member more user role := by
    rintro ⟨raw, mem, parsed⟩
    exact ⟨raw, lines.subset mem, parsed⟩
  exact ⟨holder, Relation.ReflTransGen.mono more principal holder reached, relation, entity,
    ⟨raw, lines.subset mem, parsed⟩, rest⟩

/-- A policy that is read decides by what its lines grant, over the roles that are reached, and
more lines take nothing away. -/
theorem policy_decides {text : String} {authorizer : FileAuthorizer}
    (parses : FileAuthorizer.parse text = .ok authorizer) :
    (∀ principal action target, authorizer.check principal action target = .allow ↔
      Allows text principal action target) ∧
      (∀ direct user role, role ∈ valuesAt (flattenMemberships direct) user ↔
        Relation.TransGen (Edge direct) user role) ∧
      ∀ more other, (textLines text.toList).Sublist (textLines more.toList) →
        FileAuthorizer.parse more = .ok other →
          ∀ principal action target, authorizer.check principal action target = .allow →
            other.check principal action target = .allow := by
  refine ⟨check_iff_allows parses, mem_flattenMemberships_iff,
    fun more other lines parsesMore principal action target allowed => ?_⟩
  exact (check_iff_allows parsesMore principal action target).mpr
    (((check_iff_allows parses principal action target).mp allowed).mono lines)

/-- Two roles that are members of each other. -/
def cyclicPolicy : String :=
  "member alice analyst\nmember analyst staff\nmember staff analyst # b\ngrant staff Write demo"

theorem policy_decides_cyclicPolicy :
    ∃ authorizer, FileAuthorizer.parse cyclicPolicy = .ok authorizer ∧
      authorizer.check "alice" .readData ⟨"demo", "trips"⟩ = .allow := by
  have isRead : (FileAuthorizer.parse cyclicPolicy).isOk = true := by decide +kernel
  obtain ⟨authorizer, parses⟩ : ∃ authorizer, FileAuthorizer.parse cyclicPolicy =
      .ok authorizer := by
    cases parsed : FileAuthorizer.parse cyclicPolicy with
    | ok authorizer => exact ⟨authorizer, rfl⟩
    | error why =>
        rw [parsed] at isRead
        cases isRead
  refine ⟨authorizer, parses, ((policy_decides parses).1 "alice" .readData _).mpr ?_⟩
  have first : Member cyclicPolicy "alice" "analyst" :=
    ⟨"member alice analyst".toList, by decide, rfl⟩
  have second : Member cyclicPolicy "analyst" "staff" :=
    ⟨"member analyst staff".toList, by decide, rfl⟩
  exact ⟨"staff", .tail (.single first) second, .write, .namespaceOf "demo",
    ⟨"grant staff Write demo".toList, by decide, by decide +kernel⟩, rfl, by decide⟩

end Icegres.Authz
