import Icegres.Cache.Fingerprint
import Icegres.Cache.Lru

/-!
# Reused plans and results

A statement that misses both caches notes the cached version of every table its logical plan scans,
plans, and notes the versions again. The scans of the physical plan load their tables on their own,
next to every other load. If the versions are unchanged the plan is filed under them, and its result
when it has been streamed to the end. A lookup compares the versions table by table: it first finds
the table fresh and then reads the cached snapshot.
-/

namespace Icegres.Cache

/-- A scan of a statement, or any other task: a refresher, another scan, a commit. -/
inductive Task (Statement Other : Type) where
  | scan (statement : Statement) (number : Nat)
  | other (id : Other)
  deriving DecidableEq

/-- A cached plan or result. `tables` is the fingerprint it is filed under, and `baked` records the
versions its scans were served. -/
structure Entry (Table : Type) where
  tables : List (Table × Nat)
  baked : List (Table × Nat)
  deriving DecidableEq

inductive Kind where
  | result
  | plan
  deriving DecidableEq

/-- Where a statement is. -/
inductive Phase (Table Key : Type) where
  | waiting
  /-- It is about to ask this cache. -/
  | asking (kind : Kind) (key : Key)
  /-- It holds the cache's lock and has these tables left to compare. -/
  | checking (kind : Kind) (key : Key) (entry : Entry Table) (rest : List (Table × Nat))
  | missed (key : Key)
  /-- The logical plan is analyzed: these scans are left. -/
  | analyzing (key : Key) (scans todo : List Table) (recorded : List (Table × Nat))
  /-- The physical plan is created. `recorded` is missing when the statement is not cacheable,
  `opened` are the scans under way. -/
  | planning (key : Key) (scans : List Table) (recorded : Option (List (Table × Nat)))
      (opened : List (Table × Nat)) (baked : List (Table × Nat))
  /-- The plan is there, and these tables are left to compare. -/
  | verifying (key : Key) (entry : Entry Table) (rest : List (Table × Nat))
  /-- The plan is executed, and its result may be captured. -/
  | streaming (sink : Option (Key × Entry Table))
  | done

variable {Table Statement Other Key : Type}

/-- `probed` is the table the statement has just found fresh. -/
structure Progress (Table Key : Type) where
  phase : Phase Table Key
  probed : Option Table

structure Plans (Table Statement Other Key : Type) where
  tables : Table → State (Task Statement Other)
  /-- Neither write buffer nor peer mirrors add rows of their own to the table's scans. -/
  eligible : Table → Bool
  statements : Statement → Progress Table Key
  plans : Lru Key (Entry Table)
  capacity : Nat
  /-- The entries with their decoded bytes. -/
  results : Lru Key (Entry Table × Nat)
  budget : Nat
  locks : Kind → Option Statement

inductive PlansAction (Table Statement Other Key : Type) where
  | table (table : Table) (action : Action (Task Statement Other))
  | arrive (statement : Statement) (key : Key)
  | lookup (statement : Statement)
  | createLogicalPlan (statement : Statement) (scans : List Table)
  /-- An expression of the statement is not immutable. -/
  | blockCaching (statement : Statement)
  | startPlanning (statement : Statement)
  | probe (statement : Statement) (table : Table)
  | resolve (statement : Statement)
  | hit (statement : Statement)
  | finishPlanning (statement : Statement)
  | insert (statement : Statement) (safeToCache : Bool)
  /-- The result was streamed to its end. -/
  | complete (statement : Statement) (bytes : Nat)
  /-- Planning failed, or the stream was dropped, failed or grew over the cap. -/
  | abandon (statement : Statement)

/-- `scans` may name a table twice: a later look replaces an earlier one. -/
def record [DecidableEq Table] (recorded : List (Table × Nat)) (table : Table) (version : Nat) :
    List (Table × Nat) :=
  (table, version) :: recorded.filter fun pair => pair.1 ≠ table

/-- A single result takes at most this part of the budget. -/
def perResultCap (budget : Nat) : Nat :=
  budget / 4

namespace Phase

variable [DecidableEq Table]

/-- The phase has to resolve the version of this table. -/
def wants (table : Table) : Phase Table Key → Bool
  | .checking _ _ _ rest => rest.any fun pair => pair.1 = table
  | .analyzing _ _ todo _ => todo.head? = some table
  | .verifying _ _ rest => rest.any fun pair => pair.1 = table
  | _ => false

/-- What a step of a scan does to the phase of its statement. A scan that is served ends, and
planning fails with the first scan that is not. -/
def scanned (table : Table) (number : Nat) {Id : Type} (action : Action Id)
    (shown : Option (Nat × Nat)) : Phase Table Key → Option (Phase Table Key)
  | .planning key scans recorded opened baked =>
      match action with
      | .startScan _ =>
          if table ∈ scans then
            some (.planning key scans recorded ((table, number) :: opened) baked)
          else none
      | .startRefresh _ => none
      | .localCommit _ => none
      | .invalidate _ => none
      | _ =>
          if (table, number) ∈ opened then
            match shown, action with
            | some (_, version), _ =>
                some (.planning key scans recorded (opened.erase (table, number))
                  ((table, version) :: baked))
            | none, .failRead _ => some .done
            | none, _ => some (.planning key scans recorded opened baked)
          else none
  | _ => none

end Phase

namespace Plans

/-- Nothing is cached, and every table has been loaded by nobody. -/
def start (catalog : Table → Nat) (eligible : Table → Bool) (capacity budget : Nat) :
    Plans Table Statement Other Key where
  tables table := State.start (catalog table)
  eligible
  statements _ := ⟨.waiting, none⟩
  plans := .empty
  capacity
  results := .empty
  budget
  locks _ := none

variable [DecidableEq Table] [DecidableEq Statement] [DecidableEq Other] [DecidableEq Key]

variable (system : Plans Table Statement Other Key)

def move (statement : Statement) (phase : Phase Table Key) : Plans Table Statement Other Key :=
  { system with statements := Function.update system.statements statement ⟨phase, none⟩ }

def setLock (kind : Kind) (holder : Option Statement) : Plans Table Statement Other Key :=
  { system with locks := Function.update system.locks kind holder }

def find (kind : Kind) (key : Key) : Option (Entry Table) :=
  match kind with
  | .result => if system.budget = 0 then none else (system.results.get? key).map Prod.fst
  | .plan => system.plans.get? key

def drop (kind : Kind) (key : Key) : Plans Table Statement Other Key :=
  match kind with
  | .result => { system with results := system.results.remove key }
  | .plan => { system with plans := system.plans.remove key }

def use (kind : Kind) (key : Key) : Plans Table Statement Other Key :=
  match kind with
  | .result => { system with results := system.results.touch key }
  | .plan => { system with plans := system.plans.touch key }

/-- Where a statement goes that has missed this cache. -/
def afterMiss (kind : Kind) (key : Key) : Phase Table Key :=
  match kind with
  | .result => .asking .plan key
  | .plan => .missed key

def sink (key : Key) (entry : Entry Table) : Option (Key × Entry Table) :=
  if 0 < system.budget then some (key, entry) else none

def insertPlan (key : Key) (entry : Entry Table) : Plans Table Statement Other Key :=
  { system with plans := system.plans.insert (fun _ => 1) system.capacity key entry }

def insertResult (key : Key) (entry : Entry Table) (bytes : Nat) :
    Plans Table Statement Other Key :=
  if system.budget = 0 ∨ bytes = 0 ∨ perResultCap system.budget < bytes ∨ entry.tables = [] then
    system
  else
    { system with
      results := system.results.insert Prod.snd system.budget key (entry, bytes) }

/-- A table is not fresh, not cached or not at the recorded version. -/
def mismatch (statement : Statement) : Option (Plans Table Statement Other Key) :=
  match (system.statements statement).phase with
  | .checking kind key _ _ =>
      some (((system.drop kind key).setLock kind none).move statement (afterMiss kind key))
  | .analyzing key scans _ _ => some (system.move statement (.planning key scans none [] []))
  | .verifying _ _ _ => some (system.move statement (.streaming none))
  | _ => none

/-- The cached snapshot of a table was read. -/
def compareVersion (statement : Statement) (table : Table) (version : Nat) :
    Option (Plans Table Statement Other Key) :=
  match (system.statements statement).phase with
  | .checking kind key entry rest =>
      if (table, version) ∈ rest then
        some (system.move statement (.checking kind key entry (rest.erase (table, version))))
      else system.mismatch statement
  | .analyzing key scans todo recorded =>
      some (system.move statement
        (.analyzing key scans todo.tail (record recorded table version)))
  | .verifying key entry rest =>
      if (table, version) ∈ rest then
        some (system.move statement (.verifying key entry (rest.erase (table, version))))
      else system.mismatch statement
  | _ => none

/-- The step of a table, and of the statement whose scan takes it. -/
def stepTable (staleRead : Bool) (table : Table) (action : Action (Task Statement Other)) :
    Option (Plans Table Statement Other Key) :=
  match Cache.step (system.tables table) action with
  | none => none
  | some next =>
      let system' := { system with tables := Function.update system.tables table next }
      match action.client with
      | some (.scan statement number) =>
          ((system.statements statement).phase.scanned table number action
            (served staleRead (system.tables table) action)).map (system'.move statement)
      | _ => some system'

def step (staleRead : Bool) :
    PlansAction Table Statement Other Key → Option (Plans Table Statement Other Key)
  | .table table action => system.stepTable staleRead table action
  | .arrive statement key =>
      match (system.statements statement).phase with
      | .waiting => some (system.move statement (.asking .result key))
      | _ => none
  | .lookup statement =>
      match (system.statements statement).phase with
      | .asking kind key =>
          if (system.locks kind).isSome then none
          else
            match system.find kind key with
            | none => some (system.move statement (afterMiss kind key))
            | some entry =>
                some ((system.setLock kind (some statement)).move statement
                  (.checking kind key entry entry.tables))
      | _ => none
  | .createLogicalPlan statement scans =>
      match (system.statements statement).phase with
      | .missed key => some (system.move statement (.analyzing key scans scans []))
      | _ => none
  | .blockCaching statement =>
      match (system.statements statement).phase with
      | .analyzing key scans _ _ =>
          some (system.move statement (.planning key scans none [] []))
      | _ => none
  | .startPlanning statement =>
      match (system.statements statement).phase with
      | .analyzing key scans [] recorded =>
          some (system.move statement (.planning key scans (some recorded) [] []))
      | _ => none
  | .probe statement table =>
      let progress := system.statements statement
      if progress.probed.isNone ∧ progress.phase.wants table then
        if system.eligible table ∧ (system.tables table).freshness.isFresh then
          some { system with
            statements := Function.update system.statements statement
              { progress with probed := some table } }
        else system.mismatch statement
      else none
  | .resolve statement =>
      match (system.statements statement).probed with
      | some table =>
          match (system.tables table).cached with
          | none => system.mismatch statement
          | some cached => system.compareVersion statement table cached.version
      | none => none
  | .hit statement =>
      match (system.statements statement).phase with
      | .checking kind key entry [] =>
          some (((system.use kind key).setLock kind none).move statement
            (match kind with
            | .result => .done
            | .plan => .streaming (system.sink key entry)))
      | _ => none
  | .finishPlanning statement =>
      match (system.statements statement).phase with
      | .planning key _ (some recorded) [] baked =>
          some (system.move statement (.verifying key ⟨recorded, baked⟩ recorded))
      | .planning _ _ none [] _ => some (system.move statement (.streaming none))
      | _ => none
  | .insert statement safeToCache =>
      match (system.statements statement).phase with
      | .verifying key entry [] =>
          if entry.tables ≠ [] ∧ safeToCache = true then
            if (system.locks .plan).isSome then none
            else
              some ((system.insertPlan key entry).move statement
                (.streaming (system.sink key entry)))
          else some (system.move statement (.streaming none))
      | _ => none
  | .complete statement bytes =>
      match (system.statements statement).phase with
      | .streaming (some (key, entry)) =>
          if (system.locks .result).isSome then none
          else some ((system.insertResult key entry bytes).move statement .done)
      | _ => none
  | .abandon statement =>
      match (system.statements statement).phase with
      | .planning _ _ _ _ _ => some (system.move statement .done)
      | .streaming _ => some (system.move statement .done)
      | _ => none

/-- The entry a lookup returns. -/
def returned : PlansAction Table Statement Other Key → Option (Entry Table)
  | .hit statement =>
      match (system.statements statement).phase with
      | .checking _ _ entry [] => some entry
      | _ => none
  | _ => none

end Plans

end Icegres.Cache
