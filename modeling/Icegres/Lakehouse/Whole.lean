import Icegres.Catalog.Fork
import Icegres.Commit.Transaction

/-!
# Branches of the whole lakehouse

A branch is created, dropped or merged on every table of the catalog at once: the namespaces are
walked, every table is loaded, and all changes are posted as one transaction. Each of these is a
request of its own, and between them anyone may change anything in the catalog.
-/

namespace Icegres.Lakehouse

open Icegres.Catalog
open Icegres.Commit (TableIdent Reply)

variable {Content : Type}

abbrev Namespace := List String

/-- The catalog, with what it answers to a listing. -/
structure Lake (Content : Type) where
  /-- `list_namespaces`; without a parent, those of the first level. -/
  namespaces : Option Namespace → List Namespace
  /-- `list_tables` -/
  listed : Namespace → List TableIdent
  tables : TableIdent → Option (Metadata Content)

def Lake.set (lake : Lake Content) (ident : TableIdent) (metadata : Metadata Content) :
    Lake Content :=
  { lake with tables := Function.update lake.tables ident (some metadata) }

/-- The changes of one transaction: all are made, or none. -/
def Lake.commitAll (lake : Lake Content) :
    List (TableIdent × Request Content) → Option (Lake Content)
  | [] => some lake
  | (ident, request) :: rest =>
      (lake.tables ident).bind fun metadata =>
        (request.commit metadata).bind fun after => (lake.set ident after).commitAll rest

/-! ## The commands -/

inductive WholeOp where
  | createAll (name : String)
  | dropAll (name : String)
  | merge (source target : String)
  deriving DecidableEq

/-- What is done about a table, as it was loaded. -/
inductive Part (Content : Type) where
  | change (request : Request Content) (head : Int)
  | skip
  | conflict (report : String)

section Commands

variable (summaryOf : Content → Branch.Summary)

def WholeOp.part (op : WholeOp) (ident : TableIdent) (metadata : Metadata Content) :
    Part Content :=
  match op with
  | .createAll name =>
      match metadata.refSnapshotId mainBranch with
      | some src => .change (setBranchRefRequest metadata.uuid name src true .branch) src
      | none => .skip
  | .dropAll name =>
      match metadata.snapshotForRef name with
      | some head =>
          .change (removeBranchRefRequest metadata.uuid name head.snapshotId) head.snapshotId
      | none => .skip
  | .merge source target =>
      match Branch.planMerge (Branch.compareTable summaryOf metadata ident.text source target) with
      | .fastForward mv => .change (mv.request source target) mv.fromHead
      | .skip _ _ => .skip
      | .conflict _ report => .conflict report

/-- The check before anything is read. -/
def WholeOp.check : WholeOp → Except String Unit
  | .createAll name =>
      if name = mainBranch then
        .error ("branch " ++ mainBranch.quote ++ " always exists; pick another name")
      else .ok ()
  | .dropAll name =>
      if name = mainBranch then
        .error ("refusing to drop " ++ mainBranch.quote ++ " — it is every table's default branch")
      else .ok ()
  | .merge source target =>
      if source = target then .error "merging a ref into itself is a no-op" else .ok ()

/-- A change of one table, with the head that is reported for it. -/
structure Change (Content : Type) where
  ident : TableIdent
  request : Request Content
  head : Int

def changes (op : WholeOp) (loaded : List (TableIdent × Metadata Content)) :
    List (Change Content) :=
  loaded.filterMap fun entry =>
    match op.part summaryOf entry.1 entry.2 with
    | .change request head => some ⟨entry.1, request, head⟩
    | _ => none

def skipped (op : WholeOp) (loaded : List (TableIdent × Metadata Content)) : List TableIdent :=
  loaded.filterMap fun entry =>
    match op.part summaryOf entry.1 entry.2 with
    | .skip => some entry.1
    | _ => none

def conflicts (op : WholeOp) (loaded : List (TableIdent × Metadata Content)) :
    List TableIdent :=
  loaded.filterMap fun entry =>
    match op.part summaryOf entry.1 entry.2 with
    | .conflict _ => some entry.1
    | _ => none

/-- A reference that is named must exist on some table. -/
def absentRef (loaded : List (TableIdent × Metadata Content)) (names : List String) :
    Option String :=
  names.find? fun name => loaded.all fun entry => (entry.2.snapshotForRef name).isNone

/-- Whether the changes are posted once all tables are loaded. -/
def WholeOp.decision (op : WholeOp) (loaded : List (TableIdent × Metadata Content)) :
    Except String Unit :=
  match op with
  | .createAll name =>
      if loaded.isEmpty then .error "the catalog has no tables to branch"
      else if (changes summaryOf op loaded).isEmpty then
        .error ("no table in the catalog has a snapshot yet, so branch " ++ name.quote ++
          " cannot point anywhere (write to at least one table first)")
      else .ok ()
  | .dropAll name =>
      if (changes summaryOf op loaded).isEmpty then
        .error ("branch " ++ name.quote ++ " does not exist on any table in the catalog")
      else .ok ()
  | .merge source target =>
      if loaded.isEmpty then .error "the catalog has no tables to compare"
      else
        match absentRef loaded [source, target] with
        | some name =>
            .error ("ref " ++ name.quote ++ " does not exist on any table in scope")
        | none =>
            let refused := conflicts summaryOf op loaded
            if refused.isEmpty then .ok ()
            else
              .error ("refusing the merge: " ++ toString refused.length ++
                " table(s) cannot fast-forward (icegres never three-way-merges rows — rebase by " ++
                "re-branching, or narrow with --table); nothing was applied")

end Commands

/-! ## A command among other clients -/

/-- How a command ends: the tables that were changed and those that were skipped. -/
abbrev Result := Except String (List (TableIdent × Int) × List TableIdent)

/-- How far a command has come. The top of the stack is the end of the source's vector. -/
inductive Task (Content : Type) where
  | starts
  | walks (visited stack : List Namespace) (found : List TableIdent)
  /-- The tables of the namespace are listed, and its children are not. -/
  | descends (visited stack : List Namespace) (found : List TableIdent) (within : Namespace)
  | loads (rest : List TableIdent) (loaded : List (TableIdent × Metadata Content))
  | posts (loaded : List (TableIdent × Metadata Content))
  | done (result : Result)

structure World (Content : Type) where
  lake : Lake Content
  task : Task Content
  /-- The catalog just before and just after it made the changes. -/
  landed : Option (Lake Content × Lake Content)

inductive Action (Content : Type) where
  /-- Another client has changed the catalog. -/
  | foreign (lake : Lake Content)
  /-- The next listing or load is answered. -/
  | reads
  /-- A request fails before the changes are posted. -/
  | fails (error : String)
  /-- The changes are posted, to a catalog that has the endpoint or lacks it. -/
  | posts (supported : Bool) (reply : Reply)

section Steps

variable (summaryOf : Content → Branch.Summary) (op : WholeOp)

def World.goes (world : World Content) (task : Task Content) : World Content :=
  { world with task }

def sortByText (idents : List TableIdent) : List TableIdent :=
  idents.insertionSort fun left right => left.text ≤ right.text

/-- The changes are decided on once everything is loaded. -/
def decided (loaded : List (TableIdent × Metadata Content)) : Task Content :=
  match op.decision summaryOf loaded with
  | .error error => .done (.error error)
  | .ok () =>
      if (changes summaryOf op loaded).isEmpty then .done (.ok ([], skipped summaryOf op loaded))
      else .posts loaded

def World.read (world : World Content) : Option (World Content) :=
  match world.task with
  | .starts =>
      match op.check with
      | .error error => some (world.goes (.done (.error error)))
      | .ok () => some (world.goes (.walks [] (world.lake.namespaces none).reverse []))
  | .walks visited stack found =>
      match stack with
      | [] => some (world.goes (.loads (sortByText found) []))
      | top :: rest =>
          if top ∈ visited then some (world.goes (.walks visited rest found))
          else
            some (world.goes
              (.descends (top :: visited) rest (found ++ world.lake.listed top) top))
  | .descends visited stack found within =>
      some (world.goes
        (.walks visited ((world.lake.namespaces (some within)).reverse ++ stack) found))
  | .loads rest loaded =>
      match rest with
      | [] => some (world.goes (decided summaryOf op loaded))
      | ident :: rest =>
          match world.lake.tables ident with
          | none =>
              some (world.goes (.done (.error ("failed to load table " ++ ident.text))))
          | some metadata => some (world.goes (.loads rest (loaded ++ [(ident, metadata)])))
  | .posts _ => none
  | .done _ => none

/-- One fast-forward goes to the endpoint of its table. -/
def needsEndpoint (taken : List (Change Content)) : Bool :=
  match op with
  | .merge _ _ => decide (1 < taken.length)
  | _ => true

def unsupportedText : String :=
  match op with
  | .createAll name =>
      "the catalog does not implement the multi-table transaction endpoint, so a " ++
        "whole-lakehouse branch cannot be created atomically; NOTHING was applied. Create " ++
        "branches per table instead: icegres branch create <table> " ++ name
  | .dropAll name =>
      "the catalog does not implement the multi-table transaction endpoint, so a " ++
        "whole-lakehouse branch drop cannot be applied atomically; NOTHING was applied. Drop " ++
        "branches per table instead: icegres branch drop <table> " ++ name
  | .merge source target =>
      "the catalog does not implement the multi-table transaction endpoint, so a multi-table " ++
        "merge cannot commit atomically; NOTHING was applied. Merge one table at a time " ++
        "instead: icegres branch merge " ++ source ++ " " ++ target ++
        " --table <ns.table> --execute"

def conflictText (taken : List (Change Content)) : String :=
  match op with
  | .createAll name =>
      "branch " ++ name.quote ++ " already exists on at least one table, or a table's main head " ++
        "moved between load and commit (the per-table `assert-ref-snapshot-id main=<captured " ++
        "head>` anchors reject a torn cross-table cut) — the whole-lakehouse create is " ++
        "all-or-nothing and NOTHING was applied; retry the create-all"
  | .dropAll name =>
      "branch " ++ name.quote ++ " moved on at least one table while dropping it (concurrent " ++
        "commit?) — the whole-lakehouse drop is all-or-nothing and NOTHING was applied"
  | .merge source target =>
      match taken with
      | [change] =>
          "branch " ++ target.quote ++ " or " ++ source.quote ++ " on " ++ change.ident.text ++
            " moved between plan and commit (a foreign commit won the race) — NOTHING was " ++
            "applied; re-run the merge"
      | _ =>
          "branch " ++ target.quote ++ " or " ++ source.quote ++ " moved on at least one table " ++
            "between plan and commit (a foreign commit won the race) — the merge is " ++
            "all-or-nothing and NOTHING was applied; re-run the merge"

def World.post (world : World Content) (loaded : List (TableIdent × Metadata Content))
    (supported : Bool) (reply : Reply) : World Content :=
  let taken := changes summaryOf op loaded
  if !supported && needsEndpoint op taken then
    world.goes (.done (.error (unsupportedText op)))
  else
    match reply with
    | .failsBefore error => world.goes (.done (.error error))
    | .failsAfter error =>
        match world.lake.commitAll (taken.map fun change => (change.ident, change.request)) with
        | none => world.goes (.done (.error error))
        | some after => ⟨after, .done (.error error), some (world.lake, after)⟩
    | .answered =>
        match world.lake.commitAll (taken.map fun change => (change.ident, change.request)) with
        | none => world.goes (.done (.error (conflictText op taken)))
        | some after =>
            ⟨after, .done (.ok (taken.map fun change => (change.ident, change.head),
              skipped summaryOf op loaded)), some (world.lake, after)⟩

def step (world : World Content) : Action Content → Option (World Content)
  | .foreign lake => some { world with lake }
  | .reads => world.read summaryOf op
  | .fails error =>
      match world.task with
      | .posts _ | .done _ => none
      | _ => some (world.goes (.done (.error error)))
  | .posts supported reply =>
      match world.task with
      | .posts loaded => some (world.post summaryOf op loaded supported reply)
      | _ => none

end Steps

def World.init (lake : Lake Content) : World Content :=
  ⟨lake, .starts, none⟩

end Icegres.Lakehouse
