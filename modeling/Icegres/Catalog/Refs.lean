import Icegres.Catalog.Metadata
import Icegres.Lineage
import Icegres.Transition
import Mathlib.Data.List.Sort

/-!
# Operations on the references of a table

Creating, dropping and merging branches, committing to a branch, and expiring snapshots: each is
planned on metadata that was loaded and posted as one commit later, so any other operation can
land between. An expiry reads twice, the metadata and then the references.
-/

namespace Icegres.Catalog

variable {Content : Type}

def mainBranch : String :=
  "main"

/-! ## The commits -/

/-- The reference must not exist yet. A branch forked from the head of `main` also asserts that
head; one at a chosen snapshot leaves `main` free to move. -/
def setBranchRefRequest (uuid name : String) (src : Int) (anchorMain : Bool) (kind : RefKind) :
    Request Content where
  requirements :=
    [.uuidMatch uuid, .refSnapshotIdMatch name none] ++
      if anchorMain then [.refSnapshotIdMatch mainBranch (some src)] else []
  updates := [.setSnapshotRef name ⟨src, kind⟩]

def removeBranchRefRequest (uuid name : String) (head : Int) : Request Content where
  requirements := [.uuidMatch uuid, .refSnapshotIdMatch name (some head)]
  updates := [.removeSnapshotRef name]

/-- One fast-forward of a merge, with the heads that were planned on. -/
structure FastForwardMove where
  source : String
  target : String
  fromHead : Int
  toHead : Int

def fastForwardRequest (uuid : String) (mv : FastForwardMove) : Request Content where
  requirements :=
    [.uuidMatch uuid, .refSnapshotIdMatch mv.target (some mv.toHead),
      .refSnapshotIdMatch mv.source (some mv.fromHead)]
  updates := [.setSnapshotRef mv.target ⟨mv.fromHead, .branch⟩]

/-- The commit of a new snapshot to a branch. -/
def snapshotRequest (uuid branch : String) (head : Option Int) (snapshot : Snapshot Content) :
    Request Content where
  requirements := [.uuidMatch uuid, .refSnapshotIdMatch branch head]
  updates := [.addSnapshot snapshot, .setSnapshotRef branch ⟨snapshot.snapshotId, .branch⟩]

/-- Only the head of `main` is asserted, when there is one. -/
def removeSnapshotsRequest (uuid : String) (head : Option Int) (expire : List Int) :
    Request Content where
  requirements :=
    .uuidMatch uuid ::
      (head.map fun snapshotId => .refSnapshotIdMatch mainBranch (some snapshotId)).toList
  updates := [.removeSnapshots expire]

/-! ## Planning -/

namespace Branch

/-- A finite parent map: the snapshots the metadata knows, each with its parent. Ids that are not
listed have expired. -/
abbrev ParentMap := List (Int × Option Int)

/-- `none` when the id itself is unknown, its parent otherwise. -/
def parentOf (parents : ParentMap) (snapshotId : Int) : Option (Option Int) :=
  (parents.find? fun entry => entry.1 = snapshotId).map Prod.snd

/-- The parent chain of a head, inclusive, up to the root or to where history has expired. The
loop ends within one step more than there are known snapshots. -/
def lineageOf (parents : ParentMap) (head : Int) : List Int :=
  (Lineage.walk (parentOf parents) (parents.length + 1) [] (some head)).getD []

/-- The first snapshot on the second head's ancestry that is also on the first's. -/
def forkPoint (parents : ParentMap) (aHead bHead : Int) : Option Int :=
  let aAncestry := lineageOf parents aHead
  (lineageOf parents bHead).find? fun snapshotId => snapshotId ∈ aAncestry

/-- The parent map of the metadata. -/
def parents (metadata : Metadata Content) : ParentMap :=
  metadata.snapshots.map fun snapshot => (snapshot.snapshotId, snapshot.parentSnapshotId)

end Branch

namespace Metadata

variable (metadata : Metadata Content)

/-- The target still sits at the fork point. -/
def planMerge (source target : String) : Option FastForwardMove :=
  match metadata.snapshotForRef source, metadata.snapshotForRef target with
  | some fromHead, some toHead =>
      if fromHead.snapshotId ≠ toHead.snapshotId ∧
          Branch.forkPoint (Branch.parents metadata) fromHead.snapshotId toHead.snapshotId =
            some toHead.snapshotId then
        some ⟨source, target, fromHead.snapshotId, toHead.snapshotId⟩
      else
        none
  | _, _ => none

/-- Newest first by commit time, ties broken by id. -/
def newestFirst : List (Int × Int) :=
  (metadata.snapshots.map fun snapshot => (snapshot.timestampMs, snapshot.snapshotId)).insertionSort
    fun left right => right.1 < left.1 ∨ (left.1 = right.1 ∧ right.2 ≤ left.2)

/-- The snapshots an expiry removes: those that no reference it read points at and that are not
among the newest. -/
def expired (referenced : List Int) (keepLast : Nat) : List Int :=
  let ordered := metadata.newestFirst
  let keep := referenced ++ (ordered.take keepLast).map Prod.snd
  (ordered.map Prod.snd).filter fun snapshotId => snapshotId ∉ keep

/-- The snapshot ids of every reference. -/
def listRefs : List Int :=
  metadata.refs.map fun ref => ref.2.snapshotId

end Metadata

/-- What a client asks for. A tag is created by another engine on the catalog. -/
inductive Operation (Content : Type) where
  | createBranch (name : String) (atSnapshot : Option Int)
  | createTag (name : String) (atSnapshot : Int)
  | dropBranch (name : String)
  | merge (source target : String)
  | commit (branch : String) (snapshot : Snapshot Content)

/-- An operation with what it read from the loaded metadata. -/
inductive Post (Content : Type) where
  | createRef (name : String) (src : Int) (anchorMain : Bool) (kind : RefKind)
  | dropBranch (name : String) (head : Int)
  | fastForward (mv : FastForwardMove)
  | commit (branch : String) (head : Option Int) (snapshot : Snapshot Content)

def Post.request (uuid : String) : Post Content → Request Content
  | .createRef name src anchorMain kind => setBranchRefRequest uuid name src anchorMain kind
  | .dropBranch name head => removeBranchRefRequest uuid name head
  | .fastForward mv => fastForwardRequest uuid mv
  | .commit branch head snapshot => snapshotRequest uuid branch head snapshot

/-- `main` falls back to the current snapshot; any other branch must exist. -/
def Metadata.branchHead (metadata : Metadata Content) (branch : String) : Option (Option Int) :=
  if branch = mainBranch then
    some ((metadata.snapshotForRef branch).map Snapshot.snapshotId)
  else
    (metadata.snapshotForRef branch).map fun snapshot => some snapshot.snapshotId

/-- The checks before the commit is posted; `none` is an error. -/
def Operation.plan (metadata : Metadata Content) : Operation Content → Option (Post Content)
  | .createBranch name atSnapshot =>
      if name = mainBranch then none
      else
        match atSnapshot with
        | some snapshotId =>
            if (metadata.snapshotById snapshotId).isSome then
              some (.createRef name snapshotId false .branch)
            else none
        | none => (metadata.refSnapshotId mainBranch).map fun src =>
            .createRef name src true .branch
  | .createTag name snapshotId =>
      if (metadata.snapshotById snapshotId).isSome then
        some (.createRef name snapshotId false .tag)
      else none
  | .dropBranch name =>
      if name = mainBranch then none
      else (metadata.snapshotForRef name).map fun head => .dropBranch name head.snapshotId
  | .merge source target =>
      if source = target then none else (metadata.planMerge source target).map .fastForward
  | .commit branch snapshot =>
      (metadata.branchHead branch).map fun head => .commit branch head snapshot

/-! ## The system -/

inductive Client (Content : Type) where
  | idle
  | posting (uuid : String) (post : Post Content)
  /-- An expiry that has loaded the metadata and not yet read the references. -/
  | loaded (metadata : Metadata Content) (keepLast : Nat)
  /-- An expiry that has read the references. `chosen` records the snapshots at which a reference
  was created by choice since then. -/
  | removing (uuid : String) (head : Option Int) (expire : List Int) (chosen : List Int)

structure State (Content : Type) where
  metadata : Metadata Content
  /-- Every snapshot id that was ever generated. -/
  issued : List Int
  clients : Nat → Client Content

inductive Action (Content : Type) where
  | plan (client : Nat) (operation : Operation Content)
  | loadExpiry (client : Nat) (keepLast : Nat)
  | listRefs (client : Nat)
  /-- The posted commit reaches the catalog. -/
  | land (client : Nat)
  /-- The client gives up, or its commit is lost on the way. -/
  | abandon (client : Nat)

/-- The id of the snapshot an operation adds. -/
def Operation.generated : Operation Content → Option Int
  | .commit _ snapshot => some snapshot.snapshotId
  | _ => none

/-- The snapshot a client chose to put a reference at. -/
def Post.chosen : Post Content → Option Int
  | .createRef _ src false _ => some src
  | _ => none

def Client.choose (snapshotId : Option Int) : Client Content → Client Content
  | .removing uuid head expire chosen => .removing uuid head expire (snapshotId.toList ++ chosen)
  | client => client

/-- The commit a client has under way. -/
def Client.request : Client Content → Option (Request Content)
  | .posting uuid post => some (post.request uuid)
  | .removing uuid head expire _ => some (removeSnapshotsRequest uuid head expire)
  | _ => none

def Client.chosen : Client Content → Option Int
  | .posting _ post => post.chosen
  | _ => none

/-- The catalog behind the commits. It may refuse more than what the requirements ask for, and it
may drop references that a commit leaves without their snapshot. -/
structure Service (Content : Type) where
  validates : Metadata Content → Request Content → Bool
  drops : Metadata Content → String × SnapshotReference → Bool
  drops_absent : ∀ metadata ref, drops metadata ref = true →
    ref.2.snapshotId ∉ metadata.snapshotIds

/-- The metadata once a commit is applied. -/
def Service.settle (catalog : Service Content) (metadata : Metadata Content) : Metadata Content :=
  { metadata with refs := metadata.refs.filter fun ref => !catalog.drops metadata ref }

/-- One step. Generated ids are new. -/
def step (catalog : Service Content) (state : State Content) :
    Action Content → Option (State Content)
  | .plan client operation =>
      match state.clients client, operation.plan state.metadata with
      | .idle, some post =>
          if ∃ snapshotId ∈ operation.generated, snapshotId ∈ state.issued then none
          else
            some { state with
              issued := operation.generated.toList ++ state.issued
              clients := Function.update state.clients client
                (.posting state.metadata.uuid post) }
      | _, _ => none
  | .loadExpiry client keepLast =>
      match state.clients client with
      | .idle =>
          some { state with
            clients := Function.update state.clients client (.loaded state.metadata keepLast) }
      | _ => none
  | .listRefs client =>
      match state.clients client with
      | .loaded metadata keepLast =>
          let expire := metadata.expired state.metadata.listRefs keepLast
          some { state with
            clients := Function.update state.clients client
              (if expire = [] then .idle
              else .removing metadata.uuid (metadata.refSnapshotId mainBranch) expire []) }
      | _ => none
  | .land client =>
      match (state.clients client).request with
      | some request =>
          if catalog.validates state.metadata request ∧ request.Accepted state.metadata then
            some { state with
              metadata := catalog.settle (request.apply state.metadata)
              clients := Function.update
                (fun other => (state.clients other).choose (state.clients client).chosen)
                client .idle }
          else
            some { state with clients := Function.update state.clients client .idle }
      | none => none
  | .abandon client =>
      some { state with clients := Function.update state.clients client .idle }

end Icegres.Catalog
