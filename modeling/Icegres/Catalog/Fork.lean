import Icegres.Catalog.Refs

/-!
# Fork points and fast-forward merges

Two references of a table are compared through the parent chains of their heads: where the
chains meet decides whether one head is ahead of the other, and a merge only ever moves a target
that sits at that point.
-/

namespace Icegres.Catalog.Branch

open Icegres.Lineage

variable {Content : Type}

/-! ## Lineage and fork point -/

theorem mem_of_parentOf_isSome {parents : ParentMap} {snapshotId : Int}
    (known : (parentOf parents snapshotId).isSome) : snapshotId ∈ parents.map Prod.fst := by
  rw [parentOf, Option.isSome_map, List.find?_isSome] at known
  obtain ⟨entry, mem, same⟩ := known
  exact List.mem_map.mpr ⟨entry, mem, of_decide_eq_true same⟩

/-- The loop ends on every finite map, also on a cyclic one, and always with the same list. -/
theorem walk_lineageOf (parents : ParentMap) (head : Int) {fuel : Nat}
    (enough : parents.length < fuel) :
    walk (parentOf parents) fuel [] (some head) = some (lineageOf parents head) := by
  have ended : (walk (parentOf parents) (parents.length + 1) [] (some head)).isSome :=
    walk_isSome (fun _ known => mem_of_parentOf_isSome known) List.nodup_nil
      (List.nil_subset _) (by simp) _
  obtain ⟨nodes, walked⟩ := Option.isSome_iff_exists.mp ended
  have listed : lineageOf parents head = nodes := by simp [lineageOf, walked]
  rw [listed]
  exact walk_mono walked enough

/-- The lineage of a head is the known part of its chain. -/
theorem mem_lineageOf {parents : ParentMap} {head snapshotId : Int} :
    snapshotId ∈ lineageOf parents head ↔ OnChain (parentOf parents) head snapshotId :=
  mem_walk_iff (walk_lineageOf parents head (Nat.lt_succ_self _))

theorem nearest_of_forkPoint {parents : ParentMap} {aHead bHead fork : Int}
    (found : forkPoint parents aHead bHead = some fork) :
    Nearest (parentOf parents) aHead bHead fork :=
  nearest_of_find (walk_lineageOf parents aHead (Nat.lt_succ_self _))
    (walk_lineageOf parents bHead (Nat.lt_succ_self _)) found

theorem forkPoint_eq_none_iff {parents : ParentMap} {aHead bHead : Int} :
    forkPoint parents aHead bHead = none ↔
      ∀ snapshotId, OnChain (parentOf parents) aHead snapshotId →
        ¬ OnChain (parentOf parents) bHead snapshotId :=
  find_eq_none_iff (walk_lineageOf parents aHead (Nat.lt_succ_self _))
    (walk_lineageOf parents bHead (Nat.lt_succ_self _))

/-- Without cycles the fork point is the one nearest snapshot on both chains. -/
theorem forkPoint_eq_some_iff {parents : ParentMap} (acyclic : Acyclic (parentOf parents))
    {aHead bHead fork : Int} :
    forkPoint parents aHead bHead = some fork ↔
      Nearest (parentOf parents) aHead bHead fork := by
  refine ⟨nearest_of_forkPoint, fun nearest => ?_⟩
  cases found : forkPoint parents aHead bHead with
  | none => exact absurd nearest.2.1 (forkPoint_eq_none_iff.mp found fork nearest.1)
  | some other => rw [(nearest_of_forkPoint found).unique acyclic nearest]

theorem forkPoint_comm {parents : ParentMap} (acyclic : Acyclic (parentOf parents))
    (aHead bHead : Int) : forkPoint parents aHead bHead = forkPoint parents bHead aHead := by
  ext fork
  rw [forkPoint_eq_some_iff acyclic, forkPoint_eq_some_iff acyclic]
  exact ⟨Nearest.symm, Nearest.symm⟩

/-! ## Comparing two references -/

/-- How the two references of a table relate across the fork point. -/
inductive DiffStatus where
  | unchanged
  | advancedA
  | advancedB
  | diverged
  | onlyA
  | onlyB
  | noRef
  deriving DecidableEq

def classify (aHead bHead fork : Option Int) : DiffStatus :=
  match aHead, bHead with
  | none, none => .noRef
  | some _, none => .onlyA
  | none, some _ => .onlyB
  | some a, some b =>
      if a = b then .unchanged
      else if fork = some b then .advancedA
      else if fork = some a then .advancedB
      else .diverged

/-- The row counts that a snapshot's summary reports. -/
structure Summary where
  addedRecords : Option Nat
  deletedRecords : Option Nat

/-- Aggregate of one side's exclusive snapshots. -/
structure SideDelta where
  snapshots : List Int := []
  rowsAdded : Nat := 0
  rowsDeleted : Nat := 0
  summaryMissing : Nat := 0

def SideDelta.add (delta : SideDelta) (snapshotId : Int) (summary : Summary) : SideDelta where
  snapshots := delta.snapshots ++ [snapshotId]
  rowsAdded := delta.rowsAdded + summary.addedRecords.getD 0
  rowsDeleted := delta.rowsDeleted + summary.deletedRecords.getD 0
  summaryMissing :=
    if summary.addedRecords = none ∧ summary.deletedRecords = none then delta.summaryMissing + 1
    else delta.summaryMissing

/-- What the comparison knows about one table. -/
structure TableCmp where
  ident : String
  uuid : String
  aHead : Option Int
  bHead : Option Int
  fork : Option Int
  status : DiffStatus
  aSide : SideDelta
  bSide : SideDelta

theorem parentOf_parents (metadata : Metadata Content) (snapshotId : Int) :
    parentOf (parents metadata) snapshotId =
      (metadata.snapshotById snapshotId).map Snapshot.parentSnapshotId := by
  rw [parentOf, parents, List.find?_map, Option.map_map, Metadata.snapshotById]
  rfl

section Compare

variable (summaryOf : Content → Summary) (metadata : Metadata Content)

/-- The side's exclusive snapshots: from the head down to the fork, which is left out. -/
def sideDelta (head fork : Option Int) : SideDelta :=
  match head with
  | none => {}
  | some head =>
      ((lineageOf (parents metadata) head).takeWhile fun snapshotId =>
          some snapshotId ≠ fork).foldl
        (fun delta snapshotId =>
          match metadata.snapshotById snapshotId with
          | some snapshot => delta.add snapshotId (summaryOf snapshot.content)
          | none => delta)
        {}

/-- Compare two references of one table. -/
def compareTable (ident a b : String) : TableCmp :=
  let aHead := (metadata.snapshotForRef a).map Snapshot.snapshotId
  let bHead := (metadata.snapshotForRef b).map Snapshot.snapshotId
  let fork := aHead.bind fun ah => bHead.bind fun bh => forkPoint (parents metadata) ah bh
  { ident, uuid := metadata.uuid, aHead, bHead, fork,
    status := classify aHead bHead fork,
    aSide := sideDelta summaryOf metadata aHead fork,
    bSide := sideDelta summaryOf metadata bHead fork }

end Compare

/-! ## Planning a merge -/

def fmtHead (head : Option Int) : String :=
  (head.map toString).getD "-"

def fmtSide (side : SideDelta) : String :=
  let plural := if side.snapshots.length = 1 then "" else "s"
  let counts :=
    s!"+{side.snapshots.length} snapshot{plural}, rows +{side.rowsAdded}/-{side.rowsDeleted}"
  if side.summaryMissing > 0 then
    counts ++ s!" ({side.summaryMissing} snapshot(s) without summary counts)"
  else counts

/-- One planned move of the target to the source's observed head. -/
structure FastForwardMove where
  ident : String
  uuid : String
  fromHead : Int
  toHead : Int
  deriving DecidableEq

/-- What a merge decided for one table. -/
inductive MergePlan where
  | fastForward (mv : FastForwardMove)
  | skip (ident why : String)
  | conflict (ident report : String)
  deriving DecidableEq

/-- Plan the merge from a comparison: the source is side `a`, the target side `b`. -/
def planMerge (c : TableCmp) : MergePlan :=
  match c.status with
  | .advancedA =>
      match c.aHead, c.bHead with
      | some fromHead, some toHead =>
          .fastForward { ident := c.ident, uuid := c.uuid, fromHead, toHead }
      -- the source panics here, which no comparison reaches
      | _, _ => .conflict c.ident "advanced-a implies both heads"
  | .unchanged => .skip c.ident "already up to date"
  | .advancedB => .skip c.ident "target is ahead of the source (nothing to merge)"
  | .noRef | .onlyB => .skip c.ident "source ref absent on this table (nothing to merge)"
  | .onlyA =>
      .conflict c.ident s!"target ref is missing on this table (source head {fmtHead c.aHead}); create it first (icegres branch create {c.ident} <to> --at-snapshot <fork>) or re-branch"
  | .diverged =>
      let fork := (c.fork.map toString).getD "unknown (history expired)"
      .conflict c.ident s!"diverged: fork {fork}, source head {fmtHead c.aHead} ({fmtSide c.aSide}), target head {fmtHead c.bHead} ({fmtSide c.bSide}); a fast-forward is impossible — rebase by re-branching from the target (drop the source branch and `icegres branch create-all` again), or narrow with --table to merge the clean tables"

/-- A snapshot is a proper ancestor of a head as far as the metadata knows. -/
def KnownProperAncestor (parents : ParentMap) (head snapshotId : Int) : Prop :=
  snapshotId ≠ head ∧ OnChain (parentOf parents) head snapshotId

/-- A known head is the fork point exactly when the other head descends from it. -/
theorem forkPoint_eq_head_iff {parents : ParentMap} {aHead bHead : Int} :
    forkPoint parents aHead bHead = some bHead ↔ OnChain (parentOf parents) aHead bHead := by
  refine ⟨fun found => (nearest_of_forkPoint found).1, fun chained => ?_⟩
  have walked := walk_lineageOf parents bHead (Nat.lt_succ_self _)
  obtain ⟨parent, known⟩ := Option.isSome_iff_exists.mp chained.2
  have first : ∃ rest, lineageOf parents bHead = bHead :: rest := by
    rcases walk_eq_some walked with ⟨-, seen | unknown⟩ | ⟨_, _, rest, -, -, -, -, listed⟩
    · cases seen
    · simp [unknown] at known
    · exact ⟨rest, listed⟩
  obtain ⟨rest, listed⟩ := first
  have shared : bHead ∈ lineageOf parents aHead := mem_lineageOf.mpr chained
  simp [forkPoint, listed, shared]

theorem classify_eq_advancedA_iff {aHead bHead fork : Option Int} :
    classify aHead bHead fork = .advancedA ↔
      ∃ a b, aHead = some a ∧ bHead = some b ∧ a ≠ b ∧ fork = some b := by
  cases aHead with
  | none => cases bHead <;> simp [classify]
  | some a =>
      cases bHead with
      | none => simp [classify]
      | some b =>
          by_cases same : a = b
          · simp [classify, same]
          · by_cases atTarget : fork = some b
            · simp [classify, same, atTarget]
            · by_cases atSource : fork = some a
              · simp [classify, same, atSource]
              · simp [classify, same, atTarget, atSource]

section Merge

variable {summaryOf : Content → Summary} {metadata : Metadata Content}
  {ident source target : String}

/-- The plan fast-forwards exactly when the target's head is a known proper ancestor of the
source's, and it moves the target between these heads. -/
theorem planMerge_eq_fastForward_iff {mv : FastForwardMove} :
    planMerge (compareTable summaryOf metadata ident source target) = .fastForward mv ↔
      mv.ident = ident ∧ mv.uuid = metadata.uuid ∧
        (metadata.snapshotForRef source).map Snapshot.snapshotId = some mv.fromHead ∧
        (metadata.snapshotForRef target).map Snapshot.snapshotId = some mv.toHead ∧
        KnownProperAncestor (parents metadata) mv.fromHead mv.toHead := by
  cases fromHead : (metadata.snapshotForRef source).map Snapshot.snapshotId with
  | none => cases toHead : (metadata.snapshotForRef target).map Snapshot.snapshotId <;>
      simp [planMerge, compareTable, classify, fromHead, toHead]
  | some a =>
      cases toHead : (metadata.snapshotForRef target).map Snapshot.snapshotId with
      | none => simp [planMerge, compareTable, classify, fromHead, toHead]
      | some b =>
          by_cases ahead : a ≠ b ∧ forkPoint (parents metadata) a b = some b
          · have status : classify (some a) (some b) (forkPoint (parents metadata) a b) =
                .advancedA := classify_eq_advancedA_iff.mpr ⟨a, b, rfl, rfl, ahead.1, ahead.2⟩
            have chained := forkPoint_eq_head_iff.mp ahead.2
            obtain ⟨mvIdent, mvUuid, mvFrom, mvTo⟩ := mv
            simp only [planMerge, compareTable, fromHead, toHead, Option.bind_some, status,
              MergePlan.fastForward.injEq, FastForwardMove.mk.injEq, Option.some.injEq]
            constructor
            · rintro ⟨rfl, rfl, rfl, rfl⟩
              exact ⟨rfl, rfl, rfl, rfl, ahead.1.symm, chained⟩
            · rintro ⟨rfl, rfl, rfl, rfl, -⟩
              exact ⟨rfl, rfl, rfl, rfl⟩
          · have status : classify (some a) (some b) (forkPoint (parents metadata) a b) ≠
                .advancedA := by
              rw [ne_eq, classify_eq_advancedA_iff]
              rintro ⟨a', b', sameA, sameB, different, found⟩
              cases sameA
              cases sameB
              exact ahead ⟨different, found⟩
            constructor
            · intro planned
              simp only [planMerge, compareTable, fromHead, toHead, Option.bind_some] at planned
              split at planned
              · exact absurd ‹_› status
              all_goals cases planned
            · rintro ⟨-, -, sameA, sameB, proper⟩
              cases sameA
              cases sameB
              exact absurd ⟨proper.1.symm, forkPoint_eq_head_iff.mpr proper.2⟩ ahead

end Merge

/-! ## Landing the move after concurrent commits -/

/-- The commit of a move, guarded by the observed heads of both references. -/
def FastForwardMove.request (mv : FastForwardMove) (source target : String) : Request Content :=
  fastForwardRequest mv.uuid
    { source, target, fromHead := mv.fromHead, toHead := mv.toHead }

/-- Commits of other clients, each with the uuid it was planned on, reach the catalog one after
the other; one whose requirements do not hold changes nothing. -/
def landAll (metadata : Metadata Content) (posts : List (String × Post Content)) :
    Metadata Content :=
  posts.foldl (fun metadata post => ((post.2.request post.1).commit metadata).getD metadata)
    metadata

/-- The snapshot lies on the known chain of a reference. -/
def KnownAncestor (metadata : Metadata Content) (ref : String) (snapshotId : Int) : Prop :=
  ∃ head, metadata.refSnapshotId ref = some head ∧
    OnChain (parentOf (parents metadata)) head snapshotId

/-- Nothing that is known is forgotten or changes its parent. -/
def Keeps (metadata after : Metadata Content) : Prop :=
  ∀ snapshotId snapshot, metadata.snapshotById snapshotId = some snapshot →
    after.snapshotById snapshotId = some snapshot

theorem Keeps.refl (metadata : Metadata Content) : Keeps metadata metadata :=
  fun _ _ known => known

theorem Keeps.trans {first second third : Metadata Content} (front : Keeps first second)
    (back : Keeps second third) : Keeps first third :=
  fun snapshotId snapshot known => back snapshotId snapshot (front snapshotId snapshot known)

/-- Adding a snapshot and moving references keep every known snapshot. -/
theorem Keeps.apply (metadata : Metadata Content) (uuid : String) (post : Post Content) :
    Keeps metadata ((post.request uuid).apply metadata) := by
  intro snapshotId snapshot known
  cases post with
  | createRef name src anchorMain kind => exact known
  | dropBranch name head => exact known
  | fastForward mv => exact known
  | commit branch head added =>
      simp only [Metadata.snapshotById] at known
      simp [Post.request, snapshotRequest, Request.apply, Update.apply, Metadata.snapshotById,
        List.find?_append, known]

theorem Keeps.landAll (metadata : Metadata Content) (posts : List (String × Post Content)) :
    Keeps metadata (landAll metadata posts) := by
  induction posts generalizing metadata with
  | nil => exact .refl metadata
  | cons post posts ih =>
      have first : Keeps metadata (((post.2.request post.1).commit metadata).getD metadata) := by
        cases committed : (post.2.request post.1).commit metadata with
        | none => exact .refl metadata
        | some after =>
            obtain ⟨-, rfl⟩ := Request.commit_eq_some committed
            exact .apply metadata post.1 post.2
      exact first.trans (ih _)

theorem Keeps.onChain {metadata after : Metadata Content} (keeps : Keeps metadata after)
    {head snapshotId : Int} (chained : OnChain (parentOf (parents metadata)) head snapshotId) :
    OnChain (parentOf (parents after)) head snapshotId := by
  refine chained.mono fun node parent known => ?_
  rw [parentOf_parents] at known ⊢
  obtain ⟨snapshot, found, rfl⟩ := Option.map_eq_some_iff.mp known
  rw [keeps node snapshot found]
  rfl

section Land

variable {summaryOf : Content → Summary} {metadata after : Metadata Content}
  {ident source target : String} {mv : FastForwardMove}

/-- A move that lands found both references where they were planned, and left the target at the
source's head. -/
theorem FastForwardMove.commit_eq_some
    (committed : (mv.request source target).commit metadata = some after) :
    metadata.refSnapshotId target = some mv.toHead ∧
      metadata.refSnapshotId source = some mv.fromHead ∧
      after.refSnapshotId target = some mv.fromHead ∧ after.snapshots = metadata.snapshots := by
  obtain ⟨accepted, rfl⟩ := Request.commit_eq_some committed
  refine ⟨accepted (.refSnapshotIdMatch target (some mv.toHead)) (by
      simp [FastForwardMove.request, fastForwardRequest]),
    accepted (.refSnapshotIdMatch source (some mv.fromHead)) (by
      simp [FastForwardMove.request, fastForwardRequest]), ?_, rfl⟩
  simp [FastForwardMove.request, fastForwardRequest, Request.apply, Update.apply,
    Metadata.refSnapshotId]

/-- What was behind the target when the move landed, whatever landed before it, is behind the
target afterwards. -/
theorem knownAncestor_fastForward
    (planned : planMerge (compareTable summaryOf metadata ident source target) =
      .fastForward mv)
    {posts : List (String × Post Content)}
    (committed : (mv.request source target).commit (landAll metadata posts) = some after)
    {snapshotId : Int} (behind : KnownAncestor (landAll metadata posts) target snapshotId) :
    KnownAncestor after target snapshotId := by
  obtain ⟨-, -, -, -, proper⟩ := planMerge_eq_fastForward_iff.mp planned
  obtain ⟨atHead, -, moved, same⟩ := FastForwardMove.commit_eq_some committed
  obtain ⟨head, points, chained⟩ := behind
  obtain rfl : mv.toHead = head := Option.some.inj (atHead.symm.trans points)
  have unchanged : parents after = parents (landAll metadata posts) := by
    rw [parents, parents, same]
  refine ⟨mv.fromHead, moved, ?_⟩
  rw [unchanged]
  exact ((Keeps.landAll metadata posts).onChain proper.2).trans chained

end Land

/-- Lineages end on every finite parent map; without cycles the fork point does not depend on the
side and is the nearest snapshot on both known chains; a merge fast-forwards exactly a target
that is a known proper ancestor of the source; and a fast-forward that lands after any commits
to either reference loses no known ancestor of the target. -/
theorem fork_and_merge (parentMap : ParentMap) (summaryOf : Content → Summary)
    (metadata : Metadata Content) (ident source target : String) :
    (∀ head, ∃ lineage, ∀ fuel, parentMap.length < fuel →
      walk (parentOf parentMap) fuel [] (some head) = some lineage) ∧
    (Acyclic (parentOf parentMap) → ∀ aHead bHead,
      forkPoint parentMap aHead bHead = forkPoint parentMap bHead aHead ∧
        (∀ fork, forkPoint parentMap aHead bHead = some fork ↔
          Nearest (parentOf parentMap) aHead bHead fork) ∧
        (forkPoint parentMap aHead bHead = none ↔
          ∀ snapshotId, OnChain (parentOf parentMap) aHead snapshotId →
            ¬ OnChain (parentOf parentMap) bHead snapshotId)) ∧
    (∀ mv, planMerge (compareTable summaryOf metadata ident source target) = .fastForward mv ↔
      mv.ident = ident ∧ mv.uuid = metadata.uuid ∧
        (metadata.snapshotForRef source).map Snapshot.snapshotId = some mv.fromHead ∧
        (metadata.snapshotForRef target).map Snapshot.snapshotId = some mv.toHead ∧
        KnownProperAncestor (parents metadata) mv.fromHead mv.toHead) ∧
    (∀ mv posts after,
      planMerge (compareTable summaryOf metadata ident source target) = .fastForward mv →
      (mv.request source target).commit (landAll metadata posts) = some after →
      ∀ snapshotId, KnownAncestor metadata target snapshotId ∨
          KnownAncestor (landAll metadata posts) target snapshotId →
        KnownAncestor after target snapshotId) := by
  refine ⟨fun head => ⟨_, fun fuel enough => walk_lineageOf parentMap head enough⟩,
    fun acyclic aHead bHead => ⟨forkPoint_comm acyclic aHead bHead,
      fun fork => forkPoint_eq_some_iff acyclic, forkPoint_eq_none_iff⟩,
    fun mv => planMerge_eq_fastForward_iff, ?_⟩
  intro mv posts after planned committed snapshotId behind
  refine knownAncestor_fastForward planned committed ?_
  rcases behind with early | late
  · -- the head the plan observed is the one the move found
    obtain ⟨head, points, chained⟩ := early
    obtain ⟨-, -, -, toHead, -⟩ := planMerge_eq_fastForward_iff.mp planned
    obtain ⟨snapshot, found, atHead⟩ := Option.map_eq_some_iff.mp toHead
    obtain ⟨pointed, pointsTo, isSnapshot⟩ := Option.bind_eq_some_iff.mp found
    obtain rfl : head = pointed := Option.some.inj (points.symm.trans pointsTo)
    have own : snapshot.snapshotId = head := by
      simpa using List.find?_some isSnapshot
    obtain ⟨landed, -⟩ := FastForwardMove.commit_eq_some committed
    exact ⟨head, by rw [landed, ← atHead, own], (Keeps.landAll metadata posts).onChain chained⟩
  · exact late

/-- Two branches forked at snapshot 3; only `dev` moved. -/
def forkedAtThree : Metadata Unit where
  uuid := "u"
  snapshots := [⟨1, none, 0, ()⟩, ⟨2, some 1, 1, ()⟩, ⟨3, some 2, 2, ()⟩, ⟨40, some 3, 3, ()⟩,
    ⟨50, some 40, 4, ()⟩]
  refs := [("main", ⟨3, .branch⟩), ("dev", ⟨50, .branch⟩)]

/-- A snapshot lands on a third branch while the move is under way. -/
def thirdBranch : List (String × Post Unit) :=
  [("u", .createRef "other" 3 false .branch), ("u", .commit "other" (some 3) ⟨60, some 3, 5, ()⟩)]

theorem fork_and_merge_at_three :
    forkPoint (parents forkedAtThree) 50 3 = forkPoint (parents forkedAtThree) 3 50 ∧
      KnownAncestor
        (((FastForwardMove.mk "demo.t" "u" 50 3).request "dev" "main").apply
          (landAll forkedAtThree thirdBranch)) "main" 2 := by
  have settled := fork_and_merge (parents forkedAtThree) (fun _ => ⟨none, none⟩) forkedAtThree
    "demo.t" "dev" "main"
  have older : ∀ child parent, Parent (parentOf (parents forkedAtThree)) child parent →
      parent < child := by
    intro child parent edge
    obtain ⟨entry, found, same⟩ := Option.map_eq_some_iff.mp edge
    have listed := List.mem_of_find?_eq_some found
    have own : entry.1 = child := by simpa using List.find?_some found
    have : ∀ entry ∈ parents forkedAtThree, ∀ parent ∈ entry.2, parent < entry.1 := by decide
    exact own ▸ this entry listed parent same
  have chained : OnChain (parentOf (parents forkedAtThree)) 3 2 :=
    mem_lineageOf.mp (by decide +kernel)
  exact ⟨(settled.2.1 (acyclic_of_lt older) 50 3).1,
    settled.2.2.2 ⟨"demo.t", "u", 50, 3⟩ thirdBranch _ (by decide +kernel) (if_pos (by decide +kernel))
      2 (.inl ⟨3, by decide +kernel, chained⟩)⟩

end Icegres.Catalog.Branch
