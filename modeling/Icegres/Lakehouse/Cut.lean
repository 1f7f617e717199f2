import Icegres.Lakehouse.Whole

/-!
# What one transaction leaves

A transaction that the catalog applies changes each of its tables once: two requests of one command
for the same table exclude each other. What a command makes of a table is what its requirements
found there, with one reference changed.
-/

namespace Icegres.Lakehouse

open Icegres.Catalog
open Icegres.Commit (TableIdent)

variable {Content : Type}

/-! ## Transactions -/

namespace Lake

variable {lake after : Lake Content} {items : List (TableIdent × Request Content)}

/-- No table accepts a second request after the first. -/
def Exclusive (items : List (TableIdent × Request Content)) : Prop :=
  items.Pairwise fun first second => first.1 = second.1 →
    ∀ metadata, first.2.Accepted metadata → ¬ second.2.Accepted (first.2.apply metadata)

theorem commitAll_cons {ident : TableIdent} {request : Request Content}
    (committed : lake.commitAll ((ident, request) :: items) = some after) :
    ∃ metadata, lake.tables ident = some metadata ∧ request.Accepted metadata ∧
      (lake.set ident (request.apply metadata)).commitAll items = some after := by
  obtain ⟨metadata, found, committed⟩ := Option.bind_eq_some_iff.mp committed
  obtain ⟨changed, accepted, committed⟩ := Option.bind_eq_some_iff.mp committed
  obtain ⟨accepts, rfl⟩ := Request.commit_eq_some accepted
  exact ⟨metadata, found, accepts, committed⟩

@[simp] theorem set_tables_self (ident : TableIdent) (metadata : Metadata Content) :
    (lake.set ident metadata).tables ident = some metadata := by
  simp [set]

theorem set_tables_of_ne {ident other : TableIdent} (different : other ≠ ident)
    (metadata : Metadata Content) :
    (lake.set ident metadata).tables other = lake.tables other := by
  simp [set, different]

/-- A table that refuses all that is meant for it is in no transaction that is applied. -/
theorem absent_of_refused {ident : TableIdent} {metadata : Metadata Content}
    (holds : lake.tables ident = some metadata)
    (refused : ∀ item ∈ items, item.1 = ident → ¬ item.2.Accepted metadata)
    (committed : lake.commitAll items = some after) :
    ident ∉ items.map Prod.fst := by
  induction items generalizing lake with
  | nil => exact List.not_mem_nil
  | cons item rest ih =>
      obtain ⟨first, request⟩ := item
      obtain ⟨found, atFirst, accepted, committed⟩ := commitAll_cons committed
      have different : ident ≠ first := by
        rintro rfl
        obtain rfl := Option.some.inj (holds.symm.trans atFirst)
        exact refused _ List.mem_cons_self rfl accepted
      have later := ih ((set_tables_of_ne different _).trans holds)
        (fun item isItem => refused item (List.mem_cons_of_mem _ isItem)) committed
      rw [List.map_cons, List.mem_cons, not_or]
      exact ⟨different, later⟩

/-- Tables without a request are left alone. -/
theorem commitAll_frame (committed : lake.commitAll items = some after) {ident : TableIdent}
    (absent : ident ∉ items.map Prod.fst) : after.tables ident = lake.tables ident := by
  induction items generalizing lake with
  | nil => rw [← Option.some.inj committed]
  | cons item rest ih =>
      obtain ⟨first, request⟩ := item
      obtain ⟨found, -, -, committed⟩ := commitAll_cons committed
      rw [List.map_cons, List.mem_cons, not_or] at absent
      rw [ih committed absent.2, set_tables_of_ne absent.1]

/-- Each table has its own request, which met the table as it was before all of them. -/
theorem commitAll_eq_some (exclusive : Exclusive items)
    (committed : lake.commitAll items = some after) :
    (items.map Prod.fst).Nodup ∧
      ∀ item ∈ items, ∃ metadata, lake.tables item.1 = some metadata ∧
        item.2.Accepted metadata ∧ after.tables item.1 = some (item.2.apply metadata) := by
  induction items generalizing lake with
  | nil => exact ⟨List.nodup_nil, fun item isItem => absurd isItem List.not_mem_nil⟩
  | cons item rest ih =>
      obtain ⟨first, request⟩ := item
      obtain ⟨own, others⟩ := List.pairwise_cons.mp exclusive
      obtain ⟨metadata, found, accepted, committed⟩ := commitAll_cons committed
      have absent : first ∉ rest.map Prod.fst :=
        absent_of_refused (set_tables_self first _)
          (fun item isItem same => own item isItem same.symm metadata accepted) committed
      obtain ⟨distinct, each⟩ := ih others committed
      refine ⟨List.nodup_cons.mpr ⟨absent, distinct⟩, fun item isItem => ?_⟩
      rcases List.mem_cons.mp isItem with rfl | later
      · exact ⟨metadata, found, accepted,
          (commitAll_frame committed absent).trans (set_tables_self first _)⟩
      · obtain ⟨known, holds, accepts, becomes⟩ := each item later
        have different : item.1 ≠ first := fun same =>
          absent (same ▸ List.mem_map_of_mem later)
        exact ⟨known, (set_tables_of_ne different _).symm.trans holds, accepts, becomes⟩

end Lake

/-! ## What becomes of a table -/

/-- The reference a command changes. -/
def WholeOp.moved : WholeOp → String
  | .createAll name => name
  | .dropAll name => name
  | .merge _ target => target

/-- The reference of a table before and after the command, where it reported the head. -/
def WholeOp.Moves (op : WholeOp) (before after : Metadata Content) (head : Int) : Prop :=
  match op with
  | .createAll name =>
      before.refSnapshotId mainBranch = some head ∧ before.refSnapshotId name = none ∧
        after.refSnapshotId name = some head
  | .dropAll name => before.refSnapshotId name = some head ∧ after.refSnapshotId name = none
  | .merge source target =>
      before.refSnapshotId source = some head ∧ before.refSnapshotId target ≠ some head ∧
        after.refSnapshotId target = some head

/-- The command did its work on a table, and nothing else. -/
structure WholeOp.Made (op : WholeOp) (before after : Metadata Content) (head : Int) : Prop where
  moves : op.Moves before after head
  uuid : after.uuid = before.uuid
  snapshots : after.snapshots = before.snapshots
  others : ∀ name, name ≠ op.moved → after.refSnapshotId name = before.refSnapshotId name

section Changes

variable {summaryOf : Content → Branch.Summary} {op : WholeOp}

/-- A change that a table accepts does what the command is for. -/
theorem WholeOp.made_of_part {ident : TableIdent} {loaded metadata : Metadata Content}
    {request : Request Content} {head : Int}
    (part : op.part summaryOf ident loaded = .change request head)
    (accepted : request.Accepted metadata) : op.Made metadata (request.apply metadata) head := by
  cases op with
  | createAll name =>
      simp only [WholeOp.part] at part
      split at part
      · cases part
        have absent := accepted (.refSnapshotIdMatch name none) (by simp [setBranchRefRequest])
        have anchored := accepted (.refSnapshotIdMatch mainBranch (some head))
          (by simp [setBranchRefRequest])
        refine ⟨⟨anchored, absent, ?_⟩, rfl, rfl, fun other different => ?_⟩
        · exact (Metadata.refSnapshotId_setSnapshotRef name name _).trans (if_pos rfl)
        · exact (Metadata.refSnapshotId_setSnapshotRef name other _).trans (if_neg different)
      · cases part
  | dropAll name =>
      simp only [WholeOp.part] at part
      split at part
      · rename_i found _
        cases part
        have pinned := accepted (.refSnapshotIdMatch name (some found.snapshotId))
          (by simp [removeBranchRefRequest])
        refine ⟨⟨pinned, ?_⟩, rfl, rfl, fun other different => ?_⟩
        · exact (Metadata.refSnapshotId_removeSnapshotRef name name).trans (if_pos rfl)
        · exact (Metadata.refSnapshotId_removeSnapshotRef name other).trans (if_neg different)
      · cases part
  | merge source target =>
      simp only [WholeOp.part] at part
      split at part
      · rename_i mv planned
        cases part
        obtain ⟨-, -, -, -, different, -⟩ := Branch.planMerge_eq_fastForward_iff.mp planned
        obtain ⟨atTarget, atSource, moved, same⟩ :=
          Branch.FastForwardMove.commit_eq_some (if_pos accepted)
        refine ⟨⟨atSource, ?_, moved⟩, rfl, same, fun other apart => ?_⟩
        · rw [atTarget]
          exact fun equal => different (Option.some.inj equal)
        · exact (Metadata.refSnapshotId_setSnapshotRef target other _).trans (if_neg apart)
      · cases part
      · cases part

/-- What a command has made of a table, it does not make again. -/
theorem WholeOp.Made.excludes {before middle after : Metadata Content} {first second : Int}
    (made : op.Made before middle first) (again : op.Made middle after second) : False := by
  obtain ⟨moves, -, -, others⟩ := made
  obtain ⟨movesAgain, -, -, -⟩ := again
  cases op with
  | createAll name =>
      have absent := moves.2.2.symm.trans movesAgain.2.1
      cases absent
  | dropAll name =>
      have present := moves.2.symm.trans movesAgain.1
      cases present
  | merge source target =>
      obtain ⟨atSource, apart, moved⟩ := moves
      obtain ⟨still, apartAgain, -⟩ := movesAgain
      by_cases same : source = target
      · exact apart (same ▸ atSource)
      · have unmoved := (others source same).trans atSource
        exact apartAgain (moved.trans (unmoved.symm.trans still))

theorem mem_changes {loaded : List (TableIdent × Metadata Content)} {change : Change Content}
    (isChange : change ∈ changes summaryOf op loaded) :
    ∃ entry ∈ loaded, entry.1 = change.ident ∧
      op.part summaryOf entry.1 entry.2 = .change change.request change.head := by
  obtain ⟨entry, isLoaded, is⟩ := List.mem_filterMap.mp isChange
  split at is
  · rename_i request head part
    cases is
    exact ⟨entry, isLoaded, rfl, part⟩
  · cases is

theorem changes_exclusive (loaded : List (TableIdent × Metadata Content)) :
    Lake.Exclusive ((changes summaryOf op loaded).map fun change =>
      (change.ident, change.request)) := by
  refine List.pairwise_of_forall_mem_list ?_
  intro first isFirst second isSecond _ metadata accepted acceptedAgain
  obtain ⟨change, isChange, rfl⟩ := List.mem_map.mp isFirst
  obtain ⟨other, isOther, rfl⟩ := List.mem_map.mp isSecond
  obtain ⟨_, -, -, part⟩ := mem_changes isChange
  obtain ⟨_, -, -, otherPart⟩ := mem_changes isOther
  exact (WholeOp.made_of_part part accepted).excludes
    (WholeOp.made_of_part otherPart acceptedAgain)

/-- The command took each reported table from one state of the catalog to the next, and no
other. -/
structure Cut (op : WholeOp) (before after : Lake Content) (taken : List (TableIdent × Int)) :
    Prop where
  distinct : (taken.map Prod.fst).Nodup
  made : ∀ entry ∈ taken, ∃ metadata changed, before.tables entry.1 = some metadata ∧
    after.tables entry.1 = some changed ∧ op.Made metadata changed entry.2
  untouched : ∀ ident, ident ∉ taken.map Prod.fst → after.tables ident = before.tables ident

theorem cut_of_commitAll {lake after : Lake Content} {loaded : List (TableIdent × Metadata Content)}
    (committed : lake.commitAll ((changes summaryOf op loaded).map fun change =>
      (change.ident, change.request)) = some after) :
    Cut op lake after ((changes summaryOf op loaded).map fun change =>
      (change.ident, change.head)) := by
  have idents : ((changes summaryOf op loaded).map fun change =>
        (change.ident, change.head)).map Prod.fst =
      ((changes summaryOf op loaded).map fun change =>
        (change.ident, change.request)).map Prod.fst := by
    rw [List.map_map, List.map_map]
    rfl
  obtain ⟨distinct, each⟩ := Lake.commitAll_eq_some (changes_exclusive loaded) committed
  refine ⟨idents ▸ distinct, fun entry isTaken => ?_, fun ident absent =>
    Lake.commitAll_frame committed (idents ▸ absent)⟩
  obtain ⟨change, isChange, rfl⟩ := List.mem_map.mp isTaken
  obtain ⟨metadata, found, accepted, becomes⟩ :=
    each _ (List.mem_map_of_mem isChange)
  obtain ⟨_, -, -, part⟩ := mem_changes isChange
  exact ⟨metadata, _, found, becomes, WholeOp.made_of_part part accepted⟩

end Changes

end Icegres.Lakehouse
