import Icegres.Buffer.Overlay

/-!
# The committed table

The catalog keeps every version of the table's metadata. A commit names the head it was prepared
on and lands only while that is still the head; it sets the tail's watermark property together
with the snapshot. The rows are those of the head snapshot.
-/

namespace Icegres.Buffer

/-- A snapshot as the metadata lists it. -/
structure Snapshot where
  id : Nat
  timestamp : Nat
  deriving DecidableEq

/-- One version of the table's metadata. -/
structure Metadata where
  snapshots : List Snapshot
  head : Option Nat
  /-- Snapshots that branches and tags point to. -/
  refs : List Nat
  rows : Multiset Row
  /-- The property of this server's tail. -/
  watermark : Option Nat

namespace Metadata

/-- Whether the metadata contains a generation's commit. -/
def contains (metadata : Metadata) : GenCommit → Bool
  | .snapshot id => metadata.snapshots.any fun snapshot => snapshot.id = id
  | .coveredByWatermark mark => metadata.watermark.any fun stamped => mark ≤ stamped

/-- The newest snapshots first; ties are broken by id. -/
def newestFirst (metadata : Metadata) : List Snapshot :=
  metadata.snapshots.insertionSort fun left right =>
    right.timestamp < left.timestamp ∨ right.timestamp = left.timestamp ∧ right.id ≤ left.id

/-- The snapshots that `expire_snapshots` keeps: the newest ones and those a ref points to. -/
def keptBy (metadata : Metadata) (keepLast : Nat) : List Nat :=
  metadata.head.toList ++ metadata.refs ++
    (metadata.newestFirst.take keepLast).map Snapshot.id

/-- The metadata after `expire_snapshots`. -/
def expireSnapshots (metadata : Metadata) (keepLast : Nat) : Metadata :=
  { metadata with
    snapshots := metadata.snapshots.filter fun snapshot => snapshot.id ∈ metadata.keptBy keepLast }

end Metadata

/-- A prepared commit. -/
structure Prepared where
  snapshotId : Nat
  timestamp : Nat
  /-- The head it asserts. -/
  head : Option Nat
  /-- The rows of the new snapshot. -/
  rows : Multiset Row
  /-- The watermark it stamps. -/
  stamped : Option Nat
  /-- The tail sequences of the batches it appends. -/
  contents : List (Option Nat)

/-- The metadata after a commit lands. -/
def Metadata.commit (metadata : Metadata) (prepared : Prepared) : Metadata where
  snapshots := metadata.snapshots ++ [⟨prepared.snapshotId, prepared.timestamp⟩]
  head := some prepared.snapshotId
  refs := metadata.refs
  rows := prepared.rows
  watermark := prepared.stamped.or metadata.watermark

/-- Whether one of the operations deletes the row. -/
def deletedBy (ops : List TableOp) (row : Row) : Bool :=
  ops.any fun
    | .append _ => false
    | .delete predicate => predicate.isTrue row

/-- The rows that operations append and later operations leave. -/
def appendedBy : List TableOp → Multiset Row
  | [] => 0
  | .append batches :: later =>
      Multiset.filter (fun row => ¬ deletedBy later row) (batches.flatten : List Row) +
        appendedBy later
  | .delete _ :: later => appendedBy later

/-- The rows of the snapshot a commit of these operations makes. There is none when no row of
the head is deleted and no appended row is left. -/
def prepareCommit (ops : List TableOp) (rows : Multiset Row) : Option (Multiset Row) :=
  if rows.filter (fun row => deletedBy ops row) = 0 ∧ appendedBy ops = 0 then none
  else some (applyOps ops rows)

/-- Applying operations removes what they delete and adds what they leave of their own rows. -/
theorem applyOps_eq (ops : List TableOp) (rows : Multiset Row) :
    applyOps ops rows = rows.filter (fun row => ¬ deletedBy ops row) + appendedBy ops := by
  induction ops generalizing rows with
  | nil => simp [applyOps, deletedBy, appendedBy]
  | cons op later ih =>
      have first : applyOps (op :: later) rows = applyOps later (op.apply rows) := rfl
      rw [first, ih]
      cases op with
      | append batches =>
          simp only [TableOp.apply, appendedBy, Multiset.filter_add, add_assoc]
          rfl
      | delete predicate =>
          simp only [TableOp.apply, appendedBy, Multiset.filter_filter]
          congr 1
          apply Multiset.filter_congr
          intro row _
          simp [deletedBy, and_comm]

/-- Operations without a commit change nothing. -/
theorem applyOps_of_prepareCommit_none {ops : List TableOp} {rows : Multiset Row}
    (nothing : prepareCommit ops rows = none) : applyOps ops rows = rows := by
  unfold prepareCommit at nothing
  split at nothing
  · next netsOut =>
      obtain ⟨noneDeleted, noneLeft⟩ := netsOut
      rw [applyOps_eq, noneLeft, add_zero, Multiset.filter_eq_self]
      intro row mem isDeleted
      exact Multiset.filter_eq_nil.mp noneDeleted row mem isDeleted
  · cases nothing

/-- The rows of a prepared commit. -/
theorem rows_of_prepareCommit {ops : List TableOp} {rows after : Multiset Row}
    (prepares : prepareCommit ops rows = some after) : after = applyOps ops rows := by
  unfold prepareCommit at prepares
  split at prepares
  · cases prepares
  · exact (Option.some.inj prepares).symm

end Icegres.Buffer
