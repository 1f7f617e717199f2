import Icegres.Buffer.Keys
import Mathlib.Data.List.AList
import Mathlib.Data.List.Sort

/-!
# The write buffer's bookkeeping

The state of one table between acknowledgement and commit: rows waiting for a flush, keyed
operations of the current window, and the generations whose commit a reader may not see yet.
Every definition is one critical section under the buffer lock. Tables are independent of each
other, so the map from tables to their state is left out.
-/

namespace Icegres.Buffer

/-- What a buffered keyed operation does to its key. -/
inductive KeyedKind where
  /-- The key's full replacement row. -/
  | upsert (row : Row)
  | delete
  deriving DecidableEq

/-- A buffered keyed operation with the key's primary-key values and their columns. -/
structure KeyedOp where
  keyCols : List Nat
  keyRow : List Scalar
  kind : KeyedKind
  /-- The operation's tail sequence, if a tail is attached. -/
  seq : Option Nat
  deriving DecidableEq

/-- The rows an operation leaves for its key. -/
def KeyedOp.upserts (op : KeyedOp) : List Row :=
  match op.kind with
  | .upsert row => [row]
  | .delete => []

/-- A map entry. The stamp tells it from earlier and later entries of its key. -/
structure KeyedEntry where
  stamp : Nat
  op : KeyedOp
  deriving DecidableEq

/-- The latest operation of each key. -/
abbrev KeyedMap := AList fun _ : Key => KeyedEntry

structure KeyedState where
  pkCols : List Nat
  entries : KeyedMap
  nextStamp : Nat
  /-- Stamps below this were taken by a flush snapshot. -/
  claimedBelow : Nat

/-- How a flushed generation's commit is recognised in metadata. -/
inductive GenCommit where
  | snapshot (id : Nat)
  /-- Committed at or before this tail watermark. -/
  | coveredByWatermark (mark : Nat)
  deriving DecidableEq

/-- A keyed operation taken by a flush, with its key and stamp. -/
abbrev KeyedItem := Key × Nat × KeyedOp

/-- A generation handed to a commit. -/
structure FlushedGen where
  commit : GenCommit
  batches : List (Option Nat × Batch)
  keyed : List KeyedItem
  /-- Whether it is older than the retention age. -/
  aged : Bool
  /-- Whether metadata that contains its commit has been seen on this server. -/
  observed : Bool

/-- One pending append batch. -/
structure PendingBatch where
  /-- Ties the batch to the statement that routed it. -/
  id : Nat
  /-- Taken by a flush snapshot. -/
  claimed : Bool
  seq : Option Nat
  batch : Batch

/-- The buffer of one table. -/
structure TableBuf where
  pending : List PendingBatch
  pendingRows : Nat
  nextBatchId : Nat
  keyed : Option KeyedState
  flushed : List FlushedGen
  /-- The highest tail sequence reflected in the buffer. -/
  tailHigh : Option Nat
  /-- Sequences whose durability wait has not succeeded. -/
  undurable : List Nat

/-- What one statement routed into the window: its batches, and its keyed entries with the
entry each displaced. -/
structure RoutedStmt where
  batchIds : List Nat
  keyed : List (Key × Nat × Option KeyedEntry)

/-- The pending work a flush takes. -/
structure PendingSnapshot where
  batches : List Batch
  nBatches : Nat
  /-- By stamp, the order of arrival. -/
  keyed : List KeyedItem
  tailMark : Option Nat

def PendingSnapshot.isEmpty (snap : PendingSnapshot) : Bool :=
  snap.nBatches = 0 && snap.keyed.isEmpty

namespace TableBuf

/-- A table no statement has touched. -/
def empty : TableBuf where
  pending := []
  pendingRows := 0
  nextBatchId := 1
  keyed := none
  flushed := []
  tailHigh := none
  undurable := []

/-- The live keyed entries. -/
def entries (buf : TableBuf) : KeyedMap :=
  (buf.keyed.map KeyedState.entries).getD ∅

/-- Push one batch into the pending list. -/
def pushPending (buf : TableBuf) (routed : RoutedStmt) (batch : Batch) (seq : Option Nat) :
    TableBuf × RoutedStmt :=
  ({ buf with
      pending := buf.pending ++ [⟨buf.nextBatchId, false, seq, batch⟩]
      pendingRows := buf.pendingRows + batch.length
      nextBatchId := buf.nextBatchId + 1 },
    { routed with batchIds := routed.batchIds ++ [buf.nextBatchId] })

/-- Overwrite a key in the live map; returns the stamp and what it displaced. -/
def KeyedState.overwrite (state : KeyedState) (key : Key) (op : KeyedOp) :
    KeyedState × Nat × Option KeyedEntry :=
  ({ state with
      entries := state.entries.insert key ⟨state.nextStamp, op⟩
      nextStamp := state.nextStamp + 1 },
    state.nextStamp, state.entries.lookup key)

/-- Route the rows of one batch whose key has a live entry: each supersedes it as a newer
upsert. -/
def routeHits (seq : Option Nat) : KeyedState → RoutedStmt → List Row → KeyedState × RoutedStmt
  | state, routed, [] => (state, routed)
  | state, routed, row :: rest =>
    let key := encodeKey state.pkCols row
    let (state, stamp, displaced) := KeyedState.overwrite state key
      { keyCols := state.pkCols, keyRow := projectKeyRow state.pkCols row, kind := .upsert row, seq }
    routeHits seq state { routed with keyed := routed.keyed ++ [(key, stamp, displaced)] } rest

/-- Route one batch: rows whose key has a live entry become upserts, the rest stays an
append. -/
def routeBatch (buf : TableBuf) (state : KeyedState) (routed : RoutedStmt) (batch : Batch)
    (seq : Option Nat) : TableBuf × RoutedStmt :=
  let hit := fun row => encodeKey state.pkCols row ∈ state.entries
  if batch = [] then
    (buf, routed)
  else if ∀ row ∈ batch, ¬ hit row then
    buf.pushPending routed batch seq
  else
    let (after, routed) := routeHits seq state routed (batch.filter hit)
    let buf := { buf with keyed := some after }
    if ∀ row ∈ batch, hit row then
      (buf, routed)
    else
      buf.pushPending routed (batch.filter fun row => ¬ hit row) seq

/-- Route one statement's batches. A table without buffered keyed operations takes the plain
path. -/
def routeAppends (buf : TableBuf) (aligned : List Batch) (seq : Option Nat) :
    TableBuf × RoutedStmt :=
  let plain := buf.entries.keys = []
  aligned.foldl (fun (buf, routed) batch =>
    if plain then
      buf.pushPending routed batch seq
    else
      match buf.keyed with
      | none => (buf, routed)
      | some state => buf.routeBatch state routed batch seq) (buf, ⟨[], []⟩)

/-- The tail gave a staged statement this sequence. -/
def noteStaged (buf : TableBuf) : Option Nat → TableBuf
  | some seq => { buf with tailHigh := some seq, undurable := seq :: buf.undurable }
  | none => buf

/-- Stage one statement of appended batches under the sequence the tail gave it; a replayed
frame brings its own. -/
def stageAppend (buf : TableBuf) (batches : List Batch) (staged replaySeq : Option Nat) :
    TableBuf × RoutedStmt :=
  (buf.noteStaged staged).routeAppends batches (staged.or replaySeq)

/-- Stage one keyed operation. Fails when keys encoded under another declaration are still
buffered. -/
def stageKeyed (buf : TableBuf) (pkCols : List Nat) (key : Key) (op : KeyedOp)
    (staged : Option Nat) : Except String (TableBuf × RoutedStmt) :=
  let state := buf.keyed.getD { pkCols, entries := ∅, nextStamp := 1, claimedBelow := 1 }
  let oldKeysBuffered := state.entries.keys ≠ [] ∨ ∃ gen ∈ buf.flushed, gen.keyed ≠ []
  if state.pkCols ≠ pkCols ∧ oldKeysBuffered then
    .error "the primary key changed while keyed tail ops were pending; flush the buffer (any fenced statement) before changing the icegres.primary-key property"
  else
    let op := { op with seq := staged.or op.seq }
    let (state, stamp, displaced) := KeyedState.overwrite { state with pkCols := pkCols } key op
    .ok ({ buf.noteStaged staged with keyed := some state }, ⟨[], [(key, stamp, displaced)]⟩)

/-- Replayed frames up to this sequence are reflected in the buffer. -/
def noteTailHigh (buf : TableBuf) (seq : Nat) : TableBuf :=
  { buf with tailHigh := some (max (buf.tailHigh.getD seq) seq) }

/-- A statement's durability wait succeeded. -/
def noteDurable (buf : TableBuf) (seq : Nat) : TableBuf :=
  { buf with undurable := buf.undurable.filter (· ≠ seq) }

/-- Whether a flush snapshot took something the statement routed. -/
def claims (buf : TableBuf) (routed : RoutedStmt) : Bool :=
  let unclaimed := buf.pending.filter fun pb => pb.id ∈ routed.batchIds ∧ ¬ pb.claimed
  unclaimed.length ≠ routed.batchIds.dedup.length ||
    routed.keyed.any fun (key, stamp, _) =>
      match buf.keyed with
      | none => true
      | some state => stamp < state.claimedBelow || key ∉ state.entries

/-- Take one keyed entry of a failed statement back, unless a newer one overwrote it. -/
def unrouteKey (entries : KeyedMap) : Key × Nat × Option KeyedEntry → KeyedMap
  | (key, stamp, displaced) =>
    match entries.lookup key with
    | some entry =>
        if entry.stamp = stamp then
          match displaced with
          | some prev => entries.insert key prev
          | none => entries.erase key
        else
          entries
    | none => entries

/-- A statement's durability wait failed: remove what it routed, unless a flush took it. -/
def unrouteFailed (buf : TableBuf) (seq : Nat) (routed : RoutedStmt) : TableBuf :=
  if buf.claims routed then
    buf
  else
    let removed := buf.pending.filter fun pb => pb.id ∈ routed.batchIds
    { buf with
      undurable := buf.undurable.filter (· ≠ seq)
      pending := buf.pending.filter fun pb => pb.id ∉ routed.batchIds
      pendingRows := buf.pendingRows - (removed.map fun pb => pb.batch.length).sum
      keyed := buf.keyed.map fun state =>
        { state with entries := routed.keyed.foldl unrouteKey state.entries } }

/-- The live keyed operations by stamp. -/
def keyedItems (entries : KeyedMap) : List KeyedItem :=
  (entries.entries.map fun entry => (entry.1, entry.2.stamp, entry.2.op)).insertionSort
    fun left right => left.2.1 ≤ right.2.1

/-- Take the pending work without removing it, and mark it claimed. -/
def snapshotPending (buf : TableBuf) : TableBuf × PendingSnapshot :=
  ({ buf with
      pending := buf.pending.map fun pb => { pb with claimed := true }
      keyed := buf.keyed.map fun state => { state with claimedBelow := state.nextStamp } },
    { batches := buf.pending.map PendingBatch.batch
      nBatches := buf.pending.length
      keyed := keyedItems buf.entries
      tailMark := buf.tailHigh })

/-- Remove a snapshotted entry, unless a newer one overwrote it. -/
def drainKey (entries : KeyedMap) (item : KeyedItem) : KeyedMap :=
  match entries.lookup item.1 with
  | some entry => if entry.stamp = item.2.1 then entries.erase item.1 else entries
  | none => entries

/-- Remove exactly the snapshotted entries from the live map. -/
def drainKeyedSnapshot (buf : TableBuf) (keyed : List KeyedItem) : TableBuf :=
  { buf with
    keyed := buf.keyed.map fun state =>
      { state with entries := keyed.foldl drainKey state.entries } }

/-- Remove a pending prefix and its keyed operations. -/
def dropPendingPrefix (buf : TableBuf) (nBatches : Nat) (keyed : List KeyedItem) : TableBuf :=
  let dropped := buf.pending.take nBatches
  let buf : TableBuf :=
    { buf with
      pending := buf.pending.drop nBatches
      pendingRows := buf.pendingRows - (dropped.map fun pb => pb.batch.length).sum }
  buf.drainKeyedSnapshot keyed

/-- Hand a pending prefix and its keyed operations to a commit. -/
def movePendingToFlushed (buf : TableBuf) (nBatches : Nat) (keyed : List KeyedItem)
    (commit : GenCommit) : TableBuf :=
  let moved := buf.pending.take nBatches
  let buf := buf.dropPendingPrefix nBatches keyed
  { buf with
    flushed := buf.flushed ++
      [{ commit, batches := moved.map fun pb => (pb.seq, pb.batch), keyed, aged := false,
         observed := false }] }

/-- Restored batches, under new ids and still claimed. -/
def restore : Nat → List (Option Nat × Batch) → List PendingBatch
  | _, [] => []
  | id, (seq, batch) :: rest => ⟨id, true, seq, batch⟩ :: restore (id + 1) rest

/-- Restore a keyed operation, unless its key has an entry. -/
def restoreKey (entries : KeyedMap) (item : KeyedItem) : KeyedMap :=
  if item.1 ∈ entries then entries else entries.insert item.1 ⟨item.2.1, item.2.2⟩

/-- The commit failed: its rows are the oldest and go back to the front. -/
def moveFlushedBackToPending (buf : TableBuf) (snapshotId : Nat) : TableBuf :=
  match buf.flushed.find? fun gen => gen.commit = .snapshot snapshotId with
  | none => buf
  | some gen =>
      { buf with
        flushed := buf.flushed.eraseP fun gen => gen.commit = .snapshot snapshotId
        pendingRows := buf.pendingRows + (gen.batches.map fun batch => batch.2.length).sum
        nextBatchId := buf.nextBatchId + gen.batches.length
        pending := restore buf.nextBatchId gen.batches ++ buf.pending
        keyed := buf.keyed.map fun state =>
          { state with entries := gen.keyed.foldl restoreKey state.entries } }

/-- Mark the generations that just-loaded metadata contains. -/
def noteObserved (buf : TableBuf) (isCommitted : GenCommit → Bool) : TableBuf :=
  { buf with
    flushed := buf.flushed.map fun gen =>
      { gen with observed := gen.observed || isCommitted gen.commit } }

/-- A generation may go once its commit was observed and it is old enough. -/
def flushedGenExpired (gen : FlushedGen) : Bool :=
  gen.observed && gen.aged

/-- Drop the generations no reader needs. -/
def gcFlushed (buf : TableBuf) : TableBuf :=
  { buf with flushed := buf.flushed.filter fun gen => !flushedGenExpired gen }

end TableBuf

end Icegres.Buffer
