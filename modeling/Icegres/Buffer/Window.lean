import Icegres.Buffer.Entries
import Icegres.Transition
import Mathlib.Data.List.Flatten

/-!
# The window of one table

The buffer of a table as a state machine. Statements are staged and later acknowledged or
failed; one flusher takes the pending work, posts it and learns the outcome; scans and loads of
metadata mark generations observed. Every action is one critical section of the source, so every
interleaving of statements, flusher and readers is a sequence of actions. What the flusher and
the readers decide from metadata is left open here.
-/

namespace Icegres.Buffer

/-- A keyed statement as it reaches the buffer: the key's literals, checked against the declared
columns, and for an update the replacement row, which carries the key. -/
structure KeyedStmt where
  pkCols : List Nat
  keyRow : List Scalar
  kind : KeyedKind
  sized : keyRow.length = pkCols.length
  literal : ∀ value ∈ keyRow, (renderSqlLiteral value).isOk = true
  carries : ∀ row, kind = .upsert row → encodeKey pkCols row = keyRow

/-- The statement's buffered operation. A replayed one knows its sequence. -/
def KeyedStmt.op (stmt : KeyedStmt) (seq : Option Nat) : KeyedOp where
  keyCols := stmt.pkCols
  keyRow := stmt.keyRow
  kind := stmt.kind
  seq := seq

/-- A keyed statement addresses its key. -/
theorem KeyedStmt.addresses (stmt : KeyedStmt) (seq : Option Nat) :
    (stmt.op seq).Addresses stmt.pkCols stmt.keyRow where
  cols := rfl
  row := rfl
  sized := stmt.sized
  literal := by
    intro value mem
    have isOk := stmt.literal value mem
    cases rendered : renderSqlLiteral value with
    | ok literal => exact ⟨literal, rfl⟩
    | error why =>
        rw [rendered] at isOk
        cases isOk
  upserts := by
    intro row mem
    apply stmt.carries row
    simp only [KeyedOp.upserts, KeyedStmt.op] at mem
    split at mem
    · next own isUpsert => rw [isUpsert, List.mem_singleton.mp mem]
    · cases mem

/-- A statement between its staging and the end of its durability wait. -/
structure Waiting where
  seq : Nat
  routed : RoutedStmt

/-- Where the table's flusher stands. -/
inductive Flusher where
  | idle
  /-- It holds a snapshot of the pending work. -/
  | taken (snap : PendingSnapshot)
  /-- It handed the work over and posts the commit under this snapshot id. -/
  | posted (snapshotId : Nat)

structure Window where
  buf : TableBuf
  waiting : List Waiting
  flusher : Flusher

namespace Window

/-- A table no statement has touched. -/
def initial : Window where
  buf := TableBuf.empty
  waiting := []
  flusher := .idle

inductive Action where
  /-- Stage an insert under the tail's sequence, or a replayed one under its own. -/
  | append (batches : List Batch) (staged replaySeq : Option Nat)
  | keyed (stmt : KeyedStmt) (staged replaySeq : Option Nat)
  | noteTailHigh (seq : Nat)
  /-- The durability wait of a staged statement ends. -/
  | durable (index : Nat)
  | fail (index : Nat)
  /-- The flusher takes the pending work. -/
  | take
  /-- The flusher could not load the table or prepare the commit. -/
  | abandon
  /-- The commit nets out to nothing. -/
  | drop
  /-- The work was committed before, at or below a watermark. -/
  | park (mark : Nat)
  /-- The flusher hands the work over and posts it. -/
  | move (snapshotId : Nat)
  /-- The commit is known to have landed. -/
  | settle
  /-- The commit failed. -/
  | requeue
  /-- Metadata was loaded that contains these commits. -/
  | observe (isCommitted : GenCommit → Bool)
  /-- Time passes: the oldest generations reach the retention age. -/
  | age (count : Nat)
  | gc

/-- The statement waits if the tail staged it. -/
def await (window : Window) (staged : Option Nat) (result : TableBuf × RoutedStmt) : Window :=
  { window with
    buf := result.1
    waiting := window.waiting ++ (staged.map fun seq => ⟨seq, result.2⟩).toList }

/-- The flusher is done with the attempt. -/
def finish (window : Window) (buf : TableBuf) : Window :=
  { window with buf := buf, flusher := .idle }

/-- Mark the oldest generations as old enough. -/
def ageFirst (count : Nat) (flushed : List FlushedGen) : List FlushedGen :=
  (flushed.take count).map (fun gen => { gen with aged := true }) ++ flushed.drop count

def step (window : Window) : Action → Option Window
  | .append batches staged replaySeq =>
      some (window.await staged (window.buf.stageAppend batches staged replaySeq))
  | .keyed stmt staged replaySeq =>
      match window.buf.stageKeyed stmt.pkCols stmt.keyRow (stmt.op replaySeq) staged with
      | .ok result => some (window.await staged result)
      | .error _ => none
  | .noteTailHigh seq => some { window with buf := window.buf.noteTailHigh seq }
  | .durable index => do
      let stmt ← window.waiting[index]?
      return { window with
        buf := window.buf.noteDurable stmt.seq
        waiting := window.waiting.eraseIdx index }
  | .fail index => do
      let stmt ← window.waiting[index]?
      return { window with
        buf := window.buf.unrouteFailed stmt.seq stmt.routed
        waiting := window.waiting.eraseIdx index }
  | .take =>
      match window.flusher with
      | .idle =>
          let (buf, snap) := window.buf.snapshotPending
          some { window with
            buf := buf
            flusher := if snap.isEmpty then .idle else .taken snap }
      | _ => none
  | .abandon =>
      match window.flusher with
      | .taken _ => some (window.finish window.buf)
      | _ => none
  | .drop =>
      match window.flusher with
      | .taken snap => some (window.finish (window.buf.dropPendingPrefix snap.nBatches snap.keyed))
      | _ => none
  | .park mark =>
      match window.flusher with
      | .taken snap =>
          some (window.finish
            (window.buf.movePendingToFlushed snap.nBatches snap.keyed (.coveredByWatermark mark)))
      | _ => none
  | .move snapshotId =>
      match window.flusher with
      | .taken snap =>
          some { window with
            buf := window.buf.movePendingToFlushed snap.nBatches snap.keyed (.snapshot snapshotId)
            flusher := .posted snapshotId }
      | _ => none
  | .settle =>
      match window.flusher with
      | .posted _ => some (window.finish window.buf)
      | _ => none
  | .requeue =>
      match window.flusher with
      | .posted snapshotId =>
          some (window.finish (window.buf.moveFlushedBackToPending snapshotId))
      | _ => none
  | .observe isCommitted => some { window with buf := window.buf.noteObserved isCommitted }
  | .age count =>
      some { window with
        buf := { window.buf with flushed := ageFirst count window.buf.flushed } }
  | .gc =>
      match window.flusher with
      | .idle => some { window with buf := window.buf.gcFlushed }
      | _ => none

/-- All that a step can do. -/
inductive Took (window : Window) : Action → Window → Prop
  | append {batches : List Batch} {staged replaySeq : Option Nat} :
      Took window (.append batches staged replaySeq)
        (window.await staged (window.buf.stageAppend batches staged replaySeq))
  | keyed {stmt : KeyedStmt} {staged replaySeq : Option Nat} {result : TableBuf × RoutedStmt}
      (stages : window.buf.stageKeyed stmt.pkCols stmt.keyRow (stmt.op replaySeq) staged =
        .ok result) :
      Took window (.keyed stmt staged replaySeq) (window.await staged result)
  | noteTailHigh {seq : Nat} :
      Took window (.noteTailHigh seq) { window with buf := window.buf.noteTailHigh seq }
  | durable {index : Nat} {stmt : Waiting} (found : window.waiting[index]? = some stmt) :
      Took window (.durable index) { window with
        buf := window.buf.noteDurable stmt.seq
        waiting := window.waiting.eraseIdx index }
  | fail {index : Nat} {stmt : Waiting} (found : window.waiting[index]? = some stmt) :
      Took window (.fail index) { window with
        buf := window.buf.unrouteFailed stmt.seq stmt.routed
        waiting := window.waiting.eraseIdx index }
  | take (idle : window.flusher = .idle) :
      Took window .take { window with
        buf := window.buf.snapshotPending.1
        flusher := if window.buf.snapshotPending.2.isEmpty then .idle
          else .taken window.buf.snapshotPending.2 }
  | abandon {snap : PendingSnapshot} (isTaken : window.flusher = .taken snap) :
      Took window .abandon (window.finish window.buf)
  | drop {snap : PendingSnapshot} (isTaken : window.flusher = .taken snap) :
      Took window .drop (window.finish (window.buf.dropPendingPrefix snap.nBatches snap.keyed))
  | park {mark : Nat} {snap : PendingSnapshot} (isTaken : window.flusher = .taken snap) :
      Took window (.park mark) (window.finish
        (window.buf.movePendingToFlushed snap.nBatches snap.keyed (.coveredByWatermark mark)))
  | move {snapshotId : Nat} {snap : PendingSnapshot} (isTaken : window.flusher = .taken snap) :
      Took window (.move snapshotId) { window with
        buf := window.buf.movePendingToFlushed snap.nBatches snap.keyed (.snapshot snapshotId)
        flusher := .posted snapshotId }
  | settle {snapshotId : Nat} (posted : window.flusher = .posted snapshotId) :
      Took window .settle (window.finish window.buf)
  | requeue {snapshotId : Nat} (posted : window.flusher = .posted snapshotId) :
      Took window .requeue (window.finish (window.buf.moveFlushedBackToPending snapshotId))
  | observe {isCommitted : GenCommit → Bool} :
      Took window (.observe isCommitted) { window with buf := window.buf.noteObserved isCommitted }
  | age {count : Nat} :
      Took window (.age count) { window with
        buf := { window.buf with flushed := ageFirst count window.buf.flushed } }
  | gc (idle : window.flusher = .idle) :
      Took window .gc { window with buf := window.buf.gcFlushed }

theorem took {window next : Window} {action : Action} (taken : window.step action = some next) :
    window.Took action next := by
  cases action with
  | append | noteTailHigh | observe | age =>
      cases taken
      constructor
  | durable | fail =>
      obtain ⟨stmt, found, isNext⟩ := Option.bind_eq_some_iff.mp taken
      cases isNext
      constructor
      exact found
  | _ =>
      simp only [step] at taken
      split at taken
      · cases taken
        constructor
        assumption
      · cases taken

/-! ## The keyed operations stay together -/

/-- The keyed operations the flusher holds. -/
def held (window : Window) : List KeyedItem :=
  match window.flusher with
  | .taken snap => snap.keyed
  | _ => []

/-- The undo records of the waiting statements. -/
def undos (window : Window) : List Undo :=
  window.waiting.flatMap fun stmt => stmt.routed.keyed

/-- The buffer, the flusher and the waiting statements belong together. -/
def Sound (window : Window) : Prop :=
  window.buf.Sound window.held window.undos

theorem sound_initial : initial.Sound :=
  ⟨by simp [initial, TableBuf.empty], rfl, rfl⟩

/-- A staged statement keeps its undo record if it waits. -/
theorem Sound.await {window : Window} {staged : Option Nat} {result : TableBuf × RoutedStmt}
    (sound : result.1.Sound window.held (window.undos ++ result.2.keyed)) :
    (window.await staged result).Sound := by
  refine sound.fewer rfl (fun gen mem => ⟨gen, mem, rfl⟩) (fun _ mem => mem) ?_
  cases staged with
  | none => simp [Window.await, undos]
  | some seq => simp [Window.await, undos]

/-- Actions on pending rows, ages and marks leave the keyed operations alone. -/
theorem Sound.outside {window next : Window} (sound : window.Sound)
    (keyed : next.buf.keyed = window.buf.keyed)
    (gens : ∀ gen ∈ next.buf.flushed, ∃ old ∈ window.buf.flushed, gen.keyed = old.keyed)
    (items : ∀ item ∈ next.held, item ∈ window.held)
    (records : next.undos.Sublist window.undos) : next.Sound :=
  TableBuf.Sound.fewer sound keyed gens items records

theorem undos_eraseIdx {window : Window} {index : Nat} {stmt : Waiting}
    (found : window.waiting[index]? = some stmt) :
    window.undos.Perm (stmt.routed.keyed ++
      (window.waiting.eraseIdx index).flatMap fun stmt => stmt.routed.keyed) := by
  have perm : window.waiting.Perm (stmt :: window.waiting.eraseIdx index) := by
    obtain ⟨bound, rfl⟩ := List.getElem?_eq_some_iff.mp found
    exact (List.getElem_cons_eraseIdx_perm bound).symm
  exact perm.flatMap_right _

/-- A failed statement's entries are taken back, unless a snapshot took something of it. -/
theorem Sound.fail {window : Window} {index : Nat} {stmt : Waiting} (sound : window.Sound)
    (found : window.waiting[index]? = some stmt) :
    { window with
      buf := window.buf.unrouteFailed stmt.seq stmt.routed
      waiting := window.waiting.eraseIdx index }.Sound := by
  have records := undos_eraseIdx found
  unfold TableBuf.unrouteFailed
  split
  · exact sound.outside rfl (fun gen mem => ⟨gen, mem, rfl⟩) (fun _ mem => mem)
      ((List.eraseIdx_sublist _ _).flatMap _)
  · next unclaimed =>
      cases known : window.buf.keyed with
      | none =>
          obtain ⟨plain, held, noUndos⟩ := (TableBuf.sound_none known).mp sound
          refine (TableBuf.sound_none rfl).mpr ⟨plain, held, ?_⟩
          have none : window.undos.length = 0 := by rw [noUndos]; rfl
          rw [records.length_eq, List.length_append] at none
          exact List.length_eq_zero_iff.mp (by dsimp only [undos]; omega)
      | some state =>
          have before := ((TableBuf.sound_some known).mp sound).perm records
          refine (TableBuf.sound_some rfl).mpr
            (before.unrouteAll fun undo mem => ?_)
          by_contra claimed
          apply unclaimed
          simp only [TableBuf.claims, known, Bool.or_eq_true, List.any_eq_true]
          exact .inr ⟨undo, mem, by simp [Nat.lt_of_not_ge claimed]⟩

/-- A flusher takes the live entries. -/
theorem Sound.take {window : Window} (sound : window.Sound) :
    { window with
      buf := window.buf.snapshotPending.1
      flusher := if window.buf.snapshotPending.2.isEmpty then .idle
        else .taken window.buf.snapshotPending.2 }.Sound := by
  have isHeld (item : KeyedItem)
      (mem : item ∈ Window.held { window with
        buf := window.buf.snapshotPending.1
        flusher := if window.buf.snapshotPending.2.isEmpty then .idle
          else .taken window.buf.snapshotPending.2 }) :
      item ∈ TableBuf.keyedItems window.buf.entries := by
    unfold held at mem
    dsimp only at mem
    split at mem
    · next snap isSnap =>
        split at isSnap
        · cases isSnap
        · cases isSnap
          exact mem
    · cases mem
  cases known : window.buf.keyed with
  | none =>
      obtain ⟨plain, -, noUndos⟩ := (TableBuf.sound_none known).mp sound
      refine (TableBuf.sound_none (by simp [TableBuf.snapshotPending, known])).mpr
        ⟨plain, List.eq_nil_iff_forall_not_mem.mpr fun item mem => ?_, noUndos⟩
      simpa [TableBuf.entries, known, TableBuf.keyedItems] using isHeld item mem
  | some state =>
      have before := (TableBuf.sound_some known).mp sound
      refine (TableBuf.sound_some (by simp only [TableBuf.snapshotPending, known]; rfl)).mpr ?_
      refine before.take.fewer (fun gen mem => ⟨gen, mem, rfl⟩) (fun item mem => ?_) (.refl _)
      rw [← TableBuf.entries_of_keyed known]
      exact isHeld item mem

/-- A statement's key may be declared and its entry overwritten. -/
theorem Sound.keyed {window : Window} {stmt : KeyedStmt} {staged replaySeq : Option Nat}
    {result : TableBuf × RoutedStmt} (sound : window.Sound)
    (stages : window.buf.stageKeyed stmt.pkCols stmt.keyRow (stmt.op replaySeq) staged =
      .ok result) :
    result.1.Sound window.held (window.undos ++ result.2.keyed) ∧
      result.1.flushed = window.buf.flushed := by
  have addresses := stmt.addresses (staged.or replaySeq)
  have flushed : (window.buf.noteStaged staged).flushed = window.buf.flushed := by
    cases staged <;> rfl
  unfold TableBuf.stageKeyed at stages
  dsimp only at stages
  split at stages
  · cases stages
  · next allowed =>
      cases stages
      refine ⟨?_, flushed⟩
      rw [TableBuf.sound_some rfl]
      change KeyedState.Sound _ (window.buf.noteStaged staged).flushed _ _
      rw [flushed]
      cases known : window.buf.keyed with
      | none =>
          obtain ⟨plain, held, noUndos⟩ := (TableBuf.sound_none known).mp sound
          -- the first keyed statement of the table
          have start : ({ pkCols := stmt.pkCols, entries := ∅, nextStamp := 1, claimedBelow := 1 } :
              KeyedState).Sound window.buf.flushed window.held window.undos := by
            rw [held, noUndos]
            constructor <;> simp +contextual [plain]
          exact start.overwrite _ addresses
      | some state =>
          have before := (TableBuf.sound_some known).mp sound
          rw [known] at allowed
          have declared : { state with pkCols := stmt.pkCols }.Sound window.buf.flushed
              window.held window.undos := by
            by_cases same : state.pkCols = stmt.pkCols
            · rw [← same]
              exact before
            · simp only [Option.getD_some, ne_eq, same, not_false_eq_true, true_and, not_or,
                not_exists, not_and, not_not] at allowed
              exact before.redeclare stmt.pkCols allowed.1 allowed.2
          exact declared.overwrite _ addresses

/-- The work a flusher holds leaves the live entries. -/
theorem Sound.drain {window : Window} {snap : PendingSnapshot} (sound : window.Sound)
    (taken : window.flusher = .taken snap) {next : Window}
    (keyed : next.buf.keyed = window.buf.keyed.map fun state =>
      { state with entries := snap.keyed.foldl TableBuf.drainKey state.entries })
    (gens : next.buf.flushed = window.buf.flushed ∨
      ∃ gen : FlushedGen, gen.keyed = snap.keyed ∧
        next.buf.flushed = window.buf.flushed ++ [gen])
    (done : next.held = []) (records : next.undos = window.undos) : next.Sound := by
  have isHeld : window.held = snap.keyed := by rw [held, taken]
  unfold Sound
  rw [done, records]
  cases known : window.buf.keyed with
  | none =>
      obtain ⟨plain, noItems, noUndos⟩ := (TableBuf.sound_none known).mp sound
      refine (TableBuf.sound_none (by rw [keyed, known]; rfl)).mpr ⟨?_, rfl, noUndos⟩
      rcases gens with same | ⟨gen, isSnap, more⟩
      · rwa [same]
      · rw [more]
        intro other mem
        rcases List.mem_append.mp mem with old | new
        · exact plain other old
        · rw [List.mem_singleton.mp new, isSnap, ← isHeld, noItems]
  | some state =>
      have before := (TableBuf.sound_some known).mp sound
      have after := before.drain
      rw [isHeld] at after
      rw [TableBuf.sound_some (by rw [keyed, known]; rfl)]
      rcases gens with same | ⟨gen, isSnap, more⟩
      · rwa [same]
      · rw [more]
        refine after.flush fun item mem => ?_
        obtain ⟨addresses, below, -⟩ := before.holding item (by rwa [isHeld, ← isSnap])
        exact ⟨addresses, below.trans_le before.claimed⟩

/-- A failed commit's operations come back. -/
theorem Sound.requeue {window : Window} {snapshotId : Nat} (sound : window.Sound)
    (posted : window.flusher = .posted snapshotId) :
    (window.finish (window.buf.moveFlushedBackToPending snapshotId)).Sound := by
  have free : window.held = [] := by rw [held, posted]
  unfold TableBuf.moveFlushedBackToPending
  split
  · exact sound.outside rfl (fun gen mem => ⟨gen, mem, rfl⟩) (by simp [finish, held]) (.refl _)
  · next gen isGen =>
      have mem := List.mem_of_find?_eq_some isGen
      have gens : ∀ other ∈ window.buf.flushed.eraseP fun gen => gen.commit = .snapshot snapshotId,
          ∃ old ∈ window.buf.flushed, other.keyed = old.keyed :=
        fun other isOther => ⟨other, List.mem_of_mem_eraseP isOther, rfl⟩
      cases known : window.buf.keyed with
      | none =>
          obtain ⟨plain, -, noUndos⟩ := (TableBuf.sound_none known).mp sound
          refine (TableBuf.sound_none rfl).mpr ⟨?_, rfl, noUndos⟩
          exact fun other isOther => plain other (List.mem_of_mem_eraseP isOther)
      | some state =>
          have before := (TableBuf.sound_some known).mp sound
          refine (TableBuf.sound_some rfl).mpr ?_
          exact (before.restore mem).fewer gens (by simp [finish, held]) (.refl _)

/-- Every action keeps the keyed operations together. -/
theorem Sound.step {window next : Window} {action : Action} (sound : window.Sound)
    (taken : window.step action = some next) : next.Sound := by
  have keep (gen : FlushedGen) (mem : gen ∈ window.buf.flushed) :
      ∃ old ∈ window.buf.flushed, gen.keyed = old.keyed := ⟨gen, mem, rfl⟩
  cases took taken with
  | @append batches staged replaySeq =>
      have noted : (window.buf.noteStaged staged).Sound window.held window.undos :=
        TableBuf.Sound.congr sound (by cases staged <;> rfl) (by cases staged <;> rfl)
      obtain ⟨ops, routes, -⟩ := routes_routeAppends (window.buf.noteStaged staged) batches
        (staged.or replaySeq)
      exact Sound.await (noted.routes routes).1
  | keyed stages => exact Sound.await (sound.keyed stages).1
  | noteTailHigh => exact sound.outside rfl keep (fun _ mem => mem) (.refl _)
  | durable =>
      exact sound.outside rfl keep (fun _ mem => mem) ((List.eraseIdx_sublist _ _).flatMap _)
  | fail found => exact sound.fail found
  | take => exact sound.take
  | abandon | settle => exact sound.outside rfl keep (by simp [finish, held]) (.refl _)
  | drop isTaken => exact sound.drain isTaken rfl (.inl rfl) rfl rfl
  | park isTaken | move isTaken => exact sound.drain isTaken rfl (.inr ⟨_, rfl, rfl⟩) rfl rfl
  | requeue posted => exact sound.requeue posted
  | observe =>
      refine sound.outside rfl (fun gen mem => ?_) (fun _ mem => mem) (.refl _)
      obtain ⟨old, isOld, rfl⟩ := List.mem_map.mp mem
      exact ⟨old, isOld, rfl⟩
  | age =>
      refine sound.outside rfl (fun gen mem => ?_) (fun _ mem => mem) (.refl _)
      rcases List.mem_append.mp mem with old | kept
      · obtain ⟨gen, isGen, rfl⟩ := List.mem_map.mp old
        exact ⟨gen, List.mem_of_mem_take isGen, rfl⟩
      · exact ⟨gen, List.mem_of_mem_drop kept, rfl⟩
  | gc =>
      refine sound.outside rfl (fun gen mem => ?_) (fun _ mem => mem) (.refl _)
      exact ⟨gen, (List.mem_filter.mp mem).1, rfl⟩

/-- The keyed operations stay together in every run. -/
theorem Sound.run {window : Window} (run : Run Window.step Unrestricted initial window) :
    window.Sound :=
  run.invariant (fun _ _ _ sound _ taken => sound.step taken) sound_initial

end Window

/-- What is left to flush, the oldest first: the generations that the metadata lacks, and the live
window. -/
def Window.unflushed (window : Window) (isCommitted : GenCommit → Bool) :
    List (List Batch × List KeyedItem) :=
  let lacking := window.buf.flushed.filter fun gen => ¬ isCommitted gen.commit
  let live := (window.buf.pending.map PendingBatch.batch, TableBuf.keyedItems window.buf.entries)
  lacking.map (fun gen => (gen.batches.map Prod.snd, gen.keyed)) ++ [live]

/-- In every reachable state and for every set of commits a scan's metadata may contain, the
scan sees the rows that flushing the remaining generations and the live window, the oldest
first, would leave in the table. -/
theorem overlay_eq_flush {window : Window}
    (reached : Run Window.step Unrestricted Window.initial window)
    (isCommitted : GenCommit → Bool) (committed : Multiset Row) :
    ∃ overlay, (window.buf.overlayWith isCommitted).2 = .ok overlay ∧
      commitWindows (window.unflushed isCommitted) committed =
        .ok (unionRows committed overlay) :=
  TableBuf.unionRows_overlayWith (Window.Sound.run reached).well isCommitted committed

/-- Delete or replace the row whose first column holds the number. -/
def byFirstColumn (number : Int) (replacement : Option Scalar) : KeyedStmt where
  pkCols := [0]
  keyRow := [.int number]
  kind := match replacement with
    | some value => .upsert [.int number, value]
    | none => .delete
  sized := rfl
  literal := by
    intro value mem
    cases List.mem_singleton.mp mem
    rfl
  carries := by
    intro row isUpsert
    cases replacement with
    | none => cases isUpsert
    | some value =>
        cases isUpsert
        rfl

/-- A posted generation and a live window that touch the same keys. -/
def overlapping : List Window.Action :=
  [.append [[[.int 1, .bool true]], [[.int 2, .bool true]]] (some 1) none,
   .keyed (byFirstColumn 1 (some (.bool false))) (some 2) none,
   .take, .move 7,
   .keyed (byFirstColumn 1 none) (some 3) none,
   .append [[[.int 1, .text "again"], [.int 2, .null]]] (some 4) none]

/-- The state after them. -/
def overlapped : Window :=
  execute Window.step (fun _ _ => true) Window.initial overlapping

/-- The generation and the window both touch the first key; both ways of reading give one row
for it and two for the other. -/
theorem overlay_eq_flush_overlapped :
    (overlapped.buf.flushed.map fun gen => gen.keyed.map Prod.fst) = [[[.int 1]]] ∧
      overlapped.buf.entries.keys = [[.int 1]] ∧
      ∃ overlay, (overlapped.buf.overlayWith fun _ => false).2 = .ok overlay ∧
        commitWindows (overlapped.unflushed fun _ => false) {[.int 1, .text "old"]} =
          .ok (unionRows {[.int 1, .text "old"]} overlay) :=
  ⟨by decide +kernel, by decide +kernel,
    overlay_eq_flush (run_execute (fun _ _ _ => trivial) _ overlapping) _ _⟩

end Icegres.Buffer
