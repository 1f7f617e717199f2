import Icegres.Buffer.Reads

/-!
# Tables that are only appended to

Without keyed statements nothing in the window is keyed, so every row is counted where its batch
is. What is left to go wrong is the reader's test for committed generations: expiry removes the
snapshot ids it looks for, and collection removes generations an older version still needs.
-/

namespace Icegres.Buffer

/-- Nothing in the buffer is keyed. -/
structure TableBuf.Unkeyed (buf : TableBuf) : Prop where
  keyed : buf.keyed = none
  flushed : ∀ gen ∈ buf.flushed, gen.keyed = []

namespace TableBuf

variable {buf : TableBuf}

theorem Unkeyed.entries (unkeyed : buf.Unkeyed) : buf.entries = ∅ := by
  rw [TableBuf.entries, unkeyed.keyed]
  rfl

/-- Inserted rows are appended. -/
theorem Unkeyed.insertOps (unkeyed : buf.Unkeyed) (batches : List Batch) :
    insertOps buf batches = batches.flatten.map .append := by
  rw [Buffer.insertOps, unkeyed.entries]
  rfl

theorem Unkeyed.stageAppend (unkeyed : buf.Unkeyed) (batches : List Batch)
    (staged replaySeq : Option Nat) : (buf.stageAppend batches staged replaySeq).1.Unkeyed := by
  have noted : (buf.noteStaged staged).Unkeyed := by
    cases staged <;> exact ⟨unkeyed.keyed, unkeyed.flushed⟩
  have plain : (buf.noteStaged staged).entries.keys = [] := by
    rw [noted.entries]
    rfl
  rw [TableBuf.stageAppend, routeAppends]
  simp only [plain, if_true]
  -- a batch only extends the pending list
  suffices pushes : ∀ (routed : RoutedStmt) (start : TableBuf), start.Unkeyed →
      (batches.foldl (fun (result : TableBuf × RoutedStmt) batch =>
        result.1.pushPending result.2 batch (staged.or replaySeq)) (start, routed)).1.Unkeyed from
    pushes ⟨[], []⟩ _ noted
  induction batches with
  | nil => exact fun _ _ start => start
  | cons batch rest ih =>
      intro routed start unkeyed
      exact ih _ _ ⟨unkeyed.keyed, unkeyed.flushed⟩

end TableBuf

namespace Window

/-- Nothing in the window is keyed. -/
structure Unkeyed (window : Window) : Prop where
  buf : window.buf.Unkeyed
  taken : ∀ snap, window.flusher = .taken snap → snap.keyed = []

theorem unkeyed_initial : initial.Unkeyed where
  buf := ⟨rfl, by simp [initial, TableBuf.empty]⟩
  taken := by simp [initial]

/-- Handing over a snapshot without keyed operations. -/
theorem unkeyed_movePending {buf : TableBuf} (flushed : ∀ gen ∈ buf.flushed, gen.keyed = [])
    (keyed : buf.keyed = none) (nBatches : Nat) {items : List KeyedItem} (noItems : items = [])
    (commit : GenCommit) : (buf.movePendingToFlushed nBatches items commit).Unkeyed where
  keyed := by
    simp [TableBuf.movePendingToFlushed, TableBuf.dropPendingPrefix, TableBuf.drainKeyedSnapshot,
      keyed]
  flushed gen mem := by
    rcases List.mem_append.mp mem with old | new
    · exact flushed gen old
    · rw [List.mem_singleton.mp new]
      exact noItems

/-- Only keyed statements bring keys into the window. -/
theorem Unkeyed.step {window after : Window} (unkeyed : window.Unkeyed) {action : Action}
    (noKeyed : ∀ stmt staged replaySeq, action ≠ .keyed stmt staged replaySeq)
    (taken : window.step action = some after) : after.Unkeyed := by
  obtain ⟨⟨keyed, flushed⟩, snapshots⟩ := unkeyed
  cases took taken with
  | @keyed stmt staged replaySeq _ => exact absurd rfl (noKeyed stmt staged replaySeq)
  | @append batches staged replaySeq =>
      exact ⟨TableBuf.Unkeyed.stageAppend ⟨keyed, flushed⟩ batches staged replaySeq, snapshots⟩
  | noteTailHigh | durable => exact ⟨⟨keyed, flushed⟩, snapshots⟩
  | fail =>
      refine ⟨?_, snapshots⟩
      dsimp only [TableBuf.unrouteFailed]
      split
      · exact ⟨keyed, flushed⟩
      · exact ⟨by rw [keyed]; rfl, flushed⟩
  | take =>
      refine ⟨⟨by simp [TableBuf.snapshotPending, keyed], flushed⟩, fun snap isSnap => ?_⟩
      dsimp only at isSnap
      split at isSnap
      · cases isSnap
      · cases isSnap
        rw [TableBuf.snapshotPending, TableBuf.Unkeyed.entries ⟨keyed, flushed⟩]
        rfl
  | abandon | settle => exact ⟨⟨keyed, flushed⟩, by simp [Window.finish]⟩
  | drop =>
      refine ⟨⟨?_, flushed⟩, by simp [Window.finish]⟩
      simp [Window.finish, TableBuf.dropPendingPrefix, TableBuf.drainKeyedSnapshot, keyed]
  | @park _ snap isTaken =>
      exact ⟨unkeyed_movePending flushed keyed _ (snapshots snap isTaken) _,
        by simp [Window.finish]⟩
  | @move _ snap isTaken =>
      exact ⟨unkeyed_movePending flushed keyed _ (snapshots snap isTaken) _, by simp⟩
  | requeue =>
      refine ⟨?_, by simp [Window.finish]⟩
      dsimp only [Window.finish, TableBuf.moveFlushedBackToPending]
      split
      · exact ⟨keyed, flushed⟩
      · exact ⟨by rw [keyed]; rfl, fun gen mem => flushed gen (List.mem_of_mem_eraseP mem)⟩
  | observe =>
      refine ⟨⟨keyed, fun gen mem => ?_⟩, snapshots⟩
      obtain ⟨old, isOld, rfl⟩ := List.mem_map.mp mem
      exact flushed old isOld
  | age =>
      refine ⟨⟨keyed, fun gen mem => ?_⟩, snapshots⟩
      rcases List.mem_append.mp mem with old | kept
      · obtain ⟨gen, isGen, rfl⟩ := List.mem_map.mp old
        exact flushed gen (List.mem_of_mem_take isGen)
      · exact flushed gen (List.mem_of_mem_drop kept)
  | gc => exact ⟨⟨keyed, fun gen mem => flushed gen (List.mem_filter.mp mem).1⟩, snapshots⟩

end Window

/-- Neither stages a statement nor ends one. -/
def Window.Action.Quiet : Window.Action → Prop
  | .append .. | .keyed .. | .noteTailHigh _ | .fail _ => False
  | _ => True

/-- A step of the flusher moves the window quietly, and at most once. -/
def Rests (window after : Window) : Prop :=
  after = window ∨ ∃ action : Window.Action, action.Quiet ∧ window.step action = some after

/-- The window moves at most once, without a keyed statement. -/
def Moves (window after : Window) : Prop :=
  after = window ∨ ∃ action, (∀ stmt staged replaySeq, action ≠ .keyed stmt staged replaySeq) ∧
    window.step action = some after

theorem Rests.moves {window after : Window} (rests : Rests window after) : Moves window after := by
  refine rests.imp_right fun ⟨action, quiet, taken⟩ => ⟨action, ?_, taken⟩
  rintro stmt staged replaySeq rfl
  exact quiet.elim

theorem Window.Unkeyed.moves {window after : Window} (unkeyed : window.Unkeyed)
    (moves : Moves window after) : after.Unkeyed := by
  rcases moves with rfl | ⟨action, noKeyed, taken⟩
  · exact unkeyed
  · exact unkeyed.step noKeyed taken

namespace Process

theorem load_rests {process after : Process} {lake : Lake} (loads : process.load lake = some after) :
    Rests process.window after.window := by
  obtain ⟨snap, window, -, -, steps, rfl⟩ := load_cases loads
  exact .inr ⟨_, by trivial, steps⟩

theorem giveUp_rests {process after : Process} (givesUp : process.giveUp = some after) :
    Rests process.window after.window := by
  obtain ⟨window, steps, rfl⟩ := giveUp_cases givesUp
  exact .inr ⟨_, by trivial, steps⟩

theorem prepare_rests {process : Process} {lake : Lake} {tail : Bool} {timestamp : Nat}
    {after : Process} {next : Lake}
    (prepares : process.prepare lake tail timestamp = some (after, next)) :
    Rests process.window after.window := by
  obtain ⟨snap, loaded, action, window, -, -, steps,
    ⟨⟨_, rfl, -⟩ | rfl | rfl, rfl, -⟩ | ⟨_, _, rfl, -, rfl, -⟩⟩ := prepare_cases prepares
  all_goals exact .inr ⟨_, by trivial, steps⟩

theorem arrive_window {process : Process} {lake : Lake} {after : Process × Lake}
    (arrives : process.arrive lake = some after) : after.1.window = process.window := by
  unfold arrive at arrives
  split at arrives
  · split at arrives
    · cases arrives
      rfl
    · cases arrives
  · cases arrives

theorem answer_rests {process after : Process} (answers : process.answer = some after) :
    Rests process.window after.window := by
  obtain ⟨post, window, -, ⟨-, steps⟩ | ⟨-, steps⟩, rfl⟩ := answer_cases answers
  · exact .inr ⟨.settle, trivial, steps⟩
  · exact .inr ⟨.requeue, trivial, steps⟩

theorem error_window {process : Process} {lake : Lake} {lost : Bool} {after : Process × Lake}
    (errs : process.error lake lost = some after) : after.1.window = process.window := by
  unfold error at errs
  split at errs
  · split at errs
    · cases errs
    · cases errs
      rfl
  · cases errs

theorem resolve_rests {process after : Process} {lake : Lake} {tail reloads : Bool}
    (resolves : process.resolve lake tail reloads = some after) :
    Rests process.window after.window := by
  unfold resolve at resolves
  split at resolves
  · split at resolves
    · obtain ⟨mid, moved, isAfter⟩ := Option.bind_eq_some_iff.mp resolves
      obtain ⟨window, steps, rfl⟩ := move_eq_some moved
      cases isAfter
      refine .inr ⟨_, ?_, steps⟩
      split <;> trivial
    · cases resolves
  · cases resolves

end Process

namespace Sys

variable {rows : Multiset Row} {sys : Sys}

/-- Rows are only appended. -/
def AppendsOnly (_ : Sys) : Action → Prop
  | .keyed _ => False
  | _ => True

/-- The journal stays, or a statement's rows join it under the next sequence. -/
def Journals (sys after : Sys) : Prop :=
  (after.journal = sys.journal ∧ after.nextSeq = sys.nextSeq) ∨
    ∃ batches, after.nextSeq = sys.nextSeq.map (· + 1) ∧
      after.journal = sys.journal ++
        (insertOps sys.process.window.buf batches).map fun op => (sys.nextSeq, op)

/-- What a step without a keyed statement does to the window and the journal. -/
theorem step_moves {action : Action} {after : Sys} (appends : sys.AppendsOnly action)
    (taken : sys.step action = some after) :
    Moves sys.process.window after.process.window ∧ sys.Journals after := by
  cases took taken with
  | keyed => exact appends.elim
  | @append batches window steps =>
      refine ⟨.inr ⟨_, by simp, steps⟩, ?_⟩
      by_cases none : batches = []
      · subst none
        exact .inl ⟨List.append_nil _, rfl⟩
      · refine .inr ⟨batches, if_neg none, ?_⟩
        dsimp only
        rw [if_neg none]
  | durable steps | fail steps | age steps | gc steps | take steps | scanTake _ _ steps =>
      exact ⟨.inr ⟨_, by simp, steps⟩, .inl ⟨rfl, rfl⟩⟩
  | load loads => exact ⟨(Process.load_rests loads).moves, .inl ⟨rfl, rfl⟩⟩
  | giveUp givesUp => exact ⟨(Process.giveUp_rests givesUp).moves, .inl ⟨rfl, rfl⟩⟩
  | prepare prepares => exact ⟨(Process.prepare_rests prepares).moves, .inl ⟨rfl, rfl⟩⟩
  | arrive arrives => exact ⟨.inl (Process.arrive_window arrives), .inl ⟨rfl, rfl⟩⟩
  | answer answers => exact ⟨(Process.answer_rests answers).moves, .inl ⟨rfl, rfl⟩⟩
  | error errs => exact ⟨.inl (Process.error_window errs), .inl ⟨rfl, rfl⟩⟩
  | resolve resolves => exact ⟨(Process.resolve_rests resolves).moves, .inl ⟨rfl, rfl⟩⟩
  | foreign others timestamp same =>
      cases same
      exact ⟨.inl rfl, .inl ⟨rfl, rfl⟩⟩
  | scanLoad | stray | expire => exact ⟨.inl rfl, .inl ⟨rfl, rfl⟩⟩

/-- The rows the staged statements append. -/
def appended (sys : Sys) : Multiset Row :=
  ((sys.ops.filterMap fun op => match op with
    | .append row => some row
    | .put .. => none : List Row) : Multiset Row)

/-- Nothing is keyed, and every staged operation appends a row. -/
structure Unkeyed (sys : Sys) : Prop where
  window : sys.process.window.Unkeyed
  ops : ∃ appended : List Row, sys.ops = appended.map .append

theorem Unkeyed.step (unkeyed : sys.Unkeyed) {action : Action} {after : Sys}
    (appends : sys.AppendsOnly action) (taken : sys.step action = some after) : after.Unkeyed := by
  obtain ⟨moves, journal⟩ := step_moves appends taken
  obtain ⟨appended, isOps⟩ := unkeyed.ops
  refine ⟨unkeyed.window.moves moves, ?_⟩
  rcases journal with ⟨same, -⟩ | ⟨batches, -, grown⟩
  · exact ⟨appended, by rw [← isOps, Sys.ops, same, Sys.ops]⟩
  · refine ⟨appended ++ batches.flatten, ?_⟩
    rw [Sys.ops, grown, List.map_append, List.map_append, unkeyed.window.buf.insertOps, ← isOps,
      List.map_map]
    exact congrArg (sys.ops ++ ·) (List.map_id' _)

/-- Without keys everything that goes back goes back apart. -/
theorem Unkeyed.apart (unkeyed : sys.Unkeyed) (action : Action) : sys.RequeuesApart action := by
  cases action with
  | answer =>
      intro post gen isPost isRefused posted item mem
      obtain ⟨older, flushed, -⟩ := posted
      rw [unkeyed.window.buf.flushed gen (by rw [flushed]; simp)] at mem
      cases mem
  | _ => trivial

theorem Unkeyed.applyRowOps (unkeyed : sys.Unkeyed) (rows : Multiset Row) :
    applyRowOps sys.ops rows = rows + sys.appended := by
  obtain ⟨appended, isOps⟩ := unkeyed.ops
  rw [Sys.appended, isOps, applyRowOps_appends, List.filterMap_map]
  congr 2
  exact (List.filterMap_some).symm

/-- What a scan of a table that is only appended to counts on: expiry keeps the snapshots of
retained generations, and no generation is collected that a scan in flight still needs. -/
structure Counted (sys : Sys) (action : Action) : Prop where
  appends : sys.AppendsOnly action
  definite : sys.Definite action
  expires : sys.ExpiresUnretained action
  collects : sys.CollectsContained action

/-- Every scan counts each appended row exactly once. -/
theorem scan_counts_each_row_once {watermark : Option Nat} {tail : Bool}
    (run : Run step Counted (initial rows watermark tail) sys) {version : Nat}
    (isScan : version ∈ sys.scans) {metadata : Metadata}
    (found : sys.lake.versions[version]? = some metadata) :
    ∃ overlay, (sys.process.window.buf.overlayWith metadata.contains).2 = .ok overlay ∧
      unionRows metadata.rows overlay = rows + sys.appended := by
  have kept (sys : Sys) (action : Action) (after : Sys) (both : sys.View rows ∧ sys.Unkeyed)
      (counted : sys.Counted action) (taken : sys.step action = some after) :
      after.View rows ∧ after.Unkeyed :=
    ⟨both.1.step ⟨counted.definite, both.2.apart action, counted.collects, counted.expires⟩ taken,
      both.2.step counted.appends taken⟩
  obtain ⟨view, unkeyed⟩ := run.invariant kept
    ⟨view_initial rows watermark tail, Window.unkeyed_initial, [], rfl⟩
  obtain ⟨overlay, isOverlay, sees⟩ := view.sees (.inr ⟨version, isScan, found⟩)
  exact ⟨overlay, isOverlay, sees.trans (unkeyed.applyRowOps rows)⟩

/-- Appends and commits with expiry of what no retained generation needs. -/
def counting (sys : Sys) : Action → Bool
  | .keyed _ | .fail _ | .error _ | .resolve _ | .stray _ | .foreign .. => false
  | .gc => sys.scans.isEmpty
  | .expire keepLast => sys.process.window.buf.flushed.all fun gen =>
      !sys.lake.current.contains gen.commit ||
        (sys.lake.current.expireSnapshots keepLast).contains gen.commit
  | _ => true

theorem counting_sound {action : Action} (isCounting : sys.counting action = true) :
    sys.Counted action := by
  cases action with
  | keyed | fail | error | resolve | stray | foreign => cases isCounting
  | gc =>
      refine ⟨trivial, trivial, trivial, fun gen mem expired version isScan => ?_⟩
      rw [List.isEmpty_iff.mp isCounting] at isScan
      cases isScan
  | expire keepLast =>
      refine ⟨trivial, trivial, fun gen mem contains => ?_, trivial⟩
      have kept := List.all_eq_true.mp isCounting gen mem
      rw [contains] at kept
      exact kept
  | _ => exact ⟨trivial, trivial, trivial, trivial⟩

/-- One insert and its flush. -/
def flushOne (row : Row) (timestamp : Nat) : List Action :=
  [.append [[row]], .durable 0, .take, .load, .prepare timestamp, .arrive, .answer]

/-- The older commit's snapshot expires after its generation was collected. -/
def collectedFirst : List Action :=
  flushOne oldRow 1 ++ [.scanLoad 1, .scanTake 0, .age 1, .gc] ++ flushOne newRow 2 ++
    [.expire 1, .scanLoad 3]

theorem scan_counts_each_row_once_collectedFirst :
    let sys := execute step counting (initial 0 none true) collectedFirst
    3 ∈ sys.scans ∧ sys.lake.current.snapshots = [⟨2, 2⟩] ∧
      ∃ metadata, sys.lake.versions[3]? = some metadata ∧
        ∃ overlay, (sys.process.window.buf.overlayWith metadata.contains).2 = .ok overlay ∧
          unionRows metadata.rows overlay = 0 + sys.appended := by
  have isScan : 3 ∈ (execute step counting (initial 0 none true) collectedFirst).scans := by
    decide +kernel
  exact ⟨isScan, by decide +kernel, _, rfl, scan_counts_each_row_once
    (run_execute (fun _ _ => counting_sound) _ collectedFirst) isScan rfl⟩

/-- The older commit's snapshot expires while its generation is retained. -/
def expiredFirst : List Action :=
  flushOne oldRow 1 ++ flushOne newRow 2 ++ [.expire 1, .scanLoad 3]

/-- Neither collection nor anything but appends. -/
def appending (_ : Sys) : Action → Bool
  | .keyed _ | .fail _ | .error _ | .resolve _ | .stray _ | .foreign .. | .gc => false
  | _ => true

theorem appending_sound {action : Action} (isAppending : sys.appending action = true) :
    sys.AppendsOnly action ∧ sys.Definite action ∧ sys.CollectsContained action := by
  cases action with
  | keyed | fail | error | resolve | stray | foreign | gc => cases isAppending
  | _ => exact ⟨trivial, trivial, trivial⟩

/-- The scan counts the older row in the loaded snapshot and again in the generation. -/
theorem not_scan_counts_each_row_once_expiredFirst :
    ∃ sys, Run step (fun sys action => sys.AppendsOnly action ∧ sys.Definite action ∧
        sys.CollectsContained action) (initial 0 none true) sys ∧
      sys.process.window.waiting.length = 0 ∧ sys.appended = {oldRow, newRow} ∧
      ∃ version ∈ sys.scans, ∃ metadata, sys.lake.versions[version]? = some metadata ∧
        ∃ overlay, (sys.process.window.buf.overlayWith metadata.contains).2 = .ok overlay ∧
          unionRows metadata.rows overlay = {oldRow, oldRow, newRow} :=
  ⟨_, run_execute (fun _ _ => appending_sound) _ expiredFirst, by decide +kernel,
    by decide +kernel, 3, by decide +kernel, _, rfl, _, rfl, by decide +kernel⟩

end Sys

end Icegres.Buffer
