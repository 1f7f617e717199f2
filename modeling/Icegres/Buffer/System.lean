import Icegres.Buffer.Lake
import Icegres.Buffer.Window

/-!
# Buffer, flusher, scans and catalog

One server's buffer for a table together with the catalog. The flusher loads metadata, prepares
a commit on it, hands its work over and posts; the post may be refused because the head moved,
its answer may be lost, and a request whose call failed may still arrive. Scans load metadata and
later take the overlay. Other writers and `expire_snapshots` change the table in between. Every
interleaving is a sequence of `Action`s.
-/

namespace Icegres.Buffer

/-- The catalog's table: every version, and requests nobody waits for any more. -/
structure Lake where
  /-- Earlier versions, the oldest first. -/
  older : List Metadata
  current : Metadata
  strays : List Prepared
  /-- The flush commits that landed, in order. -/
  landed : List Prepared
  nextSnapshot : Nat

namespace Lake

/-- A table with these rows and no snapshot of a flush. -/
def initial (rows : Multiset Row) (watermark : Option Nat) : Lake where
  older := []
  current := { snapshots := [⟨0, 0⟩], head := some 0, refs := [], rows, watermark }
  strays := []
  landed := []
  nextSnapshot := 1

/-- All versions, the oldest first. -/
def versions (lake : Lake) : List Metadata :=
  lake.older ++ [lake.current]

/-- The metadata changes. -/
def publish (lake : Lake) (metadata : Metadata) : Lake :=
  { lake with older := lake.older ++ [lake.current], current := metadata }

/-- A commit reaches the catalog and lands if its head is the head. -/
def arrive (lake : Lake) (prepared : Prepared) : Lake × Bool :=
  if lake.current.head = prepared.head then
    ({ lake.publish (lake.current.commit prepared) with landed := lake.landed ++ [prepared] }, true)
  else
    (lake, false)

end Lake

/-- How far a posted commit got. -/
inductive PostState where
  | sent
  | landed
  | refused
  /-- The call returned an error. -/
  | failed
  deriving DecidableEq

structure Post where
  prepared : Prepared
  /-- The highest tail sequence of the posted work. -/
  mark : Option Nat
  state : PostState

/-- One server's buffer with the registers of its flush attempt. -/
structure Process where
  window : Window
  /-- The metadata the attempt loaded. -/
  loaded : Option Metadata
  post : Option Post

namespace Process

def initial : Process where
  window := Window.initial
  loaded := none
  post := none

/-- Take a step of the window. -/
def move (process : Process) (action : Window.Action) : Option Process := do
  let window ← process.window.step action
  return { process with window }

/-- The watermark a commit of the work would stamp, or `none` if an earlier commit already
covers the work. -/
def stamp (tail : Bool) (watermark mark : Option Nat) : Option (Option Nat) :=
  match tail, mark with
  | true, some mark =>
      if watermark.any fun stamped => mark ≤ stamped then none
      else some (some (max (watermark.getD mark) mark))
  | _, _ => some none

/-- The attempt loads the table and marks what it contains. -/
def load (process : Process) (lake : Lake) : Option Process :=
  match process.window.flusher, process.loaded with
  | .taken _, none => do
      let process ← process.move (.observe lake.current.contains)
      return { process with loaded := some lake.current }
  | _, _ => none

/-- The attempt gives up before it posts; the work stays where it is. -/
def giveUp (process : Process) : Option Process := do
  let process ← process.move .abandon
  return { process with loaded := none }

/-- The attempt prepares its commit on the loaded metadata. Work that an earlier commit covers is
parked, work that nets out to nothing is dropped; otherwise it is handed over and posted. -/
def prepare (process : Process) (lake : Lake) (tail : Bool) (timestamp : Nat) :
    Option (Process × Lake) :=
  match process.window.flusher, process.loaded with
  | .taken snap, some loaded =>
      match stamp tail loaded.watermark snap.tailMark with
      | none => do
          let process ← process.move (.park (snap.tailMark.getD 0))
          return ({ process with loaded := none }, lake)
      | some stamped =>
          match flushOps snap.batches snap.keyed with
          | .error _ => process.giveUp.map (·, lake)
          | .ok ops =>
              match prepareCommit ops loaded.rows with
              | none => do
                  let process ← process.move .drop
                  return ({ process with loaded := none }, lake)
              | some rows => do
                  let prepared : Prepared :=
                    { snapshotId := lake.nextSnapshot
                      timestamp
                      head := loaded.head
                      rows
                      stamped
                      contents := (process.window.buf.pending.take snap.nBatches).map
                        PendingBatch.seq }
                  let process ← process.move (.move lake.nextSnapshot)
                  return ({ process with
                      loaded := none
                      post := some { prepared, mark := snap.tailMark, state := .sent } },
                    { lake with nextSnapshot := lake.nextSnapshot + 1 })
  | _, _ => none

/-- The posted request reaches the catalog. -/
def arrive (process : Process) (lake : Lake) : Option (Process × Lake) :=
  match process.post with
  | some post =>
      if post.state = .sent then
        let (lake, landed) := lake.arrive post.prepared
        some ({ process with
          post := some { post with state := if landed then .landed else .refused } }, lake)
      else
        none
  | none => none

/-- The catalog's answer arrives: the commit landed, or the head had moved. -/
def answer (process : Process) : Option Process :=
  match process.post with
  | some post =>
      match post.state with
      | .landed => do
          let process ← process.move .settle
          return { process with post := none }
      | .refused => do
          let process ← process.move .requeue
          return { process with post := none }
      | _ => none
  | none => none

/-- The call returns an error. A request that has not arrived may still do so later, or is
lost. -/
def error (process : Process) (lake : Lake) (lost : Bool) : Option (Process × Lake) :=
  match process.post with
  | some post =>
      if post.state = .failed then
        none
      else
        some ({ process with post := some { post with state := .failed } },
          if post.state = .sent ∧ ¬ lost then
            { lake with strays := lake.strays ++ [post.prepared] }
          else lake)
  | none => none

/-- After an error the attempt reloads the table, if a tail is attached. It takes the commit for
landed when the stamped watermark covers the work; otherwise the work is queued again. -/
def resolve (process : Process) (lake : Lake) (tail reloads : Bool) : Option Process :=
  match process.post with
  | some post =>
      if post.state = .failed then do
        let covered := tail && reloads && post.mark.any fun mark =>
          lake.current.watermark.any fun stamped => mark ≤ stamped
        let process ← process.move (if covered then .settle else .requeue)
        return { process with post := none }
      else
        none
  | none => none

theorem move_eq_some {process after : Process} {action : Window.Action}
    (moved : process.move action = some after) :
    ∃ window, process.window.step action = some window ∧
      after = { process with window := window } := by
  obtain ⟨window, steps, isAfter⟩ := Option.bind_eq_some_iff.mp moved
  cases isAfter
  exact ⟨window, steps, rfl⟩

theorem load_cases {process after : Process} {lake : Lake}
    (loads : process.load lake = some after) :
    ∃ snap window, process.window.flusher = .taken snap ∧ process.loaded = none ∧
      process.window.step (.observe lake.current.contains) = some window ∧
      after = { process with window := window, loaded := some lake.current } := by
  unfold load at loads
  split at loads
  · next snap isTaken noLoad =>
      obtain ⟨mid, moved, isAfter⟩ := Option.bind_eq_some_iff.mp loads
      obtain ⟨window, steps, rfl⟩ := move_eq_some moved
      cases isAfter
      exact ⟨snap, window, isTaken, noLoad, steps, rfl⟩
  · cases loads

theorem giveUp_cases {process after : Process} (givesUp : process.giveUp = some after) :
    ∃ window, process.window.step .abandon = some window ∧
      after = { process with window := window, loaded := none } := by
  obtain ⟨mid, moved, isAfter⟩ := Option.bind_eq_some_iff.mp givesUp
  obtain ⟨window, steps, rfl⟩ := move_eq_some moved
  cases isAfter
  exact ⟨window, steps, rfl⟩

/-- The commit an attempt posts. -/
def commitOn (process : Process) (lake : Lake) (snap : PendingSnapshot) (loaded : Metadata)
    (timestamp : Nat) (rows : Multiset Row) (stamped : Option Nat) : Prepared where
  snapshotId := lake.nextSnapshot
  timestamp := timestamp
  head := loaded.head
  rows := rows
  stamped := stamped
  contents := (process.window.buf.pending.take snap.nBatches).map PendingBatch.seq

/-- An attempt ends without a post, or posts its work. -/
theorem prepare_cases {process after : Process} {lake next : Lake} {tail : Bool} {timestamp : Nat}
    (prepares : process.prepare lake tail timestamp = some (after, next)) :
    ∃ snap loaded action window, process.window.flusher = .taken snap ∧
      process.loaded = some loaded ∧ process.window.step action = some window ∧
      ((((∃ mark, action = .park mark ∧
            stamp tail loaded.watermark snap.tailMark = none ∧ mark = snap.tailMark.getD 0) ∨
          action = .abandon ∨ action = .drop) ∧
        after = { window := window, loaded := none, post := process.post } ∧ next = lake) ∨
      ∃ rows stamped, action = .move lake.nextSnapshot ∧
        stamp tail loaded.watermark snap.tailMark = some stamped ∧
        after = ⟨window, none, some ⟨process.commitOn lake snap loaded timestamp rows stamped,
          snap.tailMark, .sent⟩⟩ ∧
        next = { lake with nextSnapshot := lake.nextSnapshot + 1 }) := by
  unfold prepare at prepares
  split at prepares
  · next snap loaded isTaken isLoaded =>
      split at prepares
      · next covered =>
          obtain ⟨mid, moved, isAfter⟩ := Option.bind_eq_some_iff.mp prepares
          obtain ⟨window, steps, rfl⟩ := move_eq_some moved
          cases isAfter
          exact ⟨snap, loaded, _, window, isTaken, isLoaded, steps,
            .inl ⟨.inl ⟨_, rfl, covered, rfl⟩, rfl, rfl⟩⟩
      · next stamped isStamp =>
          split at prepares
          · obtain ⟨result, givesUp, isAfter⟩ := Option.map_eq_some_iff.mp prepares
            obtain ⟨window, steps, rfl⟩ := giveUp_cases givesUp
            cases isAfter
            exact ⟨snap, loaded, _, window, isTaken, isLoaded, steps,
              .inl ⟨.inr (.inl rfl), rfl, rfl⟩⟩
          · split at prepares
            · obtain ⟨mid, moved, isAfter⟩ := Option.bind_eq_some_iff.mp prepares
              obtain ⟨window, steps, rfl⟩ := move_eq_some moved
              cases isAfter
              exact ⟨snap, loaded, _, window, isTaken, isLoaded, steps,
                .inl ⟨.inr (.inr rfl), rfl, rfl⟩⟩
            · next rows _ =>
                obtain ⟨mid, moved, isAfter⟩ := Option.bind_eq_some_iff.mp prepares
                obtain ⟨window, steps, rfl⟩ := move_eq_some moved
                cases isAfter
                exact ⟨snap, loaded, _, window, isTaken, isLoaded, steps,
                  .inr ⟨rows, stamped, rfl, isStamp, rfl, rfl⟩⟩
  · cases prepares

end Process

/-- A request that reaches the catalog was sent, and lands when the head is still its own. -/
theorem Process.arrive_cases {process after : Process} {lake next : Lake}
    (arrives : process.arrive lake = some (after, next)) :
    ∃ post, process.post = some post ∧ post.state = .sent ∧
      ((lake.current.head = post.prepared.head ∧
          lake.arrive post.prepared = (next, true) ∧
          after = { process with post := some { post with state := .landed } } ∧
          next = { lake.publish (lake.current.commit post.prepared) with
            landed := lake.landed ++ [post.prepared] }) ∨
        (lake.current.head ≠ post.prepared.head ∧
          lake.arrive post.prepared = (next, false) ∧
          after = { process with post := some { post with state := .refused } } ∧
          next = lake)) := by
  unfold Process.arrive at arrives
  split at arrives
  · next post isPost =>
      split at arrives
      · next isSent =>
          refine ⟨post, isPost, isSent, ?_⟩
          by_cases sameHead : lake.current.head = post.prepared.head
          · have lands : lake.arrive post.prepared = (_, true) := if_pos sameHead
            rw [lands] at arrives
            cases arrives
            exact .inl ⟨sameHead, lands, rfl, rfl⟩
          · have refused : lake.arrive post.prepared = (_, false) := if_neg sameHead
            rw [refused] at arrives
            cases arrives
            exact .inr ⟨sameHead, refused, rfl, rfl⟩
      · cases arrives
  · cases arrives

/-- A call that answers landed and settles its work, or was refused and queues it again. -/
theorem Process.answer_cases {process after : Process} (answers : process.answer = some after) :
    ∃ post window, process.post = some post ∧
      (post.state = .landed ∧ process.window.step .settle = some window ∨
        post.state = .refused ∧ process.window.step .requeue = some window) ∧
      after = { window := window, loaded := process.loaded, post := none } := by
  unfold Process.answer at answers
  split at answers
  · next post isPost =>
      split at answers
      · next isLanded =>
          obtain ⟨mid, moved, isAfter⟩ := Option.bind_eq_some_iff.mp answers
          obtain ⟨window, steps, rfl⟩ := Process.move_eq_some moved
          cases isAfter
          exact ⟨post, window, isPost, .inl ⟨isLanded, steps⟩, rfl⟩
      · next isRefused =>
          obtain ⟨mid, moved, isAfter⟩ := Option.bind_eq_some_iff.mp answers
          obtain ⟨window, steps, rfl⟩ := Process.move_eq_some moved
          cases isAfter
          exact ⟨post, window, isPost, .inr ⟨isRefused, steps⟩, rfl⟩
      · cases answers
  · cases answers

/-- What a keyed statement does. -/
def KeyedStmt.rowOp (stmt : KeyedStmt) : RowOp :=
  .put stmt.pkCols stmt.keyRow (stmt.op none).upserts

/-- One server's buffer for a table, its scans, the tail and the catalog. -/
structure Sys where
  lake : Lake
  process : Process
  /-- The tail's next sequence, if a tail is attached. -/
  nextSeq : Option Nat
  /-- The versions loaded by scans that have not taken the overlay. -/
  scans : List Nat
  /-- The newest version a scan or a flush observed. -/
  seen : Nat
  /-- What the staged statements do, each operation with its statement's tail sequence. -/
  journal : List (Option Nat × RowOp)
  /-- How many operations were staged when the flusher took its work. -/
  taken : Nat

namespace Sys

/-- A server that just started on a table, with or without a tail. A tail numbers statements
above the stamped watermark. -/
def initial (rows : Multiset Row) (watermark : Option Nat) (tail : Bool) : Sys where
  lake := Lake.initial rows watermark
  process := Process.initial
  nextSeq := if tail then some (watermark.getD 0 + 1) else none
  scans := []
  seen := 0
  journal := []
  taken := 0

/-- The staged operations in order. -/
def ops (sys : Sys) : List RowOp :=
  sys.journal.map Prod.snd

inductive Action where
  | append (batches : List Batch)
  | keyed (stmt : KeyedStmt)
  | durable (index : Nat)
  | fail (index : Nat)
  /-- A scan loads a version of the metadata. -/
  | scanLoad (version : Nat)
  /-- A scan takes the overlay. -/
  | scanTake (index : Nat)
  | age (count : Nat)
  | gc
  /-- The flusher takes the pending work. -/
  | take
  | load
  /-- Loading the table or preparing the commit failed. -/
  | giveUp
  | prepare (timestamp : Nat)
  | arrive
  | answer
  | error (lost : Bool)
  | resolve (reloads : Bool)
  /-- A request nobody waits for reaches the catalog. -/
  | stray (index : Nat)
  /-- Another writer commits. -/
  | foreign (rows : Multiset Row) (timestamp : Nat)
  | expire (keepLast : Nat)

def moved (sys : Sys) (action : Window.Action) : Option Sys := do
  let process ← sys.process.move action
  return { sys with process }

def step (sys : Sys) : Action → Option Sys
  | .append batches => do
      let staged := if batches = [] then none else sys.nextSeq
      let after ← sys.moved (.append batches staged none)
      return { after with
        nextSeq := if batches = [] then sys.nextSeq else sys.nextSeq.map (· + 1)
        journal := sys.journal ++
          (insertOps sys.process.window.buf batches).map (staged, ·) }
  | .keyed stmt => do
      let seq ← sys.nextSeq
      let after ← sys.moved (.keyed stmt (some seq) none)
      return { after with
        nextSeq := some (seq + 1)
        journal := sys.journal ++ [(some seq, stmt.rowOp)] }
  | .durable index => sys.moved (.durable index)
  | .fail index => sys.moved (.fail index)
  | .scanLoad version =>
      if sys.seen ≤ version ∧ version < sys.lake.versions.length then
        some { sys with scans := sys.scans ++ [version] }
      else
        none
  | .scanTake index => do
      let version ← sys.scans[index]?
      let metadata ← sys.lake.versions[version]?
      let after ← sys.moved (.observe metadata.contains)
      return { after with
        scans := sys.scans.eraseIdx index
        seen := max sys.seen version }
  | .age count => sys.moved (.age count)
  | .gc => sys.moved .gc
  | .take => do
      let after ← sys.moved .take
      return { after with taken := sys.journal.length }
  | .load => do
      let process ← sys.process.load sys.lake
      return { sys with process, seen := sys.lake.older.length }
  | .giveUp => do
      let process ← sys.process.giveUp
      return { sys with process }
  | .prepare timestamp => do
      let (process, lake) ← sys.process.prepare sys.lake sys.nextSeq.isSome timestamp
      return { sys with process, lake }
  | .arrive => do
      let (process, lake) ← sys.process.arrive sys.lake
      return { sys with process, lake }
  | .answer => do
      let process ← sys.process.answer
      return { sys with process }
  | .error lost => do
      let (process, lake) ← sys.process.error sys.lake lost
      return { sys with process, lake }
  | .resolve reloads => do
      let process ← sys.process.resolve sys.lake sys.nextSeq.isSome reloads
      return { sys with process }
  | .stray index => do
      let prepared ← sys.lake.strays[index]?
      let lake := { sys.lake with strays := sys.lake.strays.eraseIdx index }
      return { sys with lake := (lake.arrive prepared).1 }
  | .foreign rows timestamp =>
      let snapshot : Snapshot := ⟨sys.lake.nextSnapshot, timestamp⟩
      let metadata := { sys.lake.current with
        snapshots := sys.lake.current.snapshots ++ [snapshot]
        head := some snapshot.id
        rows }
      some { sys with
        lake := { sys.lake.publish metadata with nextSnapshot := sys.lake.nextSnapshot + 1 } }
  | .expire keepLast =>
      some { sys with lake := sys.lake.publish (sys.lake.current.expireSnapshots keepLast) }

/-- All that a step can do. -/
inductive Took (sys : Sys) : Action → Sys → Prop
  | append {batches : List Batch} {window : Window}
      (steps : sys.process.window.step
        (.append batches (if batches = [] then none else sys.nextSeq) none) = some window) :
      Took sys (.append batches) { sys with
        process := { sys.process with window }
        nextSeq := if batches = [] then sys.nextSeq else sys.nextSeq.map (· + 1)
        journal := sys.journal ++ (insertOps sys.process.window.buf batches).map
          (if batches = [] then none else sys.nextSeq, ·) }
  | keyed {stmt : KeyedStmt} {seq : Nat} {window : Window} (isSeq : sys.nextSeq = some seq)
      (steps : sys.process.window.step (.keyed stmt (some seq) none) = some window) :
      Took sys (.keyed stmt) { sys with
        process := { sys.process with window }
        nextSeq := some (seq + 1)
        journal := sys.journal ++ [(some seq, stmt.rowOp)] }
  | durable {index : Nat} {window : Window}
      (steps : sys.process.window.step (.durable index) = some window) :
      Took sys (.durable index) { sys with process := { sys.process with window } }
  | fail {index : Nat} {window : Window}
      (steps : sys.process.window.step (.fail index) = some window) :
      Took sys (.fail index) { sys with process := { sys.process with window } }
  | scanLoad {version : Nat} (isSeen : sys.seen ≤ version)
      (bound : version < sys.lake.versions.length) :
      Took sys (.scanLoad version) { sys with scans := sys.scans ++ [version] }
  | scanTake {index version : Nat} {metadata : Metadata} {window : Window}
      (isScan : sys.scans[index]? = some version)
      (found : sys.lake.versions[version]? = some metadata)
      (steps : sys.process.window.step (.observe metadata.contains) = some window) :
      Took sys (.scanTake index) { sys with
        process := { sys.process with window }
        scans := sys.scans.eraseIdx index
        seen := max sys.seen version }
  | age {count : Nat} {window : Window}
      (steps : sys.process.window.step (.age count) = some window) :
      Took sys (.age count) { sys with process := { sys.process with window } }
  | gc {window : Window} (steps : sys.process.window.step .gc = some window) :
      Took sys .gc { sys with process := { sys.process with window } }
  | take {window : Window} (steps : sys.process.window.step .take = some window) :
      Took sys .take { sys with
        process := { sys.process with window }
        taken := sys.journal.length }
  | load {process : Process} (loads : sys.process.load sys.lake = some process) :
      Took sys .load { sys with process, seen := sys.lake.older.length }
  | giveUp {process : Process} (givesUp : sys.process.giveUp = some process) :
      Took sys .giveUp { sys with process }
  | prepare {timestamp : Nat} {process : Process} {lake : Lake}
      (prepares : sys.process.prepare sys.lake sys.nextSeq.isSome timestamp =
        some (process, lake)) :
      Took sys (.prepare timestamp) { sys with process, lake }
  | arrive {process : Process} {lake : Lake}
      (arrives : sys.process.arrive sys.lake = some (process, lake)) :
      Took sys .arrive { sys with process, lake }
  | answer {process : Process} (answers : sys.process.answer = some process) :
      Took sys .answer { sys with process }
  | error {lost : Bool} {process : Process} {lake : Lake}
      (errs : sys.process.error sys.lake lost = some (process, lake)) :
      Took sys (.error lost) { sys with process, lake }
  | resolve {reloads : Bool} {process : Process}
      (resolves : sys.process.resolve sys.lake sys.nextSeq.isSome reloads = some process) :
      Took sys (.resolve reloads) { sys with process }
  | stray {index : Nat} {prepared : Prepared} (found : sys.lake.strays[index]? = some prepared) :
      Took sys (.stray index) { sys with
        lake := ({ sys.lake with strays := sys.lake.strays.eraseIdx index }.arrive prepared).1 }
  | foreign (rows : Multiset Row) (timestamp : Nat) {after : Sys}
      (same : sys.step (.foreign rows timestamp) = some after) :
      Took sys (.foreign rows timestamp) after
  | expire (keepLast : Nat) :
      Took sys (.expire keepLast)
        { sys with lake := sys.lake.publish (sys.lake.current.expireSnapshots keepLast) }

theorem moved_eq_some {sys after : Sys} {action : Window.Action}
    (isMoved : sys.moved action = some after) :
    ∃ window, sys.process.window.step action = some window ∧
      after = { sys with process := { sys.process with window := window } } := by
  obtain ⟨process, moves, isAfter⟩ := Option.bind_eq_some_iff.mp isMoved
  obtain ⟨window, steps, isProcess⟩ := Option.bind_eq_some_iff.mp moves
  cases isAfter
  cases isProcess
  exact ⟨window, steps, rfl⟩

theorem took {sys after : Sys} {action : Action} (taken : sys.step action = some after) :
    sys.Took action after := by
  cases action with
  | foreign rows timestamp => exact .foreign rows timestamp taken
  | expire keepLast =>
      cases taken
      exact .expire keepLast
  | scanLoad version =>
      simp only [step] at taken
      split at taken
      · next seen =>
          cases taken
          exact .scanLoad seen.1 seen.2
      · cases taken
  | durable | fail | age | gc =>
      obtain ⟨window, steps, rfl⟩ := moved_eq_some taken
      constructor
      exact steps
  | append | take =>
      simp only [step, Option.bind_eq_bind, Option.bind_eq_some_iff] at taken
      obtain ⟨mid, isMoved, isAfter⟩ := taken
      obtain ⟨window, steps, rfl⟩ := moved_eq_some isMoved
      cases isAfter
      constructor
      exact steps
  | keyed stmt =>
      simp only [step, Option.bind_eq_bind, Option.bind_eq_some_iff] at taken
      obtain ⟨seq, isSeq, mid, isMoved, isAfter⟩ := taken
      obtain ⟨window, steps, rfl⟩ := moved_eq_some isMoved
      cases isAfter
      exact .keyed isSeq steps
  | scanTake index =>
      simp only [step, Option.bind_eq_bind, Option.bind_eq_some_iff] at taken
      obtain ⟨version, isScan, metadata, found, mid, isMoved, isAfter⟩ := taken
      obtain ⟨window, steps, rfl⟩ := moved_eq_some isMoved
      cases isAfter
      exact .scanTake isScan found steps
  | load | giveUp | prepare | arrive | answer | error | resolve | stray =>
      obtain ⟨result, does, isAfter⟩ := Option.bind_eq_some_iff.mp taken
      cases isAfter
      constructor
      exact does

end Sys

/-- The watermark a step of the flusher announces: that of work that is committed, was committed
before, or nets out to nothing. -/
def Sys.announced (sys : Sys) : Sys.Action → Option Nat
  | .prepare _ =>
      match sys.process.window.flusher, sys.process.loaded with
      | .taken snap, some loaded =>
          match Process.stamp sys.nextSeq.isSome loaded.watermark snap.tailMark,
              flushOps snap.batches snap.keyed with
          | none, _ => snap.tailMark
          | some _, .ok ops =>
              if (prepareCommit ops loaded.rows).isNone then snap.tailMark else none
          | some _, .error _ => none
      | _, _ => none
  | .answer =>
      match sys.process.post with
      | some post => if post.state = .landed then post.mark else none
      | none => none
  | .resolve reloads =>
      match sys.process.post with
      | some post =>
          if sys.nextSeq.isSome && reloads && post.mark.any (fun mark =>
              sys.lake.current.watermark.any fun stamped => mark ≤ stamped) then
            post.mark
          else none
      | none => none
  | _ => none

end Icegres.Buffer
