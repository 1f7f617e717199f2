import Icegres.Buffer.Tail

/-!
# The window after a crash

One server with its tail. Every staged statement writes a frame; a finished flush records its mark
in the sidecar and forgets the frames the mark covers. A crash at any point leaves the committed
table and the frames, from which boot rebuilds the window. Live inserts are routed by the live
keyed entries, among them those a running flush is about to take away, and replayed ones by the
keyed frames above the watermark.
-/

namespace Icegres.Buffer

/-- A server with its tail. -/
structure Logged where
  sys : Sys
  frames : List Frame
  /-- The watermark recorded beside the frames. -/
  sidecar : Option Nat
  /-- The mark of a finished flush whose frames are not forgotten yet. -/
  covered : Option Nat

namespace Logged

/-- A server that just started with nothing to replay. -/
def initial (rows : Multiset Row) (property sidecar : Option Nat) : Logged where
  sys :=
    { Sys.initial rows property true with
      nextSeq := some ((effectiveWatermark property sidecar).getD 0 + 1) }
  frames := []
  sidecar
  covered := none

abbrev buf (log : Logged) : TableBuf :=
  log.sys.process.window.buf

abbrev flusher (log : Logged) : Flusher :=
  log.sys.process.window.flusher

abbrev table (log : Logged) : Metadata :=
  log.sys.lake.current

def watermark (log : Logged) : Option Nat :=
  effectiveWatermark log.table.watermark log.sidecar

inductive Action where
  | flow (action : Sys.Action)
  /-- The flusher records the mark of a finished flush, unless that fails, and forgets frames it
  covers; segments that hold others too are kept. -/
  | forget (recorded : Bool) (kept : Nat → Bool)

/-- The frame a statement writes. -/
def written (sys : Sys) : Sys.Action → List Frame
  | .append batches =>
      if batches = [] then [] else sys.nextSeq.toList.map fun seq => (seq, .append batches)
  | .keyed stmt => sys.nextSeq.toList.map fun seq => (seq, stmt.frame)
  | _ => []

/-- The flusher forgets the frames of one flush before it starts the next. -/
def starts : Sys.Action → Bool
  | .take => true
  | _ => false

def step (log : Logged) : Action → Option Logged
  | .flow action =>
      if starts action ∧ log.covered.isSome then
        none
      else do
        let sys ← log.sys.step action
        return { log with
          sys
          frames := log.frames ++ written log.sys action
          covered := (log.sys.announced action).or log.covered }
  | .forget recorded kept => do
      let mark ← log.covered
      return if recorded then
        { log with
          frames := log.frames.filter fun frame => mark < frame.1 || kept frame.1
          sidecar := some (max (log.sidecar.getD mark) mark)
          covered := none }
      else
        { log with covered := none }

/-- The union view over the live window. -/
def live (log : Logged) : Except String (Multiset Row) := do
  let overlay ← (log.buf.overlayWith log.table.contains).2
  return unionRows log.table.rows overlay

/-- The union view over the window that boot would rebuild. -/
def rebuilt (pkCols : List Nat) (log : Logged) : Except String (Multiset Row) := do
  let buf ← replayTail pkCols log.frames log.watermark
  let overlay ← (buf.overlayWith log.table.contains).2
  return unionRows log.table.rows overlay

/-- Statements on the table's primary key are acknowledged, and commits have a definite outcome.
Other writers leave the rows alone. -/
def Acknowledged (pkCols : List Nat) (log : Logged) : Action → Prop
  | .flow action =>
      log.sys.Definite action ∧ log.sys.Unexpired action ∧ log.sys.Declared pkCols action
  | .forget .. => True

/-- What the frames above a mark carry. -/
def above (log : Logged) (mark : Option Nat) : List TailOp :=
  (dropStaleFrames log.frames mark).map Prod.snd

/-- The key is in flight: the running flush has taken its live entry, or its keyed frames are not
covered by a committed watermark and its entry has left the live map. -/
def InFlight (pkCols : List Nat) (log : Logged) (key : Key) : Prop :=
  match log.buf.entries.lookup key with
  | some entry => ∃ snap, log.flusher = .taken snap ∧ (key, entry.stamp, entry.op) ∈ snap.keyed
  | none => key ∈ keysOf pkCols (log.above log.watermark)

/-- No inserted row is of a key in flight. -/
def Grounded (pkCols : List Nat) (log : Logged) : Action → Prop
  | .flow (.append batches) =>
      ∀ row ∈ batches.flatten, ¬ log.InFlight pkCols (encodeKey pkCols row)
  | _ => True

/-! ## Frames above a mark -/

variable {pkCols : List Nat} {rows : Multiset Row} {log after : Logged} {mark : Nat}

theorem dropStaleFrames_append (frames more : List Frame) (mark : Option Nat) :
    dropStaleFrames (frames ++ more) mark =
      dropStaleFrames frames mark ++ dropStaleFrames more mark := by
  cases mark with
  | none => rfl
  | some mark => exact List.filter_append ..

/-- Frames above the mark all survive. -/
theorem dropStaleFrames_eq_self {frames : List Frame} {mark : Option Nat}
    (later : ∀ frame ∈ frames, ∀ stamped, mark = some stamped → stamped < frame.1) :
    dropStaleFrames frames mark = frames := by
  cases mark with
  | none => rfl
  | some mark =>
      rw [dropStaleFrames, List.filter_eq_self]
      exact fun frame mem => decide_eq_true (later frame mem mark rfl)

/-- Frames up to the mark are dropped. -/
theorem dropStaleFrames_eq_nil {frames : List Frame} {mark : Nat}
    (covered : ∀ frame ∈ frames, frame.1 ≤ mark) : dropStaleFrames frames (some mark) = [] := by
  rw [dropStaleFrames, List.filter_eq_nil_iff]
  exact fun frame mem later => (covered frame mem).not_gt (of_decide_eq_true later)

/-- Forgetting covered frames does not change what survives. -/
theorem dropStaleFrames_forget (frames : List Frame) (kept : Nat → Bool) {mark stamped : Nat}
    (covers : mark ≤ stamped) :
    dropStaleFrames (frames.filter fun frame => mark < frame.1 || kept frame.1) (some stamped) =
      dropStaleFrames frames (some stamped) := by
  simp only [dropStaleFrames, List.filter_filter]
  apply List.filter_congr
  intro frame _
  by_cases later : stamped < frame.1
  · simp [later, covers.trans_lt later]
  · simp [later]

/-- A stamp that is not below the sidecar is the watermark. -/
theorem effectiveWatermark_stamped {property sidecar : Option Nat}
    (covers : ∀ stamped, effectiveWatermark property sidecar = some stamped → stamped ≤ mark) :
    effectiveWatermark (some mark) sidecar = some mark := by
  cases sidecar with
  | none => rfl
  | some recorded =>
      have below : recorded ≤ mark := by
        cases property with
        | none => exact covers recorded rfl
        | some stamped => exact (le_max_right stamped recorded).trans (covers _ rfl)
      rw [effectiveWatermark, max_eq_left below]

/-- Recording a mark that is not below the watermark makes it the watermark. -/
theorem effectiveWatermark_recorded {property sidecar : Option Nat}
    (covers : ∀ stamped, effectiveWatermark property sidecar = some stamped → stamped ≤ mark) :
    effectiveWatermark property (some (max (sidecar.getD mark) mark)) = some mark := by
  cases property with
  | none =>
      cases sidecar with
      | none => simp [effectiveWatermark]
      | some recorded => simpa [effectiveWatermark] using covers recorded rfl
  | some stamped =>
      cases sidecar with
      | none => simpa [effectiveWatermark] using covers stamped rfl
      | some recorded =>
          have both := covers _ rfl
          simp only [effectiveWatermark, Option.getD_some, Option.some.injEq]
          omega

/-- Recording a mark that the table covers changes nothing. -/
theorem effectiveWatermark_covered {stamped : Nat} (covered : mark ≤ stamped)
    (sidecar : Option Nat) :
    effectiveWatermark (some stamped) (some (max (sidecar.getD mark) mark)) =
      effectiveWatermark (some stamped) sidecar := by
  cases sidecar with
  | none => simp [effectiveWatermark, covered]
  | some recorded =>
      simp only [effectiveWatermark, Option.getD_some, Option.some.injEq]
      omega

/-- The staged operations from one on are what the frames above a mark do. -/
structure Cut (pkCols : List Nat) (log : Logged) (mark : Option Nat) (count : Nat) : Prop where
  bound : count ≤ log.sys.ops.length
  ops : log.sys.ops.drop count = opsOf pkCols [] (log.above mark)

/-- A statement is in both, if its frame does what it does. -/
theorem Cut.grow {mark : Option Nat} {count : Nat} (cut : log.Cut pkCols mark count)
    {more : List RowOp} {tail : List TailOp} (grown : after.sys.ops = log.sys.ops ++ more)
    (above : after.above mark = log.above mark ++ tail)
    (does : more = opsOf pkCols (keysOf pkCols (log.above mark)) tail) :
    after.Cut pkCols mark count where
  bound := by
    rw [grown, List.length_append]
    exact cut.bound.trans (Nat.le_add_right _ _)
  ops := by
    rw [grown, List.drop_append_of_le_length cut.bound, cut.ops, above, opsOf_append, does,
      List.nil_append]

/-- The live window without the work of a flush is what the frames above its mark rebuild. -/
structure Ready (pkCols : List Nat) (log : Logged) (mark : Nat) (live : Key → Prop) : Prop where
  reached : ∃ high, log.buf.tailHigh = some high ∧ mark ≤ high
  covers : ∀ stamped, log.watermark = some stamped → stamped ≤ mark
  cut : log.Cut pkCols (some mark) log.sys.taken
  keys : ∀ key, live key ↔ key ∈ keysOf pkCols (log.above (some mark))

theorem Ready.congr {live other : Key → Prop} (ready : log.Ready pkCols mark live)
    (tailHigh : after.buf.tailHigh = log.buf.tailHigh) (effective : after.watermark = log.watermark)
    (ops : after.sys.ops = log.sys.ops) (taken : after.sys.taken = log.sys.taken)
    (above : after.above (some mark) = log.above (some mark))
    (same : ∀ key, other key ↔ live key) : after.Ready pkCols mark other where
  reached := by rw [tailHigh]; exact ready.reached
  covers := by rw [effective]; exact ready.covers
  cut :=
    ⟨by rw [ops, taken]; exact ready.cut.bound, by rw [ops, taken, above]; exact ready.cut.ops⟩
  keys key := by rw [same, above]; exact ready.keys key

/-- The key's entry is newer than what a snapshot took. -/
def Newer (buf : TableBuf) (key : Key) : Prop :=
  ∃ entry, buf.entries.lookup key = some entry ∧ buf.claimedBelow ≤ entry.stamp

/-- The keys of a posted commit are those of uncovered frames, and no pending row is of one. -/
def Lifted (pkCols : List Nat) (log : Logged) (post : Post) : Prop :=
  ∀ gen ∈ log.buf.flushed, gen.commit = .snapshot post.prepared.snapshotId →
    ∀ item ∈ gen.keyed, item.1 ∈ keysOf pkCols (log.above log.watermark) ∧
      ∀ pb ∈ log.buf.pending, ∀ row ∈ pb.batch, encodeKey pkCols row ≠ item.1

/-- The table covers the mark. -/
def Stamped (log : Logged) (mark : Nat) : Prop :=
  ∃ stamped, log.table.watermark = some stamped ∧ mark ≤ stamped

/-- Frames are numbered below the next sequence, and watermarks at most as high as the window. -/
structure Numbered (pkCols : List Nat) (log : Logged) : Prop where
  staged : ∀ frame ∈ log.frames, frame.2.Staged pkCols
  next : ∃ next, log.sys.nextSeq = some next ∧
    ∀ stamped, log.watermark = some stamped → stamped < next
  logged : ∀ frame ∈ log.frames, ∃ high, log.buf.tailHigh = some high ∧ frame.1 ≤ high
  recorded : ∀ high, log.buf.tailHigh = some high →
    ∀ stamped, log.watermark = some stamped → stamped ≤ high

theorem Numbered.congr (numbered : log.Numbered pkCols)
    (nextSeq : after.sys.nextSeq = log.sys.nextSeq)
    (tailHigh : after.buf.tailHigh = log.buf.tailHigh) (effective : after.watermark = log.watermark)
    (frames : ∀ frame ∈ after.frames, frame ∈ log.frames) : after.Numbered pkCols where
  staged frame mem := numbered.staged frame (frames frame mem)
  next := by rw [nextSeq, effective]; exact numbered.next
  logged frame mem := by rw [tailHigh]; exact numbered.logged frame (frames frame mem)
  recorded := by rw [tailHigh, effective]; exact numbered.recorded

/-- The committed table and the frames above its watermark are the staged operations in order.
Every live key has a keyed frame among them. -/
structure Grown (pkCols : List Nat) (rows : Multiset Row) (log : Logged) : Prop where
  committed : ∃ count, log.Cut pkCols log.watermark count ∧
    applyRowOps (log.sys.ops.take count) rows = log.table.rows
  live : ∀ key ∈ log.buf.entries, key ∈ keysOf pkCols (log.above log.watermark)

/-- Keys may leave the live map. -/
theorem Grown.congr (grown : log.Grown pkCols rows) (ops : after.sys.ops = log.sys.ops)
    (effective : after.watermark = log.watermark)
    (above : after.above log.watermark = log.above log.watermark)
    (sameRows : after.table.rows = log.table.rows)
    (live : ∀ key ∈ after.buf.entries,
      key ∈ log.buf.entries ∨ key ∈ keysOf pkCols (log.above log.watermark)) :
    after.Grown pkCols rows where
  committed := by
    obtain ⟨count, isCut, isRows⟩ := grown.committed
    rw [effective, sameRows, ops]
    exact ⟨count, ⟨by rw [ops]; exact isCut.bound, by rw [ops, above]; exact isCut.ops⟩, isRows⟩
  live key mem := by
    rw [effective, above]
    exact (live key mem).elim (grown.live key) (fun isKey => isKey)

/-- When the mark of a flush becomes the watermark, its work is committed. -/
theorem Ready.commits (ready : log.Ready pkCols mark (· ∈ log.buf.entries))
    (effective : after.watermark = some mark) (ops : after.sys.ops = log.sys.ops)
    (above : after.above (some mark) = log.above (some mark))
    (entries : after.buf.entries = log.buf.entries)
    (committed : applyRowOps (log.sys.ops.take log.sys.taken) rows = after.table.rows) :
    after.Grown pkCols rows where
  committed := by
    rw [effective, ops]
    exact ⟨log.sys.taken, ⟨by rw [ops]; exact ready.cut.bound,
      by rw [ops, above]; exact ready.cut.ops⟩, committed⟩
  live key mem := by
    rw [effective, above]
    exact (ready.keys key).mp (entries ▸ mem)

/-- Such a mark is one the window has reached. -/
theorem Numbered.stamp (numbered : log.Numbered pkCols) {high next : Nat}
    (isHigh : log.buf.tailHigh = some high) (reached : mark ≤ high)
    (isNext : log.sys.nextSeq = some next) (below : high < next)
    (nextSeq : after.sys.nextSeq = log.sys.nextSeq)
    (tailHigh : after.buf.tailHigh = log.buf.tailHigh) (effective : after.watermark = some mark)
    (frames : ∀ frame ∈ after.frames, frame ∈ log.frames) : after.Numbered pkCols where
  staged frame mem := numbered.staged frame (frames frame mem)
  next := by
    rw [nextSeq, effective]
    refine ⟨next, isNext, fun stamped isStamped => ?_⟩
    cases isStamped
    exact reached.trans_lt below
  logged frame mem := by rw [tailHigh]; exact numbered.logged frame (frames frame mem)
  recorded other isOther stamped isStamped := by
    rw [tailHigh, isHigh] at isOther
    rw [effective] at isStamped
    cases isOther
    cases isStamped
    exact reached

/-- The window is what a crash would leave, now and when the running flush commits. -/
structure Replayable (pkCols : List Nat) (rows : Multiset Row) (log : Logged) : Prop where
  view : log.sys.unread.View rows
  covers : log.sys.Covers rows
  journaled : log.sys.Journaled pkCols
  numbered : log.Numbered pkCols
  grown : log.Grown pkCols rows
  flushing : ∀ snap, log.flusher = .taken snap →
    ∃ mark, snap.tailMark = some mark ∧ log.Ready pkCols mark (Newer log.buf)
  posted : ∀ post, log.sys.process.post = some post →
    ∃ mark, post.mark = some mark ∧
      (post.state = .landed ∧ log.Stamped mark ∨
        post.state ≠ .landed ∧ log.Ready pkCols mark (· ∈ log.buf.entries) ∧
          log.Lifted pkCols post)
  finished : ∀ mark, log.covered = some mark → log.flusher = .idle ∧
    (∃ high, log.buf.tailHigh = some high ∧ mark ≤ high) ∧
    (log.Stamped mark ∨ log.Ready pkCols mark (· ∈ log.buf.entries) ∧
      applyRowOps (log.sys.ops.take log.sys.taken) rows = log.table.rows)

theorem step_flow_eq_some {action : Sys.Action} (taken : log.step (.flow action) = some after) :
    ∃ sys, log.sys.step action = some sys ∧ (starts action = true → log.covered = none) ∧
      after = { log with
        sys
        frames := log.frames ++ written log.sys action
        covered := (log.sys.announced action).or log.covered } := by
  simp only [step] at taken
  split at taken
  · cases taken
  · next free =>
      obtain ⟨sys, steps, isAfter⟩ := Option.bind_eq_some_iff.mp taken
      refine ⟨sys, steps, fun isStart => ?_, (Option.some.inj isAfter).symm⟩
      by_contra some
      exact free ⟨isStart, Option.isSome_iff_ne_none.mpr some⟩

/-! ## Steps that leave the window and the frames alone -/

/-- Nothing that replay or routing looks at changes. -/
structure Same (log after : Logged) : Prop where
  journal : after.sys.journal = log.sys.journal
  taken : after.sys.taken = log.sys.taken
  nextSeq : after.sys.nextSeq = log.sys.nextSeq
  keyed : after.buf.keyed = log.buf.keyed
  pending : after.buf.pending = log.buf.pending
  tailHigh : after.buf.tailHigh = log.buf.tailHigh
  flushed : ∀ gen ∈ after.buf.flushed, ∃ old ∈ log.buf.flushed,
    gen.commit = old.commit ∧ gen.keyed = old.keyed
  watermark : after.table.watermark = log.table.watermark
  rows : after.table.rows = log.table.rows
  frames : after.frames = log.frames
  sidecar : after.sidecar = log.sidecar
  covered : after.covered = log.covered

namespace Same

variable (same : Same log after)
include same

theorem ops : after.sys.ops = log.sys.ops := by
  rw [Sys.ops, Sys.ops, same.journal]

theorem effective : after.watermark = log.watermark := by
  rw [Logged.watermark, Logged.watermark, same.watermark, same.sidecar]

theorem above (mark : Option Nat) : after.above mark = log.above mark := by
  rw [Logged.above, Logged.above, same.frames]

theorem entries : after.buf.entries = log.buf.entries := by
  rw [TableBuf.entries, TableBuf.entries, same.keyed]

theorem newer : Newer after.buf = Newer log.buf := by
  have claimed : after.buf.claimedBelow = log.buf.claimedBelow := by
    rw [TableBuf.claimedBelow, TableBuf.claimedBelow, same.keyed]
  funext key
  rw [Newer, Newer, same.entries, claimed]

theorem ready {live : Key → Prop} (ready : log.Ready pkCols mark live) :
    after.Ready pkCols mark live :=
  ready.congr same.tailHigh same.effective same.ops same.taken (same.above _) fun _ => Iff.rfl

theorem lifted {post : Post} (lifted : log.Lifted pkCols post) : after.Lifted pkCols post := by
  intro gen mem isCommit item isItem
  obtain ⟨old, isOld, commit, keyed⟩ := same.flushed gen mem
  rw [same.above, same.effective, same.pending]
  exact lifted old isOld (commit ▸ isCommit) item (keyed ▸ isItem)

theorem stamped (stamped : log.Stamped mark) : after.Stamped mark := by
  rwa [Stamped, same.watermark]

/-- The window stays replayable; where the flusher stands may change as long as what it says of
the window is known. -/
theorem replayable (replayable : log.Replayable pkCols rows) (view : after.sys.unread.View rows)
    (covers : after.sys.Covers rows) (journaled : after.sys.Journaled pkCols)
    (flushing : ∀ snap, after.flusher = .taken snap → log.flusher = .taken snap)
    (posted : ∀ post, after.sys.process.post = some post → ∃ old, log.sys.process.post = some old ∧
      post.mark = old.mark ∧ post.prepared = old.prepared ∧
      (post.state = .landed ↔ old.state = .landed))
    (finished : log.flusher = .idle → after.flusher = .idle) :
    after.Replayable pkCols rows where
  view := view
  covers := covers
  journaled := journaled
  numbered := replayable.numbered.congr same.nextSeq same.tailHigh same.effective
    fun frame mem => same.frames ▸ mem
  grown := replayable.grown.congr same.ops same.effective (same.above _) same.rows
    fun key mem => .inl (same.entries ▸ mem)
  flushing snap isTaken := by
    obtain ⟨mark, isMark, ready⟩ := replayable.flushing snap (flushing snap isTaken)
    rw [same.newer]
    exact ⟨mark, isMark, same.ready ready⟩
  posted post isPost := by
    obtain ⟨old, isOld, sameMark, samePrepared, landed⟩ := posted post isPost
    obtain ⟨mark, isMark, outcome⟩ := replayable.posted old isOld
    refine ⟨mark, sameMark.trans isMark, outcome.imp (fun ⟨isLanded, stamped⟩ => ?_)
      fun ⟨notLanded, ready, lifted⟩ => ?_⟩
    · exact ⟨landed.mpr isLanded, same.stamped stamped⟩
    · refine ⟨landed.not.mpr notLanded, ?_, same.lifted ?_⟩
      · rw [same.entries]
        exact same.ready ready
      · rwa [Lifted, samePrepared]
  finished mark isCovered := by
    rw [same.covered] at isCovered
    obtain ⟨idle, reached, outcome⟩ := replayable.finished mark isCovered
    rw [same.entries, same.tailHigh, same.ops, same.taken, same.rows]
    exact ⟨finished idle, reached, outcome.imp same.stamped fun ⟨ready, isRows⟩ =>
      ⟨same.ready ready, isRows⟩⟩

end Same

/-- When a snapshot leaves the window, the newer entries stay. -/
theorem drained_newer {buf : TableBuf} {snap : PendingSnapshot} (holds : buf.Holds snap)
    (key : Key) :
    key ∈ (buf.dropPendingPrefix snap.nBatches snap.keyed).entries ↔ Newer buf key := by
  cases known : buf.keyed with
  | none =>
      simp [TableBuf.dropPendingPrefix, TableBuf.drainKeyedSnapshot, TableBuf.entries, known, Newer]
  | some state =>
      have drained : (buf.dropPendingPrefix snap.nBatches snap.keyed).entries =
          snap.keyed.foldl TableBuf.drainKey buf.entries := by
        simp [TableBuf.dropPendingPrefix, TableBuf.drainKeyedSnapshot, TableBuf.entries, known]
      rw [drained, ← AList.lookup_isSome, Option.isSome_iff_exists]
      constructor
      · rintro ⟨entry, found⟩
        have before := lookup_drain_of_some found
        refine ⟨entry, before, Nat.le_of_not_lt fun older => ?_⟩
        rw [lookup_drain_of_mem (holds.old key entry before older) before] at found
        cases found
      · rintro ⟨entry, found, newer⟩
        exact ⟨entry, lookup_drain_of_newer found fun item mem _ same =>
          (holds.below item mem).not_ge (same ▸ newer)⟩

/-- What is live after a commit came back was live before or came back. -/
theorem live_of_moveFlushedBack {buf : TableBuf} {snapshotId : Nat} {gen : FlushedGen}
    (posted : buf.Posted snapshotId gen) {key : Key}
    (mem : key ∈ (buf.moveFlushedBackToPending snapshotId).entries) :
    key ∈ buf.entries ∨ ∃ item ∈ gen.keyed, item.1 = key := by
  obtain ⟨older, flushed, commit, others⟩ := posted
  rw [TableBuf.moveFlushedBack_eq flushed commit others] at mem
  cases known : buf.keyed with
  | none => simp [TableBuf.entries, known] at mem
  | some state =>
      have mem : key ∈ gen.keyed.foldl TableBuf.restoreKey state.entries := by
        simpa [TableBuf.entries, known] using mem
      obtain ⟨entry, found⟩ := Option.isSome_iff_exists.mp (AList.lookup_isSome.mpr mem)
      rw [TableBuf.entries_of_keyed known]
      refine (lookup_restore_cases found).imp (fun live => ?_) fun back => ⟨_, back, rfl⟩
      exact AList.lookup_isSome.mp (by rw [live]; rfl)

/-! ## Statements -/

/-- A statement joins the journal and the tail under the next sequence. -/
structure Joins (log after : Logged) (seq : Nat) (op : TailOp) (more : List RowOp) : Prop where
  next : log.sys.nextSeq = some seq
  nextSeq : after.sys.nextSeq = some (seq + 1)
  ops : after.sys.ops = log.sys.ops ++ more
  frames : after.frames = log.frames ++ [(seq, op)]
  tailHigh : after.buf.tailHigh = some seq
  taken : after.sys.taken = log.sys.taken
  flusher : after.flusher = log.flusher
  post : after.sys.process.post = log.sys.process.post
  flushed : after.buf.flushed = log.buf.flushed
  table : after.table = log.table
  sidecar : after.sidecar = log.sidecar
  covered : after.covered = log.covered

namespace Joins

variable {seq : Nat} {op : TailOp} {more : List RowOp} (joins : Joins log after seq op more)
include joins

theorem effective : after.watermark = log.watermark := by
  rw [Logged.watermark, Logged.watermark, joins.table, joins.sidecar]

theorem above {mark : Option Nat} (later : ∀ stamped, mark = some stamped → stamped < seq) :
    after.above mark = log.above mark ++ [op] := by
  have fresh : dropStaleFrames [(seq, op)] mark = [(seq, op)] :=
    dropStaleFrames_eq_self fun frame mem stamped isStamped => by
      rw [List.mem_singleton.mp mem]
      exact later stamped isStamped
  rw [Logged.above, Logged.above, joins.frames, dropStaleFrames_append, fresh, List.map_append]
  rfl

theorem numbered (numbered : log.Numbered pkCols) (staged : op.Staged pkCols)
    (below : ∀ high, log.buf.tailHigh = some high → high < seq) : after.Numbered pkCols := by
  have stamped : ∀ stamped, log.watermark = some stamped → stamped < seq := by
    obtain ⟨next, isNext, bound⟩ := numbered.next
    cases joins.next.symm.trans isNext
    exact bound
  refine ⟨fun frame mem => ?_, ⟨seq + 1, joins.nextSeq, ?_⟩,
    fun frame mem => ⟨seq, joins.tailHigh, ?_⟩, fun high isHigh => ?_⟩
  · rw [joins.frames] at mem
    rcases List.mem_append.mp mem with old | new
    · exact numbered.staged frame old
    · rw [List.mem_singleton.mp new]
      exact staged
  · rw [joins.effective]
    exact fun other isOther => (stamped other isOther).trans (Nat.lt_succ_self _)
  · rw [joins.frames] at mem
    rcases List.mem_append.mp mem with old | new
    · obtain ⟨high, isHigh, reached⟩ := numbered.logged frame old
      exact reached.trans (below high isHigh).le
    · rw [List.mem_singleton.mp new]
  · cases joins.tailHigh.symm.trans isHigh
    rw [joins.effective]
    exact fun other isOther => (stamped other isOther).le

/-- The statement's frame is replayed as the statement was routed, as seen from a mark. -/
def Agrees (_ : Joins log after seq op more) (pkCols : List Nat) (mark : Option Nat) : Prop :=
  more = op.ops pkCols (keysOf pkCols (log.above mark))

theorem cut {mark : Option Nat} {count : Nat} (cut : log.Cut pkCols mark count)
    (later : ∀ stamped, mark = some stamped → stamped < seq) (agrees : joins.Agrees pkCols mark) :
    after.Cut pkCols mark count := by
  refine cut.grow joins.ops (joins.above later) ?_
  rw [agrees]
  simp [opsOf]

theorem keys {mark : Option Nat} (later : ∀ stamped, mark = some stamped → stamped < seq)
    (key : Key) : key ∈ keysOf pkCols (after.above mark) ↔
      key ∈ keysOf pkCols (log.above mark) ∨ key ∈ op.keys pkCols := by
  rw [joins.above later]
  simp [keysOf]

theorem ready {live other : Key → Prop} (ready : log.Ready pkCols mark live)
    (below : ∀ high, log.buf.tailHigh = some high → high < seq)
    (agrees : joins.Agrees pkCols (some mark))
    (keys : ∀ key, other key ↔ live key ∨ key ∈ op.keys pkCols) :
    after.Ready pkCols mark other := by
  obtain ⟨high, isHigh, reached⟩ := ready.reached
  have later : mark < seq := reached.trans_lt (below high isHigh)
  have laterMark : ∀ stamped, some mark = some stamped → stamped < seq := by
    rintro stamped ⟨⟩
    exact later
  refine ⟨⟨seq, joins.tailHigh, later.le⟩, ?_, ?_, fun key => ?_⟩
  · rw [joins.effective]
    exact ready.covers
  · rw [joins.taken]
    exact joins.cut ready.cut laterMark agrees
  · rw [keys, joins.keys laterMark, ready.keys]

/-- The window stays replayable when live routing and every replay agree on the statement. -/
theorem replayable (replayable : log.Replayable pkCols rows) (view : after.sys.unread.View rows)
    (covers : after.sys.Covers rows) (journaled : after.sys.Journaled pkCols)
    (staged : op.Staged pkCols) (now : joins.Agrees pkCols log.watermark)
    (live : ∀ key, key ∈ after.buf.entries ↔ key ∈ log.buf.entries ∨ key ∈ op.keys pkCols)
    (flushing : ∀ snap mark, log.flusher = .taken snap → log.Ready pkCols mark (Newer log.buf) →
      joins.Agrees pkCols (some mark) ∧
        ∀ key, Newer after.buf key ↔ Newer log.buf key ∨ key ∈ op.keys pkCols)
    (settled : ∀ mark, log.Ready pkCols mark (· ∈ log.buf.entries) →
      joins.Agrees pkCols (some mark))
    (pending : ∀ pb ∈ after.buf.pending, pb ∈ log.buf.pending ∨ ∀ row ∈ pb.batch,
      encodeKey pkCols row ∉ keysOf pkCols (log.above log.watermark)) :
    after.Replayable pkCols rows := by
  have below : ∀ high, log.buf.tailHigh = some high → high < seq :=
    (replayable.view.marks seq joins.next).tailHigh
  have stamped : ∀ stamped, log.watermark = some stamped → stamped < seq := by
    obtain ⟨next, isNext, bound⟩ := replayable.numbered.next
    cases joins.next.symm.trans isNext
    exact bound
  refine
    { view := view
      covers := covers
      journaled := journaled
      numbered := joins.numbered replayable.numbered staged below
      grown := ⟨?_, fun key mem => ?_⟩
      flushing := fun snap isTaken => ?_
      posted := fun post isPost => ?_
      finished := fun mark isCovered => ?_ }
  · obtain ⟨count, isCut, isRows⟩ := replayable.grown.committed
    refine ⟨count, joins.effective ▸ joins.cut isCut stamped now, ?_⟩
    rw [joins.ops, joins.table, List.take_append_of_le_length isCut.bound]
    exact isRows
  · rw [joins.effective, joins.keys stamped]
    exact ((live key).mp mem).imp_left (replayable.grown.live key)
  · rw [joins.flusher] at isTaken
    obtain ⟨mark, isMark, ready⟩ := replayable.flushing snap isTaken
    obtain ⟨agrees, newer⟩ := flushing snap mark isTaken ready
    exact ⟨mark, isMark, joins.ready ready below agrees newer⟩
  · rw [joins.post] at isPost
    obtain ⟨mark, isMark, outcome⟩ := replayable.posted post isPost
    refine ⟨mark, isMark, outcome.imp (fun ⟨isLanded, stamp⟩ => ⟨isLanded, ?_⟩)
      fun ⟨unlanded, ready, lifted⟩ =>
        ⟨unlanded, joins.ready ready below (settled mark ready) live, ?_⟩⟩
    · rwa [Stamped, joins.table]
    · intro gen mem isCommit item isItem
      rw [joins.flushed] at mem
      obtain ⟨isKey, apart⟩ := lifted gen mem isCommit item isItem
      rw [joins.effective, joins.keys stamped]
      refine ⟨.inl isKey, fun pb isPending row isRow same => ?_⟩
      rcases pending pb isPending with old | new
      · exact apart pb old row isRow same
      · exact new row isRow (same ▸ isKey)
  · rw [joins.covered] at isCovered
    obtain ⟨idle, ⟨high, isHigh, reached⟩, outcome⟩ := replayable.finished mark isCovered
    refine ⟨joins.flusher.trans idle, ⟨seq, joins.tailHigh, reached.trans (below high isHigh).le⟩,
      outcome.imp (fun stamp => ?_) fun ⟨ready, isRows⟩ =>
        ⟨joins.ready ready below (settled mark ready) live, ?_⟩⟩
    · rwa [Stamped, joins.table]
    · rw [joins.ops, joins.taken, joins.table, List.take_append_of_le_length ready.cut.bound]
      exact isRows

end Joins

end Logged

end Icegres.Buffer
