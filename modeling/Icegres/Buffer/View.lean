import Icegres.Buffer.Versions

/-!
# What readers see

With definite outcomes the staged statements are always accounted for exactly once: what the
table holds, what the retained generations add and what the live window adds are the staged
operations in order. The exceptions are two. A failed commit that brings back a key under which
rows were inserted meanwhile hides these rows, and an expired snapshot lets a reader count a
retained generation twice.
-/

namespace Icegres.Buffer

/-! ## Registers of the flusher -/

/-- How far a post with a definite outcome got. -/
structure Post.Unlanded (post : Post) (buf : TableBuf) (lake : Lake) : Prop where
  state : post.state = .sent ∨ post.state = .refused
  absent : ∀ metadata ∈ lake.versions, ¬ metadata.contains (.snapshot post.prepared.snapshotId)
  rows : ∀ gen, buf.Posted post.prepared.snapshotId gen →
    commitWindows [genWindow gen] lake.current.rows = .ok post.prepared.rows

structure Post.Landed (post : Post) (lake : Lake) : Prop where
  state : post.state = .landed
  present : lake.current.contains (.snapshot post.prepared.snapshotId)
  rows : lake.current.rows = post.prepared.rows

/-- The registers of an attempt fit the flusher's place and the catalog. -/
def Process.Phase (process : Process) (lake : Lake) : Prop :=
  match process.window.flusher with
  | .idle => process.loaded = none ∧ process.post = none
  | .taken _ => process.post = none ∧ ∀ metadata, process.loaded = some metadata →
      metadata.rows = lake.current.rows ∧ metadata.watermark = lake.current.watermark
  | .posted snapshotId => process.loaded = none ∧
      ∃ post, process.post = some post ∧ post.prepared.snapshotId = snapshotId ∧
        (post.Unlanded process.window.buf lake ∨ post.Landed lake)

/-- The rows below the live window: those of the posted commit, if there is one. -/
def Process.base (process : Process) (lake : Lake) : Multiset Row :=
  match process.post with
  | some post => post.prepared.rows
  | none => lake.current.rows

/-! ## Watermarks -/

/-- The window holds rows or keyed operations. -/
def TableBuf.Busy (buf : TableBuf) : Prop :=
  buf.pending ≠ [] ∨ buf.entries.keys ≠ []

/-- A snapshot took everything. -/
def TableBuf.AllTaken (buf : TableBuf) (snap : PendingSnapshot) : Prop :=
  buf.pending.length ≤ snap.nBatches ∧
    ∀ key entry, buf.entries.lookup key = some entry → entry.stamp < buf.claimedBelow

/-- Whatever is not committed carries sequences above the stamped watermark. -/
structure Marks (process : Process) (watermark : Option Nat) (next : Nat) : Prop where
  tailHigh : ∀ high, process.window.buf.tailHigh = some high → high < next
  stamped : ∀ mark, watermark = some mark → mark < next
  busy : process.window.buf.Busy → ∃ high, process.window.buf.tailHigh = some high ∧
    ∀ mark, watermark = some mark → mark < high
  taken : ∀ snap, process.window.flusher = .taken snap → ∃ high mark,
    process.window.buf.tailHigh = some high ∧ snap.tailMark = some mark ∧ mark ≤ high ∧
      (high = mark → process.window.buf.AllTaken snap) ∧
      ∀ stamped, watermark = some stamped → stamped < mark
  posted : ∀ post, process.post = some post → ∃ high mark,
    process.window.buf.tailHigh = some high ∧ post.mark = some mark ∧ mark ≤ high ∧
      (process.window.buf.Busy → mark < high) ∧ post.prepared.stamped = some mark ∧
      (post.state ≠ .landed → ∀ stamped, watermark = some stamped → stamped < mark)

/-- A statement was staged under the next sequence. -/
theorem Marks.staged {process : Process} {watermark : Option Nat} {next : Nat}
    (marks : Marks process watermark next) {window : Window}
    (tailHigh : window.buf.tailHigh = some next)
    (flusher : window.flusher = process.window.flusher) :
    Marks { process with window := window } watermark (next + 1) where
  tailHigh high isHigh := by
    rw [tailHigh] at isHigh
    cases isHigh
    exact Nat.lt_succ_self _
  stamped mark isMark := (marks.stamped mark isMark).trans (Nat.lt_succ_self _)
  busy _ := ⟨next, tailHigh, marks.stamped⟩
  taken snap isTaken := by
    obtain ⟨high, mark, isHigh, isMark, covers, -, above⟩ := marks.taken snap (flusher ▸ isTaken)
    have below := covers.trans_lt (marks.tailHigh high isHigh)
    exact ⟨next, mark, tailHigh, isMark, below.le, fun same => absurd same below.ne', above⟩
  posted post isPost := by
    obtain ⟨high, mark, isHigh, isMark, covers, -, stamps, above⟩ := marks.posted post isPost
    have below := covers.trans_lt (marks.tailHigh high isHigh)
    exact ⟨next, mark, tailHigh, isMark, below.le, fun _ => below, stamps, above⟩

/-- Marks speak of the window's contents. -/
theorem Marks.congr {process : Process} {watermark : Option Nat} {next : Nat}
    (marks : Marks process watermark next) {window : Window}
    (tailHigh : window.buf.tailHigh = process.window.buf.tailHigh)
    (pending : window.buf.pending = process.window.buf.pending)
    (keyed : window.buf.keyed = process.window.buf.keyed)
    (flusher : window.flusher = process.window.flusher) :
    Marks { process with window := window } watermark next := by
  have entries : window.buf.entries = process.window.buf.entries := by
    rw [TableBuf.entries, TableBuf.entries, keyed]
  have claimed : window.buf.claimedBelow = process.window.buf.claimedBelow := by
    rw [TableBuf.claimedBelow, TableBuf.claimedBelow, keyed]
  obtain ⟨high, stamped, busy, taken, posted⟩ := marks
  constructor
  · rwa [tailHigh]
  · exact stamped
  · rwa [TableBuf.Busy, pending, entries, tailHigh]
  · dsimp only [TableBuf.AllTaken]
    rwa [flusher, tailHigh, pending, entries, claimed]
  · dsimp only [TableBuf.Busy]
    rwa [tailHigh, pending, entries]

/-! ## The invariant -/

namespace Sys

/-- Every staged operation is accounted for exactly once. -/
structure View (rows : Multiset Row) (sys : Sys) : Prop where
  flow : sys.process.window.Flow
  versions : Versions sys.process.window.buf.flushed sys.lake sys.scans sys.seen
  phase : sys.process.Phase sys.lake
  contained : ∀ gen ∈ sys.process.window.buf.flushed, sys.lake.current.contains gen.commit ∨
    ∃ id, sys.process.window.flusher = .posted id ∧ gen.commit = .snapshot id
  marks : ∀ next, sys.nextSeq = some next → Marks sys.process sys.lake.current.watermark next
  top : sys.process.window.buf.commits (sys.process.base sys.lake) =
    applyRowOps sys.ops rows

/-- No wait fails, every commit has a definite outcome, and other writers leave the rows
alone. -/
def Definite (sys : Sys) : Action → Prop
  | .fail _ | .error _ | .resolve _ | .stray _ => False
  | .foreign rows _ => rows = sys.lake.current.rows
  | _ => True

/-- A refused commit goes back only while no pending row carries a key that only it touches. -/
def RequeuesApart (sys : Sys) : Action → Prop
  | .answer => ∀ post gen, sys.process.post = some post → post.state = .refused →
      sys.process.window.buf.Posted post.prepared.snapshotId gen →
      sys.process.window.buf.Apart gen
  | _ => True

/-- Retained generations are dropped only once every scan in flight contains them. -/
def CollectsContained (sys : Sys) : Action → Prop
  | .gc => ∀ gen ∈ sys.process.window.buf.flushed, TableBuf.flushedGenExpired gen →
      ∀ version ∈ sys.scans, ∀ metadata, sys.lake.versions[version]? = some metadata →
        metadata.contains gen.commit
  | _ => True

/-- Expiry keeps the snapshots of retained generations. -/
def ExpiresUnretained (sys : Sys) : Action → Prop
  | .expire keepLast => ∀ gen ∈ sys.process.window.buf.flushed,
      sys.lake.current.contains gen.commit →
      (sys.lake.current.expireSnapshots keepLast).contains gen.commit
  | _ => True

/-- The runs in which every reader sees each staged operation exactly once. -/
structure Exact (sys : Sys) (action : Action) : Prop where
  definite : sys.Definite action
  apart : sys.RequeuesApart action
  collects : sys.CollectsContained action
  expires : sys.ExpiresUnretained action

theorem view_initial (rows : Multiset Row) (watermark : Option Nat) (tail : Bool) :
    (initial rows watermark tail).View rows where
  flow := Window.flow_initial
  versions :=
    { loaded := by simp [initial]
      bound := by simp [initial, Lake.initial, Lake.versions]
      ids := by simp [initial, Lake.initial, Lake.versions]
      commits := by simp [initial, Process.initial, Window.initial, TableBuf.empty]
      grows := by simp [initial, Lake.initial, Lake.versions]
      observed := by simp [initial, Process.initial, Window.initial, TableBuf.empty]
      reads := by
        rintro metadata (fresh | ⟨version, isScan, -⟩)
        · have only : metadata = (Lake.initial rows watermark).current := by
            simpa [initial, Lake.initial, Lake.versions] using fresh
          rw [only]
          rfl
        · cases isScan }
  phase := ⟨rfl, rfl⟩
  contained := by simp [initial, Process.initial, Window.initial, TableBuf.empty]
  marks := by
    intro next isNext
    cases tail with
    | false => cases isNext
    | true =>
        cases isNext
        refine ⟨by simp [initial, Process.initial, Window.initial, TableBuf.empty], ?_, ?_, ?_, ?_⟩
        · intro mark isMark
          have isMark : watermark = some mark := isMark
          rw [isMark]
          exact Nat.lt_succ_self _
        · simp [initial, Process.initial, Window.initial, TableBuf.empty, TableBuf.Busy,
            TableBuf.entries]
        · simp [initial, Process.initial, Window.initial]
        · simp [initial, Process.initial]
  top := (commitOf_nil _ _ _).trans (by simp [initial, Process.initial, Window.initial,
    TableBuf.empty, Process.base, Lake.initial, ops])

variable {rows : Multiset Row} {sys : Sys}

/-- Marking generations does not change which one is posted. -/
theorem posted_of_content {buf other : TableBuf} {snapshotId : Nat} {gen : FlushedGen}
    (same : other.flushed.map Window.content = buf.flushed.map Window.content)
    (posted : other.Posted snapshotId gen) :
    ∃ old, buf.Posted snapshotId old ∧ Window.content gen = Window.content old := by
  obtain ⟨older, isLast, commit, others⟩ := posted
  rw [isLast, List.map_append] at same
  obtain ⟨olders, lasts, isFlushed, sameOlder, sameLast⟩ := List.map_eq_append_iff.mp same.symm
  obtain ⟨last, rfl, sameGen⟩ := List.map_eq_singleton_iff.mp sameLast
  refine ⟨last, ⟨olders, isFlushed, ?_, fun old mem => ?_⟩, sameGen.symm⟩
  · rw [← commit]
    exact congrArg Prod.fst sameGen
  · have isContent : Window.content old ∈ older.map Window.content :=
      sameOlder ▸ List.mem_map_of_mem mem
    obtain ⟨other, isOther, equal⟩ := List.mem_map.mp isContent
    have sameCommit : other.commit = old.commit := congrArg Prod.fst equal
    rw [← sameCommit]
    exact others other isOther

/-- The registers fit as long as the flusher stays and generations are only marked. -/
theorem phase_congr {process : Process} {lake : Lake} {window : Window}
    (phase : process.Phase lake) (flusher : window.flusher = process.window.flusher)
    (same : window.buf.flushed.map Window.content =
      process.window.buf.flushed.map Window.content) :
    { process with window := window }.Phase lake := by
  unfold Process.Phase at phase ⊢
  dsimp only
  rw [flusher]
  split at phase
  · exact phase
  · exact phase
  · obtain ⟨noLoad, post, isPost, isId, outcome⟩ := phase
    refine ⟨noLoad, post, isPost, isId, outcome.imp_left fun unlanded => ?_⟩
    refine ⟨unlanded.state, unlanded.absent, fun gen posted => ?_⟩
    obtain ⟨old, isOld, equal⟩ := posted_of_content same posted
    rw [genWindow_eq_of_content equal]
    exact unlanded.rows old isOld

/-- Generations that were only marked are contained or posted as before. -/
theorem contained_congr (window : Window) (current : Metadata) {flushed : List FlushedGen}
    (contained : ∀ gen ∈ window.buf.flushed, current.contains gen.commit ∨
      ∃ id, window.flusher = .posted id ∧ gen.commit = .snapshot id)
    (same : flushed.map Window.content = window.buf.flushed.map Window.content) :
    ∀ gen ∈ flushed, current.contains gen.commit ∨
      ∃ id, window.flusher = .posted id ∧ gen.commit = .snapshot id := by
  intro gen mem
  have isContent : Window.content gen ∈ window.buf.flushed.map Window.content :=
    same ▸ List.mem_map_of_mem mem
  obtain ⟨old, isOld, equal⟩ := List.mem_map.mp isContent
  have commit : old.commit = gen.commit := congrArg Prod.fst equal
  rw [← commit]
  exact contained old isOld

/-- A staged statement applies its operations on top. -/
theorem View.staged (view : sys.View rows) (ops : List RowOp) {window : Window}
    {nextSeq seq : Option Nat} (flow : window.Flow)
    (flushed : window.buf.flushed = sys.process.window.buf.flushed)
    (flusher : window.flusher = sys.process.window.flusher)
    (commits : ∀ base, window.buf.commits base =
      applyRowOps ops (sys.process.window.buf.commits base))
    (marks : ∀ next, nextSeq = some next →
      Marks { sys.process with window := window } sys.lake.current.watermark next) :
    { sys with
      process := { sys.process with window := window }
      nextSeq := nextSeq
      journal := sys.journal ++ ops.map (seq, ·) }.View rows where
  flow := flow
  versions := by
    dsimp only
    rw [flushed]
    exact view.versions
  phase := phase_congr view.phase flusher (by rw [flushed])
  contained := by
    dsimp only
    rw [flushed, flusher]
    exact view.contained
  marks := marks
  top := by
    have before := view.top
    have journaled : (sys.journal ++ ops.map (seq, ·)).map Prod.snd = sys.ops ++ ops := by
      rw [List.map_append, List.map_map]
      exact congrArg (sys.ops ++ ·) (List.map_id' ops)
    dsimp only [Process.base] at before ⊢
    rw [commits, before, ← applyRowOps_append]
    exact congrArg (applyRowOps · rows) journaled.symm

theorem View.append (view : sys.View rows) (batches : List Batch) {after : Sys}
    (taken : sys.step (.append batches) = some after) : after.View rows := by
  cases took taken with
  | append steps =>
      have flow := view.flow.step (by trivial) steps
      cases steps
      refine view.staged _ flow (TableBuf.stageAppend_flushed _ _ _ _) rfl
        (TableBuf.commits_stageAppend view.flow.sound batches _ none) fun next isNext => ?_
      by_cases none : batches = []
      · -- nothing is staged
        subst none
        exact (view.marks next isNext).congr rfl rfl rfl rfl
      · rw [if_neg none] at isNext ⊢
        obtain ⟨seq, isSeq, rfl⟩ := Option.map_eq_some_iff.mp isNext
        refine (view.marks seq isSeq).staged ?_ rfl
        rw [Window.await, TableBuf.stageAppend_tailHigh, isSeq]
        rfl

theorem View.keyed (view : sys.View rows) (stmt : KeyedStmt) {after : Sys}
    (taken : sys.step (.keyed stmt) = some after) : after.View rows := by
  cases took taken with
  | @keyed _ seq _ isSeq steps =>
      have flow := view.flow.step (by trivial) steps
      cases Window.took steps with
      | keyed stages =>
          refine view.staged [stmt.rowOp] flow (view.flow.sound.keyed stages).2 rfl
            (TableBuf.commits_stageKeyed view.flow.sound stages) fun next isNext => ?_
          cases isNext
          exact (view.marks seq isSeq).staged (TableBuf.stageKeyed_tailHigh stages) rfl

theorem View.durable (view : sys.View rows) (index : Nat) {after : Sys}
    (taken : sys.step (.durable index) = some after) : after.View rows := by
  obtain ⟨window, steps, rfl⟩ := moved_eq_some taken
  have flow := view.flow.step (by trivial) steps
  obtain ⟨stmt, found, isNext⟩ := Option.bind_eq_some_iff.mp steps
  cases isNext
  exact
    { flow := flow
      versions := view.versions
      phase := phase_congr view.phase rfl rfl
      contained := view.contained
      marks := fun next isNext => (view.marks next isNext).congr rfl rfl rfl rfl
      top := view.top }

/-- Generations are marked, and readers come and go. -/
theorem View.marked (view : sys.View rows) {flushed : List FlushedGen} {scans : List Nat}
    {seen : Nat} (same : flushed.map Window.content =
      sys.process.window.buf.flushed.map Window.content)
    (flow : Window.Flow { sys.process.window with
      buf := { sys.process.window.buf with flushed := flushed } })
    (versions : Versions flushed sys.lake scans seen) :
    View rows { sys with
      process := { sys.process with
        window := { sys.process.window with
          buf := { sys.process.window.buf with flushed := flushed } } }
      scans := scans
      seen := seen } where
  flow := flow
  versions := versions
  phase := phase_congr view.phase rfl same
  contained := contained_congr sys.process.window sys.lake.current view.contained same
  marks next isNext := (view.marks next isNext).congr rfl rfl rfl rfl
  top := view.top

theorem View.scanLoad (view : sys.View rows) (version : Nat) {after : Sys}
    (taken : sys.step (.scanLoad version) = some after) : after.View rows := by
  simp only [step] at taken
  split at taken
  · next allowed =>
      cases taken
      refine view.marked rfl view.flow ?_
      refine view.versions.readers le_rfl view.versions.bound (fun other mem => ?_)
        fun other mem => ?_
      · rcases List.mem_append.mp mem with old | new
        · exact view.versions.loaded other old
        · rw [List.mem_singleton.mp new]
          exact allowed.2
      · rcases List.mem_append.mp mem with old | new
        · exact .inl old
        · rw [List.mem_singleton.mp new]
          exact .inr allowed.1
  · cases taken

theorem View.scanTake (view : sys.View rows) (index : Nat) {after : Sys}
    (taken : sys.step (.scanTake index) = some after) : after.View rows := by
  cases took taken with
  | scanTake isScan found steps =>
      have flow := view.flow.step (by trivial) steps
      cases steps
      have observed := view.versions.observe found
      refine view.marked ?_ flow ?_
      · rw [List.map_map]
        rfl
      · exact observed.readers le_rfl observed.bound
          (fun other mem => view.versions.loaded other (List.mem_of_mem_eraseIdx mem))
          fun other mem => .inl (List.mem_of_mem_eraseIdx mem)

theorem View.age (view : sys.View rows) (count : Nat) {after : Sys}
    (taken : sys.step (.age count) = some after) : after.View rows := by
  obtain ⟨window, steps, rfl⟩ := moved_eq_some taken
  have flow := view.flow.step (by trivial) steps
  cases steps
  have same := Window.content_ageFirst count sys.process.window.buf.flushed
  refine view.marked same flow (view.versions.remark same fun gen mem isObserved => ?_)
  rcases List.mem_append.mp mem with old | kept
  · obtain ⟨original, isOriginal, rfl⟩ := List.mem_map.mp old
    exact view.versions.observed original (List.mem_of_mem_take isOriginal) isObserved
  · exact view.versions.observed gen (List.mem_of_mem_drop kept) isObserved

theorem View.gc (view : sys.View rows) (collects : sys.CollectsContained .gc) {after : Sys}
    (taken : sys.step .gc = some after) : after.View rows := by
  obtain ⟨window, steps, rfl⟩ := moved_eq_some taken
  have flow := view.flow.step (by trivial) steps
  cases Window.took steps with
  | gc idle =>
      have kept (gen : FlushedGen) (mem : gen ∈ sys.process.window.buf.gcFlushed.flushed) :
          gen ∈ sys.process.window.buf.flushed := (List.mem_filter.mp mem).1
      exact
        { flow := flow
          versions := view.versions.collect fun gen mem dropped => by
            have expired : TableBuf.flushedGenExpired gen := by simpa using dropped
            exact ⟨(Bool.and_eq_true_iff.mp expired).1, collects gen mem expired⟩
          phase := by
            have phase := view.phase
            unfold Process.Phase at phase ⊢
            dsimp only
            rw [idle] at phase ⊢
            exact phase
          contained := fun gen mem => view.contained gen (kept gen mem)
          marks := fun next isNext => (view.marks next isNext).congr rfl rfl rfl rfl
          top := view.top }

/-- When a snapshot took everything, nothing is left without it. -/
theorem not_busy_dropPendingPrefix {buf : TableBuf} {snap : PendingSnapshot}
    (holds : buf.Holds snap) (all : buf.AllTaken snap) :
    ¬ (buf.dropPendingPrefix snap.nBatches snap.keyed).Busy := by
  rintro (pending | entries)
  · exact pending (List.drop_eq_nil_of_le all.1)
  · obtain ⟨key, live⟩ := List.exists_mem_of_ne_nil _ entries
    rw [← AList.mem_keys, ← AList.lookup_isSome] at live
    cases known : buf.keyed with
    | none =>
        simp [TableBuf.dropPendingPrefix, TableBuf.drainKeyedSnapshot, TableBuf.entries, known]
          at live
    | some state =>
        have drained : (buf.dropPendingPrefix snap.nBatches snap.keyed).entries =
            snap.keyed.foldl TableBuf.drainKey buf.entries := by
          simp [TableBuf.dropPendingPrefix, TableBuf.drainKeyedSnapshot, TableBuf.entries, known]
        rw [drained] at live
        obtain ⟨entry, found⟩ := Option.isSome_iff_exists.mp live
        have before := lookup_drain_of_some found
        rw [lookup_drain_of_mem (holds.old key entry before (all.2 key entry before)) before]
          at found
        cases found

/-- While nothing is posted every retained generation is contained. -/
theorem View.contained_of_unposted (view : sys.View rows)
    (unposted : ∀ id, sys.process.window.flusher ≠ .posted id) :
    ∀ gen ∈ sys.process.window.buf.flushed, sys.lake.current.contains gen.commit := by
  intro gen mem
  rcases view.contained gen mem with contains | ⟨id, isPosted, -⟩
  · exact contains
  · exact absurd isPosted (unposted id)

theorem View.take (view : sys.View rows) {after : Sys} (taken : sys.step .take = some after) :
    after.View rows := by
  cases took taken with
  | take steps =>
    have flow
 := view.flow.step (by trivial) steps
    cases Window.took steps with
    | take idle =>
        have phase := view.phase
        unfold Process.Phase at phase
        rw [idle] at phase
        obtain ⟨noLoad, noPost⟩ := phase
        refine
          { flow := flow
            versions := view.versions
            phase := ?_
            contained := fun gen mem =>
              .inl (view.contained_of_unposted (by simp [idle]) gen mem)
            marks := fun next isNext => ?_
            top := ?_ }
        · unfold Process.Phase
          dsimp only
          split
          · exact ⟨noLoad, noPost⟩
          · exact ⟨noPost, fun metadata isLoaded => by rw [noLoad] at isLoaded; cases isLoaded⟩
          · next isPosted => split at isPosted <;> cases isPosted
        · have before := view.marks next isNext
          have busy (isBusy : sys.process.window.buf.snapshotPending.1.Busy) :
              sys.process.window.buf.Busy := by
            rw [TableBuf.Busy, TableBuf.snapshotPending_entries] at isBusy
            exact isBusy.imp_left fun some none => some (by simp [TableBuf.snapshotPending, none])
          refine ⟨before.tailHigh, before.stamped, fun isBusy => before.busy (busy isBusy),
            fun snap isTaken => ?_, fun post isPost => ?_⟩
          · dsimp only at isTaken
            split at isTaken
            · cases isTaken
            · next some =>
                cases isTaken
                obtain ⟨high, isHigh, above⟩ :=
                  before.busy (TableBuf.busy_of_snapshotPending some)
                have holds := TableBuf.holds_snapshotPending view.flow.sound
                refine ⟨high, high, isHigh, isHigh, le_rfl, fun _ => ⟨?_, ?_⟩, above⟩
                · simp [TableBuf.snapshotPending]
                · intro key entry found
                  rw [TableBuf.snapshotPending_entries] at found
                  exact holds.below _ (TableBuf.mem_keyedItems.mpr found)
          · rw [noPost] at isPost
            cases isPost
        · rw [TableBuf.snapshotPending_commits]
          exact view.top

theorem View.giveUp (view : sys.View rows) {after : Sys} (taken : sys.step .giveUp = some after) :
    after.View rows := by
  obtain ⟨process, givesUp, isAfter⟩ := Option.bind_eq_some_iff.mp taken
  cases isAfter
  obtain ⟨window, steps, rfl⟩ := Process.giveUp_cases givesUp
  have flow := view.flow.step (by trivial) steps
  cases Window.took steps with
  | @abandon snap isTaken =>
      have phase := view.phase
      unfold Process.Phase at phase
      rw [isTaken] at phase
      refine
        { flow := flow
          versions := view.versions
          phase := ⟨rfl, phase.1⟩
          contained := fun gen mem =>
            .inl (view.contained_of_unposted (by simp [isTaken]) gen mem)
          marks := fun next isNext => ?_
          top := view.top }
      have before := view.marks next isNext
      refine ⟨before.tailHigh, before.stamped, before.busy, fun snap isTaken => ?_,
        before.posted⟩
      cases isTaken

theorem View.load (view : sys.View rows) {after : Sys} (taken : sys.step .load = some after) :
    after.View rows := by
  obtain ⟨process, loads, isAfter⟩ := Option.bind_eq_some_iff.mp taken
  cases isAfter
  obtain ⟨snap, window, isTaken, noLoad, steps, rfl⟩ := Process.load_cases loads
  have flow := view.flow.step (by trivial) steps
  cases steps
  have current : sys.lake.versions[sys.lake.older.length]? = some sys.lake.current := by
    simp [Lake.versions]
  have observed := view.versions.observe current
  have bound := view.versions.bound
  rw [Lake.versions, List.length_append, List.length_singleton, Nat.lt_succ_iff] at bound
  rw [max_eq_right bound] at observed
  have same : (sys.process.window.buf.noteObserved
      sys.lake.current.contains).flushed.map Window.content =
        sys.process.window.buf.flushed.map Window.content := by
    rw [TableBuf.noteObserved, List.map_map]
    rfl
  have marked := view.marked same flow observed
  refine
    { flow := marked.flow
      versions := marked.versions
      phase := ?_
      contained := marked.contained
      marks := fun next isNext => ?_
      top := marked.top }
  · have phase := view.phase
    unfold Process.Phase at phase ⊢
    dsimp only
    rw [isTaken] at phase ⊢
    refine ⟨phase.1, fun metadata isLoaded => ?_⟩
    cases isLoaded
    exact ⟨rfl, rfl⟩
  · have before := marked.marks next isNext
    exact ⟨before.tailHigh, before.stamped, before.busy, before.taken, before.posted⟩

/-- The guard never takes fresh work for committed, and the stamp is the mark of the work. -/
theorem View.stamp_of_marks (view : sys.View rows) {snap : PendingSnapshot}
    (isTaken : sys.process.window.flusher = .taken snap) :
    ∃ stamped, Process.stamp sys.nextSeq.isSome sys.lake.current.watermark snap.tailMark =
        some stamped ∧
      ∀ next, sys.nextSeq = some next → stamped = snap.tailMark := by
  cases isNext : sys.nextSeq with
  | none => exact ⟨none, rfl, fun next isNext => by cases isNext⟩
  | some next =>
      obtain ⟨high, mark, -, isMark, -, -, above⟩ := (view.marks next isNext).taken snap isTaken
      have fresh : ¬ sys.lake.current.watermark.any fun stamped => mark ≤ stamped := by
        intro covered
        obtain ⟨stamped, isStamped, covers⟩ := (Option.any_eq_true _ _).mp covered
        exact absurd (above stamped isStamped) (by simpa using covers)
      have highest : max (sys.lake.current.watermark.getD mark) mark = mark := by
        cases isStamped : sys.lake.current.watermark with
        | none => exact max_self mark
        | some stamped => exact max_eq_right (above stamped isStamped).le
      refine ⟨some mark, ?_, fun _ _ => isMark.symm⟩
      rw [isMark]
      unfold Process.stamp
      dsimp only [Option.isSome_some]
      rw [if_neg fresh, highest]

/-- What a flusher prepares are the rows after its work is committed. -/
theorem View.prepared_rows (view : sys.View rows) {snap : PendingSnapshot}
    (isTaken : sys.process.window.flusher = .taken snap) :
    WellKeyed sys.process.window.buf.pkCols snap.keyed ∧
      ∃ ops, flushOps snap.batches snap.keyed = .ok ops ∧
        ∀ base, applyOps ops base =
          commitOf sys.process.window.buf.pkCols snap.batches snap.keyed base := by
  have holds := view.flow.taken snap isTaken
  have well : WellKeyed sys.process.window.buf.pkCols snap.keyed := by
    have isHeld : sys.process.window.held = snap.keyed := by rw [Window.held, isTaken]
    have sound : sys.process.window.buf.Sound sys.process.window.held sys.process.window.undos :=
      view.flow.sound
    cases known : sys.process.window.buf.keyed with
    | none =>
        rw [← isHeld, ((TableBuf.sound_none known).mp sound).2.1]
        intro item mem
        cases mem
    | some state =>
        rw [TableBuf.pkCols_of_keyed known, ← isHeld]
        exact fun item mem => (((TableBuf.sound_some known).mp sound).holding item mem).1
  obtain ⟨ops, composed, applied⟩ := flushOps_commit snap.batches well
  exact ⟨well, ops, composed, applied⟩

theorem View.prepare (view : sys.View rows) (timestamp : Nat) {after : Sys}
    (taken : sys.step (.prepare timestamp) = some after) : after.View rows := by
  simp only [step, Option.bind_eq_bind, Option.bind_eq_some_iff] at taken
  obtain ⟨⟨process, lake⟩, prepares, isAfter⟩ := taken
  cases isAfter
  unfold Process.prepare at prepares
  split at prepares
  · next snap loaded isTaken isLoaded =>
      have phase := view.phase
      unfold Process.Phase at phase
      rw [isTaken] at phase
      obtain ⟨noPost, fresh⟩ := phase
      obtain ⟨sameRows, sameMark⟩ := fresh loaded isLoaded
      obtain ⟨stamped, isStamp, isMark⟩ := view.stamp_of_marks isTaken
      obtain ⟨well, ops, composed, applied⟩ := view.prepared_rows isTaken
      have holds := view.flow.taken snap isTaken
      have base : sys.process.base sys.lake = sys.lake.current.rows := by
        rw [Process.base, noPost]
      have top := view.top
      rw [base, ← TableBuf.commits_dropPendingPrefix view.flow.sound holds well] at top
      rw [sameMark, isStamp, composed] at prepares
      dsimp only at prepares
      split at prepares
      · next nothing =>
          simp only [Process.move, Option.bind_eq_bind, Option.bind_eq_some_iff] at prepares
          obtain ⟨mid, ⟨window, steps, isMid⟩, isResult⟩ := prepares
          cases isMid
          cases isResult
          have flow := view.flow.step (by trivial) steps
          simp only [Window.step, isTaken] at steps
          cases steps
          have unchanged := applyOps_of_prepareCommit_none nothing
          rw [applied, sameRows] at unchanged
          rw [unchanged] at top
          refine
            { flow := flow
              versions := view.versions
              phase := ⟨rfl, noPost⟩
              contained := fun gen mem =>
                .inl (view.contained_of_unposted (by simp [isTaken]) gen mem)
              marks := fun next isNext => ?_
              top := ?_ }
          · have before := view.marks next isNext
            obtain ⟨high, mark, isHigh, -, covers, -, above⟩ := before.taken snap isTaken
            refine ⟨before.tailHigh, before.stamped, fun _ => ⟨high, isHigh, fun other isOther =>
              (above other isOther).trans_le covers⟩, fun snap isTaken => ?_, fun post isPost => ?_⟩
            · cases isTaken
            · rw [noPost] at isPost
              cases isPost
          · refine Eq.trans ?_ top
            dsimp only [Process.base]
            rw [noPost]
            rfl
      · next after isPrepared =>
          simp only [Process.move, Option.bind_eq_bind, Option.bind_eq_some_iff] at prepares
          obtain ⟨mid, ⟨window, steps, isMid⟩, isResult⟩ := prepares
          cases isMid
          cases isResult
          have newId : ∀ gen ∈ sys.process.window.buf.flushed,
              gen.commit ≠ .snapshot sys.lake.nextSnapshot := by
            intro gen mem same
            obtain ⟨id, below, isCommit⟩ := view.versions.commits gen mem
            rw [isCommit] at same
            cases same
            exact below.false
          have flow := view.flow.step (by exact newId) steps
          simp only [Window.step, isTaken] at steps
          cases steps
          have result := rows_of_prepareCommit isPrepared
          rw [applied, sameRows] at result
          have pushed := view.versions.push
            { commit := .snapshot sys.lake.nextSnapshot
              batches := (sys.process.window.buf.pending.take snap.nBatches).map
                fun pb => (pb.seq, pb.batch)
              keyed := snap.keyed, aged := false, observed := false } rfl rfl
          refine
            { flow := flow
              versions := pushed
              phase := ⟨rfl, _, rfl, rfl, .inl ⟨.inl rfl, ?_, ?_⟩⟩
              contained := fun gen mem => ?_
              marks := fun next isNext => ?_
              top := ?_ }
          · intro metadata mem contains
            obtain ⟨snapshot, isSnapshot, isId⟩ := List.any_eq_true.mp contains
            have below := view.versions.ids metadata mem snapshot isSnapshot
            simp only [decide_eq_true_eq] at isId
            omega
          · rintro gen ⟨older, isLast, -, -⟩
            have isNew := List.append_inj_right' isLast rfl
            rw [← List.head_eq_of_cons_eq isNew]
            have window : genWindow { commit := .snapshot sys.lake.nextSnapshot
                                      batches := (sys.process.window.buf.pending.take
                                        snap.nBatches).map fun pb => (pb.seq, pb.batch)
                                      keyed := snap.keyed, aged := false, observed := false } =
                (snap.batches, snap.keyed) := by
              rw [genWindow, List.map_map, ← holds.batches]
              rfl
            exact (congrArg (commitWindows [·] sys.lake.current.rows) window).trans
              ((commitWindows_single _ well _).trans (congrArg _ result.symm))
          · rcases List.mem_append.mp mem with old | new
            · exact .inl (view.contained_of_unposted (by simp [isTaken]) gen old)
            · rw [List.mem_singleton.mp new]
              exact .inr ⟨_, rfl, rfl⟩
          · have before := view.marks next isNext
            obtain ⟨high, mark, isHigh, hasMark, covers, all, above⟩ := before.taken snap isTaken
            refine ⟨before.tailHigh, before.stamped, fun _ => ⟨high, isHigh, fun other isOther =>
              (above other isOther).trans_le covers⟩, fun snap isTaken => ?_, fun post isPost => ?_⟩
            · cases isTaken
            · cases isPost
              refine ⟨high, mark, isHigh, hasMark, covers, fun isBusy => ?_, ?_, fun _ => above⟩
              · refine covers.lt_of_ne fun same => ?_
                exact not_busy_dropPendingPrefix holds (all same.symm) isBusy
              · rw [← hasMark]
                exact isMark next isNext
          · refine Eq.trans ?_ top
            dsimp only [Process.base]
            rw [result]
            rfl
  · cases prepares

/-- The posted work, while a post is on its way or was answered. -/
theorem View.post_cases (view : sys.View rows) {post : Post} (isPost : sys.process.post = some post) :
    sys.process.window.flusher = .posted post.prepared.snapshotId ∧ sys.process.loaded = none ∧
      (post.Unlanded sys.process.window.buf sys.lake ∨ post.Landed sys.lake) := by
  have phase := view.phase
  unfold Process.Phase at phase
  split at phase
  · rw [phase.2] at isPost
    cases isPost
  · rw [phase.1] at isPost
    cases isPost
  · next snapshotId isPosted =>
      obtain ⟨noLoad, other, isOther, isId, outcome⟩ := phase
      rw [isPost] at isOther
      cases isOther
      exact ⟨isId ▸ isPosted, noLoad, outcome⟩

theorem View.land (view : sys.View rows) {post : Post} (isPost : sys.process.post = some post)
    (unlanded : post.Unlanded sys.process.window.buf sys.lake) (landed : List Prepared) :
    View rows { sys with
      process := { sys.process with post := some { post with state := .landed } }
      lake := { sys.lake.publish (sys.lake.current.commit post.prepared) with
        landed := landed } } := by
  obtain ⟨isPosted, noLoad, -⟩ := view.post_cases isPost
  obtain ⟨gen, older, flushed, commit, others⟩ := view.flow.posted _ isPosted
  have isGen : gen ∈ sys.process.window.buf.flushed := by rw [flushed]; simp
  have later : post.prepared.snapshotId < sys.lake.nextSnapshot := by
    obtain ⟨id, below, isCommit⟩ := view.versions.commits gen isGen
    rw [commit] at isCommit
    cases isCommit
    exact below
  have versions := view.versions
  rw [flushed] at versions
  have landed := Versions.land landed versions commit others
    (fun metadata mem => commit ▸ unlanded.absent metadata mem)
    (unlanded.rows gen ⟨older, flushed, commit, others⟩) later
  rw [← flushed] at landed
  refine
    { flow := view.flow
      versions := landed
      phase := ?_
      contained := fun other mem => ?_
      marks := fun next isNext => ?_
      top := ?_ }
  · unfold Process.Phase
    dsimp only
    rw [isPosted]
    refine ⟨noLoad, _, rfl, rfl, .inr ⟨rfl, ?_, rfl⟩⟩
    exact (Versions.contains_commit _ _ _).trans (by simp)
  · refine (view.contained other mem).imp_left fun contains => ?_
    obtain ⟨id, -, isCommit⟩ := view.versions.commits other mem
    rw [isCommit] at contains ⊢
    exact (Versions.contains_commit _ _ _).trans (by rw [contains]; rfl)
  · have before := view.marks next isNext
    obtain ⟨high, mark, isHigh, isMark, covers, busy, stamps, -⟩ := before.posted post isPost
    have watermark : (sys.lake.current.commit post.prepared).watermark = some mark := by
      rw [Metadata.commit, stamps]
      rfl
    have below := covers.trans_lt (before.tailHigh high isHigh)
    refine ⟨before.tailHigh, fun other isOther => ?_, fun isBusy => ⟨high, isHigh,
      fun other isOther => ?_⟩, fun snap isTaken => ?_, fun other isOther => ?_⟩
    · cases watermark.symm.trans isOther
      exact below
    · cases watermark.symm.trans isOther
      exact busy isBusy
    · rw [isPosted] at isTaken
      cases isTaken
    · cases isOther
      exact ⟨high, mark, isHigh, isMark, covers, busy, stamps, fun notLanded => absurd rfl notLanded⟩
  · have top := view.top
    rw [Process.base, isPost] at top
    exact top

/-- The generations that were flushed before the posted one are in the table. -/
theorem View.contained_older (view : sys.View rows) {id : Nat}
    (isPosted : sys.process.window.flusher = .posted id) {older : List FlushedGen}
    {gen other : FlushedGen} (flushed : sys.process.window.buf.flushed = older ++ [gen])
    (others : ∀ other ∈ older, other.commit ≠ .snapshot id) (mem : other ∈ older) :
    sys.lake.current.contains other.commit := by
  have isOld : other ∈ sys.process.window.buf.flushed := by
    rw [flushed]
    exact List.mem_append_left _ mem
  rcases view.contained other isOld with contains | ⟨own, isOwn, isCommit⟩
  · exact contains
  · rw [isPosted] at isOwn
    cases isOwn
    exact absurd isCommit (others other mem)

theorem View.arrive (view : sys.View rows) {after : Sys} (taken : sys.step .arrive = some after) :
    after.View rows := by
  simp only [step, Option.bind_eq_bind, Option.bind_eq_some_iff] at taken
  obtain ⟨⟨process, lake⟩, arrives, isAfter⟩ := taken
  cases isAfter
  obtain ⟨post, isPost, isSent, arrived⟩ := Process.arrive_cases arrives
  obtain ⟨isPosted, noLoad, outcome⟩ := view.post_cases isPost
  have unlanded : post.Unlanded sys.process.window.buf sys.lake := by
    refine outcome.resolve_right fun landed => ?_
    rw [landed.state] at isSent
    cases isSent
  rcases arrived with ⟨-, -, rfl, rfl⟩ | ⟨-, -, rfl, rfl⟩
  · exact view.land isPost unlanded _
  · refine
      { flow := view.flow
        versions := view.versions
        phase := ?_
        contained := view.contained
        marks := fun next isNext => ?_
        top := ?_ }
    · unfold Process.Phase
      dsimp only
      rw [isPosted]
      exact ⟨noLoad, _, rfl, rfl, .inl ⟨.inr rfl, unlanded.absent, unlanded.rows⟩⟩
    · have before := view.marks next isNext
      refine ⟨before.tailHigh, before.stamped, before.busy, before.taken,
        fun other isOther => ?_⟩
      cases isOther
      obtain ⟨high, mark, isHigh, isMark, covers, busy, stamps, above⟩ :=
        before.posted post isPost
      exact ⟨high, mark, isHigh, isMark, covers, busy, stamps,
        fun _ => above (by simp [isSent])⟩
    · have top := view.top
      rw [Process.base, isPost] at top
      exact top

theorem View.answer (view : sys.View rows) (apart : sys.RequeuesApart .answer) {after : Sys}
    (taken : sys.step .answer = some after) : after.View rows := by
  simp only [step, Option.bind_eq_bind, Option.bind_eq_some_iff] at taken
  obtain ⟨process, answers, isAfter⟩ := taken
  cases isAfter
  obtain ⟨post, window, isPost, answered, rfl⟩ := Process.answer_cases answers
  obtain ⟨isPosted, noLoad, outcome⟩ := view.post_cases isPost
  obtain ⟨gen, older, flushed, commit, others⟩ := view.flow.posted _ isPosted
  have top : sys.process.window.buf.commits post.prepared.rows =
      applyRowOps sys.ops rows := by
    have top := view.top
    rw [Process.base, isPost] at top
    exact top
  rcases answered with ⟨isLanded, steps⟩ | ⟨isRefused, steps⟩
  · have landed : post.Landed sys.lake := by
      refine outcome.resolve_left fun unlanded => ?_
      rcases unlanded.state with sent | refused
      · rw [sent] at isLanded
        cases isLanded
      · rw [refused] at isLanded
        cases isLanded
    have flow := view.flow.step (by trivial) steps
    simp only [Window.step, isPosted] at steps
    cases steps
    refine
      { flow := flow
        versions := view.versions
        phase := ⟨noLoad, rfl⟩
        contained := fun other mem => .inl ?_
        marks := fun next isNext => ?_
        top := ?_ }
    · rcases view.contained other mem with contains | ⟨id, isId, isCommit⟩
      · exact contains
      · rw [isPosted] at isId
        cases isId
        rw [isCommit]
        exact landed.present
    · have before := view.marks next isNext
      refine ⟨before.tailHigh, before.stamped, before.busy, fun snap isTaken => ?_,
        fun post isPost => ?_⟩
      · cases isTaken
      · cases isPost
    · rw [← landed.rows] at top
      exact top
  · have unlanded : post.Unlanded sys.process.window.buf sys.lake := by
      refine outcome.resolve_right fun landed => ?_
      rw [landed.state] at isRefused
      cases isRefused
    have posted : sys.process.window.buf.Posted post.prepared.snapshotId gen :=
      ⟨older, flushed, commit, others⟩
    have isGen : gen ∈ sys.process.window.buf.flushed := by rw [flushed]; simp
    have missing : ¬ sys.lake.current.contains gen.commit := by
      rw [commit]
      exact unlanded.absent _ (Lake.mem_versions.mpr (.inr rfl))
    have flow := view.flow.step (by trivial) steps
    simp only [Window.step, isPosted] at steps
    cases steps
    have after := TableBuf.moveFlushedBack_eq flushed commit others
    have versions := view.versions
    rw [flushed] at versions
    refine
      { flow := flow
        versions := ?_
        phase := ⟨noLoad, rfl⟩
        contained := fun other mem => .inl ?_
        marks := fun next isNext => ?_
        top := ?_ }
    · have popped := versions.pop missing
      change Versions (sys.process.window.buf.moveFlushedBackToPending _).flushed _ _ _
      rw [after]
      exact popped
    · change other ∈ (sys.process.window.buf.moveFlushedBackToPending _).flushed at mem
      rw [after] at mem
      exact view.contained_older isPosted flushed others mem
    · have before := view.marks next isNext
      obtain ⟨high, mark, isHigh, -, covers, -, -, above⟩ := before.posted post isPost
      have above := above (by simp [isRefused])
      have same : (sys.process.window.buf.moveFlushedBackToPending
          post.prepared.snapshotId).tailHigh = some high := by
        rw [after]
        exact isHigh
      refine ⟨fun other isOther => ?_, before.stamped, fun _ => ⟨high, same,
        fun other isOther => (above other isOther).trans_le covers⟩, fun snap isTaken => ?_,
        fun post isPost => ?_⟩
      · cases same.symm.trans isOther
        exact before.tailHigh high isHigh
      · cases isTaken
      · cases isPost
    · have rows : commitOf sys.process.window.buf.pkCols (gen.batches.map Prod.snd) gen.keyed
          sys.lake.current.rows = post.prepared.rows := by
        have single := commitWindows_single (gen.batches.map Prod.snd)
          (view.flow.sound.well.flushed gen isGen) sys.lake.current.rows
        exact Except.ok.inj (single.symm.trans (unlanded.rows gen posted))
      have merged := TableBuf.commits_moveFlushedBack view.flow.sound posted
        (view.flow.distinct gen isGen) (apart post gen isPost isRefused posted)
        sys.lake.current.rows
      rw [rows, top] at merged
      exact merged

/-- Other writers publish metadata with the same rows that contain the same generations. -/
theorem View.republish (view : sys.View rows) {metadata : Metadata} (next : Nat)
    (sameRows : metadata.rows = sys.lake.current.rows)
    (watermark : metadata.watermark = sys.lake.current.watermark)
    (same : ∀ gen ∈ sys.process.window.buf.flushed,
      sys.lake.current.contains gen.commit = metadata.contains gen.commit)
    (later : sys.lake.nextSnapshot ≤ next)
    (ids : ∀ snapshot ∈ metadata.snapshots, snapshot.id < next) :
    View rows { sys with lake := { sys.lake.publish metadata with nextSnapshot := next } } where
  flow := view.flow
  versions := view.versions.publish sameRows same later ids
  phase := by
    have phase := view.phase
    have posted := view.flow.posted
    unfold Process.Phase at phase ⊢
    dsimp only
    split at phase
    · exact phase
    · refine ⟨phase.1, fun loaded isLoaded => ?_⟩
      obtain ⟨isRows, isMark⟩ := phase.2 loaded isLoaded
      exact ⟨isRows.trans sameRows.symm, isMark.trans watermark.symm⟩
    · next snapshotId isPosted =>
        obtain ⟨gen, older, flushed, commit, others⟩ := posted snapshotId isPosted
        have isGen : gen ∈ sys.process.window.buf.flushed := by rw [flushed]; simp
        have contains := same gen isGen
        rw [commit] at contains
        obtain ⟨noLoad, post, isPost, rfl, unlanded | landed⟩ := phase
        · refine ⟨noLoad, post, isPost, rfl, .inl ⟨unlanded.state, fun other mem => ?_,
            fun gen posted => ?_⟩⟩
          · rcases List.mem_append.mp mem with old | new
            · exact unlanded.absent other old
            · rw [List.mem_singleton.mp new]
              change ¬ metadata.contains _
              rw [← contains]
              exact unlanded.absent _ (Lake.mem_versions.mpr (.inr rfl))
          · change commitWindows _ metadata.rows = _
            rw [sameRows]
            exact unlanded.rows gen posted
        · exact ⟨noLoad, post, isPost, rfl, .inr ⟨landed.state, contains ▸ landed.present,
            sameRows.trans landed.rows⟩⟩
  contained gen mem := (view.contained gen mem).imp_left fun contains => (same gen mem) ▸ contains
  marks next isNext := by
    change Marks sys.process metadata.watermark next
    rw [watermark]
    exact view.marks next isNext
  top := by
    have top := view.top
    have base : sys.process.base { sys.lake.publish metadata with nextSnapshot := next } =
        sys.process.base sys.lake := by
      unfold Process.base
      split
      · rfl
      · exact sameRows
    dsimp only
    rw [base]
    exact top

theorem View.foreign (view : sys.View rows) (timestamp : Nat) {others : Multiset Row}
    (same : others = sys.lake.current.rows) {after : Sys}
    (taken : sys.step (.foreign others timestamp) = some after) : after.View rows := by
  cases taken
  refine view.republish _ same rfl (fun gen mem => ?_) (Nat.le_succ _) fun snapshot mem => ?_
  · obtain ⟨id, below, isCommit⟩ := view.versions.commits gen mem
    simp [isCommit, Metadata.contains, below.ne']
  · rcases List.mem_append.mp mem with old | new
    · exact (view.versions.ids _ (Lake.mem_versions.mpr (.inr rfl)) snapshot old).trans
        (Nat.lt_succ_self _)
    · rw [List.mem_singleton.mp new]
      exact Nat.lt_succ_self _

theorem View.expire (view : sys.View rows) {keepLast : Nat}
    (expires : sys.ExpiresUnretained (.expire keepLast)) {after : Sys}
    (taken : sys.step (.expire keepLast) = some after) : after.View rows := by
  cases taken
  refine view.republish sys.lake.nextSnapshot rfl rfl (fun gen mem => ?_) le_rfl
    fun snapshot mem => ?_
  · rw [Bool.eq_iff_iff]
    refine ⟨expires gen mem, fun contains => ?_⟩
    obtain ⟨id, -, isCommit⟩ := view.versions.commits gen mem
    rw [isCommit] at contains ⊢
    obtain ⟨snapshot, isSnapshot, isId⟩ := List.any_eq_true.mp contains
    exact List.any_eq_true.mpr ⟨snapshot, (List.mem_filter.mp isSnapshot).1, isId⟩
  · exact view.versions.ids _ (Lake.mem_versions.mpr (.inr rfl)) snapshot (List.mem_filter.mp mem).1

/-- Every exact action keeps the staged operations accounted for. -/
theorem View.step (view : sys.View rows) {action : Action} (allowed : sys.Exact action) {after : Sys}
    (taken : sys.step action = some after) : after.View rows := by
  cases action with
  | append batches => exact view.append batches taken
  | keyed stmt => exact view.keyed stmt taken
  | durable index => exact view.durable index taken
  | fail index => exact allowed.definite.elim
  | scanLoad version => exact view.scanLoad version taken
  | scanTake index => exact view.scanTake index taken
  | age count => exact view.age count taken
  | gc => exact view.gc allowed.collects taken
  | take => exact view.take taken
  | load => exact view.load taken
  | giveUp => exact view.giveUp taken
  | prepare timestamp => exact view.prepare timestamp taken
  | arrive => exact view.arrive taken
  | answer => exact view.answer allowed.apart taken
  | error lost => exact allowed.definite.elim
  | resolve reloads => exact allowed.definite.elim
  | stray index => exact allowed.definite.elim
  | foreign others timestamp => exact view.foreign timestamp allowed.definite taken
  | expire keepLast => exact view.expire allowed.expires taken

/-- Every staged operation is accounted for in every exact run. -/
theorem View.run {watermark : Option Nat} {tail : Bool}
    (run : Run Sys.step Exact (initial rows watermark tail) sys) : sys.View rows :=
  run.invariant (fun _ _ _ view allowed taken => View.step view allowed taken)
    (view_initial rows watermark tail)

/-- The generations a version lacks lead from its rows to the rows below the live window. -/
theorem View.generations (view : sys.View rows) {metadata : Metadata}
    (readable : Readable sys.lake sys.scans sys.seen metadata) :
    commitWindows ((sys.process.window.buf.flushed.filter fun gen =>
        ¬ metadata.contains gen.commit).map genWindow) metadata.rows =
      .ok (sys.process.base sys.lake) := by
  have reads := view.versions.reads metadata readable
  -- unless a post is on its way, the current version contains every generation
  have settled (all : ∀ gen ∈ sys.process.window.buf.flushed,
      sys.lake.current.contains gen.commit) :
      commitWindows ((sys.process.window.buf.flushed.filter fun gen =>
        ¬ metadata.contains gen.commit).map genWindow) metadata.rows =
        .ok sys.lake.current.rows := by
    rw [← reads, between]
    congr 2
    apply List.filter_congr
    intro gen mem
    simp [all gen mem]
  cases isPost : sys.process.post with
  | none =>
      rw [Process.base, isPost]
      refine settled (view.contained_of_unposted fun id isPosted => ?_)
      have phase := view.phase
      unfold Process.Phase at phase
      rw [isPosted] at phase
      obtain ⟨-, post, hasPost, -⟩ := phase
      rw [isPost] at hasPost
      cases hasPost
  | some post =>
      obtain ⟨isPosted, -, outcome⟩ := view.post_cases isPost
      rw [Process.base, isPost]
      rcases outcome with unlanded | landed
      · obtain ⟨gen, older, flushed, commit, others⟩ := view.flow.posted _ isPosted
        have absent : ∀ other ∈ sys.lake.versions, ¬ other.contains gen.commit := by
          rw [commit]
          exact unlanded.absent
        have missing := absent metadata (Versions.readable_mem readable)
        have current := absent _ (Lake.mem_versions.mpr (.inr rfl))
        have olders : (older.filter fun gen => ¬ metadata.contains gen.commit).map genWindow =
            between sys.process.window.buf.flushed metadata sys.lake.current := by
          have front : between sys.process.window.buf.flushed metadata sys.lake.current =
              between older metadata sys.lake.current := by
            simp [flushed, between, List.filter_append, current]
          rw [front, between]
          congr 1
          apply List.filter_congr
          intro other mem
          have contains := view.contained_older isPosted flushed others mem
          simp [contains]
        have split : (sys.process.window.buf.flushed.filter fun gen =>
            ¬ metadata.contains gen.commit).map genWindow =
              between sys.process.window.buf.flushed metadata sys.lake.current ++
                [genWindow gen] := by
          rw [← olders, flushed, List.filter_append, List.map_append]
          simp [missing]
        rw [split, commitWindows_append, reads]
        exact unlanded.rows gen ⟨older, flushed, commit, others⟩
      · dsimp only
        rw [← landed.rows]
        refine settled fun gen mem => ?_
        rcases view.contained gen mem with contains | ⟨id, isId, isCommit⟩
        · exact contains
        · rw [isPosted] at isId
          cases isId
          rw [isCommit]
          exact landed.present

/-- A reader of any version sees the staged operations in order. -/
theorem View.sees (view : sys.View rows) {metadata : Metadata}
    (readable : Readable sys.lake sys.scans sys.seen metadata) :
    ∃ overlay, (sys.process.window.buf.overlayWith metadata.contains).2 = .ok overlay ∧
      unionRows metadata.rows overlay = applyRowOps sys.ops rows := by
  obtain ⟨overlay, isOverlay, committed⟩ := TableBuf.unionRows_overlayWith
    view.flow.sound.well metadata.contains metadata.rows
  refine ⟨overlay, isOverlay, ?_⟩
  rw [TableBuf.uncommitted, commitWindows_append] at committed
  have generations := view.generations readable
  change commitWindows ((sys.process.window.buf.flushed.filter fun gen =>
    ¬ metadata.contains gen.commit).map fun gen => (gen.batches.map Prod.snd, gen.keyed))
      metadata.rows = _ at generations
  rw [generations] at committed
  have live := commitWindows_single (sys.process.window.buf.pending.map PendingBatch.batch)
    view.flow.sound.well.window (sys.process.base sys.lake)
  have top : commitWindows [(sys.process.window.buf.pending.map PendingBatch.batch,
      TableBuf.keyedItems sys.process.window.buf.entries)] (sys.process.base sys.lake) =
        .ok (applyRowOps sys.ops rows) := live.trans (congrArg _ view.top)
  exact Except.ok.inj (committed.symm.trans top)

end Sys

end Icegres.Buffer
