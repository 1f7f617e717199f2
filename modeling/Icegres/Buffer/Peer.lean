import Icegres.Buffer.Mirror
import Icegres.Buffer.Windows

/-!
# A server and its peer

One server with its tail, and a peer that mirrors its window. The events of a statement may reach
the mirror at any time after the statement is durable, in any order, and each batch on its own; an
announced watermark reaches it after the statements it covers. Collection runs with every watermark
and every heartbeat, at any time.
-/

namespace Icegres.Buffer

/-- The events of a frame. -/
def Frame.events (frame : Frame) : List WireEvent :=
  frame.2.runs.map (frame.1, ·)

structure Mirrored where
  log : Logged
  mirror : TableMirror
  /-- The events that have not reached the mirror. -/
  flight : List WireEvent
  /-- What happened so far, which no step looks at: the frames of all statements, the runs that
  reached the mirror, the watermarks of the table and what the mirror collected up to. -/
  sent : List Frame
  arrived : List WireEvent
  marks : List Nat
  collected : Nat

namespace Mirrored

/-- A server that just started with nothing to replay, and a peer that subscribed. -/
def initial (pkCols : List Nat) (gcGrace : Nat) (rows : Multiset Row)
    (property sidecar : Option Nat) : Mirrored where
  log := Logged.initial rows property sidecar
  mirror := TableMirror.empty pkCols gcGrace
  flight := []
  sent := []
  arrived := []
  marks := (effectiveWatermark property sidecar).toList ++ property.toList
  collected := 0

inductive Action where
  | source (action : Sys.Action)
  /-- The flusher records the mark of a finished flush, forgets frames it covers and announces
  it. -/
  | forget (kept : Nat → Bool)
  /-- An event reaches the mirror. -/
  | arrive (index now : Nat)
  | heartbeat (now : Nat)
  /-- A scan of the peer reads the mirror. -/
  | scan (now version : Nat)

/-- A statement's event is published once it is durable, and a watermark's arrives after those it
covers. -/
def mayArrive (mirrored : Mirrored) : WireEvent → Prop
  | (seq, .watermark) => ∀ event ∈ mirrored.flight, event.2 ≠ .watermark → seq < event.1
  | (seq, _) => ∀ stmt ∈ mirrored.log.sys.process.window.waiting, stmt.seq ≠ seq

instance (mirrored : Mirrored) (event : WireEvent) : Decidable (mirrored.mayArrive event) := by
  obtain ⟨seq, op⟩ := event
  cases op <;> exact List.decidableBAll _ _

/-- What ingesting an event collects up to. -/
def collects (mirror : TableMirror) (now : Nat) : WireEvent → Nat
  | (seq, .watermark) => ((mirror.noteWatermark now seq).gcThreshold now).getD 0
  | _ => 0

def step (mirrored : Mirrored) : Action → Option Mirrored
  | .source action => do
      let log ← mirrored.log.step (.flow action)
      let frames := Logged.written mirrored.log.sys action
      return { mirrored with
        log
        flight := mirrored.flight ++ frames.flatMap Frame.events
        sent := mirrored.sent ++ frames
        marks := log.watermark.toList ++ mirrored.marks }
  | .forget kept => do
      let mark ← mirrored.log.covered
      let log ← mirrored.log.step (.forget true kept)
      return { mirrored with
        log
        flight := mirrored.flight ++ [(mark, .watermark)]
        marks := log.watermark.toList ++ mirrored.marks }
  | .arrive index now => do
      let event ← mirrored.flight[index]?
      if mirrored.mayArrive event then
        let mirror ← (mirrored.mirror.ingest now event).toOption
        return { mirrored with
          mirror
          flight := mirrored.flight.eraseIdx index
          arrived := if event.2 = .watermark then mirrored.arrived else mirrored.arrived ++ [event]
          collected := max mirrored.collected (collects mirrored.mirror now event) }
      else
        none
  | .heartbeat now => do
      let event := (mirrored.mirror.watermark, .watermark)
      let mirror ← (mirrored.mirror.ingest now event).toOption
      return { mirrored with
        mirror
        collected := max mirrored.collected (collects mirrored.mirror now event) }
  | .scan now version => do
      let metadata ← mirrored.log.sys.lake.versions[version]?
      return { mirrored with mirror := (mirrored.mirror.overlayFor now metadata.watermark).1 }

/-- Each row that the mirror routes over an entry is the only one of its key in its statement, and
no watermark of the table lies between the two. -/
def RoutesAlike (pkCols : List Nat) (mirrored : Mirrored) : WireEvent → Prop
  | (seq, .append run) => ∀ row ∈ run, mirrored.mirror.routes seq (encodeKey pkCols row) = true →
      (∀ entry, mirrored.mirror.keyed.lookup (encodeKey pkCols row) = some entry →
        Unseparated mirrored.marks entry.seq seq) ∧
      ∃ batches, (seq, .append batches) ∈ mirrored.sent ∧
        batches.flatten.filter (fun other => encodeKey pkCols other = encodeKey pkCols row) = [row]
  | _ => True

/-- The runs in which the mirror routes as its server does. -/
def Aligned (pkCols : List Nat) (mirrored : Mirrored) : Action → Prop
  | .source action => mirrored.log.Acknowledged pkCols (.flow action) ∧
      mirrored.log.Grounded pkCols (.flow action)
  | .arrive index _ => ∀ event, mirrored.flight[index]? = some event →
      mirrored.RoutesAlike pkCols event
  | _ => True

/-! ## The invariant -/

variable {pkCols : List Nat} {rows : Multiset Row} {mirrored after : Mirrored}

/-- The rows an event inserts. -/
def rowsOf (event : WireEvent) : List (Nat × Row) :=
  event.2.inserts.map (event.1, ·)

/-- The items above what the mirror collected. -/
def live (mirrored : Mirrored) (items : List (Nat × Row)) : Multiset (Nat × Row) :=
  (items.filter fun item => mirrored.collected < item.1 : List (Nat × Row))

/-- A row that the mirror routed: it replaced its key on the server too, and was the only row of
its key in its statement. -/
structure RoutedRow (pkCols : List Nat) (mirrored : Mirrored) (item : Nat × Row) : Prop where
  put : (some item.1, .put pkCols (encodeKey pkCols item.2) [item.2]) ∈ mirrored.log.sys.journal
  alone : ∃ batches, (item.1, .append batches) ∈ mirrored.sent ∧
    batches.flatten.filter (fun other => encodeKey pkCols other = encodeKey pkCols item.2) = [item.2]
  reaches : mirrored.collected < item.1 → ∃ entry,
    mirrored.mirror.keyed.lookup (encodeKey pkCols item.2) = some entry ∧ item.1 ≤ entry.seq

/-- Where an entry of the mirror comes from: a routed row or a keyed statement. -/
structure Origin (pkCols : List Nat) (mirrored : Mirrored) (routed : List (Nat × Row)) (key : Key)
    (entry : MirrorKeyed) : Prop where
  put : (some entry.seq, .put pkCols key entry.row.toList) ∈ mirrored.log.sys.journal
  source : (∃ row, entry.row = some row ∧ encodeKey pkCols row = key ∧ (entry.seq, row) ∈ routed) ∨
    ∃ event ∈ mirrored.arrived, event.1 = entry.seq ∧ (key, entry.row) ∈ event.2.puts pkCols

/-- The mirror holds what reached it: plain rows, and for each key an entry that is as new as every
keyed operation of the key. -/
structure Holds (pkCols : List Nat) (mirrored : Mirrored) (routed : List (Nat × Row)) : Prop where
  inserted : mirrored.live (mirrored.arrived.flatMap rowsOf) =
    mirrored.live mirrored.mirror.plain + mirrored.live routed
  positive : ∀ item ∈ mirrored.mirror.plain, 0 < item.1
  alike : ∀ item ∈ routed, mirrored.RoutedRow pkCols item
  keyed : ∀ event ∈ mirrored.arrived, ∀ put ∈ event.2.puts pkCols, mirrored.collected < event.1 →
    ∃ entry, mirrored.mirror.keyed.lookup put.1 = some entry ∧ event.1 ≤ entry.seq
  origin : ∀ key entry, mirrored.mirror.keyed.lookup key = some entry →
    mirrored.Origin pkCols routed key entry

/-- The server is replayable, its tail is tracked, and the mirror holds what reached it. -/
structure Mirrors (pkCols : List Nat) (rows : Multiset Row) (mirrored : Mirrored) : Prop where
  replayable : mirrored.log.Replayable pkCols rows
  tracked : mirrored.log.Tracked pkCols rows mirrored.sent mirrored.marks
  positive : (∃ next, mirrored.log.sys.nextSeq = some next ∧ 0 < next) ∧
    ∀ frame ∈ mirrored.sent, 0 < frame.1
  cols : mirrored.mirror.pkCols = pkCols
  formed : mirrored.mirror.Formed
  announced : ∀ event ∈ mirrored.flight, event.2 = .watermark → event.1 ∈ mirrored.marks
  observed : ∀ mark ∈ mirrored.mirror.coveredMarks, mark.2 ∈ mirrored.marks
  events : ((mirrored.sent.flatMap Frame.events : List WireEvent) : Multiset WireEvent) =
    ((mirrored.flight.filter fun event => event.2 ≠ .watermark : List WireEvent) :
      Multiset WireEvent) + (mirrored.arrived : Multiset WireEvent)
  holds : ∃ routed, mirrored.Holds pkCols routed

theorem mirrors_initial (pkCols : List Nat) (gcGrace : Nat) (rows : Multiset Row)
    (property sidecar : Option Nat) :
    (initial pkCols gcGrace rows property sidecar).Mirrors pkCols rows where
  replayable := Logged.replayable_initial pkCols rows property sidecar
  tracked := Logged.tracked_initial pkCols rows property sidecar
  positive := ⟨⟨_, rfl, Nat.succ_pos _⟩, fun _ mem => nomatch mem⟩
  cols := rfl
  formed := TableMirror.formed_empty pkCols gcGrace
  announced := fun _ mem => nomatch mem
  observed := fun _ mem => nomatch mem
  events := rfl
  holds := by
    refine ⟨[], rfl, fun _ mem => (nomatch mem), fun _ mem => (nomatch mem),
      fun _ mem => (nomatch mem), fun key entry found => ?_⟩
    rw [show (initial pkCols gcGrace rows property sidecar).mirror.keyed.lookup key = none from
      AList.lookup_empty key] at found
    cases found

/-! ## The server steps -/

/-- Statements publish runs of rows, never watermarks. -/
theorem runs_ne_watermark {op : TailOp} {run : WireOp} (isRun : run ∈ op.runs) :
    run ≠ .watermark := by
  rintro rfl
  cases op <;> simp [TailOp.runs] at isRun

theorem Frame.events_ne_watermark {frames : List Frame} {event : WireEvent}
    (mem : event ∈ frames.flatMap Frame.events) : event.2 ≠ .watermark := by
  obtain ⟨frame, -, isEvent⟩ := List.mem_flatMap.mp mem
  obtain ⟨run, isRun, rfl⟩ := List.mem_map.mp isEvent
  exact runs_ne_watermark isRun

/-- Items hold on when the server's journal and tail grow and the mirror stays. -/
theorem Holds.grow {routed : List (Nat × Row)} (holds : mirrored.Holds pkCols routed)
    (journal : mirrored.log.sys.journal ⊆ after.log.sys.journal)
    (sent : mirrored.sent ⊆ after.sent) (plain : after.mirror.plain = mirrored.mirror.plain)
    (keyed : after.mirror.keyed = mirrored.mirror.keyed) (arrived : after.arrived = mirrored.arrived)
    (collected : after.collected = mirrored.collected) : after.Holds pkCols routed where
  inserted := by
    rw [live, live, live, collected, arrived, plain]
    exact holds.inserted
  positive := plain ▸ holds.positive
  alike item mem := by
    obtain ⟨put, ⟨batches, isFrame, only⟩, reaches⟩ := holds.alike item mem
    rw [← keyed, ← collected] at reaches
    exact ⟨journal put, ⟨batches, sent isFrame, only⟩, reaches⟩
  keyed := by
    rw [arrived, collected, keyed]
    exact holds.keyed
  origin key entry found := by
    obtain ⟨put, source⟩ := holds.origin key entry (keyed ▸ found)
    rw [← arrived] at source
    exact ⟨journal put, source⟩

/-- Statements are only added, to the journal and to the tail. -/
theorem journal_grows {sys next : Sys} {action : Sys.Action} (taken : sys.step action = some next) :
    sys.journal ⊆ next.journal ∧ ∀ seq, sys.nextSeq = some seq →
      ∃ later, next.nextSeq = some later ∧ seq ≤ later := by
  have unkeyed (appends : sys.AppendsOnly action) : sys.journal ⊆ next.journal ∧
      ∀ seq, sys.nextSeq = some seq → ∃ later, next.nextSeq = some later ∧ seq ≤ later := by
    obtain ⟨-, ⟨journal, same⟩ | ⟨batches, same, journal⟩⟩ := Sys.step_moves appends taken
    · exact ⟨journal ▸ List.Subset.refl _, fun seq isSeq => ⟨seq, same.trans isSeq, le_rfl⟩⟩
    · refine ⟨journal ▸ List.subset_append_left _ _, fun seq isSeq => ⟨seq + 1, ?_, Nat.le_succ seq⟩⟩
      rw [same, isSeq]
      rfl
  cases Sys.took taken with
  | @keyed stmt seq window isSeq =>
      refine ⟨List.subset_append_left _ _, fun other isOther => ⟨seq + 1, rfl, ?_⟩⟩
      cases isSeq.symm.trans isOther
      exact Nat.le_succ seq
  | _ => exact unkeyed trivial

/-- A frame has the sequence that was next. -/
theorem seq_of_written {sys : Sys} {action : Sys.Action} {frame : Frame}
    (mem : frame ∈ Logged.written sys action) : sys.nextSeq = some frame.1 := by
  cases action with
  | append batches =>
      simp only [Logged.written] at mem
      split at mem
      · cases mem
      · obtain ⟨seq, isSeq, rfl⟩ := List.mem_map.mp mem
        exact Option.mem_toList.mp isSeq
  | keyed stmt =>
      obtain ⟨seq, isSeq, rfl⟩ := List.mem_map.mp mem
      exact Option.mem_toList.mp isSeq
  | _ => cases mem

theorem Mirrors.source (mirrors : mirrored.Mirrors pkCols rows) {action : Sys.Action}
    (aligned : mirrored.Aligned pkCols (.source action))
    (taken : mirrored.step (.source action) = some after) : after.Mirrors pkCols rows := by
  obtain ⟨acknowledged, grounded⟩ := aligned
  obtain ⟨log, steps, isAfter⟩ := Option.bind_eq_some_iff.mp taken
  cases isAfter
  have tracked := mirrors.tracked.flow mirrors.replayable acknowledged grounded steps
  have replayable := mirrors.replayable.step acknowledged grounded steps
  obtain ⟨sys, flows, -, isLog⟩ := Logged.step_flow_eq_some steps
  have isSys : log.sys = sys := by rw [isLog]
  obtain ⟨journal, numbers⟩ := journal_grows flows
  obtain ⟨⟨next, isNext, positive⟩, positives⟩ := mirrors.positive
  obtain ⟨routed, holds⟩ := mirrors.holds
  rw [← isSys] at journal numbers
  exact
    { replayable := replayable
      tracked := tracked
      positive := by
        obtain ⟨later, isLater, reached⟩ := numbers next isNext
        refine ⟨⟨later, isLater, positive.trans_le reached⟩, fun frame mem => ?_⟩
        rcases List.mem_append.mp mem with old | new
        · exact positives frame old
        · cases (seq_of_written new).symm.trans isNext
          exact positive
      cols := mirrors.cols
      formed := mirrors.formed
      announced := fun event mem isWatermark => by
        rcases List.mem_append.mp mem with old | new
        · exact List.mem_append_right _ (mirrors.announced event old isWatermark)
        · exact absurd isWatermark (Frame.events_ne_watermark new)
      observed := fun mark mem => List.mem_append_right _ (mirrors.observed mark mem)
      events := by
        have all : ((Logged.written mirrored.log.sys action).flatMap Frame.events).filter
            (fun event => event.2 ≠ .watermark) =
              (Logged.written mirrored.log.sys action).flatMap Frame.events :=
          List.filter_eq_self.mpr fun event mem => decide_eq_true (Frame.events_ne_watermark mem)
        dsimp only
        rw [List.flatMap_append, List.filter_append, all, ← Multiset.coe_add, mirrors.events,
          ← Multiset.coe_add, add_right_comm]
      holds := ⟨routed, holds.grow journal (List.subset_append_left _ _) rfl rfl rfl rfl⟩ }

/-- A finished flush is announced under the mark it recorded. -/
theorem Mirrors.forget (mirrors : mirrored.Mirrors pkCols rows) {kept : Nat → Bool}
    (taken : mirrored.step (.forget kept) = some after) : after.Mirrors pkCols rows := by
  simp only [step, Option.bind_eq_bind, Option.bind_eq_some_iff] at taken
  obtain ⟨mark, isCovered, log, steps, isAfter⟩ := taken
  cases isAfter
  obtain ⟨own, isOwn, isMark, tracked⟩ := mirrors.tracked.forget mirrors.replayable steps
  cases isCovered.symm.trans isOwn
  have replayable := mirrors.replayable.forget steps
  have same : log.sys = mirrored.log.sys := by
    obtain ⟨other, -, isLog⟩ := Option.bind_eq_some_iff.mp steps
    cases isLog
    rfl
  obtain ⟨routed, holds⟩ := mirrors.holds
  exact
    { replayable := replayable
      tracked := tracked
      positive := by
        dsimp only
        rw [same]
        exact mirrors.positive
      cols := mirrors.cols
      formed := mirrors.formed
      announced := fun event mem isWatermark => by
        rcases List.mem_append.mp mem with old | new
        · exact List.mem_append_right _ (mirrors.announced event old isWatermark)
        · rw [List.mem_singleton.mp new]
          exact isMark
      observed := fun mark mem => List.mem_append_right _ (mirrors.observed mark mem)
      events := by
        dsimp only
        rw [List.filter_append, List.filter_singleton]
        simpa using mirrors.events
      holds := ⟨routed, holds.grow (by rw [same]; exact List.Subset.refl _) (List.Subset.refl _) rfl
        rfl rfl rfl⟩ }

/-! ## The mirror collects -/

/-- What is above a later mark is above an earlier one. -/
theorem live_later (collects : mirrored.collected ≤ after.collected) (items : List (Nat × Row)) :
    after.live items = (mirrored.live items).filter fun item => after.collected < item.1 := by
  rw [live, live, Multiset.filter_coe, List.filter_filter]
  refine congrArg _ (List.filter_congr fun item _ => ?_)
  rw [Bool.eq_iff_iff]
  simp only [decide_eq_true_eq, Bool.and_eq_true, iff_self_and]
  exact collects.trans_lt

/-- What the mirror holds above its mark stays when it collects up to a mark. -/
theorem Holds.collect {routed : List (Nat × Row)} (holds : mirrored.Holds pkCols routed)
    (log : after.log = mirrored.log) (sent : after.sent = mirrored.sent)
    (arrived : after.arrived = mirrored.arrived) (collects : mirrored.collected ≤ after.collected)
    (plain : after.live after.mirror.plain = after.live mirrored.mirror.plain)
    (rows : after.mirror.plain ⊆ mirrored.mirror.plain)
    (keeps : ∀ key entry, mirrored.mirror.keyed.lookup key = some entry →
      after.collected < entry.seq → after.mirror.keyed.lookup key = some entry)
    (fewer : ∀ key entry, after.mirror.keyed.lookup key = some entry →
      mirrored.mirror.keyed.lookup key = some entry) : after.Holds pkCols routed where
  inserted := by
    rw [plain, live_later collects, live_later collects, live_later collects, arrived,
      holds.inserted, Multiset.filter_add]
  positive item mem := holds.positive item (rows mem)
  alike item mem := by
    obtain ⟨put, alone, reaches⟩ := holds.alike item mem
    rw [← log] at put
    rw [← sent] at alone
    refine ⟨put, alone, fun above => ?_⟩
    obtain ⟨entry, found, reached⟩ := reaches (collects.trans_lt above)
    exact ⟨entry, keeps _ entry found (above.trans_le reached), reached⟩
  keyed event mem put isPut above := by
    obtain ⟨entry, found, reached⟩ :=
      holds.keyed event (arrived ▸ mem) put isPut (collects.trans_lt above)
    exact ⟨entry, keeps _ entry found (above.trans_le reached), reached⟩
  origin key entry found := by
    obtain ⟨put, source⟩ := holds.origin key entry (fewer key entry found)
    rw [← log] at put
    rw [← arrived] at source
    exact ⟨put, source⟩

variable (after) in
/-- Collection of a mirror that noted a watermark. -/
theorem Holds.gc {routed : List (Nat × Row)} (holds : mirrored.Holds pkCols routed)
    {noted : TableMirror} (formed : noted.Formed) (plain : noted.plain = mirrored.mirror.plain)
    (keyed : noted.keyed = mirrored.mirror.keyed) (now : Nat) (mirror : after.mirror = noted.gc now)
    (log : after.log = mirrored.log) (sent : after.sent = mirrored.sent)
    (arrived : after.arrived = mirrored.arrived)
    (collected : after.collected = max mirrored.collected ((noted.gcThreshold now).getD 0)) :
    after.Holds pkCols routed ∧ after.mirror.pkCols = noted.pkCols ∧ after.mirror.Formed ∧
      after.mirror.coveredMarks ⊆ noted.coveredMarks := by
  have grows : mirrored.collected ≤ after.collected := collected ▸ le_max_left _ _
  rcases TableMirror.collected_gc formed now with ⟨-, same⟩ | ⟨threshold, isThreshold, collect⟩
  · rw [same] at mirror
    subst mirror
    refine ⟨?_, rfl, formed, List.Subset.refl _⟩
    exact holds.collect log sent arrived grows (congrArg _ plain) (plain ▸ List.Subset.refl _)
      (fun key entry found _ => keyed ▸ found) fun key entry found => keyed ▸ found
  · rw [← mirror] at collect
    have reached : threshold ≤ after.collected := by
      rw [collected, isThreshold]
      exact le_max_right _ _
    refine ⟨holds.collect log sent arrived grows ?_ ?_ (fun key entry found above => ?_)
      fun key entry found => ?_, collect.cols, collect.formed, collect.marks⟩
    · rw [collect.plain, plain, live, live, List.filter_filter]
      refine congrArg _ (List.filter_congr fun item _ => ?_)
      rw [Bool.eq_iff_iff]
      simp only [decide_eq_true_eq, Bool.and_eq_true, and_iff_left_iff_imp]
      exact reached.trans_lt
    · rw [collect.plain, plain]
      exact List.filter_subset_self _
    · rw [collect.lookup, keyed, Option.filter_eq_some_iff]
      exact ⟨found, decide_eq_true (reached.trans_lt above)⟩
    · rw [collect.lookup, keyed, Option.filter_eq_some_iff] at found
      exact found.1

/-- Noting a watermark changes nothing else. -/
theorem noteWatermark_same (mirror : TableMirror) (now seq : Nat) :
    (mirror.noteWatermark now seq).plain = mirror.plain ∧
      (mirror.noteWatermark now seq).keyed = mirror.keyed ∧
      (mirror.noteWatermark now seq).pkCols = mirror.pkCols ∧
      (mirror.noteWatermark now seq).coveredMarks ⊆ mirror.coveredMarks ++ [(now, seq)] ∧
      (mirror.Formed → (mirror.noteWatermark now seq).Formed) := by
  unfold TableMirror.noteWatermark
  split
  · exact ⟨rfl, rfl, rfl, List.Subset.refl _, fun formed => ⟨formed.keys, formed.keyless,
      formed.carries⟩⟩
  · exact ⟨rfl, rfl, rfl, List.subset_append_left _ _, id⟩

/-- A watermark, or a heartbeat that repeats one, is ingested. -/
theorem Mirrors.collect (mirrors : mirrored.Mirrors pkCols rows) {mirror : TableMirror}
    {now seq : Nat} {flight : List WireEvent}
    (ingests : mirrored.mirror.ingest now (seq, .watermark) = .ok mirror)
    (noted : ∀ mark ∈ (mirrored.mirror.noteWatermark now seq).coveredMarks,
      mark.2 ∈ mirrored.marks)
    (fewer : flight ⊆ mirrored.flight)
    (runs : flight.filter (fun event => event.2 ≠ .watermark) =
      mirrored.flight.filter fun event => event.2 ≠ .watermark) :
    Mirrors pkCols rows { mirrored with
      mirror
      flight
      collected := max mirrored.collected (collects mirrored.mirror now (seq, .watermark)) } := by
  have isMirror : mirror = (mirrored.mirror.noteWatermark now seq).gc now := by
    cases ingests
    rfl
  obtain ⟨plain, keyed, cols, -, formed⟩ := noteWatermark_same mirrored.mirror now seq
  obtain ⟨routed, holds⟩ := mirrors.holds
  obtain ⟨holds, sameCols, formed, marks⟩ := holds.gc
    { mirrored with
      mirror
      flight
      collected := max mirrored.collected (collects mirrored.mirror now (seq, .watermark)) }
    (formed mirrors.formed) plain keyed now isMirror rfl rfl rfl rfl
  exact
    { replayable := mirrors.replayable
      tracked := mirrors.tracked
      positive := mirrors.positive
      cols := sameCols.trans (cols.trans mirrors.cols)
      formed := formed
      announced := fun event mem => mirrors.announced event (fewer mem)
      observed := fun mark mem => noted mark (marks mem)
      events := by
        dsimp only
        rw [runs]
        exact mirrors.events
      holds := ⟨routed, holds⟩ }

theorem ok_of_toOption {ε α : Type} {result : Except ε α} {value : α}
    (isValue : result.toOption = some value) : result = .ok value := by
  cases result with
  | error => cases isValue
  | ok => exact congrArg _ (Option.some.inj isValue)

theorem Mirrors.heartbeat (mirrors : mirrored.Mirrors pkCols rows) {now : Nat}
    (taken : mirrored.step (.heartbeat now) = some after) : after.Mirrors pkCols rows := by
  simp only [step, Option.bind_eq_bind, Option.bind_eq_some_iff] at taken
  obtain ⟨mirror, ingests, isAfter⟩ := taken
  cases isAfter
  refine mirrors.collect (ok_of_toOption ingests) (fun mark mem => ?_)
    (List.Subset.refl _) rfl
  rw [TableMirror.noteWatermark, if_neg (Nat.lt_irrefl _)] at mem
  exact mirrors.observed mark mem

/-- A reader leaves its time and its watermark. -/
theorem Mirrors.scan (mirrors : mirrored.Mirrors pkCols rows) {now version : Nat}
    (taken : mirrored.step (.scan now version) = some after) : after.Mirrors pkCols rows := by
  simp only [step, Option.bind_eq_bind, Option.bind_eq_some_iff] at taken
  obtain ⟨metadata, -, isAfter⟩ := taken
  cases isAfter
  obtain ⟨routed, holds⟩ := mirrors.holds
  exact
    { replayable := mirrors.replayable
      tracked := mirrors.tracked
      positive := mirrors.positive
      cols := mirrors.cols
      formed := ⟨mirrors.formed.keys, mirrors.formed.keyless, mirrors.formed.carries⟩
      announced := mirrors.announced
      observed := mirrors.observed
      events := mirrors.events
      holds := ⟨routed, holds.grow (List.Subset.refl _) (List.Subset.refl _) rfl rfl rfl rfl⟩ }

/-! ## The mirror ingests a statement's run -/

/-- The events of statements are those in flight and those that arrived. -/
theorem Mirrors.mem_events (mirrors : mirrored.Mirrors pkCols rows) {event : WireEvent} :
    (∃ frame ∈ mirrored.sent, event ∈ frame.events) ↔
      (event ∈ mirrored.flight ∧ event.2 ≠ .watermark) ∨ event ∈ mirrored.arrived := by
  rw [← List.mem_flatMap, ← Multiset.mem_coe, mirrors.events, Multiset.mem_add, Multiset.mem_coe,
    Multiset.mem_coe, List.mem_filter, decide_eq_true_eq]

/-- A keyed run of a statement is in the journal. -/
theorem Mirrors.put_of_event (mirrors : mirrored.Mirrors pkCols rows) {frame : Frame}
    (isFrame : frame ∈ mirrored.sent) {event : WireEvent} (isEvent : event ∈ frame.events)
    {put : Key × Option Row} (mem : put ∈ event.2.puts pkCols) :
    event.1 = frame.1 ∧ put.1 ∈ frame.2.keys pkCols ∧
      (some event.1, .put pkCols put.1 put.2.toList) ∈ mirrored.log.sys.journal := by
  obtain ⟨run, isRun, rfl⟩ := List.mem_map.mp isEvent
  obtain ⟨seq, op⟩ := frame
  have reads := mirrors.tracked.reads
  have joins {rowOp : RowOp} (isOp : rowOp ∈ op.ops pkCols
      (touchedBy pkCols mirrored.marks mirrored.sent seq)) :
      (some seq, rowOp) ∈ mirrored.log.sys.journal := by
    rw [reads]
    exact List.mem_flatMap.mpr ⟨_, isFrame, List.mem_map_of_mem isOp⟩
  refine ⟨rfl, ?_⟩
  cases op with
  | append batches =>
      obtain ⟨batch, -, rfl⟩ := List.mem_map.mp isRun
      cases mem
  | upsert batches =>
      obtain ⟨batch, isBatch, rfl⟩ := List.mem_map.mp isRun
      obtain ⟨row, isRow, rfl⟩ := List.mem_map.mp mem
      have isRow : row ∈ batches.flatten := List.mem_flatten_of_mem isBatch isRow
      exact ⟨List.mem_map_of_mem isRow, joins (List.mem_map_of_mem isRow)⟩
  | delete batches =>
      obtain ⟨batch, isBatch, rfl⟩ := List.mem_map.mp isRun
      obtain ⟨key, isKey, rfl⟩ := List.mem_map.mp mem
      have isKey : key ∈ batches.flatten := List.mem_flatten_of_mem isBatch isKey
      exact ⟨isKey, joins (List.mem_map_of_mem isKey)⟩

theorem live_append (items more : List (Nat × Row)) :
    mirrored.live (items ++ more) = mirrored.live items + mirrored.live more := by
  rw [live, live, live, List.filter_append, Multiset.coe_add]

/-- A row that the mirror routes replaces its key on the server too. -/
theorem Mirrors.routed_row (mirrors : mirrored.Mirrors pkCols rows) {seq : Nat} {run : Batch}
    {row : Row} (alike : mirrored.RoutesAlike pkCols (seq, .append run)) (isRow : row ∈ run)
    (routes : mirrored.mirror.routes seq (encodeKey pkCols row) = true) :
    (some seq, .put pkCols (encodeKey pkCols row) [row]) ∈ mirrored.log.sys.journal ∧
      ∃ batches, (seq, .append batches) ∈ mirrored.sent ∧
        batches.flatten.filter (fun other => encodeKey pkCols other = encodeKey pkCols row) =
          [row] := by
  obtain ⟨apart, batches, isFrame, alone⟩ := alike row isRow routes
  obtain ⟨entry, found, older⟩ := Option.any_eq_true .. |>.mp routes
  have older : entry.seq < seq := of_decide_eq_true (Bool.and_eq_true_iff.mp older).1
  obtain ⟨routed, holds⟩ := mirrors.holds
  -- the window of the row holds a keyed frame on its key
  obtain ⟨frame, isKeyed, earlier, together, isKey⟩ :=
    mirrors.tracked.reads.keyed_of_put (holds.origin _ entry found).put
  have touched : encodeKey pkCols row ∈ touchedBy pkCols mirrored.marks mirrored.sent seq :=
    mem_touchedBy.mpr ⟨frame, isKeyed, earlier.trans_lt older,
      together.trans (apart entry found), isKey⟩
  have isInserted : row ∈ batches.flatten := by
    have mem : row ∈ batches.flatten.filter fun other =>
        encodeKey pkCols other = encodeKey pkCols row := by
      rw [alone]
      exact List.mem_singleton_self row
    exact (List.mem_filter.mp mem).1
  exact ⟨mirrors.tracked.reads.put_of_insert isFrame isInserted touched, batches, isFrame, alone⟩

theorem Mirrors.ingest (mirrors : mirrored.Mirrors pkCols rows) {index now seq : Nat} {op : WireOp}
    (isEvent : mirrored.flight[index]? = some (seq, op)) (isRun : op ≠ .watermark)
    (alike : mirrored.RoutesAlike pkCols (seq, op)) {mirror : TableMirror}
    (ingests : mirrored.mirror.ingest now (seq, op) = .ok mirror) :
    Mirrors pkCols rows { mirrored with
      mirror
      flight := mirrored.flight.eraseIdx index
      arrived := mirrored.arrived ++ [(seq, op)] } := by
  obtain ⟨replaced, plain, ingested⟩ := TableMirror.ingested_of_ingest mirrors.formed isRun ingests
  obtain ⟨routed, holds⟩ := mirrors.holds
  have cols := mirrors.cols
  obtain ⟨bound, isAt⟩ := List.getElem?_eq_some_iff.mp isEvent
  have inFlight : (seq, op) ∈ mirrored.flight := List.mem_of_getElem? isEvent
  obtain ⟨frame, isFrame, isOwn⟩ := mirrors.mem_events.mpr (.inl ⟨inFlight, isRun⟩)
  have replaces (row : Row) (mem : row ∈ replaced) :
      (some seq, .put pkCols (encodeKey pkCols row) [row]) ∈ mirrored.log.sys.journal ∧
        ∃ batches, (seq, .append batches) ∈ mirrored.sent ∧
          batches.flatten.filter (fun other => encodeKey pkCols other = encodeKey pkCols row) =
            [row] := by
    have routes := ingested.routes row mem
    rw [cols] at routes
    have isInsert : row ∈ op.inserts := by
      rw [← Multiset.mem_coe, ingested.split, Multiset.mem_add]
      exact .inl mem
    cases op with
    | append run => exact mirrors.routed_row alike isInsert routes
    | watermark | upsert run | delete run => cases isInsert
  have reaches := ingested.reaches
  have lookup := ingested.lookup
  rw [cols] at reaches lookup
  exact
    { replayable := mirrors.replayable
      tracked := mirrors.tracked
      positive := mirrors.positive
      cols := ingested.cols.trans cols
      formed := ingested.formed
      announced := fun event mem => mirrors.announced event (List.mem_of_mem_eraseIdx mem)
      observed := by
        dsimp only
        rw [ingested.marks]
        exact mirrors.observed
      events := by
        have split := List.getElem_cons_eraseIdx_perm bound
        rw [isAt] at split
        have split := (split.filter fun event => event.2 ≠ .watermark).symm
        rw [List.filter_cons_of_pos (by simpa using isRun)] at split
        rw [mirrors.events, Multiset.coe_add, Multiset.coe_add, Multiset.coe_eq_coe]
        refine (split.append_right _).trans ?_
        rw [← List.append_assoc]
        exact (List.perm_append_singleton _ _).symm
      holds := by
        refine ⟨routed ++ replaced.map (seq, ·), ?_, fun item mem => ?_, fun item mem => ?_,
          fun event mem put isPut above => ?_, fun key entry found => ?_⟩
        · have own : mirrored.live (rowsOf (seq, op)) =
              mirrored.live (plain.map (seq, ·)) + mirrored.live (replaced.map (seq, ·)) := by
            rw [live, live, live, rowsOf, Multiset.coe_add, ← List.filter_append,
              ← List.map_append]
            refine Multiset.coe_eq_coe.mpr (((Multiset.coe_eq_coe.mp ?_).map _).filter _)
            rw [ingested.split, add_comm, Multiset.coe_add]
          change mirrored.live _ = mirrored.live _ + mirrored.live _
          rw [List.flatMap_append, List.flatMap_singleton, live_append, live_append, own,
            holds.inserted, ingested.plain, live_append, add_add_add_comm]
        · rw [ingested.plain] at mem
          rcases List.mem_append.mp mem with old | new
          · exact holds.positive item old
          · obtain ⟨row, -, rfl⟩ := List.mem_map.mp new
            obtain ⟨run, -, isSeq⟩ := List.mem_map.mp isOwn
            have positive := mirrors.positive.2 frame isFrame
            rwa [(Prod.mk.inj isSeq).1] at positive
        · rcases List.mem_append.mp mem with old | new
          · obtain ⟨put, alone, reached⟩ := holds.alike item old
            refine ⟨put, alone, fun above => ?_⟩
            obtain ⟨entry, found, reached⟩ := reached above
            obtain ⟨later, isLater, beyond⟩ := ingested.grows _ entry found
            exact ⟨later, isLater, reached.trans beyond⟩
          · obtain ⟨row, isRow, rfl⟩ := List.mem_map.mp new
            obtain ⟨put, alone⟩ := replaces row isRow
            exact ⟨put, alone, fun _ => reaches (_, some row)
              (List.mem_append_right _ (List.mem_map_of_mem isRow))⟩
        · rcases List.mem_append.mp mem with old | new
          · obtain ⟨entry, found, reached⟩ := holds.keyed event old put isPut above
            obtain ⟨later, isLater, beyond⟩ := ingested.grows _ entry found
            exact ⟨later, isLater, reached.trans beyond⟩
          · cases List.mem_singleton.mp new
            exact reaches put (List.mem_append_left _ isPut)
        · rcases lookup key with kept | ⟨item, isItem, rfl, isEntry⟩
          · obtain ⟨put, source⟩ := holds.origin key entry (kept.symm.trans found)
            refine ⟨put, source.imp ?_ ?_⟩
            · rintro ⟨row, isRow, isKey, mem⟩
              exact ⟨row, isRow, isKey, List.mem_append_left _ mem⟩
            · rintro ⟨event, mem, rest⟩
              exact ⟨event, List.mem_append_left _ mem, rest⟩
          · cases isEntry.symm.trans found
            rcases List.mem_append.mp isItem with keyed | new
            · obtain ⟨-, -, put⟩ := mirrors.put_of_event isFrame isOwn keyed
              exact ⟨put, .inr ⟨_, List.mem_append_right _ (List.mem_singleton_self _), rfl, keyed⟩⟩
            · obtain ⟨row, isRow, rfl⟩ := List.mem_map.mp new
              exact ⟨(replaces row isRow).1, .inl ⟨row, rfl, rfl,
                List.mem_append_right _ (List.mem_map_of_mem isRow)⟩⟩ }

theorem Mirrors.arrive (mirrors : mirrored.Mirrors pkCols rows) {index now : Nat}
    (aligned : mirrored.Aligned pkCols (.arrive index now))
    (taken : mirrored.step (.arrive index now) = some after) : after.Mirrors pkCols rows := by
  simp only [step, Option.bind_eq_bind, Option.bind_eq_some_iff] at taken
  obtain ⟨event, isEvent, taken⟩ := taken
  split at taken
  · obtain ⟨mirror, ingests, isAfter⟩ := Option.bind_eq_some_iff.mp taken
    have ingests := ok_of_toOption ingests
    obtain ⟨seq, op⟩ := event
    obtain ⟨bound, isAt⟩ := List.getElem?_eq_some_iff.mp isEvent
    by_cases isWatermark : op = .watermark
    · subst isWatermark
      cases isAfter
      rw [if_pos rfl]
      refine mirrors.collect ingests (fun mark mem => ?_) List.eraseIdx_subset ?_
      · rcases List.mem_append.mp ((noteWatermark_same _ now seq).2.2.2.1 mem) with old | new
        · exact mirrors.observed mark old
        · rw [List.mem_singleton.mp new]
          exact mirrors.announced _ (List.mem_of_getElem? isEvent) rfl
      · rw [List.eraseIdx_eq_take_drop_succ]
        conv_rhs => rw [← List.take_append_drop index mirrored.flight,
          ← List.cons_getElem_drop_succ (h := bound), isAt]
        rw [List.filter_append, List.filter_append, List.filter_cons_of_neg (by simp)]
    · cases isAfter
      have nothing : collects mirrored.mirror now (seq, op) = 0 := by
        cases op with
        | watermark => exact absurd rfl isWatermark
        | append | upsert | delete => rfl
      rw [if_neg isWatermark, nothing, Nat.max_zero]
      exact mirrors.ingest isEvent isWatermark (aligned _ isEvent) ingests
  · cases taken

theorem Mirrors.step (mirrors : mirrored.Mirrors pkCols rows) {action : Action}
    (aligned : mirrored.Aligned pkCols action) (taken : mirrored.step action = some after) :
    after.Mirrors pkCols rows := by
  cases action with
  | source action => exact mirrors.source aligned taken
  | forget kept => exact mirrors.forget taken
  | arrive index now => exact mirrors.arrive aligned taken
  | heartbeat now => exact mirrors.heartbeat taken
  | scan now version => exact mirrors.scan taken

theorem mirrors_run {gcGrace : Nat} {property sidecar : Option Nat}
    (run : Run step (Aligned pkCols) (initial pkCols gcGrace rows property sidecar) mirrored) :
    mirrored.Mirrors pkCols rows := by
  have kept (mirrored : Mirrored) (action : Action) (after : Mirrored)
      (mirrors : mirrored.Mirrors pkCols rows) (aligned : mirrored.Aligned pkCols action)
      (taken : mirrored.step action = some after) : after.Mirrors pkCols rows :=
    mirrors.step aligned taken
  exact @Run.invariant _ _ _ (Aligned pkCols) (fun mirrored => mirrored.Mirrors pkCols rows) kept _ _
    (mirrors_initial pkCols gcGrace rows property sidecar) run

end Mirrored

end Icegres.Buffer
