import Icegres.Buffer.Peer

/-!
# The mirror's answer is the server's

A scan of the peer unions the committed rows with the mirror's overlay. One key at a time: what the
server serves is decided by the key's last replacement above the watermark and the rows inserted
after it. The mirror serves its entry's row and the plain rows that are not older than the entry,
unless the plain rows take the entry's place.
-/

namespace Icegres.Buffer

/-! ## Rows of one key -/

variable {pkCols : List Nat} {key : Key}

/-- Whether an operation replaces the key. -/
def RowOp.Puts (key : Key) (op : RowOp) : Prop :=
  ∃ cols rows, op = .put cols key rows

theorem onKey_add (rows more : Multiset Row) :
    onKey pkCols key (rows + more) = onKey pkCols key rows + onKey pkCols key more :=
  Multiset.filter_add ..

/-- Operations that do not replace the key only add its rows. -/
theorem onKey_applyRowOps_of_not_puts {ops : List RowOp}
    (declared : ∀ op ∈ ops, op.Declared pkCols) (noPut : ∀ op ∈ ops, ¬ op.Puts key)
    (rows : Multiset Row) :
    onKey pkCols key (applyRowOps ops rows) =
      onKey pkCols key rows + onKey pkCols key (ops.filterMap RowOp.row? : List Row) := by
  induction ops generalizing rows with
  | nil => simp [onKey]
  | cons op rest ih =>
      rw [applyRowOps_cons, ih (fun other mem => declared other (List.mem_cons_of_mem _ mem))
        fun other mem => noPut other (List.mem_cons_of_mem _ mem)]
      cases op with
      | append row =>
          rw [List.filterMap_cons_some (by rfl : RowOp.row? (.append row) = some row), RowOp.apply,
            onKey_add, ← Multiset.cons_coe, ← Multiset.singleton_add, onKey_add, add_assoc]
      | put cols own replacement =>
          rw [List.filterMap_cons_none (by rfl : RowOp.row? (.put cols own replacement) = none),
            RowOp.onKey_apply_of_not_on (declared _ List.mem_cons_self)]
          refine decide_eq_false ?_
          rintro rfl
          exact noPut _ List.mem_cons_self ⟨_, _, rfl⟩

/-- A replacement leaves the rows it names, whatever was there. -/
theorem onKey_applyRowOps_put {ops : List RowOp} (declared : ∀ op ∈ ops, op.Declared pkCols)
    {replacement : List Row}
    (only : ops.filter (RowOp.On pkCols key) = [.put pkCols key replacement])
    (rows : Multiset Row) : onKey pkCols key (applyRowOps ops rows) = replacement := by
  have all (row : Row) (mem : row ∈ onKey pkCols key rows) : encodeKey pkCols row = key :=
    (Multiset.mem_filter.mp mem).2
  have nothing : Layer.outside (encodeKey pkCols) {key} (onKey pkCols key rows) = 0 := by
    rw [Layer.outside, Multiset.filter_eq_nil]
    exact fun row mem => not_not.mpr (Finset.mem_singleton.mpr (all row mem))
  rw [onKey_applyRowOps declared, only, applyRowOps_cons, RowOp.apply, nothing, zero_add]
  rfl

/-- Rows are the same when they are the same on every key. -/
theorem eq_of_onKey_eq (pkCols : List Nat) {rows others : Multiset Row}
    (same : ∀ key, onKey pkCols key rows = onKey pkCols key others) : rows = others := by
  ext row
  have counts := congrArg (Multiset.count row) (same (encodeKey pkCols row))
  rwa [onKey, onKey,
    Multiset.count_filter_of_pos (p := fun other => encodeKey pkCols other = encodeKey pkCols row) rfl,
    Multiset.count_filter_of_pos (p := fun other => encodeKey pkCols other = encodeKey pkCols row) rfl]
    at counts

/-- A list splits at the last element that satisfies a condition. -/
theorem exists_last {α : Type} {holds : α → Prop} {list : List α}
    (some : ∃ item ∈ list, holds item) :
    ∃ before item after, list = before ++ item :: after ∧ holds item ∧
      ∀ other ∈ after, ¬ holds other := by
  induction list with
  | nil => exact absurd some (by simp)
  | cons head rest ih =>
      by_cases later : ∃ item ∈ rest, holds item
      · obtain ⟨before, item, after, rfl, isLast⟩ := ih later
        exact ⟨head :: before, item, after, rfl, isLast⟩
      · obtain ⟨item, mem, isOne⟩ := some
        rcases List.mem_cons.mp mem with rfl | inRest
        · exact ⟨[], item, rest, rfl, isOne, fun other isOther one => later ⟨other, isOther, one⟩⟩
        · exact absurd ⟨item, inRest, isOne⟩ later

/-! ## What frames insert -/

/-- The rows a frame inserts, under its sequence. -/
def Frame.items (frame : Frame) : List (Nat × Row) :=
  frame.events.flatMap Mirrored.rowsOf

theorem Frame.items_append (seq : Nat) (batches : List Batch) :
    Frame.items (seq, .append batches) = batches.flatten.map (seq, ·) := by
  induction batches with
  | nil => rfl
  | cons batch rest ih =>
      rw [List.flatten_cons, List.map_append, ← ih]
      rfl

theorem Frame.items_keyed {frame : Frame} {key : Key} (keyed : key ∈ frame.2.keys pkCols) :
    frame.items = [] := by
  obtain ⟨seq, op⟩ := frame
  cases op with
  | append batches => cases keyed
  | upsert batches | delete batches =>
      rw [items, List.flatMap_eq_nil_iff]
      intro event mem
      obtain ⟨run, isRun, rfl⟩ := List.mem_map.mp mem
      obtain ⟨batch, -, rfl⟩ := List.mem_map.mp isRun
      rfl

theorem Frame.seq_of_mem_items {frame : Frame} {item : Nat × Row} (mem : item ∈ frame.items) :
    item.1 = frame.1 := by
  obtain ⟨event, isEvent, isItem⟩ := List.mem_flatMap.mp mem
  obtain ⟨run, -, rfl⟩ := List.mem_map.mp isEvent
  obtain ⟨row, -, rfl⟩ := List.mem_map.mp isItem
  rfl

/-- A frame that does not replace the key adds the rows of the key it inserts. -/
theorem Frame.onKey_rows {frame : Frame} {touched : List Key}
    (noPut : ∀ op ∈ frame.2.ops pkCols touched, ¬ op.Puts key) :
    onKey pkCols key ((frame.2.ops pkCols touched).filterMap RowOp.row? : List Row) =
      onKey pkCols key (frame.items.map Prod.snd : List Row) := by
  obtain ⟨seq, op⟩ := frame
  have unkeyed {rows : List RowOp} (isOps : op.ops pkCols touched = rows)
      (puts : ∀ op ∈ rows, op.row? = none) (noItem : Frame.items (seq, op) = []) :
      onKey pkCols key ((op.ops pkCols touched).filterMap RowOp.row? : List Row) =
        onKey pkCols key ((Frame.items (seq, op)).map Prod.snd : List Row) := by
    rw [noItem, isOps, List.filterMap_eq_nil_iff.mpr puts]
    rfl
  cases op with
  | upsert batches | delete batches =>
      refine unkeyed rfl (fun op mem => ?_) ?_
      · obtain ⟨_, -, rfl⟩ := List.mem_map.mp mem
        rfl
      · rw [items, List.flatMap_eq_nil_iff]
        intro event mem
        obtain ⟨run, isRun, rfl⟩ := List.mem_map.mp mem
        obtain ⟨batch, -, rfl⟩ := List.mem_map.mp isRun
        rfl
  | append batches =>
      rw [items_append, List.map_map, onKey, onKey, Multiset.filter_coe, Multiset.filter_coe]
      simp only [Function.comp_def, List.map_id']
      congr 1
      change ((batches.flatten.map _).filterMap _).filter _ = _
      have each (row : Row) (mem : row ∈ batches.flatten) (isKey : encodeKey pkCols row = key) :
          encodeKey pkCols row ∉ touched := fun isTouched => by
        refine noPut _ (List.mem_map_of_mem mem) ?_
        rw [if_pos isTouched]
        exact ⟨_, _, by rw [isKey]⟩
      generalize batches.flatten = rows at each
      clear noPut
      induction rows with
      | nil => rfl
      | cons row rest ih =>
          have ih := ih fun other mem => each other (List.mem_cons_of_mem _ mem)
          rw [List.map_cons, List.filter_cons]
          by_cases isTouched : encodeKey pkCols row ∈ touched
          · have apart : encodeKey pkCols row ≠ key := fun isKey =>
              each row List.mem_cons_self isKey isTouched
            rw [if_pos isTouched, List.filterMap_cons_none (by rfl), ih, if_neg (by simpa using apart)]
          · rw [if_neg isTouched, List.filterMap_cons_some (by rfl), List.filter_cons, ih]

/-- Only appends insert rows. -/
theorem Frame.append_of_mem_items {frame : Frame} {item : Nat × Row} (mem : item ∈ frame.items) :
    ∃ batches, frame = (item.1, .append batches) ∧ item.2 ∈ batches.flatten := by
  have isSeq := seq_of_mem_items mem
  obtain ⟨seq, op⟩ := frame
  obtain ⟨event, isEvent, isItem⟩ := List.mem_flatMap.mp mem
  obtain ⟨run, isRun, rfl⟩ := List.mem_map.mp isEvent
  cases op with
  | upsert batches | delete batches =>
      obtain ⟨batch, -, rfl⟩ := List.mem_map.mp isRun
      cases isItem
  | append batches =>
      refine ⟨batches, by rw [isSeq], ?_⟩
      rw [items_append] at mem
      obtain ⟨row, isRow, rfl⟩ := List.mem_map.mp mem
      exact isRow

/-- Frames that do not replace the key add the rows of the key they insert. -/
theorem onKey_frames {frames : List Frame} {touched : Frame → List Key}
    (noPut : ∀ frame ∈ frames, ∀ op ∈ frame.2.ops pkCols (touched frame), ¬ op.Puts key) :
    onKey pkCols key ((frames.flatMap fun frame =>
        frame.2.ops pkCols (touched frame)).filterMap RowOp.row? : List Row) =
      (((frames.flatMap Frame.items).filter fun item =>
        encodeKey pkCols item.2 = key).map Prod.snd : List Row) := by
  induction frames with
  | nil => rfl
  | cons frame rest ih =>
      have ih := ih fun other mem => noPut other (List.mem_cons_of_mem _ mem)
      have own := Frame.onKey_rows (noPut frame List.mem_cons_self)
      rw [onKey, onKey, Multiset.filter_coe, Multiset.filter_coe, List.filter_map] at own
      rw [List.flatMap_cons, List.flatMap_cons, List.filterMap_append, List.filter_append,
        List.map_append, ← Multiset.coe_add, ← Multiset.coe_add, onKey_add, ih]
      exact congrArg (· + ((((rest.flatMap Frame.items).filter fun item =>
        encodeKey pkCols item.2 = key).map Prod.snd : List Row) : Multiset Row)) own

/-- What an append does to a key its window touches, and to one that it does not. -/
theorem TailOp.append_ops_filter (pkCols : List Nat) (key : Key) (batches : List Batch)
    (touched : List Key) :
    (TailOp.ops pkCols touched (.append batches)).filter (RowOp.On pkCols key) =
      (batches.flatten.filter fun row => encodeKey pkCols row = key).map fun row =>
        if key ∈ touched then .put pkCols key [row] else .append row := by
  rw [TailOp.ops, List.filter_map]
  have on : (RowOp.On pkCols key ∘ fun row =>
      if encodeKey pkCols row ∈ touched then RowOp.put pkCols (encodeKey pkCols row) [row]
      else .append row) = fun row => decide (encodeKey pkCols row = key) := by
    funext row
    simp only [Function.comp_apply]
    split <;> rfl
  rw [on]
  apply List.map_congr_left
  intro row mem
  rw [of_decide_eq_true (List.mem_filter.mp mem).2]

/-- A keyed frame publishes a run on its key. -/
theorem TailOp.exists_run {op : TailOp} (keyed : key ∈ op.keys pkCols) :
    ∃ run ∈ op.runs, ∃ row, (key, row) ∈ run.puts pkCols := by
  cases op with
  | append batches => cases keyed
  | upsert batches =>
      obtain ⟨row, isRow, rfl⟩ := List.mem_map.mp keyed
      obtain ⟨batch, isBatch, isRow⟩ := List.mem_flatten.mp isRow
      exact ⟨_, List.mem_map_of_mem isBatch, _, List.mem_map_of_mem isRow⟩
  | delete batches =>
      obtain ⟨batch, isBatch, isKey⟩ := List.mem_flatten.mp keyed
      exact ⟨_, List.mem_map_of_mem isBatch, _, List.mem_map_of_mem isKey⟩

namespace Mirrored

open TableMirror (newer)

variable {rows : Multiset Row} {mirrored : Mirrored} {watermark : Option Nat}

/-! ## A scan of the peer -/

/-- The plain rows of a key that are newer than an entry. -/
def newerRows (mirrored : Mirrored) (pkCols : List Nat) (key : Key) (entry : MirrorKeyed) :
    List (Nat × Row) :=
  mirrored.mirror.plain.filter fun item => encodeKey pkCols item.2 = key ∧ entry.seq < item.1

/-- Those that no watermark of the table separates from the entry. -/
def windowRows (mirrored : Mirrored) (pkCols : List Nat) (key : Key) (entry : MirrorKeyed) :
    List (Nat × Row) :=
  (mirrored.newerRows pkCols key entry).filter fun item =>
    Unseparated mirrored.marks entry.seq item.1

/-- At most one plain row of the entry's window is newer than the entry. The mirror has observed a
watermark between an entry with a row and the newest plain row of its key exactly if no newer plain
row is of the entry's window. -/
structure Settled (pkCols : List Nat) (mirrored : Mirrored) (key : Key) (entry : MirrorKeyed) :
    Prop where
  single : (mirrored.windowRows pkCols key entry).length ≤ 1
  together : entry.row.isSome → mirrored.windowRows pkCols key entry ≠ [] →
    ∀ item ∈ mirrored.newerRows pkCols key entry,
      ¬ mirrored.mirror.separatedByWatermark entry.seq item.1
  apart : entry.row.isSome → mirrored.windowRows pkCols key entry = [] →
    mirrored.newerRows pkCols key entry ≠ [] →
      ∃ item ∈ mirrored.newerRows pkCols key entry,
        mirrored.mirror.separatedByWatermark entry.seq item.1

/-- The events of all statements have arrived, the mirror has not collected what the watermark does
not cover, and the entries above the watermark are settled. -/
structure Scannable (pkCols : List Nat) (mirrored : Mirrored) (watermark : Option Nat) : Prop where
  complete : ∀ event ∈ mirrored.flight, event.2 = .watermark
  kept : mirrored.collected ≤ watermark.getD 0
  settled : ∀ key entry, mirrored.mirror.keyed.lookup key = some entry → newer watermark entry.seq →
    mirrored.Settled pkCols key entry

/-- What a statement's frame does. -/
def does (mirrored : Mirrored) (pkCols : List Nat) (frame : Frame) : List RowOp :=
  frame.2.ops pkCols (touchedBy pkCols mirrored.marks mirrored.sent frame.1)

/-! ## What reached the mirror -/

/-- What a scan reads is above what the mirror collected. -/
theorem Scannable.collected_lt (scannable : mirrored.Scannable pkCols watermark) {seq : Nat}
    (positive : 0 < seq) (above : newer watermark seq = true) : mirrored.collected < seq := by
  have kept := scannable.kept
  cases watermark with
  | none => exact kept.trans_lt positive
  | some mark => exact kept.trans_lt (of_decide_eq_true above)

theorem newer_mono {older later : Nat} (above : newer watermark older = true)
    (reached : older ≤ later) : newer watermark later = true := by
  cases watermark with
  | none => rfl
  | some mark => exact decide_eq_true ((of_decide_eq_true above).trans_le reached)

section Scan

variable (mirrors : mirrored.Mirrors pkCols rows) (scannable : mirrored.Scannable pkCols watermark)
include mirrors

theorem Mirrors.eq_of_seq {frame other : Frame} (isFrame : frame ∈ mirrored.sent)
    (isOther : other ∈ mirrored.sent) (same : frame.1 = other.1) : frame = other := by
  have nodup : (mirrored.sent.map Prod.fst).Nodup :=
    List.pairwise_map.mpr (mirrors.tracked.ordered.imp fun before => before.ne)
  exact List.inj_on_of_nodup_map nodup isFrame isOther same

theorem Mirrors.mem_journal {seq : Nat} {op : RowOp} :
    (some seq, op) ∈ mirrored.log.sys.journal ↔
      ∃ frame ∈ mirrored.sent, frame.1 = seq ∧ op ∈ mirrored.does pkCols frame := by
  rw [mirrors.tracked.reads, List.mem_flatMap]
  refine exists_congr fun frame => and_congr_right fun _ => ?_
  rw [windowed, List.mem_map]
  constructor
  · rintro ⟨other, mem, same⟩
    cases same
    exact ⟨rfl, mem⟩
  · rintro ⟨rfl, mem⟩
    exact ⟨op, mem, rfl⟩

/-- The staged operations are those up to a watermark and then those of the frames above it. -/
theorem Mirrors.ops_eq (watermark : Option Nat) :
    mirrored.log.sys.ops = mirrored.log.sys.upTo watermark ++
      (mirrored.sent.filter fun frame => newer watermark frame.1).flatMap
        (mirrored.does pkCols) := by
  have high (frame : Frame) (entry) (mem : entry ∈
      windowed pkCols mirrored.marks mirrored.sent frame) :
      (!entry.1.any fun seq => watermark.all fun mark => decide (mark < seq)) =
        !newer watermark frame.1 := by
    rw [windowed_seq mem]
    rfl
  have split : mirrored.sent.filter (fun frame => !newer watermark frame.1) ++
      mirrored.sent.filter (fun frame => newer watermark frame.1) = mirrored.sent :=
    filter_not_append_filter (fun frame : Frame => newer watermark frame.1)
      (fun before above => newer_mono above before.le) mirrors.tracked.ordered
  have blocks (frames : List Frame) :
      (frames.flatMap (windowed pkCols mirrored.marks mirrored.sent)).map Prod.snd =
        frames.flatMap (mirrored.does pkCols) := by
    rw [List.map_flatMap]
    simp only [windowed, List.map_map, Function.comp_def, List.map_id']
    rfl
  rw [Sys.ops, Sys.upTo, mirrors.tracked.reads, filter_flatMap_blocks fun frame _ => high frame,
    blocks, blocks, ← List.flatMap_append, split]

theorem Mirrors.declared {frame : Frame} (isFrame : frame ∈ mirrored.sent) :
    ∀ op ∈ mirrored.does pkCols frame, op.Declared pkCols := fun op mem =>
  mirrors.replayable.journaled.declared op
    (List.mem_map_of_mem (mirrors.mem_journal.mpr ⟨frame, isFrame, rfl, mem⟩))

omit mirrors in
/-- The rows inserted under some sequences. -/
theorem items_inside (inside : Nat → Bool) (frames : List Frame) :
    (frames.flatMap Frame.items).filter (fun item => inside item.1) =
      (frames.filter fun frame => inside frame.1).flatMap Frame.items :=
  filter_flatMap_blocks fun _ _ _ mem => by rw [Frame.seq_of_mem_items mem]

/-- The inserted rows of a key in one statement. -/
theorem Mirrors.items_at {frame : Frame} (isFrame : frame ∈ mirrored.sent) (key : Key) :
    (mirrored.sent.flatMap Frame.items).filter
        (fun item => encodeKey pkCols item.2 = key ∧ item.1 = frame.1) =
      frame.items.filter fun item => encodeKey pkCols item.2 = key := by
  have nodup : mirrored.sent.Nodup := mirrors.tracked.ordered.imp fun before same => by
    rw [same] at before
    exact Nat.lt_irrefl _ before
  have only : mirrored.sent.filter (fun other => other.1 = frame.1) = [frame] := by
    refine List.perm_singleton.mp ((List.perm_ext_iff_of_nodup (nodup.filter _)
      (List.nodup_singleton frame)).mpr fun other => ?_)
    rw [List.mem_filter, decide_eq_true_eq, List.mem_singleton]
    constructor
    · exact fun ⟨isOther, same⟩ => mirrors.eq_of_seq isOther isFrame same
    · rintro rfl
      exact ⟨isFrame, rfl⟩
  have own : (mirrored.sent.flatMap Frame.items).filter (fun item => item.1 = frame.1) =
      frame.items := by
    rw [items_inside fun seq => seq = frame.1, only, List.flatMap_singleton]
  rw [← own, List.filter_filter]
  exact List.filter_congr fun item _ => by rw [Bool.decide_and]

include scannable

theorem Scannable.events_perm : (mirrored.sent.flatMap Frame.events).Perm mirrored.arrived := by
  have nothing : mirrored.flight.filter (fun event => event.2 ≠ .watermark) = [] :=
    List.filter_eq_nil_iff.mpr fun event mem => by simp [scannable.complete event mem]
  have events := mirrors.events
  rw [nothing, Multiset.coe_nil, zero_add] at events
  exact Multiset.coe_eq_coe.mp events

/-- Above the watermark the inserted rows are the plain and the routed ones. -/
theorem Scannable.items_filter {routed : List (Nat × Row)} (holds : mirrored.Holds pkCols routed)
    (wanted : Nat × Row → Bool)
    (above : ∀ item, wanted item = true → newer watermark item.1 = true) :
    (((mirrored.sent.flatMap Frame.items).filter wanted : List (Nat × Row)) :
        Multiset (Nat × Row)) =
      ((mirrored.mirror.plain.filter wanted : List (Nat × Row)) : Multiset (Nat × Row)) +
        ((routed.filter wanted : List (Nat × Row)) : Multiset (Nat × Row)) := by
  have kept {items : List (Nat × Row)} (positive : ∀ item ∈ items, 0 < item.1) :
      ((items.filter wanted : List (Nat × Row)) : Multiset (Nat × Row)) =
        (mirrored.live items).filter fun item => wanted item = true := by
    rw [live, Multiset.filter_coe, List.filter_filter]
    refine congrArg _ (List.filter_congr fun item mem => ?_)
    rw [Bool.eq_iff_iff]
    simp only [Bool.and_eq_true, decide_eq_true_eq, iff_self_and]
    exact fun passes => scannable.collected_lt (positive item mem) (above item passes)
  have positive (item : Nat × Row) (mem : item ∈ mirrored.sent.flatMap Frame.items) :
      0 < item.1 := by
    obtain ⟨frame, isFrame, isItem⟩ := List.mem_flatMap.mp mem
    rw [Frame.seq_of_mem_items isItem]
    exact mirrors.positive.2 frame isFrame
  have same : (mirrored.sent.flatMap Frame.items).Perm (mirrored.arrived.flatMap rowsOf) := by
    have events := (scannable.events_perm mirrors).flatMap_right rowsOf
    rwa [List.flatMap_assoc] at events
  rw [Multiset.coe_eq_coe.mpr (same.filter wanted),
    kept fun item mem => positive item (same.mem_iff.mpr mem), kept holds.positive,
    kept fun item mem => ?_, holds.inserted, Multiset.filter_add]
  obtain ⟨-, ⟨batches, isFrame, -⟩, -⟩ := holds.alike item mem
  exact mirrors.positive.2 _ isFrame

/-- The statement an entry comes from replaces its key by the entry's row, and none of its rows
stayed plain. -/
theorem Scannable.entry_frame {routed : List (Nat × Row)} (holds : mirrored.Holds pkCols routed)
    {key : Key} {entry : MirrorKeyed} (found : mirrored.mirror.keyed.lookup key = some entry)
    (above : newer watermark entry.seq = true) :
    ∃ frame ∈ mirrored.sent, frame.1 = entry.seq ∧
      (mirrored.does pkCols frame).filter (RowOp.On pkCols key) =
        [.put pkCols key entry.row.toList] ∧
      ∀ item ∈ mirrored.mirror.plain, encodeKey pkCols item.2 = key → item.1 ≠ entry.seq := by
  obtain ⟨isPut, source⟩ := holds.origin key entry found
  obtain ⟨frame, isFrame, isSeq, mem⟩ := mirrors.mem_journal.mp isPut
  have isOn : RowOp.put pkCols key entry.row.toList ∈
      (mirrored.does pkCols frame).filter (RowOp.On pkCols key) :=
    List.mem_filter.mpr ⟨mem, decide_eq_true rfl⟩
  have items := scannable.items_filter mirrors holds
    (fun item => encodeKey pkCols item.2 = key ∧ item.1 = frame.1) fun item passes => by
      rw [(of_decide_eq_true passes).2, isSeq]
      exact above
  rw [mirrors.items_at isFrame] at items
  have plainly (noPlain : mirrored.mirror.plain.filter
      (fun item => encodeKey pkCols item.2 = key ∧ item.1 = frame.1) = []) :
      ∀ item ∈ mirrored.mirror.plain, encodeKey pkCols item.2 = key → item.1 ≠ entry.seq :=
    fun item isPlain isKey same => List.filter_eq_nil_iff.mp noPlain item isPlain
      (decide_eq_true ⟨isKey, same.trans isSeq.symm⟩)
  refine ⟨frame, isFrame, isSeq, ?_⟩
  rcases source with ⟨row, isRow, rfl, isRouted⟩ | ⟨event, arrived, isEvent, puts⟩
  · obtain ⟨-, ⟨batches, isAppend, alone⟩, -⟩ := holds.alike _ isRouted
    cases mirrors.eq_of_seq isFrame isAppend isSeq
    have rowsOn := TailOp.append_ops_filter pkCols (encodeKey pkCols row) batches
      (touchedBy pkCols mirrored.marks mirrored.sent entry.seq)
    rw [alone] at rowsOn
    rw [does] at isOn ⊢
    dsimp only at rowsOn isOn ⊢
    rw [rowsOn] at isOn ⊢
    refine ⟨by rw [List.mem_singleton.mp isOn]; rfl, plainly ?_⟩
    have counts := congrArg Multiset.card items
    rw [Frame.items_append, List.filter_map, Multiset.card_add, Multiset.coe_card,
      List.length_map] at counts
    simp only [Function.comp_def] at counts
    rw [alone, Multiset.coe_card, Multiset.coe_card] at counts
    have some : 0 < (routed.filter fun item =>
        encodeKey pkCols item.2 = encodeKey pkCols row ∧ item.1 = entry.seq).length :=
      List.length_pos_of_mem (List.mem_filter.mpr ⟨isRouted, decide_eq_true ⟨rfl, rfl⟩⟩)
    rw [← List.length_eq_zero_iff]
    dsimp only [List.length_singleton] at counts some ⊢
    omega
  · obtain ⟨other, isOther, isOwn⟩ := mirrors.mem_events.mpr (.inr arrived)
    obtain ⟨same, keyed, -⟩ := mirrors.put_of_event isOther isOwn puts
    cases mirrors.eq_of_seq isFrame isOther (isSeq.trans (isEvent.symm.trans same))
    have single : ∃ op, mirrored.does pkCols frame = [op] := by
      cases mirrors.tracked.staged frame isFrame with
      | append batches isOp =>
          rw [isOp] at keyed
          cases keyed
      | keyed stmt declared isOp =>
          subst declared
          rw [does, isOp, stmt.frame_ops]
          exact ⟨_, rfl⟩
    obtain ⟨op, isOp⟩ := single
    rw [isOp] at isOn mem ⊢
    cases List.mem_singleton.mp mem
    refine ⟨List.filter_cons_of_pos (decide_eq_true rfl), plainly ?_⟩
    rw [Frame.items_keyed keyed] at items
    have counts := congrArg Multiset.card items
    rw [List.filter_nil, Multiset.coe_nil, Multiset.card_zero, Multiset.card_add, Multiset.coe_card]
      at counts
    rw [← List.length_eq_zero_iff]
    omega

/-- The plain rows that a scan reads beside an entry are those newer than the entry. -/
theorem Scannable.shown_eq {routed : List (Nat × Row)} (holds : mirrored.Holds pkCols routed)
    {key : Key} {entry : MirrorKeyed} (found : mirrored.mirror.keyed.lookup key = some entry)
    (above : newer watermark entry.seq = true) :
    mirrored.mirror.shown watermark key = mirrored.newerRows pkCols key entry := by
  obtain ⟨-, -, -, -, apart⟩ := scannable.entry_frame mirrors holds found above
  rw [TableMirror.shown, newerRows, mirrors.cols]
  apply List.filter_congr
  intro item mem
  rw [decide_eq_decide, found]
  simp only [Option.any_some, decide_eq_true_eq, Nat.not_lt]
  refine and_congr_right fun isKey => ⟨fun ⟨_, reached⟩ => ?_, fun later => ?_⟩
  · exact Nat.lt_of_le_of_ne reached (Ne.symm (apart item mem isKey))
  · exact ⟨newer_mono above later.le, later.le⟩

/-- The plain rows of a key under some sequences, when none was routed. -/
theorem Scannable.plain_perm {routed : List (Nat × Row)} (holds : mirrored.Holds pkCols routed)
    (key : Key) (inside : Nat → Bool) (above : ∀ seq, inside seq = true → newer watermark seq = true)
    (unrouted : ∀ item ∈ routed, encodeKey pkCols item.2 = key → inside item.1 = false) :
    (mirrored.mirror.plain.filter fun item => encodeKey pkCols item.2 = key ∧ inside item.1).Perm
      (((mirrored.sent.filter fun frame => inside frame.1).flatMap Frame.items).filter fun item =>
        encodeKey pkCols item.2 = key) := by
  have items := scannable.items_filter mirrors holds
    (fun item => encodeKey pkCols item.2 = key ∧ inside item.1) fun item passes =>
      above item.1 (of_decide_eq_true passes).2
  have none : (routed.filter fun item => encodeKey pkCols item.2 = key ∧ inside item.1) = [] := by
    rw [List.filter_eq_nil_iff]
    intro item mem passes
    obtain ⟨isKey, isInside⟩ := of_decide_eq_true passes
    rw [unrouted item mem isKey] at isInside
    cases isInside
  rw [none, Multiset.coe_nil, add_zero] at items
  refine (Multiset.coe_eq_coe.mp items).symm.trans (.of_eq ?_)
  rw [← items_inside, List.filter_filter]
  exact List.filter_congr fun item _ => by simp

/-- A key that no statement above the watermark replaces keeps its committed rows and gets the
inserted ones. -/
theorem Scannable.agrees_unput {routed : List (Nat × Row)} (holds : mirrored.Holds pkCols routed)
    {key : Key} (noPut : ∀ frame ∈ mirrored.sent, newer watermark frame.1 = true →
      ∀ op ∈ mirrored.does pkCols frame, ¬ op.Puts key) (committed : Multiset Row) :
    onKey pkCols key (unionRows committed (mirrored.mirror.overlayAt watermark)) =
      onKey pkCols key (applyRowOps ((mirrored.sent.filter fun frame =>
        newer watermark frame.1).flatMap (mirrored.does pkCols)) committed) := by
  have covered {seq : Nat} {op : RowOp} (mem : (some seq, op) ∈ mirrored.log.sys.journal)
      (puts : op.Puts key) : newer watermark seq = false := by
    obtain ⟨frame, isFrame, rfl, isOp⟩ := mirrors.mem_journal.mp mem
    cases above : newer watermark frame.1 with
    | false => rfl
    | true => exact absurd puts (noPut frame isFrame above op isOp)
  have noEntry : (mirrored.mirror.keyed.lookup key).filter
      (fun entry => newer watermark entry.seq) = none := by
    rw [Option.filter_eq_none_iff]
    intro entry found
    rw [covered (holds.origin key entry found).put ⟨_, _, rfl⟩]
    exact Bool.false_ne_true
  have shown : mirrored.mirror.shown watermark key = mirrored.mirror.plain.filter fun item =>
      encodeKey pkCols item.2 = key ∧ newer watermark item.1 := by
    rw [TableMirror.shown, mirrors.cols]
    apply List.filter_congr
    intro item _
    rw [decide_eq_decide]
    refine and_congr_right fun _ => and_iff_left_of_imp fun above hidden => ?_
    obtain ⟨entry, found, later⟩ := Option.any_eq_true .. |>.mp hidden
    have isCovered := covered (holds.origin key entry found).put ⟨_, _, rfl⟩
    rw [newer_mono above (of_decide_eq_true later).le] at isCovered
    cases isCovered
  have plain := scannable.plain_perm mirrors holds key (newer watermark)
    (fun _ above => above) fun item mem isKey => covered (holds.alike item mem).put
      ⟨_, _, by rw [isKey]⟩
  have reads := TableMirror.onKey_unionRows_overlayAt mirrors.formed watermark key committed
  rw [mirrors.cols, noEntry, shown] at reads
  rw [reads, onKey_applyRowOps_of_not_puts]
  · refine congrArg (_ + ·) (Eq.trans ?_ (onKey_frames fun frame mem => ?_).symm)
    · exact Multiset.coe_eq_coe.mpr (plain.map Prod.snd)
    · obtain ⟨isFrame, above⟩ := List.mem_filter.mp mem
      exact noPut frame isFrame above
  · intro op mem
    obtain ⟨frame, isFrame, isOp⟩ := List.mem_flatMap.mp mem
    exact mirrors.declared (List.mem_filter.mp isFrame).1 op isOp
  · intro op mem
    obtain ⟨frame, isFrame, isOp⟩ := List.mem_flatMap.mp mem
    obtain ⟨isFrame, above⟩ := List.mem_filter.mp isFrame
    exact noPut frame isFrame above op isOp

omit scannable

/-- The last statement above the watermark that replaces a key. -/
structure LastPut (pkCols : List Nat) (mirrored : Mirrored) (watermark : Option Nat) (key : Key)
    (before : List Frame) (frame : Frame) (after : List Frame) : Prop where
  split : (mirrored.sent.filter fun frame => newer watermark frame.1) = before ++ frame :: after
  puts : ∃ op ∈ mirrored.does pkCols frame, op.Puts key
  last : ∀ other ∈ after, ∀ op ∈ mirrored.does pkCols other, ¬ op.Puts key

namespace LastPut

variable {key : Key} {before : List Frame} {frame : Frame} {after : List Frame}
  (isLast : LastPut pkCols mirrored watermark key before frame after)
include isLast

omit mirrors in
theorem mem : frame ∈ mirrored.sent ∧ newer watermark frame.1 = true := by
  have isHigh : frame ∈ mirrored.sent.filter fun frame => newer watermark frame.1 := by
    rw [isLast.split]
    simp
  exact List.mem_filter.mp isHigh

theorem later : mirrored.sent.filter (fun other => frame.1 < other.1) = after := by
  have sorted := mirrors.tracked.ordered.filter fun frame => newer watermark frame.1
  rw [isLast.split, List.pairwise_append] at sorted
  obtain ⟨-, sorted, across⟩ := sorted
  obtain ⟨behind, -⟩ := List.pairwise_cons.mp sorted
  have inside : mirrored.sent.filter (fun other => frame.1 < other.1) =
      (mirrored.sent.filter fun frame => newer watermark frame.1).filter
        fun other => frame.1 < other.1 := by
    rw [List.filter_filter]
    refine List.filter_congr fun other _ => ?_
    rw [Bool.eq_iff_iff]
    simp only [Bool.and_eq_true, decide_eq_true_eq, iff_self_and]
    exact fun beyond => newer_mono isLast.mem.2 beyond.le
  rw [inside, isLast.split, List.filter_append, List.filter_cons_of_neg (by simp),
    List.filter_eq_nil_iff.mpr fun other mem => ?_, List.nil_append,
    List.filter_eq_self.mpr fun other mem => decide_eq_true (behind other mem)]
  have earlier := across other mem frame List.mem_cons_self
  simp only [decide_eq_true_eq]
  omega

/-- No statement replaces the key later. -/
theorem reaches {seq : Nat} {op : RowOp} (mem : (some seq, op) ∈ mirrored.log.sys.journal)
    (puts : op.Puts key) : seq ≤ frame.1 := by
  obtain ⟨other, isOther, rfl, isOp⟩ := mirrors.mem_journal.mp mem
  by_contra beyond
  have isLater : other ∈ after := by
    rw [← isLast.later mirrors]
    exact List.mem_filter.mpr ⟨isOther, decide_eq_true (Nat.lt_of_not_le beyond)⟩
  exact isLast.last other isLater op isOp puts

/-- What the server serves of the key. -/
theorem serves (committed : Multiset Row) {replacement : List Row}
    (only : (mirrored.does pkCols frame).filter (RowOp.On pkCols key) =
      [.put pkCols key replacement]) :
    onKey pkCols key (applyRowOps ((mirrored.sent.filter fun frame =>
        newer watermark frame.1).flatMap (mirrored.does pkCols)) committed) =
      (replacement : Multiset Row) + ((((after.flatMap Frame.items).filter fun item =>
        encodeKey pkCols item.2 = key).map Prod.snd : List Row) : Multiset Row) := by
  have sent (other : Frame) (mem : other ∈ after) : other ∈ mirrored.sent := by
    have isHigh : other ∈ mirrored.sent.filter fun frame => newer watermark frame.1 := by
      rw [isLast.split]
      simp [mem]
    exact (List.mem_filter.mp isHigh).1
  rw [isLast.split, List.flatMap_append, List.flatMap_cons, applyRowOps_append, applyRowOps_append,
    onKey_applyRowOps_of_not_puts,
    onKey_applyRowOps_put (mirrors.declared isLast.mem.1) only]
  · exact congrArg (_ + ·) (onKey_frames isLast.last)
  · intro op mem
    obtain ⟨other, isOther, isOp⟩ := List.mem_flatMap.mp mem
    exact mirrors.declared (sent other isOther) op isOp
  · intro op mem
    obtain ⟨other, isOther, isOp⟩ := List.mem_flatMap.mp mem
    exact isLast.last other isOther op isOp

/-- A keyed statement of the frame's window is on the key. -/
theorem keyed (marked : ∀ mark, watermark = some mark → mark ∈ mirrored.marks) :
    ∃ first ∈ mirrored.sent, newer watermark first.1 = true ∧ first.1 ≤ frame.1 ∧
      Unseparated mirrored.marks first.1 frame.1 ∧ key ∈ first.2.keys pkCols := by
  obtain ⟨op, isOp, cols, replacement, rfl⟩ := isLast.puts
  obtain ⟨first, isFirst, earlier, together, isKey⟩ := mirrors.tracked.reads.keyed_of_put
    (mirrors.mem_journal.mpr ⟨frame, isLast.mem.1, rfl, isOp⟩)
  refine ⟨first, isFirst, ?_, earlier, together, isKey⟩
  have above := isLast.mem.2
  cases watermark with
  | none => rfl
  | some mark =>
      exact decide_eq_true ((together mark (marked mark rfl)).resolve_right
        (Nat.not_le_of_lt (of_decide_eq_true above)))

end LastPut

include scannable

/-- A keyed statement above the watermark has left an entry that is at least as new. -/
theorem Scannable.entry_of_keyed {routed : List (Nat × Row)} (holds : mirrored.Holds pkCols routed)
    {key : Key} {frame : Frame} (isFrame : frame ∈ mirrored.sent)
    (above : newer watermark frame.1 = true) (isKey : key ∈ frame.2.keys pkCols) :
    ∃ entry, mirrored.mirror.keyed.lookup key = some entry ∧ frame.1 ≤ entry.seq := by
  obtain ⟨run, isRun, row, puts⟩ := TailOp.exists_run isKey
  have isEvent : (frame.1, run) ∈ frame.events := List.mem_map_of_mem isRun
  rcases mirrors.mem_events.mp ⟨frame, isFrame, isEvent⟩ with ⟨inFlight, isStatement⟩ | arrived
  · exact absurd (scannable.complete _ inFlight) isStatement
  · exact holds.keyed _ arrived _ puts
      (scannable.collected_lt (mirrors.positive.2 frame isFrame) above)

/-- What the mirror serves of a key with an entry above the watermark. -/
theorem Scannable.onKey_overlay {routed : List (Nat × Row)} (holds : mirrored.Holds pkCols routed)
    {key : Key} {entry : MirrorKeyed} (found : mirrored.mirror.keyed.lookup key = some entry)
    (above : newer watermark entry.seq = true) (committed : Multiset Row) :
    onKey pkCols key (unionRows committed (mirrored.mirror.overlayAt watermark)) =
      (((mirrored.newerRows pkCols key entry).map Prod.snd : List Row) : Multiset Row) +
        ((if mirrored.mirror.superseded key entry then [] else entry.row.toList : List Row) :
          Multiset Row) := by
  have isNew : (some entry).filter (fun entry => newer watermark entry.seq) = some entry :=
    Option.filter_eq_some_iff.mpr ⟨rfl, above⟩
  have reads := TableMirror.onKey_unionRows_overlayAt mirrors.formed watermark key committed
  rw [mirrors.cols, found, isNew, scannable.shown_eq mirrors holds found above] at reads
  exact reads

/-- Whether the entry's row is served, when it has one. -/
theorem Scannable.superseded_eq {key : Key} {entry : MirrorKeyed}
    (found : mirrored.mirror.keyed.lookup key = some entry)
    (above : newer watermark entry.seq = true) (hasRow : entry.row.isSome) :
    mirrored.mirror.superseded key entry = !(mirrored.windowRows pkCols key entry).isEmpty := by
  have settled := scannable.settled key entry found above
  have isNewer (item : Nat × Row) : item ∈ mirrored.newerRows pkCols key entry ↔
      item ∈ mirrored.mirror.plain ∧ encodeKey pkCols item.2 = key ∧ entry.seq < item.1 := by
    rw [newerRows, List.mem_filter, decide_eq_true_eq]
  have iff := TableMirror.superseded_iff mirrors.formed found
  rw [mirrors.cols] at iff
  cases isOwn : mirrored.windowRows pkCols key entry with
  | nil =>
      refine Bool.eq_false_iff.mpr fun isSuperseded => ?_
      obtain ⟨⟨item, mem, passes⟩, together⟩ := iff.mp isSuperseded
      have some := List.ne_nil_of_mem ((isNewer item).mpr ⟨mem, passes⟩)
      obtain ⟨other, isOther, separated⟩ := settled.apart hasRow isOwn some
      obtain ⟨mem, isKey, later⟩ := (isNewer other).mp isOther
      exact together other mem isKey later separated
  | cons item rest =>
      have mem : item ∈ mirrored.windowRows pkCols key entry := by simp [isOwn]
      have together := settled.together hasRow (List.ne_nil_of_mem mem)
      refine iff.mpr ⟨⟨item, (isNewer item).mp (List.mem_filter.mp mem).1⟩,
        fun other isPlain isKey later => together other ((isNewer other).mpr ⟨isPlain, isKey, later⟩)⟩

/-- The entry is of the last statement that replaces the key. -/
theorem Scannable.agrees_entry {routed : List (Nat × Row)} (holds : mirrored.Holds pkCols routed)
    (marked : ∀ mark, watermark = some mark → mark ∈ mirrored.marks) {key : Key}
    {before : List Frame} {frame : Frame} {after : List Frame}
    (isLast : LastPut pkCols mirrored watermark key before frame after) {entry : MirrorKeyed}
    (found : mirrored.mirror.keyed.lookup key = some entry) (same : entry.seq = frame.1)
    (committed : Multiset Row) :
    onKey pkCols key (unionRows committed (mirrored.mirror.overlayAt watermark)) =
      onKey pkCols key (applyRowOps ((mirrored.sent.filter fun frame =>
        newer watermark frame.1).flatMap (mirrored.does pkCols)) committed) := by
  have above : newer watermark entry.seq = true := same ▸ isLast.mem.2
  obtain ⟨own, isOwn, isSeq, only, -⟩ := scannable.entry_frame mirrors holds found above
  cases mirrors.eq_of_seq isOwn isLast.mem.1 (isSeq.trans same)
  have later := scannable.plain_perm mirrors holds key (fun seq => frame.1 < seq)
    (fun seq beyond => newer_mono isLast.mem.2 (of_decide_eq_true beyond).le)
    fun item mem isKey => decide_eq_false (Nat.not_lt_of_le
      (isLast.reaches mirrors (holds.alike item mem).put ⟨_, _, by rw [isKey]⟩))
  rw [isLast.later mirrors] at later
  have rowsLater : (mirrored.newerRows pkCols key entry).Perm
      ((after.flatMap Frame.items).filter fun item => encodeKey pkCols item.2 = key) := by
    refine .trans (.of_eq ?_) later
    rw [newerRows, same]
    exact List.filter_congr fun item _ => by simp
  -- a row of the entry's window would replace the key once more
  have noOwn : mirrored.windowRows pkCols key entry = [] := by
    rw [windowRows, List.filter_eq_nil_iff]
    intro item mem together
    have together := of_decide_eq_true together
    obtain ⟨isItem, isKey⟩ := List.mem_filter.mp (rowsLater.mem_iff.mp mem)
    have isKey : encodeKey pkCols item.2 = key := of_decide_eq_true isKey
    obtain ⟨other, isOther, inOther⟩ := List.mem_flatMap.mp isItem
    obtain ⟨batches, rfl, isRow⟩ := Frame.append_of_mem_items inOther
    rw [← isLast.later mirrors] at isOther
    obtain ⟨isSent, beyond⟩ := List.mem_filter.mp isOther
    have beyond : frame.1 < item.1 := of_decide_eq_true beyond
    obtain ⟨first, isFirst, -, earlier, inWindow, isKeyed⟩ := isLast.keyed mirrors marked
    rw [same] at together
    have touched : encodeKey pkCols item.2 ∈
        touchedBy pkCols mirrored.marks mirrored.sent item.1 :=
      mem_touchedBy.mpr ⟨first, isFirst, earlier.trans_lt beyond, inWindow.trans together,
        isKey ▸ isKeyed⟩
    have put := mirrors.tracked.reads.put_of_insert isSent isRow touched
    exact absurd (isLast.reaches mirrors put ⟨_, _, by rw [isKey]⟩) (Nat.not_le_of_lt beyond)
  have serves : (if mirrored.mirror.superseded key entry then [] else entry.row.toList) =
      entry.row.toList := by
    cases isRow : entry.row with
    | none => exact ite_self _
    | some row =>
        rw [scannable.superseded_eq mirrors found above (by rw [isRow]; rfl), noOwn]
        rfl
  rw [scannable.onKey_overlay mirrors holds found above, serves, isLast.serves mirrors committed only,
    add_comm]
  exact congrArg (_ + ·) (Multiset.coe_eq_coe.mpr (rowsLater.map Prod.snd))

/-- The last replacement of the key is an insert behind the entry, whose row stayed plain. -/
theorem Scannable.agrees_insert {routed : List (Nat × Row)} (holds : mirrored.Holds pkCols routed)
    (marked : ∀ mark, watermark = some mark → mark ∈ mirrored.marks) {key : Key}
    {before : List Frame} {frame : Frame} {after : List Frame}
    (isLast : LastPut pkCols mirrored watermark key before frame after) {entry : MirrorKeyed}
    (found : mirrored.mirror.keyed.lookup key = some entry)
    (above : newer watermark entry.seq = true) (older : entry.seq < frame.1)
    (committed : Multiset Row) :
    onKey pkCols key (unionRows committed (mirrored.mirror.overlayAt watermark)) =
      onKey pkCols key (applyRowOps ((mirrored.sent.filter fun frame =>
        newer watermark frame.1).flatMap (mirrored.does pkCols)) committed) := by
  obtain ⟨isFrame, high⟩ := isLast.mem
  -- a keyed statement would have left a newer entry
  have unkeyed : key ∉ frame.2.keys pkCols := fun isKey => by
    obtain ⟨other, isOther, reached⟩ := scannable.entry_of_keyed mirrors holds isFrame high isKey
    cases found.symm.trans isOther
    exact absurd older (Nat.not_lt_of_le reached)
  obtain ⟨batches, isAppend⟩ : ∃ batches, frame.2 = .append batches := by
    obtain ⟨op, isOp, cols, replacement, rfl⟩ := isLast.puts
    cases mirrors.tracked.staged frame isFrame with
    | append batches isFrameOp => exact ⟨batches, isFrameOp⟩
    | keyed stmt declared isFrameOp =>
        subst declared
        rw [does, isFrameOp, stmt.frame_ops] at isOp
        rw [isFrameOp, stmt.frame_keys] at unkeyed
        cases List.mem_singleton.mp isOp
        exact absurd (List.mem_singleton_self _) unkeyed
  obtain ⟨seq, tailOp⟩ := frame
  dsimp only at isAppend older high
  subst isAppend
  obtain ⟨first, isFirst, isNew, earlier, together, isKeyed⟩ := isLast.keyed mirrors marked
  dsimp only at earlier together
  have touched : key ∈ touchedBy pkCols mirrored.marks mirrored.sent seq := by
    refine mem_touchedBy.mpr ⟨first, isFirst, Nat.lt_of_le_of_ne earlier fun same => ?_, together,
      isKeyed⟩
    cases mirrors.eq_of_seq isFirst isFrame same
    exact unkeyed isKeyed
  have inWindow : Unseparated mirrored.marks entry.seq seq := by
    obtain ⟨other, isOther, reached⟩ := scannable.entry_of_keyed mirrors holds isFirst isNew isKeyed
    cases found.symm.trans isOther
    exact together.mono reached le_rfl
  have settled := scannable.settled key entry found above
  have later := scannable.plain_perm mirrors holds key (fun other => seq < other)
    (fun other beyond => newer_mono high (of_decide_eq_true beyond).le)
    fun item mem isKey => decide_eq_false (Nat.not_lt_of_le
      (isLast.reaches mirrors (holds.alike item mem).put ⟨_, _, by rw [isKey]⟩))
  rw [isLast.later mirrors] at later
  -- the rows of the insert stayed plain
  have inserted := scannable.plain_perm mirrors holds key (fun other => other = seq)
    (fun other isSeq => of_decide_eq_true isSeq ▸ high) fun item mem isKey => by
      refine decide_eq_false fun isSeq => ?_
      obtain ⟨other, isOther, reached⟩ := (holds.alike item mem).reaches
        (scannable.collected_lt (isSeq ▸ mirrors.positive.2 _ isFrame) (isSeq ▸ high))
      rw [isKey, found] at isOther
      cases isOther
      exact absurd older (Nat.not_lt_of_le (isSeq ▸ reached))
  rw [← items_inside fun other => decide (other = seq), List.filter_filter] at inserted
  have same : (mirrored.sent.flatMap Frame.items).filter
      (fun item => decide (encodeKey pkCols item.2 = key) && decide (item.1 = seq)) =
        (batches.flatten.filter fun row => encodeKey pkCols row = key).map (seq, ·) := by
    have items := mirrors.items_at isFrame key
    rw [Frame.items_append, List.filter_map] at items
    refine Eq.trans ?_ items
    exact List.filter_congr fun item _ => by simp
  rw [same] at inserted
  have only := TailOp.append_ops_filter pkCols key batches
    (touchedBy pkCols mirrored.marks mirrored.sent seq)
  simp only [touched, if_true] at only
  have some : batches.flatten.filter (fun row => encodeKey pkCols row = key) ≠ [] := fun none => by
    obtain ⟨op, isOp, cols, replacement, rfl⟩ := isLast.puts
    have isOn : RowOp.put cols key replacement ∈ (mirrored.does pkCols (seq, .append batches)).filter
        (RowOp.On pkCols key) := List.mem_filter.mpr ⟨isOp, decide_eq_true rfl⟩
    rw [does, only, none] at isOn
    cases isOn
  -- so the row is the only one of the entry's window
  have subset : (mirrored.mirror.plain.filter fun item =>
      encodeKey pkCols item.2 = key ∧ decide (item.1 = seq)).Sublist
        (mirrored.windowRows pkCols key entry) := by
    rw [windowRows, newerRows, List.filter_filter]
    refine List.monotone_filter_right _ fun item passes => ?_
    obtain ⟨isKey, isSeq⟩ := of_decide_eq_true passes
    rw [of_decide_eq_true isSeq, decide_eq_true inWindow, Bool.true_and]
    exact decide_eq_true ⟨isKey, older⟩
  obtain ⟨row, isRow⟩ : ∃ row,
      batches.flatten.filter (fun row => encodeKey pkCols row = key) = [row] := by
    rw [← List.length_eq_one_iff]
    have count := inserted.length_eq
    rw [List.length_map] at count
    have bound := subset.length_le.trans settled.single
    have positive := List.length_pos_iff.mpr some
    omega
  rw [isRow] at inserted only
  have isOwn : mirrored.windowRows pkCols key entry = [(seq, row)] := by
    have mem : (seq, row) ∈ mirrored.windowRows pkCols key entry :=
      subset.subset (inserted.mem_iff.mpr (List.mem_singleton_self _))
    cases isWindow : mirrored.windowRows pkCols key entry with
    | nil =>
        rw [isWindow] at mem
        cases mem
    | cons item rest =>
        have single := settled.single
        rw [isWindow, List.length_cons] at single
        have noRest : rest = [] := List.length_eq_zero_iff.mp (by omega)
        rw [isWindow, noRest] at mem
        rw [noRest, List.mem_singleton.mp mem]
  have low : (mirrored.newerRows pkCols key entry).filter (fun item => item.1 ≤ seq) =
      [(seq, row)] := by
    rw [← isOwn, windowRows]
    refine List.filter_congr fun item mem => decide_eq_decide.mpr ⟨fun below => ?_, fun together => ?_⟩
    · exact inWindow.mono le_rfl below
    · have isItem : item ∈ mirrored.windowRows pkCols key entry :=
        List.mem_filter.mpr ⟨mem, decide_eq_true together⟩
      rw [isOwn] at isItem
      rw [List.mem_singleton.mp isItem]
  have newerRows : (mirrored.newerRows pkCols key entry).Perm ((seq, row) ::
      (after.flatMap Frame.items).filter fun item => encodeKey pkCols item.2 = key) := by
    refine (List.filter_append_perm (fun item => item.1 ≤ seq) _).symm.trans
      (List.Perm.append (.of_eq low) ((List.Perm.of_eq ?_).trans later))
    rw [newerRows, List.filter_filter]
    refine List.filter_congr fun item _ => ?_
    rw [Bool.eq_iff_iff]
    simp only [Bool.and_eq_true, decide_eq_true_eq, Bool.not_eq_true', decide_eq_false_iff_not,
      Nat.not_le]
    exact ⟨fun ⟨beyond, isKey, _⟩ => ⟨isKey, beyond⟩,
      fun ⟨isKey, beyond⟩ => ⟨beyond, isKey, older.trans beyond⟩⟩
  have serves : (if mirrored.mirror.superseded key entry then [] else entry.row.toList) =
      ([] : List Row) := by
    cases isEntry : entry.row with
    | none => exact ite_self _
    | some other =>
        rw [scannable.superseded_eq mirrors found above (by rw [isEntry]; rfl), isOwn]
        rfl
  rw [scannable.onKey_overlay mirrors holds found above, serves, isLast.serves mirrors committed only,
    Multiset.coe_nil, add_zero, Multiset.coe_eq_coe.mpr (newerRows.map Prod.snd)]
  rfl

/-- The peer serves what the staged operations leave. -/
theorem Scannable.agrees {metadata : Metadata} (isVersion : metadata ∈ mirrored.log.sys.lake.versions)
    (isWatermark : metadata.watermark = watermark) :
    unionRows metadata.rows (mirrored.mirror.overlayAt watermark) =
      applyRowOps mirrored.log.sys.ops rows := by
  obtain ⟨routed, holds⟩ := mirrors.holds
  obtain ⟨isRows, marked⟩ := mirrors.tracked.versions metadata isVersion
  rw [isWatermark] at isRows marked
  rw [mirrors.ops_eq watermark, applyRowOps_append, ← isRows]
  refine eq_of_onKey_eq pkCols fun key => ?_
  by_cases puts : ∃ frame ∈ mirrored.sent.filter fun frame => newer watermark frame.1,
      ∃ op ∈ mirrored.does pkCols frame, op.Puts key
  · obtain ⟨before, frame, after, split, isPut, last⟩ := exists_last puts
    have isLast : LastPut pkCols mirrored watermark key before frame after :=
      ⟨split, isPut, fun other mem op isOp isPut => last other mem ⟨op, isOp, isPut⟩⟩
    obtain ⟨first, isFirst, isNew, -, -, isKeyed⟩ := isLast.keyed mirrors marked
    obtain ⟨entry, found, reached⟩ := scannable.entry_of_keyed mirrors holds isFirst isNew isKeyed
    rcases (isLast.reaches mirrors (holds.origin key entry found).put ⟨_, _, rfl⟩).eq_or_lt with
      same | older
    · exact scannable.agrees_entry mirrors holds marked isLast found same metadata.rows
    · exact scannable.agrees_insert mirrors holds marked isLast found (newer_mono isNew reached) older
        metadata.rows
  · refine scannable.agrees_unput mirrors holds (fun frame isFrame above op isOp isPut => ?_)
      metadata.rows
    exact puts ⟨frame, List.mem_filter.mpr ⟨isFrame, above⟩, op, isOp, isPut⟩

end Scan

/-! ## Every run -/

/-- Retained generations are dropped only once every scan in flight contains them. -/
def Collects (mirrored : Mirrored) : Action → Prop
  | .source action => mirrored.log.sys.CollectsContained action
  | _ => True

/-- The server's own readers see every staged operation. -/
theorem view_run {gcGrace : Nat} {property sidecar : Option Nat}
    (run : Run step (fun mirrored action => mirrored.Aligned pkCols action ∧
      mirrored.Collects action) (initial pkCols gcGrace rows property sidecar) mirrored) :
    mirrored.log.sys.View rows := by
  have kept (mirrored : Mirrored) (action : Action) (after : Mirrored)
      (both : mirrored.Mirrors pkCols rows ∧ mirrored.log.sys.View rows)
      (allowed : mirrored.Aligned pkCols action ∧ mirrored.Collects action)
      (taken : mirrored.step action = some after) :
      after.Mirrors pkCols rows ∧ after.log.sys.View rows := by
    obtain ⟨mirrors, view⟩ := both
    refine ⟨mirrors.step allowed.1 taken, ?_⟩
    cases action with
    | source action =>
        obtain ⟨⟨definite, unexpired, -⟩, -⟩ := allowed.1
        obtain ⟨log, steps, isAfter⟩ := Option.bind_eq_some_iff.mp taken
        cases isAfter
        obtain ⟨sys, flows, -, isLog⟩ := Logged.step_flow_eq_some steps
        have ordered : mirrored.log.sys.Ordered action :=
          ⟨definite, unexpired, mirrors.replayable.apart action⟩
        rw [show log.sys = sys by rw [isLog]]
        exact view.step ⟨definite, ordered.apart, allowed.2, ordered.expires⟩ flows
    | forget kept =>
        simp only [step, Option.bind_eq_bind, Option.bind_eq_some_iff] at taken
        obtain ⟨mark, -, log, steps, isAfter⟩ := taken
        cases isAfter
        obtain ⟨other, -, isLog⟩ := Option.bind_eq_some_iff.mp steps
        cases isLog
        exact view
    | arrive index now =>
        simp only [step, Option.bind_eq_bind, Option.bind_eq_some_iff] at taken
        obtain ⟨event, -, taken⟩ := taken
        split at taken
        · obtain ⟨mirror, -, isAfter⟩ := Option.bind_eq_some_iff.mp taken
          cases isAfter
          exact view
        · cases taken
    | heartbeat now =>
        simp only [step, Option.bind_eq_bind, Option.bind_eq_some_iff] at taken
        obtain ⟨mirror, -, isAfter⟩ := taken
        cases isAfter
        exact view
    | scan now version =>
        simp only [step, Option.bind_eq_bind, Option.bind_eq_some_iff] at taken
        obtain ⟨metadata, -, isAfter⟩ := taken
        cases isAfter
        exact view
  have first := mirrors_initial pkCols gcGrace rows property sidecar
  exact (@Run.invariant _ _ _ _
    (fun mirrored => mirrored.Mirrors pkCols rows ∧ mirrored.log.sys.View rows) kept _ _
    ⟨first, first.replayable.view⟩ run).2

/-- As long as the mirror routes inserted rows as its server does, a scan that reads a settled mirror
serves with any version of the table what the server serves with it, whatever the order in which
the events arrived. The version is not older than what the server observed, or the server keeps
the generations it lacks. -/
theorem mirror_agrees {gcGrace : Nat} {property sidecar : Option Nat}
    (run : Run step (Aligned pkCols) (initial pkCols gcGrace rows property sidecar) mirrored)
    {version : Nat} {metadata : Metadata}
    (found : mirrored.log.sys.lake.versions[version]? = some metadata)
    (scannable : mirrored.Scannable pkCols metadata.watermark)
    (timely : mirrored.log.sys.seen ≤ version ∨ version ∈ mirrored.log.sys.scans ∧
      Run step (fun mirrored action => mirrored.Aligned pkCols action ∧ mirrored.Collects action)
        (initial pkCols gcGrace rows property sidecar) mirrored) :
    ∃ overlay, (mirrored.log.buf.overlayWith metadata.contains).2 = .ok overlay ∧
      unionRows metadata.rows (mirrored.mirror.overlayAt metadata.watermark) =
        unionRows metadata.rows overlay := by
  have mirrors := mirrors_run run
  have sees : ∃ overlay, (mirrored.log.buf.overlayWith metadata.contains).2 = .ok overlay ∧
      unionRows metadata.rows overlay = applyRowOps mirrored.log.sys.ops rows := by
    rcases timely with fresh | ⟨isScan, collects⟩
    · exact mirrors.replayable.view.sees (Sys.readable_of_fresh fresh found)
    · exact (view_run collects).sees (.inr ⟨version, isScan, found⟩)
  obtain ⟨overlay, isOverlay, sees⟩ := sees
  exact ⟨overlay, isOverlay,
    (scannable.agrees mirrors (List.mem_of_getElem? found) rfl).trans sees.symm⟩

/-! ## Runs with and without agreement -/

/-- Acknowledged statements of the first column's keys; inserts meet live keys only while no flush
runs, and the mirror routes nothing. -/
def aligned (mirrored : Mirrored) : Action → Bool
  | .source action => mirrored.log.acknowledged (.flow action) && match action with
      | .append batches => batches.flatten.all fun row =>
          match mirrored.log.buf.entries.lookup (encodeKey [0] row), mirrored.log.flusher with
          | some _, .idle => true
          | some _, _ => false
          | none, _ => encodeKey [0] row ∉ keysOf [0] (mirrored.log.above mirrored.log.watermark)
      | _ => true
  | .arrive index _ => match mirrored.flight[index]? with
      | some (seq, .append run) => run.all fun row =>
          !mirrored.mirror.routes seq (encodeKey [0] row)
      | _ => true
  | _ => true

theorem aligned_sound {action : Action} (passes : mirrored.aligned action = true) :
    mirrored.Aligned [0] action := by
  cases action with
  | source action =>
      obtain ⟨isAcknowledged, apart⟩ := Bool.and_eq_true_iff.mp passes
      refine ⟨Logged.acknowledged_sound isAcknowledged, ?_⟩
      cases action with
      | append batches =>
          intro row mem inFlight
          have each := List.all_eq_true.mp apart row mem
          cases found : mirrored.log.buf.entries.lookup (encodeKey [0] row) with
          | none =>
              simp only [found, decide_eq_true_eq] at each
              simp only [Logged.InFlight, found] at inFlight
              exact each inFlight
          | some entry =>
              simp only [Logged.InFlight, found] at inFlight
              obtain ⟨snap, isTaken, -⟩ := inFlight
              simp only [found, isTaken, Bool.false_eq_true] at each
      | _ => trivial
  | arrive index now =>
      intro event isEvent
      obtain ⟨seq, op⟩ := event
      cases op with
      | append run =>
          intro row mem routes
          simp only [aligned, isEvent] at passes
          have each := List.all_eq_true.mp passes row mem
          rw [routes] at each
          cases each
      | _ => trivial
  | _ => trivial

instance (pkCols : List Nat) (mirrored : Mirrored) (key : Key) (entry : MirrorKeyed) :
    Decidable (mirrored.Settled pkCols key entry) :=
  decidable_of_iff
    ((mirrored.windowRows pkCols key entry).length ≤ 1 ∧
      (entry.row.isSome → mirrored.windowRows pkCols key entry ≠ [] →
        ∀ item ∈ mirrored.newerRows pkCols key entry,
          ¬ mirrored.mirror.separatedByWatermark entry.seq item.1) ∧
      (entry.row.isSome → mirrored.windowRows pkCols key entry = [] →
        mirrored.newerRows pkCols key entry ≠ [] →
          ∃ item ∈ mirrored.newerRows pkCols key entry,
            mirrored.mirror.separatedByWatermark entry.seq item.1))
    ⟨fun ⟨single, together, apart⟩ => ⟨single, together, apart⟩,
      fun settled => ⟨settled.single, settled.together, settled.apart⟩⟩

theorem settled_of_entries
    (settled : ∀ item ∈ mirrored.mirror.keyed.entries, newer watermark item.2.seq →
      mirrored.Settled pkCols item.1 item.2) :
    ∀ key entry, mirrored.mirror.keyed.lookup key = some entry → newer watermark entry.seq →
      mirrored.Settled pkCols key entry := fun key entry found =>
  settled ⟨key, entry⟩ (AList.mem_lookup_iff.mp found)

/-- A key is updated and inserted again, the insert reaches the mirror first, and both are flushed
before the watermark reaches the mirror. -/
def insertFirst : List Action :=
  [.source (.keyed (byFirstColumn 1 (some (.text "updated")))), .source (.append [[Sys.newRow]]),
   .source (.durable 0), .source (.durable 0), .arrive 1 0, .arrive 0 0, .source .take,
   .source .load, .source (.prepare 1), .source .arrive, .source .answer, .forget fun _ => false,
   .arrive 0 0]

/-- A scan of the version before the flush sees the insert alone through the mirror too. -/
theorem mirror_agrees_insertFirst :
    let mirrored := execute step aligned (initial [0] 10 {Sys.oldRow} none none) insertFirst
    mirrored.mirror.watermark = 2 ∧ mirrored.mirror.plain = [(2, Sys.newRow)] ∧
      ∃ metadata, mirrored.log.sys.lake.versions[0]? = some metadata ∧
        unionRows metadata.rows (mirrored.mirror.overlayAt metadata.watermark) = {Sys.newRow} ∧
        ∃ overlay, (mirrored.log.buf.overlayWith metadata.contains).2 = .ok overlay ∧
          unionRows metadata.rows (mirrored.mirror.overlayAt metadata.watermark) =
            unionRows metadata.rows overlay := by
  have fresh : (execute step aligned (initial [0] 10 {Sys.oldRow} none none)
      insertFirst).log.sys.seen ≤ 0 := by decide +kernel
  exact ⟨by decide +kernel, by decide +kernel, _, rfl, by decide +kernel,
    mirror_agrees (run_execute (fun _ _ => aligned_sound) _ insertFirst) rfl
      ⟨by decide +kernel, by decide +kernel, settled_of_entries (by decide +kernel)⟩ (.inl fresh)⟩

/-- Two more inserts of an updated key, both of which reach the mirror before the update. -/
def insertsFirst : List Action :=
  [.source (.keyed (byFirstColumn 1 (some (.text "updated")))), .source (.append [[Sys.newRow]]),
   .source (.append [[Sys.oldRow]]), .source (.durable 0), .source (.durable 0),
   .source (.durable 0), .arrive 1 0, .arrive 1 0, .arrive 0 0]

/-- Every event has reached the mirror and there is no watermark, but the mirror serves the rows of
both inserts where the server serves that of the last one. -/
theorem not_mirror_agrees_insertsFirst :
    ∃ mirrored, Run step (Aligned [0]) (initial [0] 10 {Sys.oldRow} none none) mirrored ∧
      mirrored.flight = [] ∧ mirrored.marks = [] ∧ mirrored.log.sys.seen = 0 ∧
      mirrored.log.sys.process.window.waiting.length = 0 ∧
      ∃ metadata, mirrored.log.sys.lake.versions[0]? = some metadata ∧
        metadata.watermark = none ∧
        unionRows metadata.rows (mirrored.mirror.overlayAt none) = {Sys.newRow, Sys.oldRow} ∧
        ∃ overlay, (mirrored.log.buf.overlayWith metadata.contains).2 = .ok overlay ∧
          unionRows metadata.rows overlay = {Sys.oldRow} :=
  ⟨_, run_execute (fun _ _ => aligned_sound) _ insertsFirst, by decide +kernel, by decide +kernel,
    by decide +kernel, by decide +kernel, _, rfl, by decide +kernel, by decide +kernel, _, rfl,
    by decide +kernel⟩

end Mirrored

end Icegres.Buffer
