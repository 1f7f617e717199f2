import Icegres.Buffer.Tail

/-!
# A peer's mirror of the window

A peer mirrors another server's window from the events of acknowledged statements and the
announced watermarks. It works out again what an inserted row does to its key: when the row
arrives, from the sequence of the key's keyed entry and the watermark announced so far, and when a
scan reads, from the sequences of the mirrored rows and the watermarks between them. What a
statement carries is keyed by its sequence, so the order of arrival should not matter.
-/

namespace Icegres.Buffer

/-- One run of rows on the wire. The run of a delete holds the keys only. -/
inductive WireOp where
  | watermark
  | append (run : Batch)
  | upsert (run : Batch)
  | delete (run : Batch)
  deriving DecidableEq

/-- A run and its sequence. -/
abbrev WireEvent := Nat × WireOp

/-- Each batch of a statement is a run of its own. -/
def TailOp.runs : TailOp → List WireOp
  | .append batches => batches.map .append
  | .upsert batches => batches.map .upsert
  | .delete batches => batches.map .delete

/-- A wire batch without rows holds no run. -/
def WireOp.isEmpty : WireOp → Bool
  | .watermark => false
  | .append run | .upsert run | .delete run => run.isEmpty

/-- Rows of one event that stayed appends. -/
structure MirrorAppend where
  seq : Nat
  batch : Batch
  keys : Option (List Key)

/-- The latest mirrored keyed operation of a key. -/
structure MirrorKeyed where
  seq : Nat
  /-- The replacement row; a delete has none. -/
  row : Option Row
  deriving DecidableEq

/-- One table's mirror of a peer's window. -/
structure TableMirror where
  pkCols : List Nat
  appends : List MirrorAppend
  keyed : AList fun _ : Key => MirrorKeyed
  /-- The highest watermark the peer announced. -/
  watermark : Nat
  /-- The announced watermarks with the time each was observed. -/
  coveredMarks : List (Nat × Nat)
  /-- How long covered items are kept. -/
  gcGrace : Nat
  /-- The highest watermark in a scan's own metadata. -/
  observedWatermark : Nat
  /-- When a scan last read the mirror. -/
  lastOverlayAt : Option Nat

namespace TableMirror

/-- A mirror of a window nothing is known of. -/
def empty (pkCols : List Nat) (gcGrace : Nat) : TableMirror where
  pkCols
  appends := []
  keyed := ∅
  watermark := 0
  coveredMarks := []
  gcGrace
  observedWatermark := 0
  lastOverlayAt := none

/-- The newest sequence of each key wins in the keyed map. -/
def upsertKey (mirror : TableMirror) (key : Key) (seq : Nat) (row : Option Row) : TableMirror :=
  match mirror.keyed.lookup key with
  | some existing =>
      if seq ≤ existing.seq then mirror
      else { mirror with keyed := mirror.keyed.insert key ⟨seq, row⟩ }
  | none => { mirror with keyed := mirror.keyed.insert key ⟨seq, row⟩ }

/-- Whether an appended row of the key supersedes an older entry that is not covered yet. -/
def routes (mirror : TableMirror) (seq : Nat) (key : Key) : Bool :=
  (mirror.keyed.lookup key).any fun entry => entry.seq < seq && mirror.watermark < entry.seq

/-- Route one run of appended rows: rows over an older live entry supersede it as an upsert, the
rest stay appends. -/
def applyAppend (mirror : TableMirror) (seq : Nat) (run : Batch) : TableMirror :=
  if mirror.pkCols = [] ∨ mirror.keyed.keys = [] then
    let keys := if mirror.pkCols = [] then none else some (run.map (encodeKey mirror.pkCols))
    { mirror with appends := mirror.appends ++ [⟨seq, run, keys⟩] }
  else
    let routed := fun row => mirror.routes seq (encodeKey mirror.pkCols row)
    let after := (run.filter routed).foldl
      (fun after row => after.upsertKey (encodeKey mirror.pkCols row) seq (some row)) mirror
    if ∀ row ∈ run, routed row then
      after
    else
      let rest := run.filter fun row => !routed row
      { after with
        appends := after.appends ++ [⟨seq, rest, some (rest.map (encodeKey mirror.pkCols))⟩] }

/-- Whether an observed watermark separates two sequences. -/
def separatedByWatermark (mirror : TableMirror) (older newer : Nat) : Bool :=
  mirror.coveredMarks.any fun mark => older ≤ mark.2 && mark.2 < newer

/-- What is covered up to here may go. While a reader is active its own metadata must cover it
too. -/
def gcThreshold (mirror : TableMirror) (now : Nat) : Option Nat :=
  let aged := (mirror.coveredMarks.filter fun mark => mirror.gcGrace ≤ now - mark.1).map Prod.snd
  aged.max?.map fun threshold =>
    if mirror.lastOverlayAt.any fun time => now - time < mirror.gcGrace then
      min threshold mirror.observedWatermark
    else
      threshold

/-- The entries above a sequence. -/
def retainKeyed (keyed : AList fun _ : Key => MirrorKeyed) (threshold : Nat) :
    AList fun _ : Key => MirrorKeyed :=
  ⟨keyed.entries.filter fun entry => threshold < entry.2.seq,
    keyed.nodupKeys.sublist List.filter_sublist⟩

/-- Drop what was covered long enough ago. -/
def gc (mirror : TableMirror) (now : Nat) : TableMirror :=
  match mirror.gcThreshold now with
  | none => mirror
  | some threshold =>
      { mirror with
        appends := mirror.appends.filter fun append => threshold < append.seq
        keyed := retainKeyed mirror.keyed threshold
        coveredMarks := mirror.coveredMarks.filter fun mark =>
          threshold < mark.2 || now - mark.1 < mirror.gcGrace }

/-- Keyed events need declared key columns. -/
def requirePk (mirror : TableMirror) (op : String) : Except String Unit :=
  if mirror.pkCols = [] then
    .error s!"protocol error: a keyed {op} event arrived but the tail header declared no pk-cols — dropping the mirror to re-snapshot (the peer must serve the table's declared primary key in icegres.tail.pk-cols)"
  else
    .ok ()

/-- The peer's watermark never regresses. -/
def noteWatermark (mirror : TableMirror) (now seq : Nat) : TableMirror :=
  if mirror.watermark < seq then
    { mirror with watermark := seq, coveredMarks := mirror.coveredMarks ++ [(now, seq)] }
  else
    mirror

/-- Apply one run. -/
def apply (mirror : TableMirror) (now seq : Nat) : WireOp → Except String TableMirror
  | .watermark => .ok ((mirror.noteWatermark now seq).gc now)
  | .append run => .ok (mirror.applyAppend seq run)
  | .upsert run => do
      mirror.requirePk "upsert"
      return run.foldl
        (fun after row => after.upsertKey (encodeKey mirror.pkCols row) seq (some row)) mirror
  | .delete run => do
      mirror.requirePk "delete"
      return run.foldl (fun after key => after.upsertKey key seq none) mirror

/-- Ingest one wire batch. -/
def ingest (mirror : TableMirror) (now : Nat) : WireEvent → Except String TableMirror
  | (seq, op) => if op.isEmpty then .ok mirror else mirror.apply now seq op

/-- The newest mirrored append of a key. -/
def appendNewest (mirror : TableMirror) (key : Key) : Option Nat :=
  ((mirror.appends.filter fun append => append.keys.any fun keys => key ∈ keys).map
    MirrorAppend.seq).max?

/-- Whether a newer append of the key's window makes the entry's row an old one. -/
def superseded (mirror : TableMirror) (key : Key) (entry : MirrorKeyed) : Bool :=
  (mirror.appendNewest key).any fun newest =>
    entry.seq < newest && !mirror.separatedByWatermark entry.seq newest

/-- Whether the scan's watermark does not cover a sequence. -/
def newer (watermark : Option Nat) (seq : Nat) : Bool :=
  watermark.all fun mark => mark < seq

/-- The rows of an append that no newer keyed operation hides. -/
def visibleRows (mirror : TableMirror) (append : MirrorAppend) : Batch :=
  let suppress := match append.keys with
    | none => []
    | some keys => keys.filter fun key =>
        (mirror.keyed.lookup key).any fun entry => append.seq < entry.seq
  suppressBatch append.batch mirror.pkCols suppress

/-- What the mirror adds to a scan whose metadata carries the peer's watermark. -/
def overlayAt (mirror : TableMirror) (watermark : Option Nat) : Option Overlay :=
  let appends := mirror.appends.filter fun append => newer watermark append.seq
  let entries := mirror.keyed.entries.filter fun entry => newer watermark entry.2.seq
  let batches := ((appends.map mirror.visibleRows).filter (· ≠ [])) ++
    entries.filterMap fun entry =>
      if mirror.superseded entry.1 entry.2 then none else entry.2.row.map fun row => [row]
  let suppressKeys := entries.map Sigma.fst
  if batches = [] ∧ suppressKeys = [] then
    none
  else
    some
      { batches
        suppress := if suppressKeys = [] then none else some (mirror.pkCols, suppressKeys) }

/-- The overlay of a scan; its metadata's watermark counts as observed. -/
def overlayFor (mirror : TableMirror) (now : Nat) (watermark : Option Nat) :
    TableMirror × Option Overlay :=
  ({ mirror with
      lastOverlayAt := some now
      observedWatermark := max mirror.observedWatermark (watermark.getD 0) },
    mirror.overlayAt watermark)

/-! ## What a run leaves -/

/-- The rows that stayed appends, with their sequences. -/
def plain (mirror : TableMirror) : List (Nat × Row) :=
  mirror.appends.flatMap fun append => append.batch.map (append.seq, ·)

/-- The keys kept beside the rows are theirs, and without key columns nothing is keyed. -/
structure Formed (mirror : TableMirror) : Prop where
  keys : ∀ append ∈ mirror.appends, append.keys =
    if mirror.pkCols = [] then none else some (append.batch.map (encodeKey mirror.pkCols))
  keyless : mirror.pkCols = [] → ∀ key, mirror.keyed.lookup key = none
  carries : ∀ key entry, mirror.keyed.lookup key = some entry →
    ∀ row, entry.row = some row → encodeKey mirror.pkCols row = key

theorem formed_empty (pkCols : List Nat) (gcGrace : Nat) : (empty pkCols gcGrace).Formed where
  keys := fun _ mem => nomatch mem
  keyless := fun _ key => AList.lookup_empty key
  carries := fun key entry found => by
    rw [show (empty pkCols gcGrace).keyed.lookup key = none from AList.lookup_empty key] at found
    cases found

/-- Items were upserted under one sequence, and nothing else changed. -/
structure Upserted (mirror : TableMirror) (seq : Nat) (items : List (Key × Option Row))
    (after : TableMirror) : Prop where
  same : after = { mirror with keyed := after.keyed }
  lookup : ∀ key, after.keyed.lookup key = mirror.keyed.lookup key ∨
    ∃ item ∈ items, item.1 = key ∧ after.keyed.lookup key = some ⟨seq, item.2⟩
  reaches : ∀ item ∈ items, ∃ entry, after.keyed.lookup item.1 = some entry ∧ seq ≤ entry.seq
  grows : ∀ key entry, mirror.keyed.lookup key = some entry →
    ∃ later, after.keyed.lookup key = some later ∧ entry.seq ≤ later.seq

theorem upserted_refl (mirror : TableMirror) (seq : Nat) : Upserted mirror seq [] mirror where
  same := rfl
  lookup := fun _ => .inl rfl
  reaches := fun _ mem => nomatch mem
  grows := fun _ entry found => ⟨entry, found, le_rfl⟩

theorem upserted_upsertKey (mirror : TableMirror) (seq : Nat) (key : Key) (row : Option Row) :
    Upserted mirror seq [(key, row)] (mirror.upsertKey key seq row) := by
  have inserts (older : ∀ existing, mirror.keyed.lookup key = some existing → existing.seq < seq) :
      Upserted mirror seq [(key, row)]
        { mirror with keyed := mirror.keyed.insert key ⟨seq, row⟩ } := by
    refine ⟨rfl, fun other => ?_, fun item mem => ?_, fun other entry found => ?_⟩
    · by_cases same : other = key
      · subst same
        exact .inr ⟨_, List.mem_singleton_self _, rfl, AList.lookup_insert _⟩
      · exact .inl (AList.lookup_insert_ne same)
    · rw [List.mem_singleton.mp mem]
      exact ⟨_, AList.lookup_insert _, le_rfl⟩
    · by_cases same : other = key
      · subst same
        exact ⟨_, AList.lookup_insert _, (older entry found).le⟩
      · exact ⟨entry, (AList.lookup_insert_ne same).trans found, le_rfl⟩
  unfold upsertKey
  split
  · next existing found =>
    split
    · next newer =>
      refine ⟨rfl, fun _ => .inl rfl, fun item mem => ?_, fun _ entry isOld => ⟨entry, isOld, le_rfl⟩⟩
      rw [List.mem_singleton.mp mem]
      exact ⟨existing, found, newer⟩
    · next older =>
      exact inserts fun other isOther => by
        cases found.symm.trans isOther
        exact Nat.lt_of_not_le older
  · next absent => exact inserts fun other isOther => nomatch absent.symm.trans isOther

theorem Upserted.trans {mirror mid after : TableMirror} {seq : Nat}
    {first second : List (Key × Option Row)} (left : Upserted mirror seq first mid)
    (right : Upserted mid seq second after) : Upserted mirror seq (first ++ second) after where
  same := by rw [right.same, left.same]
  lookup key := by
    rcases right.lookup key with kept | ⟨item, isItem, isKey, found⟩
    · rw [kept]
      refine (left.lookup key).imp_right fun ⟨item, isItem, isKey, found⟩ => ?_
      exact ⟨item, List.mem_append_left _ isItem, isKey, found⟩
    · exact .inr ⟨item, List.mem_append_right _ isItem, isKey, found⟩
  reaches item mem := by
    rcases List.mem_append.mp mem with early | late
    · obtain ⟨entry, found, reached⟩ := left.reaches item early
      obtain ⟨later, isLater, beyond⟩ := right.grows item.1 entry found
      exact ⟨later, isLater, reached.trans beyond⟩
    · exact right.reaches item late
  grows key entry found := by
    obtain ⟨mid, isMid, reached⟩ := left.grows key entry found
    obtain ⟨later, isLater, beyond⟩ := right.grows key mid isMid
    exact ⟨later, isLater, reached.trans beyond⟩

/-- Upserting one item after the other. -/
theorem upserted_foldl {α : Type} (key : α → Key) (row : α → Option Row) (seq : Nat)
    (items : List α) (mirror : TableMirror) :
    Upserted mirror seq (items.map fun item => (key item, row item))
      (items.foldl (fun after item => after.upsertKey (key item) seq (row item)) mirror) := by
  induction items generalizing mirror with
  | nil => exact upserted_refl mirror seq
  | cons item rest ih => exact (upserted_upsertKey mirror seq (key item) (row item)).trans (ih _)

/-- Entries carry their keys when the items do. -/
theorem Upserted.formed {mirror after : TableMirror} {seq : Nat} {items : List (Key × Option Row)}
    (upserted : Upserted mirror seq items after) (formed : mirror.Formed)
    (keyed : items ≠ [] → mirror.pkCols ≠ [])
    (carry : ∀ item ∈ items, ∀ row, item.2 = some row → encodeKey mirror.pkCols row = item.1) :
    after.Formed := by
  have cols : after.pkCols = mirror.pkCols := by rw [upserted.same]
  have appends : after.appends = mirror.appends := by rw [upserted.same]
  refine ⟨?_, fun none key => ?_, fun key entry found row isRow => ?_⟩
  · rw [cols, appends]
    exact formed.keys
  · rw [cols] at none
    rcases upserted.lookup key with kept | ⟨item, isItem, -⟩
    · rw [kept]
      exact formed.keyless none key
    · exact absurd none (keyed (List.ne_nil_of_mem isItem))
  · rw [cols]
    rcases upserted.lookup key with kept | ⟨item, isItem, rfl, isEntry⟩
    · exact formed.carries key entry (kept ▸ found) row isRow
    · cases isEntry.symm.trans found
      exact carry item isItem row isRow

end TableMirror

namespace WireOp

/-- The rows an append inserts. -/
def inserts : WireOp → List Row
  | .append run => run
  | _ => []

/-- What a keyed run puts in place of its keys. -/
def puts (pkCols : List Nat) : WireOp → List (Key × Option Row)
  | .upsert run => run.map fun row => (encodeKey pkCols row, some row)
  | .delete run => run.map fun key => (key, none)
  | _ => []

end WireOp

namespace TableMirror

variable {mirror after : TableMirror} {now seq : Nat}

/-- A statement's run was ingested: some of its inserted rows are routed over older entries, the
others are kept as appends. -/
structure Ingested (mirror : TableMirror) (seq : Nat) (op : WireOp) (routed kept : List Row)
    (after : TableMirror) : Prop where
  split : (op.inserts : Multiset Row) = (routed : Multiset Row) + (kept : Multiset Row)
  routes : ∀ row ∈ routed, mirror.routes seq (encodeKey mirror.pkCols row) = true
  plain : after.plain = mirror.plain ++ kept.map (seq, ·)
  cols : after.pkCols = mirror.pkCols
  marks : after.coveredMarks = mirror.coveredMarks
  lookup : ∀ key, after.keyed.lookup key = mirror.keyed.lookup key ∨
    ∃ item ∈ op.puts mirror.pkCols ++ routed.map fun row => (encodeKey mirror.pkCols row, some row),
      item.1 = key ∧ after.keyed.lookup key = some ⟨seq, item.2⟩
  reaches : ∀ item ∈ op.puts mirror.pkCols ++
      routed.map fun row => (encodeKey mirror.pkCols row, some row),
    ∃ entry, after.keyed.lookup item.1 = some entry ∧ seq ≤ entry.seq
  grows : ∀ key entry, mirror.keyed.lookup key = some entry →
    ∃ later, after.keyed.lookup key = some later ∧ entry.seq ≤ later.seq
  formed : after.Formed

/-- Rows pushed as an append of their own. -/
theorem plain_push (mirror : TableMirror) (seq : Nat) (batch : Batch) (keys : Option (List Key)) :
    ({ mirror with appends := mirror.appends ++ [⟨seq, batch, keys⟩] } : TableMirror).plain =
      mirror.plain ++ batch.map (seq, ·) := by
  simp [plain]

/-- Keyed runs upsert their items. -/
theorem Upserted.ingested {op : WireOp} (formed : mirror.Formed) (keyed : mirror.pkCols ≠ [])
    (upserted : Upserted mirror seq (op.puts mirror.pkCols) after) (noRow : op.inserts = [])
    (carry : ∀ item ∈ op.puts mirror.pkCols, ∀ row, item.2 = some row →
      encodeKey mirror.pkCols row = item.1) : Ingested mirror seq op [] [] after where
  split := by rw [noRow]; rfl
  routes := fun row mem => nomatch mem
  plain := by
    have appends : after.appends = mirror.appends := by rw [upserted.same]
    simp [TableMirror.plain, appends]
  cols := by rw [upserted.same]
  marks := by rw [upserted.same]
  lookup := by simpa using upserted.lookup
  reaches := by simpa using upserted.reaches
  grows := upserted.grows
  formed := upserted.formed formed (fun _ => keyed) carry

/-- Appended rows are routed or kept. -/
theorem ingested_applyAppend (formed : mirror.Formed) (seq : Nat) (run : Batch) :
    ∃ routed kept, Ingested mirror seq (.append run) routed kept (mirror.applyAppend seq run) := by
  unfold applyAppend
  split
  · next plainly =>
    refine ⟨[], run, by simp [WireOp.inserts], by simp, plain_push .., rfl, rfl,
      fun _ => .inl rfl, by simp [WireOp.puts], fun _ entry found => ⟨entry, found, le_rfl⟩,
      ⟨fun append mem => ?_, formed.keyless, formed.carries⟩⟩
    rcases List.mem_append.mp mem with old | new
    · exact formed.keys append old
    · rw [List.mem_singleton.mp new]
  · next keyed =>
    have columns : mirror.pkCols ≠ [] := fun none => keyed (.inl none)
    dsimp only
    have upserted := upserted_foldl (encodeKey mirror.pkCols) some seq
      (run.filter fun row => mirror.routes seq (encodeKey mirror.pkCols row)) mirror
    generalize isMid : (run.filter fun row => mirror.routes seq (encodeKey mirror.pkCols row)).foldl
      (fun after row => after.upsertKey (encodeKey mirror.pkCols row) seq (some row)) mirror = mid
      at upserted
    have midFormed : mid.Formed := upserted.formed formed (fun _ => columns) fun item mem => by
      obtain ⟨row, -, rfl⟩ := List.mem_map.mp mem
      rintro other ⟨⟩
      rfl
    have sameCols : mid.pkCols = mirror.pkCols := by rw [upserted.same]
    have sameMarks : mid.coveredMarks = mirror.coveredMarks := by rw [upserted.same]
    have samePlain : mid.plain = mirror.plain := by
      have appends : mid.appends = mirror.appends := by rw [upserted.same]
      simp [plain, appends]
    have split : ((WireOp.append run).inserts : Multiset Row) =
        ((run.filter fun row => mirror.routes seq (encodeKey mirror.pkCols row) : List Row) :
          Multiset Row) +
        ((run.filter fun row => !mirror.routes seq (encodeKey mirror.pkCols row) : List Row) :
          Multiset Row) := by
      rw [Multiset.coe_add, Multiset.coe_eq_coe]
      exact (List.filter_append_perm _ run).symm
    split
    · next all =>
      refine ⟨_, [], ?_, fun row mem => (List.mem_filter.mp mem).2, by simpa using samePlain,
        sameCols, sameMarks, upserted.lookup, upserted.reaches, upserted.grows, midFormed⟩
      rw [split]
      congr 1
      rw [Multiset.coe_eq_coe, List.filter_eq_nil_iff.mpr fun row mem => by simp [all row mem]]
    · refine ⟨_, _, split, fun row mem => (List.mem_filter.mp mem).2,
        (plain_push ..).trans (by rw [samePlain]), sameCols, sameMarks, upserted.lookup,
        upserted.reaches, upserted.grows, ⟨fun append mem => ?_, ?_, ?_⟩⟩
      · rcases List.mem_append.mp mem with old | new
        · exact midFormed.keys append old
        · rw [List.mem_singleton.mp new]
          simp only [sameCols, if_neg columns]
      · exact midFormed.keyless
      · exact midFormed.carries

/-- A statement's run is ingested. -/
theorem ingested_of_ingest (formed : mirror.Formed) {op : WireOp} (isRun : op ≠ .watermark)
    (ingests : mirror.ingest now (seq, op) = .ok after) :
    ∃ routed kept, Ingested mirror seq op routed kept after := by
  have nothing (noRow : op.inserts = []) (noPut : op.puts mirror.pkCols = []) :
      Ingested mirror seq op [] [] mirror :=
    ⟨by rw [noRow]; rfl, by simp, by simp, rfl, rfl, fun _ => .inl rfl, by simp [noPut], fun _ entry found => ⟨entry, found, le_rfl⟩, formed⟩
  simp only [ingest] at ingests
  split at ingests
  · next isEmpty =>
    cases ingests
    refine ⟨[], [], ?_⟩
    cases op with
    | watermark => exact absurd rfl isRun
    | append run | upsert run | delete run =>
        cases List.isEmpty_iff.mp isEmpty
        exact nothing rfl rfl
  · have required {name : String} {next : TableMirror}
        (applies : (do mirror.requirePk name; return next) = Except.ok after) :
        mirror.pkCols ≠ [] ∧ next = after := by
      unfold requirePk at applies
      split at applies
      · cases applies
      · next columns =>
        cases applies
        exact ⟨columns, rfl⟩
    cases op with
    | watermark => exact absurd rfl isRun
    | append run =>
        cases ingests
        exact ingested_applyAppend formed seq run
    | upsert run =>
        obtain ⟨columns, rfl⟩ := required ingests
        refine ⟨[], [], (upserted_foldl _ _ seq run mirror).ingested formed columns rfl ?_⟩
        intro item mem
        obtain ⟨row, -, rfl⟩ := List.mem_map.mp mem
        rintro other ⟨⟩
        rfl
    | delete run =>
        obtain ⟨columns, rfl⟩ := required ingests
        refine ⟨[], [], (upserted_foldl (fun key : Key => key) (fun _ => none) seq run
          mirror).ingested formed columns rfl ?_⟩
        intro item mem
        obtain ⟨key, -, rfl⟩ := List.mem_map.mp mem
        rintro other ⟨⟩

/-! ## What collection keeps -/

theorem lookup_retainKeyed (keyed : AList fun _ : Key => MirrorKeyed) (threshold : Nat) (key : Key) :
    (retainKeyed keyed threshold).lookup key =
      (keyed.lookup key).filter fun entry => threshold < entry.seq := by
  ext entry
  rw [Option.filter_eq_some_iff, ← Option.mem_def, ← Option.mem_def, AList.mem_lookup_iff,
    AList.mem_lookup_iff]
  simp [retainKeyed]

/-- What a watermark, or a heartbeat that repeats one, leaves. -/
structure Collected (mirror : TableMirror) (threshold : Nat) (after : TableMirror) : Prop where
  plain : after.plain = mirror.plain.filter fun item => threshold < item.1
  lookup : ∀ key, after.keyed.lookup key =
    (mirror.keyed.lookup key).filter fun entry => threshold < entry.seq
  cols : after.pkCols = mirror.pkCols
  marks : after.coveredMarks ⊆ mirror.coveredMarks
  formed : after.Formed

theorem collected_gc (formed : mirror.Formed) (now : Nat) :
    (mirror.gcThreshold now = none ∧ mirror.gc now = mirror) ∨
      ∃ threshold, mirror.gcThreshold now = some threshold ∧
        Collected mirror threshold (mirror.gc now) := by
  unfold gc
  cases isThreshold : mirror.gcThreshold now with
  | none => exact .inl ⟨rfl, rfl⟩
  | some threshold =>
      refine .inr ⟨threshold, rfl, ?_, lookup_retainKeyed _ _, rfl, List.filter_subset_self _,
        ⟨fun append mem => formed.keys append (List.mem_filter.mp mem).1, fun none key => ?_,
          fun key entry found => ?_⟩⟩
      · simp only [TableMirror.plain, List.filter_flatMap]
        induction mirror.appends with
        | nil => rfl
        | cons append rest ih =>
            rw [List.flatMap_cons, ← ih, List.filter_cons]
            by_cases above : threshold < append.seq
            · simp [above, List.filter_map, Function.comp_def]
            · simp [above, List.filter_map, Function.comp_def]
      · dsimp only
        rw [lookup_retainKeyed, formed.keyless none]
        rfl
      · dsimp only at found
        rw [lookup_retainKeyed, Option.filter_eq_some_iff] at found
        exact formed.carries key entry found.1

/-! ## What a scan reads -/

/-- The rows of one key among lists that each belong to a key of their own. -/
theorem filter_flatMap_entries {β : Type} (cols : List Nat) (key : Key)
    (rows : (Σ _ : Key, β) → List Row) {entries : List (Σ _ : Key, β)}
    (nodup : entries.NodupKeys)
    (own : ∀ entry ∈ entries, ∀ row ∈ rows entry, encodeKey cols row = entry.1) :
    (entries.flatMap rows).filter (fun row => encodeKey cols row = key) =
      (entries.dlookup key).elim [] fun value => rows ⟨key, value⟩ := by
  induction entries with
  | nil => rfl
  | cons entry rest ih =>
      obtain ⟨apart, nodup⟩ := List.nodupKeys_cons.mp nodup
      have first := own entry List.mem_cons_self
      have ih := ih nodup fun other mem => own other (List.mem_cons_of_mem _ mem)
      obtain ⟨name, value⟩ := entry
      rw [List.flatMap_cons, List.filter_append, ih]
      by_cases same : name = key
      · subst same
        have others : rest.dlookup name = none := List.dlookup_eq_none.mpr apart
        rw [others, List.dlookup_cons_eq, Option.elim_none, List.append_nil, Option.elim_some,
          List.filter_eq_self.mpr fun row mem => decide_eq_true (first row mem)]
      · rw [List.dlookup_cons_ne _ _ (Ne.symm same), List.filter_eq_nil_iff.mpr, List.nil_append]
        intro row mem isKey
        exact same ((first row mem).symm.trans (of_decide_eq_true isKey))

/-- The rows of a scan through the mirror. -/
theorem unionRows_overlayAt (mirror : TableMirror) (watermark : Option Nat) (rows : Multiset Row) :
    let entries := mirror.keyed.entries.filter fun entry => newer watermark entry.2.seq
    unionRows rows (mirror.overlayAt watermark) =
      (rows.filter fun row => encodeKey mirror.pkCols row ∉ entries.map Sigma.fst) +
        (((mirror.appends.filter fun append => newer watermark append.seq).flatMap
            mirror.visibleRows ++
          entries.flatMap fun entry =>
            if mirror.superseded entry.1 entry.2 then [] else entry.2.row.toList : List Row) :
          Multiset Row) := by
  intro entries
  have upserts : (entries.filterMap fun entry =>
      if mirror.superseded entry.1 entry.2 then none
      else entry.2.row.map fun row => [row]).flatten =
        entries.flatMap fun entry =>
          if mirror.superseded entry.1 entry.2 then [] else entry.2.row.toList := by
    induction entries with
    | nil => rfl
    | cons entry rest ih =>
        rw [List.filterMap_cons, List.flatMap_cons, ← ih]
        by_cases old : mirror.superseded entry.1 entry.2 = true
        · simp [old]
        · cases entry.2.row <;> simp [old]
  have batches : ((((mirror.appends.filter fun append => newer watermark append.seq).map
      mirror.visibleRows).filter (· ≠ [])) ++ entries.filterMap fun entry =>
        if mirror.superseded entry.1 entry.2 then none
        else entry.2.row.map fun row => [row]).flatten =
      (mirror.appends.filter fun append => newer watermark append.seq).flatMap
        mirror.visibleRows ++ entries.flatMap fun entry =>
          if mirror.superseded entry.1 entry.2 then [] else entry.2.row.toList := by
    rw [List.flatten_append, List.flatten_filter_ne_nil, upserts, ← List.flatMap_def]
  rw [← batches]
  unfold overlayAt
  dsimp only
  change unionRows rows (if _ ∧ entries.map Sigma.fst = [] then none else some
    (Overlay.mk _ (if entries.map Sigma.fst = [] then none else _))) = _
  split
  · next nothing =>
    obtain ⟨noBatch, noKey⟩ := nothing
    rw [noKey, noBatch]
    simp [unionRows]
  · simp only [unionRows]
    congr 1
    split
    · next none =>
      split at none
      · next noKey => simp [noKey]
      · cases none
    · next cols keys some =>
      split at some
      · cases some
      · cases some
        rfl

/-- The plain rows of a key that a scan reads: its watermark does not cover them and no newer keyed
operation hides them. -/
def shown (mirror : TableMirror) (watermark : Option Nat) (key : Key) : List (Nat × Row) :=
  mirror.plain.filter fun item => encodeKey mirror.pkCols item.2 = key ∧ newer watermark item.1 ∧
    ¬ (mirror.keyed.lookup key).any fun entry => item.1 < entry.seq

/-- The visible rows of a key in one append. -/
theorem visibleRows_filter (formed : mirror.Formed) {append : MirrorAppend}
    (mem : append ∈ mirror.appends) (key : Key) :
    (mirror.visibleRows append).filter (fun row => encodeKey mirror.pkCols row = key) =
      append.batch.filter fun row => encodeKey mirror.pkCols row = key ∧
        ¬ (mirror.keyed.lookup key).any fun entry => append.seq < entry.seq := by
  unfold visibleRows suppressBatch
  dsimp only
  rw [List.filter_filter]
  apply List.filter_congr
  intro row isRow
  by_cases isKey : encodeKey mirror.pkCols row = key
  · subst isKey
    rw [formed.keys append mem]
    by_cases keyless : mirror.pkCols = []
    · simp [keyless, formed.keyless keyless]
    · have listed : encodeKey mirror.pkCols row ∈ append.batch.map (encodeKey mirror.pkCols) :=
        List.mem_map_of_mem isRow
      simp only [keyless, if_false, List.mem_filter, listed, true_and, decide_true, Bool.true_and]
  · simp [isKey]

theorem flatMap_visibleRows (formed : mirror.Formed) (watermark : Option Nat) (key : Key) :
    ((mirror.appends.filter fun append => newer watermark append.seq).flatMap
      mirror.visibleRows).filter (fun row => encodeKey mirror.pkCols row = key) =
        (mirror.shown watermark key).map Prod.snd := by
  have each := fun (append : MirrorAppend) (mem : append ∈ mirror.appends) =>
    mirror.visibleRows_filter formed mem key
  unfold shown plain
  generalize mirror.appends = appends at each
  induction appends with
  | nil => rfl
  | cons append rest ih =>
      have first := each append List.mem_cons_self
      have ih := ih fun other mem => each other (List.mem_cons_of_mem _ mem)
      rw [List.flatMap_cons, List.filter_append, List.map_append, ← ih, List.filter_cons]
      have own : ((append.batch.map (append.seq, ·)).filter fun item =>
          encodeKey mirror.pkCols item.2 = key ∧ newer watermark item.1 ∧
            ¬ (mirror.keyed.lookup key).any fun entry => item.1 < entry.seq).map Prod.snd =
          if newer watermark append.seq then (mirror.visibleRows append).filter
            (fun row => encodeKey mirror.pkCols row = key) else [] := by
        rw [List.filter_map, List.map_map, first]
        split
        · next above => simp [Function.comp_def, above]
        · next covered => simp [Function.comp_def, covered]
      rw [own]
      split
      · rw [List.flatMap_cons, List.filter_append]
      · rw [List.nil_append]

/-- What a scan reads of one key. -/
theorem onKey_unionRows_overlayAt (formed : mirror.Formed) (watermark : Option Nat) (key : Key)
    (rows : Multiset Row) :
    onKey mirror.pkCols key (unionRows rows (mirror.overlayAt watermark)) =
      match (mirror.keyed.lookup key).filter fun entry => newer watermark entry.seq with
      | none => onKey mirror.pkCols key rows +
          ((mirror.shown watermark key).map Prod.snd : Multiset Row)
      | some entry => ((mirror.shown watermark key).map Prod.snd : Multiset Row) +
          ((if mirror.superseded key entry then [] else entry.row.toList : List Row) :
            Multiset Row) := by
  have nodup : (mirror.keyed.entries.filter fun entry => newer watermark entry.2.seq).NodupKeys :=
    mirror.keyed.nodupKeys.sublist List.filter_sublist
  have looks : (mirror.keyed.entries.filter fun entry => newer watermark entry.2.seq).dlookup key =
      (mirror.keyed.lookup key).filter fun entry => newer watermark entry.seq := by
    ext entry
    rw [Option.filter_eq_some_iff, ← Option.mem_def, ← Option.mem_def,
      List.mem_dlookup_iff nodup, AList.mem_lookup_iff, List.mem_filter]
  have entries := filter_flatMap_entries mirror.pkCols key
    (fun entry => if mirror.superseded entry.1 entry.2 then [] else entry.2.row.toList) nodup
    fun entry mem row isRow => by
      split at isRow
      · cases isRow
      · exact formed.carries entry.1 entry.2
          (AList.mem_lookup_iff.mpr (List.mem_filter.mp mem).1) row (by simpa using isRow)
  rw [unionRows_overlayAt, onKey, Multiset.filter_add, Multiset.filter_coe, List.filter_append,
    flatMap_visibleRows formed, entries, looks, ← Multiset.coe_add]
  have isKey : key ∈ (mirror.keyed.entries.filter fun entry =>
      newer watermark entry.2.seq).map Sigma.fst ↔
        ((mirror.keyed.lookup key).filter fun entry => newer watermark entry.seq).isSome := by
    rw [← looks, List.dlookup_isSome]
    rfl
  cases found : (mirror.keyed.lookup key).filter fun entry => newer watermark entry.seq with
  | none =>
      rw [found] at isKey
      have absent : key ∉ (mirror.keyed.entries.filter fun entry =>
          newer watermark entry.2.seq).map Sigma.fst := by simp [isKey]
      rw [Option.elim_none, Multiset.coe_nil, add_zero, Multiset.filter_filter, onKey]
      congr 1
      apply Multiset.filter_congr
      intro row _
      rw [and_iff_left_iff_imp]
      rintro rfl
      exact absent
  | some entry =>
      rw [found] at isKey
      rw [Multiset.filter_filter, Multiset.filter_eq_nil.mpr, zero_add, Option.elim_some]
      rintro row - ⟨rfl, absent⟩
      exact absent (isKey.mpr rfl)

/-- An entry's row gives way to newer plain rows of its key, unless an observed watermark separates
them. -/
theorem superseded_iff (formed : mirror.Formed) {key : Key} {entry : MirrorKeyed}
    (found : mirror.keyed.lookup key = some entry) :
    mirror.superseded key entry = true ↔
      (∃ item ∈ mirror.plain, encodeKey mirror.pkCols item.2 = key ∧ entry.seq < item.1) ∧
        ∀ item ∈ mirror.plain, encodeKey mirror.pkCols item.2 = key → entry.seq < item.1 →
          ¬ mirror.separatedByWatermark entry.seq item.1 := by
  have keyed : mirror.pkCols ≠ [] := fun none => by
    rw [formed.keyless none key] at found
    cases found
  have listed (seq : Nat) : seq ∈ (mirror.appends.filter fun append =>
      append.keys.any fun keys => key ∈ keys).map MirrorAppend.seq ↔
        ∃ row, (seq, row) ∈ mirror.plain ∧ encodeKey mirror.pkCols row = key := by
    simp only [List.mem_map, List.mem_filter, plain, List.mem_flatMap, Prod.mk.injEq]
    constructor
    · rintro ⟨append, ⟨mem, isKey⟩, rfl⟩
      rw [formed.keys append mem, if_neg keyed] at isKey
      obtain ⟨row, isRow, rfl⟩ := List.mem_map.mp (of_decide_eq_true isKey)
      exact ⟨row, ⟨append, mem, row, isRow, rfl, rfl⟩, rfl⟩
    · rintro ⟨row, ⟨append, mem, other, isRow, rfl, rfl⟩, rfl⟩
      refine ⟨append, ⟨mem, ?_⟩, rfl⟩
      rw [formed.keys append mem, if_neg keyed]
      exact decide_eq_true (List.mem_map_of_mem isRow)
  have mono {newer newest : Nat} (above : newer ≤ newest)
      (separated : mirror.separatedByWatermark entry.seq newer = true) :
      mirror.separatedByWatermark entry.seq newest = true := by
    obtain ⟨mark, isMark, between⟩ := List.any_eq_true.mp separated
    simp only [Bool.and_eq_true, decide_eq_true_eq] at between
    refine List.any_eq_true.mpr ⟨mark, isMark, ?_⟩
    simp only [Bool.and_eq_true, decide_eq_true_eq]
    exact ⟨between.1, between.2.trans_le above⟩
  unfold superseded appendNewest
  simp only [Option.any_eq_true, Bool.and_eq_true, decide_eq_true_eq, Bool.not_eq_true']
  constructor
  · rintro ⟨newest, isMax, later, together⟩
    obtain ⟨mem, highest⟩ := List.max?_eq_some_iff.mp isMax
    obtain ⟨row, isPlain, isKey⟩ := (listed newest).mp mem
    refine ⟨⟨_, isPlain, isKey, later⟩, fun item isItem sameKey _ separated => ?_⟩
    have below := highest item.1 ((listed item.1).mpr ⟨item.2, isItem, sameKey⟩)
    rw [mono below separated] at together
    cases together
  · rintro ⟨⟨item, isItem, sameKey, later⟩, together⟩
    have mem := (listed item.1).mpr ⟨item.2, isItem, sameKey⟩
    cases isMax : ((mirror.appends.filter fun append =>
        append.keys.any fun keys => key ∈ keys).map MirrorAppend.seq).max? with
    | none =>
        rw [List.max?_eq_none_iff.mp isMax] at mem
        cases mem
    | some newest =>
        obtain ⟨isNewest, highest⟩ := List.max?_eq_some_iff.mp isMax
        obtain ⟨row, isPlain, isKey⟩ := (listed newest).mp isNewest
        have beyond := later.trans_le (highest item.1 mem)
        exact ⟨newest, rfl, beyond, Bool.eq_false_iff.mpr (together _ isPlain isKey beyond)⟩

end TableMirror

end Icegres.Buffer
