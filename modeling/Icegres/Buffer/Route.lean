import Icegres.Buffer.Overlay

/-!
# Routing a statement

An acknowledged statement is a list of row operations in the order of its rows: an inserted row
whose key has a live keyed entry replaces it, any other one is added. Routing takes the rows of
a batch in two parts; each of its steps either adds a batch none of whose keys is live, or
overwrites one live key.
-/

namespace Icegres.Buffer

/-- What a statement does to one row of the table. -/
inductive RowOp where
  | append (row : Row)
  /-- Every row of the key is replaced. -/
  | put (pkCols : List Nat) (key : Key) (replacement : List Row)
  deriving DecidableEq

/-- The rows after one operation. -/
def RowOp.apply (rows : Multiset Row) : RowOp → Multiset Row
  | .append row => rows + {row}
  | .put pkCols key replacement =>
      Layer.outside (encodeKey pkCols) {key} rows + (replacement : Multiset Row)

/-- The rows after operations in order. -/
def applyRowOps (ops : List RowOp) (rows : Multiset Row) : Multiset Row :=
  ops.foldl RowOp.apply rows

@[simp] theorem applyRowOps_nil (rows : Multiset Row) : applyRowOps [] rows = rows := rfl

@[simp] theorem applyRowOps_cons (op : RowOp) (ops : List RowOp) (rows : Multiset Row) :
    applyRowOps (op :: ops) rows = applyRowOps ops (op.apply rows) := rfl

@[simp] theorem applyRowOps_append (front back : List RowOp) (rows : Multiset Row) :
    applyRowOps (front ++ back) rows = applyRowOps back (applyRowOps front rows) :=
  List.foldl_append

/-- Appended rows are added. -/
theorem applyRowOps_appends (batch : Batch) (rows : Multiset Row) :
    applyRowOps (batch.map .append) rows = rows + (batch : Multiset Row) := by
  induction batch generalizing rows with
  | nil => simp
  | cons row rest ih =>
      rw [List.map_cons, applyRowOps_cons, ih, RowOp.apply, add_assoc, ← Multiset.cons_coe,
        Multiset.singleton_add]

/-- What inserting a row means while the given keys have live keyed entries. -/
def insertOp (pkCols : List Nat) (entries : KeyedMap) (row : Row) : RowOp :=
  if encodeKey pkCols row ∈ entries then .put pkCols (encodeKey pkCols row) [row]
  else .append row

/-- What an insert statement means, row by row. Routing keeps the set of live keys. -/
def insertOps (buf : TableBuf) (batches : List Batch) : List RowOp :=
  batches.flatten.map (insertOp buf.pkCols buf.entries)

/-- The operations of the rows whose key is live commute with those of the other rows. -/
theorem applyRowOps_split (pkCols : List Nat) (entries : KeyedMap) (batch : Batch)
    (rows : Multiset Row) :
    applyRowOps (batch.map (insertOp pkCols entries)) rows =
      applyRowOps ((batch.filter fun row => encodeKey pkCols row ∉ entries).map .append)
        (applyRowOps ((batch.filter fun row => encodeKey pkCols row ∈ entries).map fun row =>
          .put pkCols (encodeKey pkCols row) [row]) rows) := by
  induction batch generalizing rows with
  | nil => rfl
  | cons row rest ih =>
      by_cases live : encodeKey pkCols row ∈ entries
      · simp [insertOp, live, ih]
      · -- the new row is not of a key the later replacements touch
        have added (ops : List Row) (within : ∀ other ∈ ops, encodeKey pkCols other ∈ entries)
            (rows : Multiset Row) :
            applyRowOps (ops.map fun row => .put pkCols (encodeKey pkCols row) [row])
              (rows + {row}) =
            applyRowOps (ops.map fun row => .put pkCols (encodeKey pkCols row) [row]) rows +
              {row} := by
          induction ops generalizing rows with
          | nil => rfl
          | cons first ops ihOps =>
              have other : encodeKey pkCols row ≠ encodeKey pkCols first := by
                intro same
                exact live (same ▸ within first List.mem_cons_self)
              have kept : Layer.outside (encodeKey pkCols) {encodeKey pkCols first} {row} =
                  {row} :=
                Layer.outside_eq_self fun only mem => by
                  rw [Multiset.mem_singleton.mp mem, Finset.mem_singleton]
                  exact other
              rw [List.map_cons, applyRowOps_cons, applyRowOps_cons,
                ← ihOps fun other mem => within other (List.mem_cons_of_mem _ mem)]
              congr 1
              simp only [RowOp.apply, Layer.outside_add, kept]
              abel
        rw [List.map_cons, applyRowOps_cons, ih]
        simp only [insertOp, live, if_false, RowOp.apply, applyRowOps_appends]
        rw [added _ fun other mem => by simpa using (List.mem_filter.mp mem).2]
        simp only [live, List.filter_cons, not_false_eq_true, decide_true, decide_false, if_true,
          Bool.false_eq_true, if_false, ← Multiset.cons_coe, ← Multiset.singleton_add]
        abel

/-- Overwrite one live key. -/
def TableBuf.overwriteKey (buf : TableBuf) (state : KeyedState) (routed : RoutedStmt) (row : Row)
    (seq : Option Nat) : TableBuf × RoutedStmt :=
  let key := encodeKey state.pkCols row
  let (after, stamp, displaced) := TableBuf.KeyedState.overwrite state key
    { keyCols := state.pkCols, keyRow := projectKeyRow state.pkCols row, kind := .upsert row, seq }
  ({ buf with keyed := some after },
    { routed with keyed := routed.keyed ++ [(key, stamp, displaced)] })

/-- The steps of routing one statement, with the row operations they stand for. -/
inductive Routes (seq : Option Nat) (start : TableBuf) :
    TableBuf × RoutedStmt → List RowOp → Prop where
  | start : Routes seq start (start, ⟨[], []⟩) []
  | push {buf routed ops} (prior : Routes seq start (buf, routed) ops) (batch : Batch)
      (misses : ∀ row ∈ batch, encodeKey buf.pkCols row ∉ buf.entries) :
      Routes seq start (buf.pushPending routed batch seq) (ops ++ batch.map .append)
  | hit {buf routed ops} (prior : Routes seq start (buf, routed) ops) (state : KeyedState)
      (row : Row) (known : buf.keyed = some state)
      (live : encodeKey state.pkCols row ∈ state.entries) :
      Routes seq start (buf.overwriteKey state routed row seq)
        (ops ++ [.put state.pkCols (encodeKey state.pkCols row) [row]])

namespace TableBuf

theorem entries_of_keyed {buf : TableBuf} {state : KeyedState} (known : buf.keyed = some state) :
    buf.entries = state.entries := by
  simp [entries, known]

theorem pkCols_of_keyed {buf : TableBuf} {state : KeyedState} (known : buf.keyed = some state) :
    buf.pkCols = state.pkCols := by
  simp [pkCols, known]

end TableBuf

/-- Routing keeps the declaration and the set of live keys. -/
theorem Routes.keeps {seq : Option Nat} {start : TableBuf} {result : TableBuf × RoutedStmt}
    {ops : List RowOp} (routes : Routes seq start result ops) :
    result.1.pkCols = start.pkCols ∧ (result.1.keyed = none ↔ start.keyed = none) ∧
      ∀ key, key ∈ result.1.entries ↔ key ∈ start.entries := by
  induction routes with
  | start => exact ⟨rfl, Iff.rfl, fun _ => Iff.rfl⟩
  | push prior batch misses ih => exact ih
  | hit prior state row known live ih =>
      obtain ⟨cols, keyed, keys⟩ := ih
      refine ⟨?_, ?_, fun key => ?_⟩
      · exact (TableBuf.pkCols_of_keyed known).symm.trans cols
      · rw [← keyed, known]
        simp [TableBuf.overwriteKey]
      · rw [← keys key, TableBuf.entries_of_keyed known]
        change key ∈ state.entries.insert _ _ ↔ _
        rw [AList.mem_insert]
        constructor
        · rintro (rfl | old)
          · exact live
          · exact old
        · exact .inr

/-- Routing leaves the tail's mark and the generations alone. -/
theorem Routes.frame {seq : Option Nat} {start : TableBuf} {result : TableBuf × RoutedStmt}
    {ops : List RowOp} (routes : Routes seq start result ops) :
    result.1.tailHigh = start.tailHigh ∧ result.1.flushed = start.flushed := by
  induction routes with
  | start => exact ⟨rfl, rfl⟩
  | push _ _ _ ih => exact ih
  | hit _ _ _ _ _ ih => exact ih

/-- Rows of live keys overwrite their entries one by one. -/
theorem Routes.hits {seq : Option Nat} {start buf : TableBuf} {state : KeyedState}
    {routed : RoutedStmt} {ops : List RowOp} (rows : List Row)
    (prior : Routes seq start (buf, routed) ops) (known : buf.keyed = some state)
    (live : ∀ row ∈ rows, encodeKey state.pkCols row ∈ state.entries) :
    Routes seq start
      ({ buf with keyed := some (TableBuf.routeHits seq state routed rows).1 },
        (TableBuf.routeHits seq state routed rows).2)
      (ops ++ rows.map fun row => .put state.pkCols (encodeKey state.pkCols row) [row]) := by
  induction rows generalizing buf state routed ops with
  | nil =>
      rw [List.map_nil, List.append_nil]
      simp only [TableBuf.routeHits, ← known]
      exact prior
  | cons row rest ih =>
      have first := prior.hit state row known (live row List.mem_cons_self)
      have later := ih first rfl fun other mem =>
        AList.mem_insert _ |>.mpr (.inr (live other (List.mem_cons_of_mem _ mem)))
      rw [List.append_assoc] at later
      exact later

/-- The row an operation appends. -/
def RowOp.row? : RowOp → Option Row
  | .append row => some row
  | .put _ _ _ => none

/-- The key an operation replaces, with its replacement. -/
def RowOp.put? : RowOp → Option (List Nat × Key × List Row)
  | .append _ => none
  | .put pkCols key replacement => some (pkCols, key, replacement)

@[simp] theorem row?_append (row : Row) : (RowOp.append row).row? = some row := rfl

@[simp] theorem row?_put (pkCols : List Nat) (key : Key) (replacement : List Row) :
    (RowOp.put pkCols key replacement).row? = none := rfl

@[simp] theorem put?_append (row : Row) : (RowOp.append row).put? = none := rfl

@[simp] theorem put?_put (pkCols : List Nat) (key : Key) (replacement : List Row) :
    (RowOp.put pkCols key replacement).put? = some (pkCols, key, replacement) := rfl

/-- The same operations, up to the order between appended rows and replaced keys. -/
structure SameOps (ops others : List RowOp) : Prop where
  applied : ∀ rows, applyRowOps ops rows = applyRowOps others rows
  rows : ops.filterMap RowOp.row? = others.filterMap RowOp.row?
  puts : ops.filterMap RowOp.put? = others.filterMap RowOp.put?

theorem SameOps.refl (ops : List RowOp) : SameOps ops ops :=
  ⟨fun _ => rfl, rfl, rfl⟩

theorem SameOps.append {ops others more rest : List RowOp} (first : SameOps ops others)
    (second : SameOps more rest) : SameOps (ops ++ more) (others ++ rest) := by
  constructor
  · intro rows
    rw [applyRowOps_append, applyRowOps_append, first.applied, second.applied]
  · rw [List.filterMap_append, List.filterMap_append, first.rows, second.rows]
  · rw [List.filterMap_append, List.filterMap_append, first.puts, second.puts]

/-- The rows of live keys first, then the others. -/
theorem sameOps_split (pkCols : List Nat) (entries : KeyedMap) (batch : Batch) :
    SameOps
      ((batch.filter fun row => encodeKey pkCols row ∈ entries).map
          (fun row => RowOp.put pkCols (encodeKey pkCols row) [row]) ++
        (batch.filter fun row => ¬ encodeKey pkCols row ∈ entries).map .append)
      (batch.map (insertOp pkCols entries)) := by
  constructor
  · intro rows
    rw [applyRowOps_split, applyRowOps_append]
  · have none (rows : List Row) : (rows.map fun row =>
        RowOp.put pkCols (encodeKey pkCols row) [row]).filterMap RowOp.row? = [] := by
      rw [List.filterMap_eq_nil_iff]
      rintro op mem
      obtain ⟨row, _, rfl⟩ := List.mem_map.mp mem
      rfl
    rw [List.filterMap_append, none, List.nil_append]
    induction batch with
    | nil => rfl
    | cons row batch ih =>
        by_cases live : encodeKey pkCols row ∈ entries
        · simpa [live, insertOp, List.filterMap_cons] using ih
        · simpa [live, insertOp, List.filterMap_cons] using ih
  · induction batch with
    | nil => rfl
    | cons row batch ih =>
        simp only [List.filterMap_append, List.filterMap_map] at ih ⊢
        by_cases live : encodeKey pkCols row ∈ entries
        · simpa [live, insertOp, List.filterMap_cons] using ih
        · simpa [live, insertOp, List.filterMap_cons] using ih

/-- One batch is routed in two parts. -/
theorem Routes.batch {seq : Option Nat} {start buf : TableBuf} {state : KeyedState}
    {routed : RoutedStmt} {ops : List RowOp} (prior : Routes seq start (buf, routed) ops)
    (known : buf.keyed = some state) (batch : Batch) :
    ∃ more, Routes seq start (buf.routeBatch state routed batch seq) (ops ++ more) ∧
      SameOps more (batch.map (insertOp buf.pkCols buf.entries)) := by
  have cols := TableBuf.pkCols_of_keyed known
  have entries := TableBuf.entries_of_keyed known
  -- the two parts, of which either may be empty
  have parts := sameOps_split buf.pkCols buf.entries batch
  rw [cols, entries] at parts
  unfold TableBuf.routeBatch
  dsimp only
  split
  · next none =>
      refine ⟨[], by rwa [List.append_nil], ?_⟩
      rw [none]
      exact .refl _
  split
  · next _ misses =>
      refine ⟨batch.map .append, prior.push batch (by rwa [cols, entries]), ?_⟩
      rw [List.filter_eq_nil_iff.mpr (by simpa using misses),
        List.filter_eq_self.mpr (by simpa using misses)] at parts
      rwa [cols, entries]
  · have first := prior.hits (batch.filter fun row => encodeKey state.pkCols row ∈ state.entries)
      known fun row mem => by simpa using (List.mem_filter.mp mem).2
    split
    · next hits =>
        refine ⟨_, first, ?_⟩
        rw [List.filter_eq_nil_iff
          (p := fun row => ¬ encodeKey state.pkCols row ∈ state.entries) |>.mpr
            (by simpa using hits), List.map_nil, List.append_nil] at parts
        rwa [cols, entries]
    · have second := first.push
        (batch.filter fun row => ¬ encodeKey state.pkCols row ∈ state.entries) (by
          intro row mem
          have kept := first.keeps
          have before := prior.keeps
          rw [kept.1, kept.2.2, ← before.1, ← before.2.2, cols, entries]
          simpa using (List.mem_filter.mp mem).2)
      rw [List.append_assoc] at second
      refine ⟨_, second, ?_⟩
      rwa [cols, entries]

/-- Batches routed one after another: into the pending rows of a table without keyed operations,
else by key. -/
theorem routes_foldl {buf : TableBuf} {seq : Option Nat}
    {step : TableBuf × RoutedStmt → Batch → TableBuf × RoutedStmt}
    (plainly : buf.entries.keys = [] → ∀ mid routed batch,
      step (mid, routed) batch = mid.pushPending routed batch seq)
    (byKey : buf.entries.keys ≠ [] → ∀ mid routed batch state, mid.keyed = some state →
      step (mid, routed) batch = mid.routeBatch state routed batch seq)
    (left : List Batch) (mid : TableBuf) (routed : RoutedStmt) (ops : List RowOp)
    (prior : Routes seq buf (mid, routed) ops) :
    ∃ more, Routes seq buf (left.foldl step (mid, routed)) (ops ++ more) ∧
      SameOps more (insertOps buf left) := by
  induction left generalizing mid routed ops with
  | nil => exact ⟨[], by rwa [List.append_nil], .refl _⟩
  | cons batch left ih =>
      obtain ⟨cols, keyed, keys⟩ := prior.keeps
      have one : ∃ more, Routes seq buf (step (mid, routed) batch) (ops ++ more) ∧
          SameOps more (batch.map (insertOp buf.pkCols buf.entries)) := by
        by_cases plain : buf.entries.keys = []
        · have untouched : ∀ key, key ∉ buf.entries := by
            intro key mem
            simpa [plain] using AList.mem_keys.mp mem
          have appends : insertOp buf.pkCols buf.entries = .append :=
            funext fun row => if_neg (untouched _)
          rw [plainly plain]
          refine ⟨batch.map .append, prior.push batch fun row _ mem =>
            untouched _ ((keys _).mp mem), ?_⟩
          rw [appends]
          exact .refl _
        · cases known : mid.keyed with
          | none =>
              have none : buf.entries = ∅ := by simp [TableBuf.entries, keyed.mp known]
              exact absurd (by rw [none]; rfl) plain
          | some state =>
              rw [byKey plain _ _ _ _ known]
              obtain ⟨more, routes, same⟩ := prior.batch known batch
              have sameOp : insertOp mid.pkCols mid.entries =
                  insertOp buf.pkCols buf.entries := by
                funext row
                simp only [insertOp, keys, cols]
              exact ⟨more, routes, sameOp ▸ same⟩
      obtain ⟨first, routes, sameFirst⟩ := one
      obtain ⟨more, routes, sameMore⟩ := ih _ _ _ routes
      refine ⟨first ++ more, by rwa [← List.append_assoc], ?_⟩
      have whole : insertOps buf (batch :: left) =
          batch.map (insertOp buf.pkCols buf.entries) ++ insertOps buf left := by
        simp only [insertOps, List.flatten_cons, List.map_append]
      rw [whole]
      exact sameFirst.append sameMore

/-- A statement is routed as its row operations. -/
theorem routes_sameOps (buf : TableBuf) (batches : List Batch) (seq : Option Nat) :
    ∃ ops, Routes seq buf (buf.routeAppends batches seq) ops ∧
      SameOps ops (insertOps buf batches) := by
  refine routes_foldl (fun plain mid routed batch => if_pos plain)
    (fun live mid routed batch state known => ?_) batches buf ⟨[], []⟩ [] .start
  dsimp only
  rw [if_neg live, known]

theorem routes_routeAppends (buf : TableBuf) (batches : List Batch) (seq : Option Nat) :
    ∃ ops, Routes seq buf (buf.routeAppends batches seq) ops ∧
      ∀ rows, applyRowOps ops rows = applyRowOps (insertOps buf batches) rows := by
  obtain ⟨ops, routes, same⟩ := routes_sameOps buf batches seq
  exact ⟨ops, routes, same.applied⟩

namespace TableBuf

@[simp] theorem noteStaged_flushed (buf : TableBuf) (staged : Option Nat) :
    (buf.noteStaged staged).flushed = buf.flushed := by
  cases staged <;> rfl

@[simp] theorem noteStaged_keyed (buf : TableBuf) (staged : Option Nat) :
    (buf.noteStaged staged).keyed = buf.keyed := by
  cases staged <;> rfl

@[simp] theorem noteStaged_pending (buf : TableBuf) (staged : Option Nat) :
    (buf.noteStaged staged).pending = buf.pending := by
  cases staged <;> rfl

@[simp] theorem noteStaged_tailHigh (buf : TableBuf) (staged : Option Nat) :
    (buf.noteStaged staged).tailHigh = staged.or buf.tailHigh := by
  cases staged <;> rfl

@[simp] theorem stageAppend_flushed (buf : TableBuf) (batches : List Batch)
    (staged replaySeq : Option Nat) :
    (buf.stageAppend batches staged replaySeq).1.flushed = buf.flushed := by
  obtain ⟨ops, routes, -⟩ :=
    routes_routeAppends (buf.noteStaged staged) batches (staged.or replaySeq)
  exact routes.frame.2.trans (buf.noteStaged_flushed staged)

@[simp] theorem stageAppend_tailHigh (buf : TableBuf) (batches : List Batch)
    (staged replaySeq : Option Nat) :
    (buf.stageAppend batches staged replaySeq).1.tailHigh = staged.or buf.tailHigh := by
  obtain ⟨ops, routes, -⟩ :=
    routes_routeAppends (buf.noteStaged staged) batches (staged.or replaySeq)
  exact routes.frame.1.trans (buf.noteStaged_tailHigh staged)

end TableBuf

end Icegres.Buffer
