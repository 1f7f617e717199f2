import Icegres.Buffer.State
import Icegres.Layers

/-!
# Reading and flushing the same window

A scan reads the committed rows through an overlay; a flush commits the same window as a list
of table operations. Both are layers of keyed changes, so the one shows what the other will
leave in the table.
-/

namespace Icegres.Buffer

/-- An operation of a commit. -/
inductive TableOp where
  | append (batches : List Batch)
  | delete (predicate : KeysPredicate)

/-- The rows after one operation. -/
def TableOp.apply (rows : Multiset Row) : TableOp → Multiset Row
  | .append batches => rows + (batches.flatten : List Row)
  | .delete predicate => rows.filter fun row => ¬ predicate.isTrue row

/-- The rows after a list of operations. -/
def applyOps (ops : List TableOp) (rows : Multiset Row) : Multiset Row :=
  ops.foldl TableOp.apply rows

/-- The replacement rows of keyed operations, each a batch of its own. -/
def upsertRows (keyed : List KeyedItem) : List Batch :=
  keyed.flatMap fun item => item.2.2.upserts.map fun row => [row]

/-- The keyed half of a flush: one delete that covers every key, then the replacement rows. -/
def keyedOps (keyed : List KeyedItem) : Except String (List TableOp) :=
  match keyed with
  | [] => .ok []
  | first :: _ => do
      let predicate ← renderKeysPredicate first.2.2.keyCols (keyed.map fun item => item.2.2.keyRow)
      let upserts := upsertRows keyed
      return .delete predicate :: if upserts = [] then [] else [.append upserts]

/-- The operations of one flush: the pending rows come first. -/
def flushOps (batches : List Batch) (keyed : List KeyedItem) : Except String (List TableOp) := do
  let ops ← keyedOps keyed
  return if batches = [] then ops else .append batches :: ops

/-- What a scan adds to the committed rows and the keys it hides among them. -/
structure Overlay where
  batches : List Batch
  suppress : Option (List Nat × List Key)

/-- One layer of buffered changes as a scan sees it. -/
structure OverlayLayer where
  appends : List Batch
  upserts : List Batch
  keys : List Key

/-- The batches of one layer that newer layers leave visible. Its own keys hide its own
appends. -/
def OverlayLayer.visible (pkCols : List Nat) (newer : List Key) (layer : OverlayLayer) :
    List Batch :=
  (layer.appends.map fun batch => suppressBatch batch pkCols (newer ++ layer.keys)).filter
      (· ≠ []) ++
    (layer.upserts.map fun batch => suppressBatch batch pkCols newer).filter (· ≠ [])

/-- The visible batches of all layers, the oldest first. -/
def visibleBatches (pkCols : List Nat) : List OverlayLayer → List Batch
  | [] => []
  | layer :: newer =>
    layer.visible pkCols (newer.flatMap OverlayLayer.keys) ++ visibleBatches pkCols newer

namespace TableBuf

/-- The batches and keyed operations of every generation the metadata does not contain, and of
the live window. -/
def uncommitted (buf : TableBuf) (isCommitted : GenCommit → Bool) :
    List (List Batch × List KeyedItem) :=
  (buf.flushed.filter fun gen => ¬ isCommitted gen.commit).map
      (fun gen => (gen.batches.map Prod.snd, gen.keyed)) ++
    [(buf.pending.map PendingBatch.batch, keyedItems buf.entries)]

/-- The layers of a scan. -/
def overlayLayers (buf : TableBuf) (isCommitted : GenCommit → Bool) : List OverlayLayer :=
  (buf.uncommitted isCommitted).map fun (batches, keyed) =>
    { appends := batches, upserts := upsertRows keyed, keys := keyed.map Prod.fst }

/-- The union overlay of a scan whose metadata contains the given commits. -/
def overlayWith (buf : TableBuf) (isCommitted : GenCommit → Bool) :
    TableBuf × Except String (Option Overlay) :=
  let layers := buf.overlayLayers isCommitted
  let overlay :=
    -- without keyed operations the rows are handed out as they are
    if ∀ layer ∈ layers, layer.keys = [] then
      let batches := layers.flatMap OverlayLayer.appends
      .ok (if batches = [] then none else some { batches, suppress := none })
    else
      match buf.keyed with
      | none => .error "keyed generations without keyed state"
      | some state =>
          let keys := layers.flatMap OverlayLayer.keys
          .ok (some { batches := visibleBatches state.pkCols layers
                      suppress := some (state.pkCols, keys) })
  (buf.noteObserved isCommitted, overlay)

end TableBuf

/-- The rows of a scan: committed rows the overlay does not hide, and the overlay's own. -/
def unionRows (committed : Multiset Row) : Option Overlay → Multiset Row
  | none => committed
  | some overlay =>
      let kept := match overlay.suppress with
        | none => committed
        | some (pkCols, keys) => committed.filter fun row => encodeKey pkCols row ∉ keys
      kept + (overlay.batches.flatten : List Row)

/-! ## Windows as layers -/

/-- A keyed operation addresses its key: its key row spells the key in literals of the declared
columns, and a replacement row carries the key. -/
structure KeyedOp.Addresses (pkCols : List Nat) (key : Key) (op : KeyedOp) : Prop where
  cols : op.keyCols = pkCols
  row : op.keyRow = key
  sized : key.length = pkCols.length
  literal : ∀ value ∈ key, ∃ literal, renderSqlLiteral value = .ok literal
  upserts : ∀ row ∈ op.upserts, encodeKey pkCols row = key

/-- Every keyed operation of a window addresses its key. -/
def WellKeyed (pkCols : List Nat) (keyed : List KeyedItem) : Prop :=
  ∀ item ∈ keyed, item.2.2.Addresses pkCols item.1

theorem mem_upsertRows {keyed : List KeyedItem} {row : Row} :
    row ∈ (upsertRows keyed).flatten ↔ ∃ item ∈ keyed, row ∈ item.2.2.upserts := by
  simp [upsertRows]

/-- A window as a layer of keyed changes. -/
def windowLayer (pkCols : List Nat) (batches : List Batch) (keyed : List KeyedItem)
    (well : WellKeyed pkCols keyed) : Layer (encodeKey pkCols) where
  appends := (batches.flatten : List Row)
  keys := (keyed.map Prod.fst).toFinset
  puts := ((upsertRows keyed).flatten : List Row)
  touched row mem := by
    obtain ⟨item, isItem, isUpsert⟩ := mem_upsertRows.mp (Multiset.mem_coe.mp mem)
    rw [(well item isItem).upserts row isUpsert]
    exact List.mem_toFinset.mpr (List.mem_map_of_mem isItem)

/-- Literals exist for whole lists of keys. -/
theorem mapM_ok {α β : Type} (render : α → Except String β) (items : List α)
    (each : ∀ item ∈ items, ∃ result, render item = .ok result) :
    ∃ results, items.mapM render = .ok results := by
  induction items with
  | nil => exact ⟨[], rfl⟩
  | cons item rest ih =>
      obtain ⟨result, first⟩ := each item List.mem_cons_self
      obtain ⟨results, more⟩ := ih fun other mem => each other (List.mem_cons_of_mem _ mem)
      refine ⟨result :: results, ?_⟩
      rw [List.mapM_cons, first, more]
      rfl

/-- The key predicate of a well-keyed window renders. -/
theorem renderKeysPredicate_ok {pkCols : List Nat} {keys : List Key} (some : keys ≠ [])
    (sized : ∀ key ∈ keys, key.length = pkCols.length)
    (literal : ∀ key ∈ keys, ∀ value ∈ key, ∃ literal, renderSqlLiteral value = .ok literal) :
    ∃ predicate, renderKeysPredicate pkCols keys = .ok predicate := by
  unfold renderKeysPredicate
  rw [if_neg some]
  split
  · obtain ⟨literals, each⟩ := mapM_ok (fun key : Key => renderSqlLiteral (key.getD 0 .null)) keys
      fun key mem => by
        obtain ⟨value, rfl⟩ := List.length_eq_one_iff.mp (sized key mem)
        exact literal [value] mem value List.mem_cons_self
    exact ⟨_, by rw [each]; rfl⟩
  · obtain ⟨rows, each⟩ := mapM_ok
      (fun key : Key => do
        let literals ← key.mapM renderSqlLiteral
        return pkCols.zip literals) keys fun key mem => by
        obtain ⟨literals, spelled⟩ := mapM_ok renderSqlLiteral key (literal key mem)
        exact ⟨_, by rw [spelled]; rfl⟩
    exact ⟨_, by rw [each]; rfl⟩

/-- The key predicate of a well-keyed window is true of exactly the rows of its keys. -/
theorem WellKeyed.predicate {pkCols : List Nat} {keyed : List KeyedItem}
    (well : WellKeyed pkCols keyed) (some : keyed ≠ []) :
    ∃ predicate, renderKeysPredicate pkCols (keyed.map fun item => item.2.2.keyRow) = .ok predicate ∧
      ∀ row, predicate.isTrue row = decide (encodeKey pkCols row ∈ keyed.map Prod.fst) := by
  have keyRows : (keyed.map fun item => item.2.2.keyRow) = keyed.map Prod.fst :=
    List.map_congr_left fun item mem => (well item mem).row
  have sized : ∀ key ∈ keyed.map Prod.fst, key.length = pkCols.length := by
    intro key mem
    obtain ⟨item, isItem, rfl⟩ := List.mem_map.mp mem
    exact (well item isItem).sized
  have literal : ∀ key ∈ keyed.map Prod.fst, ∀ value ∈ key,
      ∃ literal, renderSqlLiteral value = .ok literal := by
    intro key mem
    obtain ⟨item, isItem, rfl⟩ := List.mem_map.mp mem
    exact (well item isItem).literal
  obtain ⟨predicate, rendered⟩ := renderKeysPredicate_ok (by simpa using some) sized literal
  rw [keyRows]
  exact ⟨predicate, rendered, isTrue_of_renderKeysPredicate rendered sized⟩

/-- The keyed half of a flush removes the rows of its keys and puts the replacements. -/
theorem keyedOps_apply {pkCols : List Nat} {keyed : List KeyedItem}
    (well : WellKeyed pkCols keyed) :
    ∃ ops, keyedOps keyed = .ok ops ∧
      ∀ rows, applyOps ops rows =
        Layer.outside (encodeKey pkCols) (keyed.map Prod.fst).toFinset rows +
          ((upsertRows keyed).flatten : List Row) := by
  cases keyed with
  | nil => exact ⟨[], rfl, by simp [applyOps, upsertRows]⟩
  | cons first rest =>
      obtain ⟨predicate, rendered, isTrue⟩ := well.predicate (by simp)
      refine ⟨.delete predicate ::
        if upsertRows (first :: rest) = [] then [] else [.append (upsertRows (first :: rest))],
        ?_, fun rows => ?_⟩
      · simp only [keyedOps, (well first List.mem_cons_self).cols, rendered]
        rfl
      · have deleted : TableOp.apply rows (.delete predicate) =
            Layer.outside (encodeKey pkCols) ((first :: rest).map Prod.fst).toFinset rows := by
          apply Multiset.filter_congr
          intro row _
          rw [isTrue, decide_eq_true_iff, List.mem_toFinset]
        rw [applyOps, List.foldl_cons, deleted]
        split
        · next none => simp [none]
        · rfl

/-- Flushing a window commits its layer. -/
theorem flushOps_commit {pkCols : List Nat} (batches : List Batch) {keyed : List KeyedItem}
    (well : WellKeyed pkCols keyed) :
    ∃ ops, flushOps batches keyed = .ok ops ∧
      ∀ rows, applyOps ops rows = (windowLayer pkCols batches keyed well).commit rows := by
  obtain ⟨ops, composed, applied⟩ := keyedOps_apply well
  refine ⟨if batches = [] then ops else .append batches :: ops, ?_, fun rows => ?_⟩
  · simp only [flushOps, composed]
    rfl
  · have appended : applyOps (if batches = [] then ops else .append batches :: ops) rows =
        applyOps ops (rows + (batches.flatten : List Row)) := by
      split
      · next none => simp [none]
      · rfl
    rw [appended, applied]
    rfl

/-! ## Layers of a scan -/

/-- Windows, the oldest first, as layers of keyed changes. -/
def windowLayers (pkCols : List Nat) (windows : List (List Batch × List KeyedItem))
    (well : ∀ window ∈ windows, WellKeyed pkCols window.2) : List (Layer (encodeKey pkCols)) :=
  windows.pmap (fun window well => windowLayer pkCols window.1 window.2 well) well

/-- Commit windows, the oldest first, each as the operations of its flush. -/
def commitWindows (windows : List (List Batch × List KeyedItem)) (rows : Multiset Row) :
    Except String (Multiset Row) :=
  windows.foldlM (fun rows window => do
    let ops ← flushOps window.1 window.2
    return applyOps ops rows) rows

theorem commitWindows_eq {pkCols : List Nat} {windows : List (List Batch × List KeyedItem)}
    (well : ∀ window ∈ windows, WellKeyed pkCols window.2) (rows : Multiset Row) :
    commitWindows windows rows =
      .ok (Layer.commitAll (windowLayers pkCols windows well) rows) := by
  induction windows generalizing rows with
  | nil => rfl
  | cons window newer ih =>
      obtain ⟨ops, composed, applied⟩ :=
        flushOps_commit window.1 (well window List.mem_cons_self)
      have first : commitWindows (window :: newer) rows =
          commitWindows newer (applyOps ops rows) := by
        rw [commitWindows, List.foldlM_cons, composed]
        rfl
      rw [first, ih fun other mem => well other (List.mem_cons_of_mem _ mem), applied]
      rfl

/-- A window as a scan's layer. -/
def overlayLayer (window : List Batch × List KeyedItem) : OverlayLayer where
  appends := window.1
  upserts := upsertRows window.2
  keys := window.2.map Prod.fst

theorem suppressed_windowLayers {pkCols : List Nat} {windows : List (List Batch × List KeyedItem)}
    (well : ∀ window ∈ windows, WellKeyed pkCols window.2) :
    Layer.suppressed (windowLayers pkCols windows well) =
      ((windows.map overlayLayer).flatMap OverlayLayer.keys).toFinset := by
  induction windows with
  | nil => rfl
  | cons window newer ih =>
      have later := ih fun other mem => well other (List.mem_cons_of_mem _ mem)
      rw [List.map_cons, List.flatMap_cons, List.toFinset_append, ← later]
      rfl

/-- Suppressing batches and dropping the empty ones keeps the rows outside the keys. -/
theorem suppressed_rows (pkCols : List Nat) (keys : List Key) (batches : List Batch) :
    ((((batches.map fun batch => suppressBatch batch pkCols keys).filter (· ≠ [])).flatten :
        List Row) : Multiset Row) =
      Layer.outside (encodeKey pkCols) keys.toFinset (batches.flatten : List Row) := by
  have kept : ((batches.map fun batch => suppressBatch batch pkCols keys).filter
      (· ≠ [])).flatten = batches.flatten.filter fun row => encodeKey pkCols row ∉ keys := by
    rw [List.flatten_filter_ne_nil, List.filter_flatten]
    rfl
  rw [kept, Layer.outside, Multiset.filter_coe]
  simp only [List.mem_toFinset]

theorem visibleBatches_rows {pkCols : List Nat} {windows : List (List Batch × List KeyedItem)}
    (well : ∀ window ∈ windows, WellKeyed pkCols window.2) :
    (((visibleBatches pkCols (windows.map overlayLayer)).flatten : List Row) : Multiset Row) =
      Layer.overlay (windowLayers pkCols windows well) := by
  induction windows with
  | nil => rfl
  | cons window newer ih =>
      have later := ih fun other mem => well other (List.mem_cons_of_mem _ mem)
      rw [List.map_cons, visibleBatches, OverlayLayer.visible, List.flatten_append,
        List.flatten_append, ← Multiset.coe_add, ← Multiset.coe_add, suppressed_rows,
        suppressed_rows, later, List.toFinset_append, ← suppressed_windowLayers]
      rfl

/-! ## What a scan sees -/

namespace TableBuf

/-- The declared key columns of the buffered keyed operations. -/
def pkCols (buf : TableBuf) : List Nat :=
  (buf.keyed.map KeyedState.pkCols).getD []

/-- Every buffered keyed operation addresses its key under the current declaration. -/
structure Well (buf : TableBuf) : Prop where
  flushed : ∀ gen ∈ buf.flushed, WellKeyed buf.pkCols gen.keyed
  live : ∀ key entry, buf.entries.lookup key = some entry → entry.op.Addresses buf.pkCols key
  /-- The keyed state outlives its entries. -/
  state : buf.keyed = none → ∀ gen ∈ buf.flushed, gen.keyed = []

theorem mem_keyedItems {entries : KeyedMap} {key : Key} {stamp : Nat} {op : KeyedOp} :
    (key, stamp, op) ∈ keyedItems entries ↔ entries.lookup key = some ⟨stamp, op⟩ := by
  rw [keyedItems, List.mem_insertionSort, List.mem_map]
  constructor
  · rintro ⟨⟨_, ⟨_, _⟩⟩, mem, same⟩
    cases same
    exact AList.mem_lookup_iff.mpr mem
  · intro found
    exact ⟨⟨key, ⟨stamp, op⟩⟩, AList.mem_lookup_iff.mp found, rfl⟩

theorem Well.window {buf : TableBuf} (well : buf.Well) : WellKeyed buf.pkCols
    (keyedItems buf.entries) := by
  rintro ⟨key, stamp, op⟩ mem
  exact well.live key _ (mem_keyedItems.mp mem)

theorem Well.uncommitted {buf : TableBuf} (well : buf.Well) (isCommitted : GenCommit → Bool) :
    ∀ window ∈ buf.uncommitted isCommitted, WellKeyed buf.pkCols window.2 := by
  intro window mem
  rcases List.mem_append.mp mem with old | live
  · obtain ⟨gen, isGen, rfl⟩ := List.mem_map.mp old
    exact well.flushed gen (List.mem_filter.mp isGen).1
  · cases List.mem_singleton.mp live
    exact well.window

/-- Without keyed operations in any layer nothing is hidden and every row is shown. -/
theorem overlay_of_no_keys {pkCols : List Nat} {windows : List (List Batch × List KeyedItem)}
    (well : ∀ window ∈ windows, WellKeyed pkCols window.2)
    (noKeys : ∀ window ∈ windows, window.2 = []) :
    Layer.suppressed (windowLayers pkCols windows well) = ∅ ∧
      Layer.overlay (windowLayers pkCols windows well) =
        (((windows.map overlayLayer).flatMap OverlayLayer.appends).flatten : List Row) := by
  induction windows with
  | nil => exact ⟨rfl, rfl⟩
  | cons window newer ih =>
      obtain ⟨hidden, shown⟩ := ih (fun other mem => well other (List.mem_cons_of_mem _ mem))
        fun other mem => noKeys other (List.mem_cons_of_mem _ mem)
      have plain : window.2 = [] := noKeys window List.mem_cons_self
      constructor
      · rw [windowLayers, List.pmap_cons, Layer.suppressed_cons, ← windowLayers, hidden]
        simp [windowLayer, plain]
      · rw [windowLayers, List.pmap_cons, Layer.overlay, ← windowLayers, hidden, shown]
        simp [windowLayer, plain, upsertRows, overlayLayer]

/-- A scan through the overlay sees the rows that committing the windows, the oldest first,
would leave. -/
theorem unionRows_overlayWith {buf : TableBuf} (well : buf.Well) (isCommitted : GenCommit → Bool)
    (rows : Multiset Row) :
    ∃ overlay, (buf.overlayWith isCommitted).2 = .ok overlay ∧
      commitWindows (buf.uncommitted isCommitted) rows = .ok (unionRows rows overlay) := by
  have layered := well.uncommitted isCommitted
  have layers : buf.overlayLayers isCommitted =
      (buf.uncommitted isCommitted).map overlayLayer := rfl
  rw [commitWindows_eq layered, Layer.commitAll_eq]
  by_cases plain : ∀ layer ∈ buf.overlayLayers isCommitted, layer.keys = []
  · have noKeys : ∀ window ∈ buf.uncommitted isCommitted, window.2 = [] := by
      intro window mem
      have own := plain (overlayLayer window) (layers ▸ List.mem_map_of_mem mem)
      simpa [overlayLayer] using own
    obtain ⟨hidden, shown⟩ := overlay_of_no_keys layered noKeys
    have fast : (buf.overlayWith isCommitted).2 = .ok _ := if_pos plain
    refine ⟨_, fast, ?_⟩
    rw [hidden, shown, Layer.outside_empty, ← layers]
    split
    · next none => simp [unionRows, none]
    · rfl
  · cases known : buf.keyed with
    | none =>
        have noEntries : buf.entries = ∅ := by simp [entries, known]
        refine absurd (fun layer mem => ?_) plain
        obtain ⟨window, isWindow, rfl⟩ := List.mem_map.mp (layers ▸ mem)
        rcases List.mem_append.mp isWindow with old | live
        · obtain ⟨gen, isGen, rfl⟩ := List.mem_map.mp old
          simp [overlayLayer, well.state known gen (List.mem_filter.mp isGen).1]
        · cases List.mem_singleton.mp live
          simp [overlayLayer, keyedItems, noEntries]
    | some state =>
        have cols : buf.pkCols = state.pkCols := by simp [pkCols, known]
        have slow : (buf.overlayWith isCommitted).2 = .ok (some
            { batches := visibleBatches state.pkCols (buf.overlayLayers isCommitted)
              suppress := some (state.pkCols,
                (buf.overlayLayers isCommitted).flatMap OverlayLayer.keys) }) := by
          simp only [overlayWith, if_neg plain, known]
        refine ⟨_, slow, ?_⟩
        rw [unionRows, ← cols, layers, visibleBatches_rows layered, suppressed_windowLayers,
          Layer.outside]
        simp only [List.mem_toFinset]

end TableBuf

end Icegres.Buffer
