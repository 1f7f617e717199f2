import Icegres.Buffer.Window

/-!
# Windows that split and merge

The live window is one layer of keyed changes. Staging a statement applies its row operations to
what the window commits. Handing work over splits the window into an older and a newer layer, and
a failed commit merges them again; both leave what they commit together unchanged as long as the
newer layer has appended no row of a key that only the older one touches.
-/

namespace Icegres.Buffer

open TableBuf (keyedItems mem_keyedItems drainKey restoreKey)

/-- The rows after a window is committed: its rows are appended, its keys removed, its
replacement rows put. -/
def commitOf (pkCols : List Nat) (batches : List Batch) (keyed : List KeyedItem)
    (rows : Multiset Row) : Multiset Row :=
  Layer.outside (encodeKey pkCols) (keyed.map Prod.fst).toFinset
      (rows + (batches.flatten : List Row)) +
    ((upsertRows keyed).flatten : List Row)

/-- Committing one window as the operations of its flush. -/
theorem commitWindows_single {pkCols : List Nat} (batches : List Batch) {keyed : List KeyedItem}
    (well : WellKeyed pkCols keyed) (rows : Multiset Row) :
    commitWindows [(batches, keyed)] rows = .ok (commitOf pkCols batches keyed rows) := by
  have each : ∀ window ∈ [(batches, keyed)], WellKeyed pkCols window.2 := by
    intro window mem
    cases List.mem_singleton.mp mem
    exact well
  rw [commitWindows_eq each]
  rfl

/-- Older windows are committed before newer ones. -/
theorem commitWindows_append (older newer : List (List Batch × List KeyedItem))
    (rows : Multiset Row) :
    commitWindows (older ++ newer) rows =
      (do let rows ← commitWindows older rows
          commitWindows newer rows) :=
  List.foldlM_append

/-- A window without keyed operations adds its rows. -/
theorem commitOf_nil (pkCols : List Nat) (batches : List Batch) (rows : Multiset Row) :
    commitOf pkCols batches [] rows = rows + (batches.flatten : List Row) := by
  simp [commitOf, upsertRows]

/-- The order of the keyed operations does not count. -/
theorem commitOf_perm (pkCols : List Nat) (batches : List Batch) {keyed other : List KeyedItem}
    (perm : keyed.Perm other) (rows : Multiset Row) :
    commitOf pkCols batches keyed rows = commitOf pkCols batches other rows := by
  have keys : (keyed.map Prod.fst).toFinset = (other.map Prod.fst).toFinset :=
    List.toFinset_eq_of_perm _ _ (perm.map _)
  have upserts : (((upsertRows keyed).flatten : List Row) : Multiset Row) =
      ((upsertRows other).flatten : List Row) :=
    Multiset.coe_eq_coe.mpr ((perm.flatMap_right _).flatten)
  rw [commitOf, commitOf, keys, upserts]

/-- The keyed operations of an older and a newer window, of which the newer decide. -/
def mergeItems (older newer : List KeyedItem) : List KeyedItem :=
  older.filter (fun item => item.1 ∉ newer.map Prod.fst) ++ newer

theorem mem_mergeItems {older newer : List KeyedItem} {item : KeyedItem} :
    item ∈ mergeItems older newer ↔
      (item ∈ older ∧ item.1 ∉ newer.map Prod.fst) ∨ item ∈ newer := by
  simp [mergeItems]

theorem upsertRows_flatten (keyed : List KeyedItem) :
    (upsertRows keyed).flatten = keyed.flatMap fun item => item.2.2.upserts := by
  induction keyed with
  | nil => rfl
  | cons item rest ih =>
      have singles : (item.2.2.upserts.map fun row => [row]).flatten = item.2.2.upserts := by
        induction item.2.2.upserts with
        | nil => rfl
        | cons row more ihRows => simp [ihRows]
      rw [List.flatMap_cons, ← ih, upsertRows, List.flatMap_cons, List.flatten_append, singles]
      rfl

/-- The replacement rows of the keys outside a list. -/
theorem upsertRows_filter {pkCols : List Nat} {keyed : List KeyedItem}
    (well : WellKeyed pkCols keyed) (keys : List Key) :
    (((upsertRows (keyed.filter fun item => item.1 ∉ keys)).flatten : List Row) : Multiset Row) =
      Layer.outside (encodeKey pkCols) keys.toFinset ((upsertRows keyed).flatten : List Row) := by
  simp only [upsertRows_flatten]
  induction keyed with
  | nil => rfl
  | cons item rest ih =>
      have later := ih fun other mem => well other (List.mem_cons_of_mem _ mem)
      have own : ∀ row ∈ (item.2.2.upserts : Multiset Row), encodeKey pkCols row = item.1 :=
        fun row mem => (well item List.mem_cons_self).upserts row (Multiset.mem_coe.mp mem)
      rw [List.flatMap_cons, ← Multiset.coe_add, Layer.outside_add, ← later]
      by_cases inside : item.1 ∈ keys
      · rw [List.filter_cons_of_neg (by simpa using inside), Layer.outside_eq_zero, zero_add]
        intro row mem
        rw [own row mem]
        exact List.mem_toFinset.mpr inside
      · rw [List.filter_cons_of_pos (by simpa using inside), List.flatMap_cons, ← Multiset.coe_add,
          Layer.outside_eq_self]
        intro row mem
        rw [own row mem, List.mem_toFinset]
        exact inside

theorem keys_mergeItems (older newer : List KeyedItem) :
    ((mergeItems older newer).map Prod.fst).toFinset =
      (older.map Prod.fst).toFinset ∪ (newer.map Prod.fst).toFinset := by
  ext key
  simp only [List.mem_toFinset, Finset.mem_union, List.mem_map, mem_mergeItems]
  constructor
  · rintro ⟨item, ⟨old, -⟩ | new, rfl⟩
    · exact .inl ⟨item, old, rfl⟩
    · exact .inr ⟨item, new, rfl⟩
  · rintro (⟨item, old, rfl⟩ | ⟨item, new, rfl⟩)
    · by_cases again : ∃ other ∈ newer, other.1 = item.1
      · obtain ⟨other, isOther, same⟩ := again
        exact ⟨other, .inr isOther, same⟩
      · exact ⟨item, .inl ⟨old, again⟩, rfl⟩
    · exact ⟨item, .inr new, rfl⟩

/-- Two windows as one commit what they commit one after the other. -/
theorem commitOf_merge {pkCols : List Nat} {older newer : List KeyedItem}
    (oldBatches newBatches : List Batch) (wellOlder : WellKeyed pkCols older)
    (wellNewer : WellKeyed pkCols newer)
    (apart : ∀ batch ∈ newBatches, ∀ row ∈ batch, encodeKey pkCols row ∈ older.map Prod.fst →
      encodeKey pkCols row ∈ newer.map Prod.fst)
    (rows : Multiset Row) :
    commitOf pkCols (oldBatches ++ newBatches) (mergeItems older newer) rows =
      commitOf pkCols newBatches newer (commitOf pkCols oldBatches older rows) := by
  have merged := Layer.commit_merge (windowLayer pkCols oldBatches older wellOlder)
    (windowLayer pkCols newBatches newer wellNewer) (by
      intro row mem touched
      obtain ⟨batch, isBatch, isRow⟩ := List.mem_flatten.mp (Multiset.mem_coe.mp mem)
      exact List.mem_toFinset.mpr (apart batch isBatch row isRow (List.mem_toFinset.mp touched)))
    rows
  refine Eq.trans ?_ merged
  have upserts : (((upsertRows (mergeItems older newer)).flatten : List Row) : Multiset Row) =
      Layer.outside (encodeKey pkCols) (newer.map Prod.fst).toFinset
        ((upsertRows older).flatten : List Row) + ((upsertRows newer).flatten : List Row) := by
    rw [← upsertRows_filter wellOlder]
    simp only [upsertRows_flatten, mergeItems, List.flatMap_append, ← Multiset.coe_add]
  rw [commitOf, keys_mergeItems, upserts, List.flatten_append, ← Multiset.coe_add]
  rfl

/-! ## The keyed operations of a map -/

theorem nodup_keyedItems (entries : KeyedMap) : (keyedItems entries).Nodup := by
  have nodup : entries.entries.Nodup := entries.nodupKeys.nodup
  refine (List.perm_insertionSort _ _).nodup_iff.mpr (nodup.map ?_)
  rintro ⟨key, ⟨stamp, op⟩⟩ ⟨otherKey, ⟨otherStamp, otherOp⟩⟩ same
  cases same
  rfl

theorem mem_keys_keyedItems {entries : KeyedMap} {key : Key} :
    key ∈ (keyedItems entries).map Prod.fst ↔ key ∈ entries := by
  rw [← AList.lookup_isSome, List.mem_map]
  constructor
  · rintro ⟨⟨_, stamp, op⟩, mem, rfl⟩
    rw [mem_keyedItems.mp mem]
    rfl
  · intro live
    obtain ⟨⟨stamp, op⟩, found⟩ := Option.isSome_iff_exists.mp live
    exact ⟨(key, stamp, op), mem_keyedItems.mpr found, rfl⟩

/-- A list without repetitions that lists the live operations. -/
theorem keyedItems_perm {entries : KeyedMap} {items : List KeyedItem} (nodup : items.Nodup)
    (lists : ∀ item : KeyedItem, entries.lookup item.1 = some ⟨item.2.1, item.2.2⟩ ↔
      item ∈ items) : (keyedItems entries).Perm items := by
  refine (List.perm_ext_iff_of_nodup (nodup_keyedItems entries) nodup).mpr ?_
  rintro ⟨key, stamp, op⟩
  rw [mem_keyedItems]
  exact lists (key, stamp, op)

theorem nodup_mergeItems {older newer : List KeyedItem} (nodupOlder : older.Nodup)
    (nodupNewer : newer.Nodup) : (mergeItems older newer).Nodup := by
  refine List.nodup_append.mpr ⟨nodupOlder.filter _, nodupNewer, ?_⟩
  rintro item old other new rfl
  have outside := (List.mem_filter.mp old).2
  rw [decide_eq_true_iff] at outside
  exact outside (List.mem_map_of_mem new)

/-- Overwriting a key. -/
theorem keyedItems_insert (entries : KeyedMap) (key : Key) (stamp : Nat) (op : KeyedOp) :
    (keyedItems (entries.insert key ⟨stamp, op⟩)).Perm
      (mergeItems (keyedItems entries) [(key, stamp, op)]) := by
  refine keyedItems_perm
    (nodup_mergeItems (nodup_keyedItems entries) (List.nodup_singleton _)) ?_
  rintro ⟨other, otherStamp, otherOp⟩
  rw [mem_mergeItems, mem_keyedItems]
  by_cases same : other = key
  · subst same
    rw [AList.lookup_insert]
    constructor
    · rintro found
      cases found
      exact .inr List.mem_cons_self
    · rintro (⟨-, outside⟩ | mem)
      · exact absurd List.mem_cons_self outside
      · cases List.mem_singleton.mp mem
        rfl
  · rw [AList.lookup_insert_ne same]
    simp [same]

/-- Restoring a generation. -/
theorem keyedItems_restore (entries : KeyedMap) {items : List KeyedItem}
    (distinct : (items.map Prod.fst).Nodup) :
    (keyedItems (items.foldl restoreKey entries)).Perm
      (mergeItems items (keyedItems entries)) := by
  refine keyedItems_perm
    (nodup_mergeItems (List.Nodup.of_map _ distinct) (nodup_keyedItems entries)) ?_
  rintro ⟨key, stamp, op⟩
  rw [mem_mergeItems, mem_keyedItems, mem_keys_keyedItems]
  constructor
  · intro found
    rcases lookup_restore_cases found with live | restored
    · exact .inr live
    · by_cases live : key ∈ entries
      · obtain ⟨entry, isEntry⟩ := Option.isSome_iff_exists.mp (AList.lookup_isSome.mpr live)
        have stays : (items.foldl restoreKey entries).lookup key = some entry :=
          lookup_restore_of_live isEntry
        rw [found] at stays
        cases stays
        exact .inr isEntry
      · exact .inl ⟨restored, live⟩
  · rintro (⟨mem, absent⟩ | live)
    · exact lookup_restore_of_mem distinct mem absent
    · exact lookup_restore_of_live live

/-- Draining a snapshot of a map that was only overwritten since under new stamps. -/
theorem keyedItems_drain {entries : KeyedMap} {items : List KeyedItem} {bound : Nat}
    (nodup : items.Nodup)
    (below : ∀ item ∈ items, item.2.1 < bound)
    (live : ∀ item ∈ items, ∃ entry, entries.lookup item.1 = some entry ∧
      (entry = ⟨item.2.1, item.2.2⟩ ∨ bound ≤ entry.stamp))
    (old : ∀ key entry, entries.lookup key = some entry → entry.stamp < bound →
      (key, entry.stamp, entry.op) ∈ items) :
    (keyedItems entries).Perm
      (mergeItems items (keyedItems (items.foldl drainKey entries))) := by
  refine keyedItems_perm (nodup_mergeItems nodup (nodup_keyedItems _)) ?_
  rintro ⟨key, stamp, op⟩
  rw [mem_mergeItems, mem_keyedItems, mem_keys_keyedItems]
  -- what a snapshot holds under its own stamp is drained
  have drained {entry : KeyedEntry} (mem : (key, entry.stamp, entry.op) ∈ items)
      (found : entries.lookup key = some entry) : key ∉ items.foldl drainKey entries := by
    rw [← AList.lookup_isSome, Option.not_isSome_iff_eq_none]
    exact lookup_drain_of_mem mem found
  dsimp only
  constructor
  · intro found
    by_cases older : stamp < bound
    · have mem := old key ⟨stamp, op⟩ found older
      exact .inl ⟨mem, drained mem found⟩
    · refine .inr (lookup_drain_of_newer found fun item isItem _ same => ?_)
      have same : item.2.1 = stamp := same
      exact older (same ▸ below item isItem)
  · rintro (⟨mem, absent⟩ | found)
    · obtain ⟨entry, isEntry, same | newer⟩ := live _ mem
      · rw [isEntry, same]
      · -- a newer entry would not have been drained
        have stays := lookup_drain_of_newer isEntry fun item isItem _ same =>
          absurd (same ▸ below item isItem) newer.not_gt
        exact absurd (AList.lookup_isSome.mp (by rw [stays]; rfl)) absent
    · exact lookup_drain_of_some found

/-! ## What the live window commits -/

namespace TableBuf

variable {buf : TableBuf} {held : List KeyedItem} {undos : List Undo}

/-- The rows after the live window is committed. -/
def commits (buf : TableBuf) (rows : Multiset Row) : Multiset Row :=
  commitOf buf.pkCols (buf.pending.map PendingBatch.batch) (keyedItems buf.entries) rows

/-- Rows of keys that are not live are added. -/
theorem commits_pushPending (well : buf.Well) (routed : RoutedStmt) {batch : Batch}
    (seq : Option Nat) (misses : ∀ row ∈ batch, encodeKey buf.pkCols row ∉ buf.entries)
    (rows : Multiset Row) :
    (buf.pushPending routed batch seq).1.commits rows = buf.commits rows + (batch : List Row) := by
  have none : WellKeyed buf.pkCols [] := by
    intro item mem
    cases mem
  have merged := commitOf_merge (buf.pending.map PendingBatch.batch) [batch] well.window none (by
      intro other isOther row isRow live
      cases List.mem_singleton.mp isOther
      exact absurd (mem_keys_keyedItems.mp live) (misses row isRow)) rows
  have nothing : mergeItems (keyedItems buf.entries) [] = keyedItems buf.entries := by
    simp [mergeItems]
  have batches : (buf.pushPending routed batch seq).1.pending.map PendingBatch.batch =
      buf.pending.map PendingBatch.batch ++ [batch] := by
    simp [pushPending]
  rw [nothing, commitOf_nil, List.flatten_singleton] at merged
  rw [commits, batches]
  exact merged

/-- Overwriting a key replaces its rows. -/
theorem commits_overwrite {state : KeyedState} (batches : List Batch) {key : Key} {op : KeyedOp}
    (stamp : Nat) (well : WellKeyed state.pkCols (keyedItems state.entries))
    (addresses : op.Addresses state.pkCols key) (rows : Multiset Row) :
    commitOf state.pkCols batches (keyedItems (state.entries.insert key ⟨stamp, op⟩)) rows =
      RowOp.apply (commitOf state.pkCols batches (keyedItems state.entries) rows)
        (.put state.pkCols key op.upserts) := by
  have own : WellKeyed state.pkCols [(key, stamp, op)] := by
    intro item mem
    cases List.mem_singleton.mp mem
    exact addresses
  rw [commitOf_perm _ _ (keyedItems_insert state.entries key stamp op)]
  have merged := commitOf_merge batches [] well own (by intro batch mem; cases mem) rows
  rw [List.append_nil] at merged
  rw [merged, commitOf, RowOp.apply, upsertRows_flatten]
  simp

/-- Routing a statement applies its row operations. -/
theorem commits_routes {seq : Option Nat} {result : TableBuf × RoutedStmt} {ops : List RowOp}
    (sound : buf.Sound held undos) (routes : Routes seq buf result ops) (rows : Multiset Row) :
    result.1.commits rows = applyRowOps ops (buf.commits rows) := by
  induction routes with
  | start => rfl
  | push prior batch misses ih =>
      rw [applyRowOps_append, ← ih, applyRowOps_appends]
      exact commits_pushPending (sound.routes prior).1.well _ seq misses rows
  | @hit mid routed ops prior state row known live ih =>
      have before := (sound.routes prior).1
      have well := before.well.window
      rw [pkCols_of_keyed known, entries_of_keyed known] at well
      have addresses := ((sound_some known).mp before).inserted seq live
      rw [applyRowOps_append, ← ih, commits, commits, pkCols_of_keyed known,
        entries_of_keyed known]
      exact commits_overwrite (mid.pending.map PendingBatch.batch) state.nextStamp well addresses
        rows

/-- Staging an insert applies its row operations. -/
theorem commits_stageAppend (sound : buf.Sound held undos) (batches : List Batch)
    (staged replaySeq : Option Nat) (rows : Multiset Row) :
    (buf.stageAppend batches staged replaySeq).1.commits rows =
      applyRowOps (insertOps buf batches) (buf.commits rows) := by
  have noted : (buf.noteStaged staged).Sound held undos := by
    cases staged with
    | none => exact sound
    | some seq => exact sound.congr rfl rfl
  have same : insertOps (buf.noteStaged staged) batches = insertOps buf batches ∧
      (buf.noteStaged staged).commits rows = buf.commits rows := by
    cases staged <;> exact ⟨rfl, rfl⟩
  obtain ⟨ops, routes, means⟩ :=
    routes_routeAppends (buf.noteStaged staged) batches (staged.or replaySeq)
  rw [stageAppend, commits_routes noted routes, means, same.1, same.2]

theorem stageKeyed_tailHigh {pkCols : List Nat} {key : Key} {op : KeyedOp} {staged : Option Nat}
    {result : TableBuf × RoutedStmt}
    (stages : buf.stageKeyed pkCols key op staged = .ok result) :
    result.1.tailHigh = staged.or buf.tailHigh := by
  unfold stageKeyed at stages
  dsimp only at stages
  split at stages
  · cases stages
  · cases stages
    exact buf.noteStaged_tailHigh staged

/-- Staging a keyed statement replaces the rows of its key. -/
theorem commits_stageKeyed {stmt : KeyedStmt} {staged replaySeq : Option Nat}
    {result : TableBuf × RoutedStmt} (sound : buf.Sound held undos)
    (stages : buf.stageKeyed stmt.pkCols stmt.keyRow (stmt.op replaySeq) staged = .ok result)
    (rows : Multiset Row) :
    result.1.commits rows =
      RowOp.apply (buf.commits rows) (.put stmt.pkCols stmt.keyRow (stmt.op none).upserts) := by
  have addresses := stmt.addresses (staged.or replaySeq)
  have pending : (buf.noteStaged staged).pending = buf.pending := by cases staged <;> rfl
  unfold stageKeyed at stages
  dsimp only at stages
  split at stages
  · cases stages
  · next allowed =>
      cases stages
      have after (state : KeyedState) (cols : state.pkCols = stmt.pkCols)
          (well : WellKeyed state.pkCols (keyedItems state.entries)) :
          commitOf stmt.pkCols ((buf.noteStaged staged).pending.map PendingBatch.batch)
            (keyedItems (state.entries.insert stmt.keyRow
              ⟨state.nextStamp, stmt.op (staged.or replaySeq)⟩)) rows =
          RowOp.apply (commitOf stmt.pkCols (buf.pending.map PendingBatch.batch)
            (keyedItems state.entries) rows)
            (.put stmt.pkCols stmt.keyRow (stmt.op none).upserts) := by
        rw [pending, ← cols]
        rw [← cols] at addresses
        exact commits_overwrite _ state.nextStamp well addresses rows
      cases known : buf.keyed with
      | none =>
          have before : buf.commits rows = commitOf stmt.pkCols
              (buf.pending.map PendingBatch.batch) (keyedItems ∅) rows := by
            have noEntries : buf.entries = ∅ := by simp [entries, known]
            rw [commits, noEntries]
            exact (commitOf_nil _ _ _).trans (commitOf_nil _ _ _).symm
          rw [before]
          exact after { pkCols := stmt.pkCols, entries := ∅, nextStamp := 1, claimedBelow := 1 } rfl
            (by intro item mem; cases mem)
      | some state =>
          have well := sound.well.window
          rw [pkCols_of_keyed known, entries_of_keyed known] at well
          rw [commits, commits, entries_of_keyed known, pkCols_of_keyed known]
          by_cases same : state.pkCols = stmt.pkCols
          · rw [same]
            exact after state same well
          · -- the declaration may only change while no key is live
            simp only [known, Option.getD_some, ne_eq, same, not_false_eq_true, true_and, not_or,
              not_not] at allowed
            have noItems : keyedItems state.entries = [] := by
              rw [List.eq_nil_iff_forall_not_mem]
              rintro ⟨key, stamp, op⟩ mem
              have live := mem_keys_keyedItems.mp (List.mem_map_of_mem mem)
              rw [AList.mem_keys, allowed.1] at live
              cases live
            have redeclared := after { state with pkCols := stmt.pkCols } rfl (by
              dsimp only
              rw [noItems]
              intro item mem
              cases mem)
            dsimp only at redeclared
            rw [noItems, commitOf_nil] at redeclared ⊢
            exact redeclared

end TableBuf

end Icegres.Buffer
