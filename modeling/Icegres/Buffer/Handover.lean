import Icegres.Buffer.Layering

/-!
# Handing work over and taking it back

What a flusher holds is a part of the window: its batches are the oldest pending ones, and its
keyed operations are live or overwritten under newer stamps. Handing the work over therefore
splits the window's layer, and queueing it again merges it.
-/

namespace Icegres.Buffer

namespace TableBuf

/-- Stamps below this were taken by a snapshot. -/
def claimedBelow (buf : TableBuf) : Nat :=
  (buf.keyed.map KeyedState.claimedBelow).getD 0

def nextStamp (buf : TableBuf) : Nat :=
  (buf.keyed.map KeyedState.nextStamp).getD 1

theorem nextStamp_of_keyed {buf : TableBuf} {state : KeyedState} (known : buf.keyed = some state) :
    buf.nextStamp = state.nextStamp := by
  simp [nextStamp, known]

theorem claimedBelow_of_keyed {buf : TableBuf} {state : KeyedState}
    (known : buf.keyed = some state) : buf.claimedBelow = state.claimedBelow := by
  simp [claimedBelow, known]

/-- What the flusher holds is live, or newer operations of its keys are. -/
theorem Sound.holding {buf : TableBuf} {held : List KeyedItem} {undos : List Undo}
    (sound : buf.Sound held undos) {item : KeyedItem} (mem : item ∈ held) :
    item.2.1 < buf.claimedBelow ∧ KeyedMap.LiveFrom buf.entries item.1 item.2.1 := by
  cases known : buf.keyed with
  | some state =>
      rw [claimedBelow_of_keyed known, entries_of_keyed known]
      exact (((sound_some known).mp sound).holding item mem).2
  | none =>
      rw [((sound_none known).mp sound).2.1] at mem
      cases mem

/-- A snapshot that is still part of the window. -/
structure Holds (buf : TableBuf) (snap : PendingSnapshot) : Prop where
  count : snap.nBatches ≤ buf.pending.length
  batches : (buf.pending.take snap.nBatches).map PendingBatch.batch = snap.batches
  /-- Rows that came later do not carry a key of the snapshot. -/
  later : ∀ pb ∈ buf.pending.drop snap.nBatches, ∀ row ∈ pb.batch,
    encodeKey buf.pkCols row ∉ snap.keyed.map Prod.fst
  distinct : (snap.keyed.map Prod.fst).Nodup
  below : ∀ item ∈ snap.keyed, item.2.1 < buf.claimedBelow
  live : ∀ item ∈ snap.keyed, ∃ entry, buf.entries.lookup item.1 = some entry ∧
    (entry = ⟨item.2.1, item.2.2⟩ ∨ buf.claimedBelow ≤ entry.stamp)
  old : ∀ key entry, buf.entries.lookup key = some entry → entry.stamp < buf.claimedBelow →
    (key, entry.stamp, entry.op) ∈ snap.keyed

variable {buf : TableBuf} {held : List KeyedItem} {undos : List Undo} {snap : PendingSnapshot}

/-- Without the held work the window commits on top of it what it committed before. -/
theorem commits_dropPendingPrefix (sound : buf.Sound held undos) (holds : buf.Holds snap)
    (well : WellKeyed buf.pkCols snap.keyed) (rows : Multiset Row) :
    (buf.dropPendingPrefix snap.nBatches snap.keyed).commits
        (commitOf buf.pkCols snap.batches snap.keyed rows) = buf.commits rows := by
  have cols : (buf.dropPendingPrefix snap.nBatches snap.keyed).pkCols = buf.pkCols := by
    cases known : buf.keyed <;> simp [dropPendingPrefix, drainKeyedSnapshot, pkCols, known]
  have entries : (buf.dropPendingPrefix snap.nBatches snap.keyed).entries =
      snap.keyed.foldl drainKey buf.entries := by
    cases known : buf.keyed with
    | some state =>
        simp [dropPendingPrefix, drainKeyedSnapshot, TableBuf.entries, known]
    | none =>
        have noItems : snap.keyed = [] := by
          rw [List.eq_nil_iff_forall_not_mem]
          intro item mem
          obtain ⟨entry, found, -⟩ := holds.live item mem
          simp [TableBuf.entries, known] at found
        simp [dropPendingPrefix, drainKeyedSnapshot, TableBuf.entries, known, noItems]
  have drained := keyedItems_drain (List.Nodup.of_map _ holds.distinct) holds.below holds.live
    holds.old
  have wellRest : WellKeyed buf.pkCols (keyedItems (snap.keyed.foldl drainKey buf.entries)) := by
    rintro ⟨key, stamp, op⟩ mem
    exact sound.well.live key _ (lookup_drain_of_some (mem_keyedItems.mp mem))
  rw [commits, commits, cols, entries, commitOf_perm _ _ drained]
  have pending : buf.pending.map PendingBatch.batch =
      snap.batches ++ (buf.pending.drop snap.nBatches).map PendingBatch.batch := by
    rw [← holds.batches, ← List.map_append, List.take_append_drop]
  rw [pending, commitOf_merge _ _ well wellRest]
  · rfl
  · intro batch isBatch row isRow touched
    obtain ⟨pb, isPending, rfl⟩ := List.mem_map.mp isBatch
    exact absurd touched (holds.later pb isPending row isRow)

/-- The posted generation is the newest one. -/
def Posted (buf : TableBuf) (snapshotId : Nat) (gen : FlushedGen) : Prop :=
  ∃ older, buf.flushed = older ++ [gen] ∧ gen.commit = .snapshot snapshotId ∧
    ∀ other ∈ older, other.commit ≠ .snapshot snapshotId

/-- No pending row carries a key that only the generation touches. -/
def Apart (buf : TableBuf) (gen : FlushedGen) : Prop :=
  ∀ item ∈ gen.keyed, item.1 ∈ buf.entries ∨
    ∀ pb ∈ buf.pending, ∀ row ∈ pb.batch, encodeKey buf.pkCols row ≠ item.1

/-- A posted generation is found and leaves the others. -/
theorem moveFlushedBack_eq {snapshotId : Nat} {gen : FlushedGen} {older : List FlushedGen}
    (flushed : buf.flushed = older ++ [gen]) (commit : gen.commit = .snapshot snapshotId)
    (others : ∀ other ∈ older, other.commit ≠ .snapshot snapshotId) :
    buf.moveFlushedBackToPending snapshotId =
      { buf with
        flushed := older
        pendingRows := buf.pendingRows + (gen.batches.map fun batch => batch.2.length).sum
        nextBatchId := buf.nextBatchId + gen.batches.length
        pending := restore buf.nextBatchId gen.batches ++ buf.pending
        keyed := buf.keyed.map fun state =>
          { state with entries := gen.keyed.foldl restoreKey state.entries } } := by
  have notFound : older.find? (fun gen => gen.commit = .snapshot snapshotId) = none := by
    rw [List.find?_eq_none]
    intro other mem
    simpa using others other mem
  have found : buf.flushed.find? (fun gen => gen.commit = .snapshot snapshotId) = some gen := by
    rw [flushed, List.find?_append, notFound]
    simp [commit]
  have erased : buf.flushed.eraseP (fun gen => gen.commit = .snapshot snapshotId) = older := by
    rw [flushed, List.eraseP_append_right _ (by simpa using others)]
    simp [commit]
  unfold moveFlushedBackToPending
  rw [found]
  dsimp only
  rw [erased]

theorem restore_batches (id : Nat) (batches : List (Option Nat × Batch)) :
    (restore id batches).map PendingBatch.batch = batches.map Prod.snd := by
  induction batches generalizing id with
  | nil => rfl
  | cons batch rest ih =>
      obtain ⟨seq, batch⟩ := batch
      simp [restore, ih]

/-- With the generation queued again the window commits what both committed. -/
theorem commits_moveFlushedBack {snapshotId : Nat} {gen : FlushedGen}
    (sound : buf.Sound held undos) (posted : buf.Posted snapshotId gen)
    (distinct : (gen.keyed.map Prod.fst).Nodup) (apart : buf.Apart gen) (rows : Multiset Row) :
    (buf.moveFlushedBackToPending snapshotId).commits rows =
      buf.commits (commitOf buf.pkCols (gen.batches.map Prod.snd) gen.keyed rows) := by
  obtain ⟨older, flushed, commit, others⟩ := posted
  have isGen : gen ∈ buf.flushed := by rw [flushed]; simp
  have after := moveFlushedBack_eq flushed commit others
  have pending : (buf.moveFlushedBackToPending snapshotId).pending.map PendingBatch.batch =
      gen.batches.map Prod.snd ++ buf.pending.map PendingBatch.batch := by
    rw [after, List.map_append, restore_batches]
  have cols : (buf.moveFlushedBackToPending snapshotId).pkCols = buf.pkCols := by
    rw [after]
    cases known : buf.keyed <;> simp [pkCols, known]
  have entries : (buf.moveFlushedBackToPending snapshotId).entries =
      gen.keyed.foldl restoreKey buf.entries := by
    rw [after]
    cases known : buf.keyed with
    | some state => simp [TableBuf.entries, known]
    | none => simp [TableBuf.entries, known, sound.well.state known gen isGen]
  rw [commits, pending, cols, entries, commitOf_perm _ _ (keyedItems_restore _ distinct),
    commitOf_merge _ _ (sound.well.flushed gen isGen) sound.well.window]
  · rfl
  · intro batch isBatch row isRow touched
    obtain ⟨pb, isPending, rfl⟩ := List.mem_map.mp isBatch
    obtain ⟨item, isItem, same⟩ := List.mem_map.mp touched
    rcases apart item isItem with live | untouched
    · exact mem_keys_keyedItems.mpr (same ▸ live)
    · exact absurd same.symm (untouched pb isPending row isRow)

@[simp] theorem snapshotPending_entries (buf : TableBuf) :
    buf.snapshotPending.1.entries = buf.entries := by
  cases known : buf.keyed <;> simp [snapshotPending, TableBuf.entries, known]

@[simp] theorem snapshotPending_pkCols (buf : TableBuf) :
    buf.snapshotPending.1.pkCols = buf.pkCols := by
  cases known : buf.keyed <;> simp [snapshotPending, TableBuf.pkCols, known]

@[simp] theorem snapshotPending_batches (buf : TableBuf) :
    buf.snapshotPending.1.pending.map PendingBatch.batch =
      buf.pending.map PendingBatch.batch := by
  simp [snapshotPending]

/-- Taking a snapshot changes nothing in what the window commits. -/
@[simp] theorem snapshotPending_commits (buf : TableBuf) (rows : Multiset Row) :
    buf.snapshotPending.1.commits rows = buf.commits rows := by
  rw [commits, commits, snapshotPending_entries, snapshotPending_pkCols, snapshotPending_batches]

/-- A snapshot that is not empty was taken of something. -/
theorem busy_of_snapshotPending {buf : TableBuf} (some : ¬ buf.snapshotPending.2.isEmpty) :
    buf.pending ≠ [] ∨ buf.entries.keys ≠ [] := by
  by_contra idle
  rw [not_or, not_not, not_not] at idle
  apply some
  have noItems : keyedItems buf.entries = [] := by
    rw [List.eq_nil_iff_forall_not_mem]
    intro item mem
    have live := mem_keys_keyedItems.mp (List.mem_map_of_mem mem)
    rw [AList.mem_keys, idle.2] at live
    cases live
  simp [PendingSnapshot.isEmpty, snapshotPending, idle.1, noItems]

/-- A fresh snapshot is the whole window. -/
theorem holds_snapshotPending (sound : buf.Sound held undos) :
    buf.snapshotPending.1.Holds buf.snapshotPending.2 := by
  have entries := buf.snapshotPending_entries
  have stamps {key : Key} {entry : KeyedEntry} (found : buf.entries.lookup key = some entry) :
      entry.stamp < buf.snapshotPending.1.claimedBelow := by
    cases known : buf.keyed with
    | none => simp [TableBuf.entries, known] at found
    | some state =>
        rw [entries_of_keyed known] at found
        have below := (((sound_some known).mp sound).live key entry found).2
        simpa [snapshotPending, claimedBelow, known] using below
  refine
    { count := by simp [snapshotPending]
      batches := by
        rw [List.take_of_length_le (by simp [snapshotPending])]
        exact buf.snapshotPending_batches
      later := by
        intro pb mem
        rw [List.drop_eq_nil_of_le (by simp [snapshotPending])] at mem
        cases mem
      distinct := ?_
      below := ?_
      live := ?_
      old := ?_ }
  · have perm : (keyedItems buf.entries).Perm _ := List.perm_insertionSort _ _
    refine (perm.map _).nodup_iff.mpr ?_
    rw [List.map_map]
    exact buf.entries.nodupKeys
  · rintro ⟨key, stamp, op⟩ mem
    exact stamps (mem_keyedItems.mp mem)
  · rintro ⟨key, stamp, op⟩ mem
    rw [entries]
    exact ⟨_, mem_keyedItems.mp mem, .inl rfl⟩
  · intro key entry found _
    rw [entries] at found
    exact mem_keyedItems.mpr found

/-- Only the pending rows and the keyed state count. -/
theorem Holds.congr {other : TableBuf} (holds : buf.Holds snap)
    (pending : other.pending = buf.pending) (keyed : other.keyed = buf.keyed) :
    other.Holds snap := by
  have entries : other.entries = buf.entries := by rw [TableBuf.entries, TableBuf.entries, keyed]
  have cols : other.pkCols = buf.pkCols := by rw [TableBuf.pkCols, TableBuf.pkCols, keyed]
  have bound : other.claimedBelow = buf.claimedBelow := by
    rw [TableBuf.claimedBelow, TableBuf.claimedBelow, keyed]
  constructor
  · rw [pending]
    exact holds.count
  · rw [pending]
    exact holds.batches
  · rw [pending, cols]
    exact holds.later
  · exact holds.distinct
  · rw [bound]
    exact holds.below
  · rw [entries, bound]
    exact holds.live
  · rw [entries, bound]
    exact holds.old

/-- The keys of a snapshot are live. -/
theorem Holds.keys_live (holds : buf.Holds snap) {key : Key}
    (mem : key ∈ snap.keyed.map Prod.fst) : key ∈ buf.entries := by
  obtain ⟨item, isItem, rfl⟩ := List.mem_map.mp mem
  obtain ⟨entry, found, -⟩ := holds.live item isItem
  exact AList.lookup_isSome.mp (by rw [found]; rfl)

/-- Rows of keys that are not live come later. -/
theorem Holds.push (holds : buf.Holds snap) (routed : RoutedStmt) {batch : Batch}
    (seq : Option Nat) (misses : ∀ row ∈ batch, encodeKey buf.pkCols row ∉ buf.entries) :
    (buf.pushPending routed batch seq).1.Holds snap where
  count := by
    rw [pushPending, List.length_append]
    exact holds.count.trans (Nat.le_add_right _ _)
  batches := by
    rw [pushPending, List.take_append_of_le_length holds.count]
    exact holds.batches
  later := by
    intro pb mem row isRow touched
    rw [pushPending, List.drop_append_of_le_length holds.count] at mem
    rcases List.mem_append.mp mem with old | new
    · exact holds.later pb old row isRow touched
    · cases List.mem_singleton.mp new
      exact misses row isRow (holds.keys_live touched)
  distinct := holds.distinct
  below := holds.below
  live := holds.live
  old := holds.old

/-- Overwritten entries carry newer stamps. -/
theorem Holds.overwrite {state : KeyedState} (holds : buf.Holds snap)
    (known : buf.keyed = some state) (claimed : state.claimedBelow ≤ state.nextStamp) (key : Key)
    (op : KeyedOp) {other : TableBuf} (pending : other.pending = buf.pending)
    (keyed : other.keyed = some (KeyedState.overwrite state key op).1) :
    other.Holds snap := by
  have entries : other.entries = buf.entries.insert key ⟨state.nextStamp, op⟩ := by
    rw [entries_of_keyed keyed, entries_of_keyed known]
    rfl
  have cols : other.pkCols = buf.pkCols := by
    rw [pkCols_of_keyed keyed, pkCols_of_keyed known]
    rfl
  have bound : other.claimedBelow = buf.claimedBelow := by
    simp [claimedBelow, keyed, known, KeyedState.overwrite]
  have fresh : buf.claimedBelow ≤ state.nextStamp := by
    simpa [claimedBelow, known] using claimed
  refine
    { count := by rw [pending]; exact holds.count
      batches := by rw [pending]; exact holds.batches
      later := by rw [pending, cols]; exact holds.later
      distinct := holds.distinct
      below := by rw [bound]; exact holds.below
      live := ?_
      old := ?_ }
  · intro item mem
    rw [entries, bound]
    by_cases same : item.1 = key
    · rw [same]
      exact ⟨_, AList.lookup_insert _, .inr fresh⟩
    · rw [AList.lookup_insert_ne same]
      exact holds.live item mem
  · intro other entry found older
    rw [entries] at found
    rw [bound] at older
    by_cases same : other = key
    · subst same
      rw [AList.lookup_insert] at found
      cases found
      exact absurd older fresh.not_gt
    · rw [AList.lookup_insert_ne same] at found
      exact holds.old other entry found older

/-- Routing a statement leaves the snapshot's part of the window. -/
theorem Holds.routes {seq : Option Nat} {result : TableBuf × RoutedStmt} {ops : List RowOp}
    (holds : buf.Holds snap) (sound : buf.Sound held undos)
    (routes : Routes seq buf result ops) : result.1.Holds snap := by
  induction routes with
  | start => exact holds
  | push prior batch misses ih => exact ih.push _ seq misses
  | hit prior state row known live ih =>
      have claimed := ((sound_some known).mp (sound.routes prior).1).claimed
      exact ih.overwrite known claimed _ _ rfl rfl

/-- A snapshot without keyed operations says little. -/
theorem Holds.plain {other : TableBuf} (holds : buf.Holds snap) (none : snap.keyed = [])
    (pending : other.pending = buf.pending)
    (newer : ∀ key entry, other.entries.lookup key = some entry →
      other.claimedBelow ≤ entry.stamp) : other.Holds snap where
  count := by rw [pending]; exact holds.count
  batches := by rw [pending]; exact holds.batches
  later := by simp [none]
  distinct := by simp [none]
  below := by simp [none]
  live := by simp [none]
  old key entry found older := absurd older (newer key entry found).not_gt

theorem Holds.no_keyed (holds : buf.Holds snap) (noEntries : buf.entries.keys = []) :
    snap.keyed = [] := by
  rw [List.eq_nil_iff_forall_not_mem]
  intro item mem
  have live := holds.keys_live (List.mem_map_of_mem mem)
  rw [AList.mem_keys, noEntries] at live
  cases live

/-- Staging a keyed statement leaves the snapshot's part of the window. -/
theorem Holds.stageKeyed {stmt : KeyedStmt} {staged replaySeq : Option Nat}
    {result : TableBuf × RoutedStmt} (holds : buf.Holds snap) (sound : buf.Sound held undos)
    (stages : buf.stageKeyed stmt.pkCols stmt.keyRow (stmt.op replaySeq) staged = .ok result) :
    result.1.Holds snap := by
  have pending : (buf.noteStaged staged).pending = buf.pending := by cases staged <;> rfl
  unfold TableBuf.stageKeyed at stages
  dsimp only at stages
  split at stages
  · cases stages
  · next allowed =>
      cases stages
      cases known : buf.keyed with
      | none =>
          refine holds.plain (holds.no_keyed (by simp [TableBuf.entries, known])) pending ?_
          intro key entry found
          change ((∅ : KeyedMap).insert stmt.keyRow _).lookup key = some entry at found
          by_cases same : key = stmt.keyRow
          · rw [same, AList.lookup_insert] at found
            cases found
            exact le_refl _
          · rw [AList.lookup_insert_ne same] at found
            cases found
      | some state =>
          have claimed := ((sound_some known).mp sound).claimed
          by_cases same : state.pkCols = stmt.pkCols
          · refine holds.overwrite known claimed stmt.keyRow (stmt.op (staged.or replaySeq)) pending
              ?_
            rw [← same]
            rfl
          · simp only [known, Option.getD_some, ne_eq, same, not_false_eq_true, true_and, not_or,
              not_not] at allowed
            have noEntries : buf.entries.keys = [] := by
              rw [entries_of_keyed known]
              exact allowed.1
            refine holds.plain (holds.no_keyed noEntries) pending fun key entry found => ?_
            change (state.entries.insert stmt.keyRow _).lookup key = some entry at found
            change state.claimedBelow ≤ _
            by_cases isKey : key = stmt.keyRow
            · rw [isKey, AList.lookup_insert] at found
              cases found
              exact claimed
            · rw [AList.lookup_insert_ne isKey] at found
              have live : key ∈ state.entries.keys :=
                AList.mem_keys.mp (AList.lookup_isSome.mp (by rw [found]; rfl))
              rw [allowed.1] at live
              cases live

end TableBuf

/-! ## Every run -/

namespace Window

/-- What the flusher holds or posted is part of the buffer. -/
structure Flow (window : Window) : Prop where
  sound : window.Sound
  distinct : ∀ gen ∈ window.buf.flushed, (gen.keyed.map Prod.fst).Nodup
  taken : ∀ snap, window.flusher = .taken snap → window.buf.Holds snap
  posted : ∀ snapshotId, window.flusher = .posted snapshotId →
    ∃ gen, window.buf.Posted snapshotId gen

theorem flow_initial : initial.Flow where
  sound := sound_initial
  distinct := by simp [initial, TableBuf.empty]
  taken := by simp [initial]
  posted := by simp [initial]

/-- No statement fails its wait, and a commit is posted under a new id. -/
def Orderly (window : Window) : Action → Prop
  | .fail _ => False
  | .move snapshotId => ∀ gen ∈ window.buf.flushed, gen.commit ≠ .snapshot snapshotId
  | _ => True

/-- An action that leaves flusher and generations alone. -/
theorem Flow.staged {window next : Window} (flow : window.Flow) (sound : next.Sound)
    (flushed : next.buf.flushed = window.buf.flushed) (flusher : next.flusher = window.flusher)
    (holds : ∀ snap, window.flusher = .taken snap → next.buf.Holds snap) : next.Flow where
  sound := sound
  distinct := by rw [flushed]; exact flow.distinct
  taken := by rw [flusher]; exact holds
  posted snapshotId isPosted := by
    obtain ⟨gen, older, isLast, commit, others⟩ := flow.posted snapshotId (flusher ▸ isPosted)
    exact ⟨gen, older, flushed.trans isLast, commit, others⟩

/-- An action that only marks or drops generations while nothing is posted, or marks them. -/
theorem Flow.idle {window next : Window} (flow : window.Flow) (sound : next.Sound)
    (gens : ∀ gen ∈ next.buf.flushed, ∃ old ∈ window.buf.flushed, gen.keyed = old.keyed)
    (idle : next.flusher = .idle) : next.Flow where
  sound := sound
  distinct gen mem := by
    obtain ⟨old, isOld, same⟩ := gens gen mem
    rw [same]
    exact flow.distinct old isOld
  taken snap isTaken := by rw [idle] at isTaken; cases isTaken
  posted snapshotId isPosted := by rw [idle] at isPosted; cases isPosted

/-- A generation without its marks. -/
def content (gen : FlushedGen) : GenCommit × List (Option Nat × Batch) × List KeyedItem :=
  (gen.commit, gen.batches, gen.keyed)

theorem content_ageFirst (count : Nat) (flushed : List FlushedGen) :
    (ageFirst count flushed).map content = flushed.map content := by
  rw [ageFirst, List.map_append, List.map_map]
  change (flushed.take count).map content ++ _ = _
  rw [← List.map_append, List.take_append_drop]

/-- An action that marks generations. -/
theorem Flow.marked {window : Window} (flow : window.Flow) {flushed : List FlushedGen}
    (same : flushed.map content = window.buf.flushed.map content)
    (sound : { window with buf := { window.buf with flushed := flushed } }.Sound) :
    { window with buf := { window.buf with flushed := flushed } }.Flow where
  sound := sound
  distinct gen mem := by
    have isContent : content gen ∈ window.buf.flushed.map content :=
      same ▸ List.mem_map_of_mem mem
    obtain ⟨old, isOld, equal⟩ := List.mem_map.mp isContent
    have keyed : old.keyed = gen.keyed := congrArg (fun content => content.2.2) equal
    rw [← keyed]
    exact flow.distinct old isOld
  taken snap isTaken := (flow.taken snap isTaken).congr rfl rfl
  posted snapshotId isPosted := by
    obtain ⟨gen, older, isLast, commit, others⟩ := flow.posted snapshotId isPosted
    rw [isLast, List.map_append] at same
    obtain ⟨olders, lasts, isFlushed, sameOlder, sameLast⟩ := List.map_eq_append_iff.mp same
    obtain ⟨last, rfl, sameGen⟩ := List.map_eq_singleton_iff.mp sameLast
    refine ⟨last, olders, isFlushed, ?_, fun other mem => ?_⟩
    · rw [← commit]
      exact congrArg Prod.fst sameGen
    · have isContent : content other ∈ older.map content := sameOlder ▸ List.mem_map_of_mem mem
      obtain ⟨old, isOld, equal⟩ := List.mem_map.mp isContent
      have sameCommit : old.commit = other.commit := congrArg Prod.fst equal
      rw [← sameCommit]
      exact others old isOld

/-- The flusher is done with the attempt. -/
theorem Flow.finished {window : Window} {buf : TableBuf} (flow : window.Flow)
    (sound : (window.finish buf).Sound)
    (gens : ∀ gen ∈ buf.flushed, (∃ old ∈ window.buf.flushed, gen.keyed = old.keyed) ∨
      ∃ snap, window.flusher = .taken snap ∧ gen.keyed = snap.keyed) :
    (window.finish buf).Flow where
  sound := sound
  distinct gen mem := by
    rcases gens gen mem with ⟨old, isOld, same⟩ | ⟨snap, isTaken, same⟩
    · rw [same]
      exact flow.distinct old isOld
    · rw [same]
      exact (flow.taken snap isTaken).distinct
  taken snap isTaken := by cases isTaken
  posted snapshotId isPosted := by cases isPosted

/-- Every orderly action keeps the flow of work. -/
theorem Flow.step {window next : Window} {action : Action} (flow : window.Flow)
    (orderly : window.Orderly action) (taken : window.step action = some next) : next.Flow := by
  have sound := flow.sound.step taken
  cases took taken with
  | @append batches staged replaySeq =>
      have noted : (window.buf.noteStaged staged).Sound window.held window.undos :=
        TableBuf.Sound.congr flow.sound (by cases staged <;> rfl) (by cases staged <;> rfl)
      obtain ⟨ops, routes, -⟩ := routes_routeAppends (window.buf.noteStaged staged) batches
        (staged.or replaySeq)
      refine flow.staged sound ((noted.routes routes).2.trans (by cases staged <;> rfl)) rfl
        fun snap isTaken => ?_
      have holds : (window.buf.noteStaged staged).Holds snap :=
        (flow.taken snap isTaken).congr (by cases staged <;> rfl) (by cases staged <;> rfl)
      exact holds.routes noted routes
  | keyed stages =>
      exact flow.staged sound (flow.sound.keyed stages).2 rfl fun snap isTaken =>
        (flow.taken snap isTaken).stageKeyed flow.sound stages
  | noteTailHigh | durable =>
      exact flow.staged sound rfl rfl fun snap isTaken => (flow.taken snap isTaken).congr rfl rfl
  | fail => exact orderly.elim
  | take =>
      refine ⟨sound, flow.distinct, fun snap isTaken => ?_, fun snapshotId isPosted => ?_⟩
      · dsimp only at isTaken
        split at isTaken
        · cases isTaken
        · cases isTaken
          exact TableBuf.holds_snapshotPending flow.sound
      · dsimp only at isPosted
        split at isPosted <;> cases isPosted
  | abandon | drop | settle => exact flow.finished sound fun gen mem => .inl ⟨gen, mem, rfl⟩
  | @park _ snap isTaken =>
      refine flow.finished sound fun gen mem => ?_
      rcases List.mem_append.mp mem with old | new
      · exact .inl ⟨gen, old, rfl⟩
      · cases List.mem_singleton.mp new
        exact .inr ⟨snap, isTaken, rfl⟩
  | @move _ snap isTaken =>
      refine ⟨sound, fun gen mem => ?_, fun other isTaken => ?_, fun other isPosted => ?_⟩
      · rcases List.mem_append.mp mem with old | new
        · exact flow.distinct gen old
        · cases List.mem_singleton.mp new
          exact (flow.taken snap isTaken).distinct
      · cases isTaken
      · cases isPosted
        exact ⟨_, window.buf.flushed, rfl, rfl, orderly⟩
  | @requeue snapshotId isPosted =>
      refine flow.finished sound fun gen mem => .inl ⟨gen, ?_, rfl⟩
      obtain ⟨last, older, flushed, commit, others⟩ := flow.posted snapshotId isPosted
      rw [TableBuf.moveFlushedBack_eq flushed commit others] at mem
      rw [flushed]
      exact List.mem_append_left _ mem
  | observe =>
      refine flow.marked ?_ sound
      rw [List.map_map]
      rfl
  | @age count => exact flow.marked (content_ageFirst count _) sound
  | gc idle => exact flow.idle sound (fun gen mem => ⟨gen, (List.mem_filter.mp mem).1, rfl⟩) idle

end Window

end Icegres.Buffer
