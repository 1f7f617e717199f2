import Icegres.Buffer.Appends

/-!
# The books of the pending window

A flush takes the pending list without removing it and later drains it by position, while
statements push behind it, take failed batches out and conflicts put older batches in front. The
books beside the window record every batch id and stamp ever given and the batches of the last
snapshot: the flush drains these batches, and of the keyed entries it took exactly those that
were not overwritten meanwhile.
-/

namespace Icegres.Buffer

/-- Routing only adds batches under the statement's sequence, behind the others. -/
theorem Routes.pending {seq : Option Nat} {start : TableBuf} {result : TableBuf × RoutedStmt}
    {ops : List RowOp} (routes : Routes seq start result ops) :
    ∃ added : List PendingBatch, result.1.pending = start.pending ++ added ∧
      ∀ pb ∈ added, pb.seq = seq := by
  induction routes with
  | start => exact ⟨[], (List.append_nil _).symm, fun _ mem => by cases mem⟩
  | @push buf routed ops prior batch misses ih =>
      obtain ⟨added, isPending, sequences⟩ := ih
      refine ⟨added ++ [⟨buf.nextBatchId, false, seq, batch⟩], ?_, fun pb mem => ?_⟩
      · rw [← List.append_assoc, ← isPending]
        rfl
      · rcases List.mem_append.mp mem with old | new
        · exact sequences pb old
        · rw [List.mem_singleton.mp new]
  | hit prior state row known live ih => exact ih

/-- The rows of pending batches. -/
def rowsIn (pending : List PendingBatch) : Nat :=
  (pending.map fun pb => pb.batch.length).sum

@[simp] theorem rowsIn_nil : rowsIn [] = 0 := rfl

@[simp] theorem rowsIn_append (front back : List PendingBatch) :
    rowsIn (front ++ back) = rowsIn front + rowsIn back := by
  simp [rowsIn]

/-- Every row is of one part of a split list. -/
theorem rowsIn_filter_add (pending : List PendingBatch) (keep : PendingBatch → Bool) :
    rowsIn (pending.filter keep) + rowsIn (pending.filter fun pb => !keep pb) =
      rowsIn pending := by
  induction pending with
  | nil => rfl
  | cons pb rest ih =>
      simp only [rowsIn] at ih ⊢
      by_cases kept : keep pb = true
      · simp [kept]
        omega
      · simp [kept]
        omega

theorem rowsIn_take_add (pending : List PendingBatch) (count : Nat) :
    rowsIn (pending.take count) + rowsIn (pending.drop count) = rowsIn pending := by
  rw [← rowsIn_append, List.take_append_drop]

/-- The rows a statement has in the pending list. -/
def rowsRouted (buf : TableBuf) (routed : RoutedStmt) : Nat :=
  rowsIn (buf.pending.filter fun pb => pb.id ∈ routed.batchIds)

namespace TableBuf

/-! ## The pending list -/

/-- The count of pending rows is right and no batch id was given twice. -/
structure Accounted (buf : TableBuf) (given : List Nat) : Prop where
  rows : buf.pendingRows = rowsIn buf.pending
  distinct : given.Nodup
  fresh : ∀ id ∈ given, id < buf.nextBatchId
  pending : ∀ pb ∈ buf.pending, pb.id ∈ given
  apart : (buf.pending.map PendingBatch.id).Nodup

namespace Accounted

variable {buf other : TableBuf} {given : List Nat}

theorem empty : TableBuf.empty.Accounted [] := by
  constructor <;> simp [TableBuf.empty]

/-- Batches leave the list, and their rows the count. -/
theorem fewer (accounted : buf.Accounted given) (kept : other.pending.Sublist buf.pending)
    (rows : other.pendingRows = rowsIn other.pending)
    (next : other.nextBatchId = buf.nextBatchId) : other.Accounted given where
  rows := rows
  distinct := accounted.distinct
  fresh := next ▸ accounted.fresh
  pending pb mem := accounted.pending pb (kept.subset mem)
  apart := accounted.apart.sublist (kept.map _)

theorem congr (accounted : buf.Accounted given) (pending : other.pending = buf.pending)
    (rows : other.pendingRows = buf.pendingRows)
    (next : other.nextBatchId = buf.nextBatchId) : other.Accounted given :=
  accounted.fewer (by rw [pending]) (by rw [rows, pending, accounted.rows]) next

/-- The ids from a number on. -/
theorem ids_below {given : List Nat} {next : Nat} (count : Nat) (distinct : given.Nodup)
    (fresh : ∀ id ∈ given, id < next) :
    (given ++ List.range' next count).Nodup ∧
      ∀ id ∈ given ++ List.range' next count, id < next + count := by
  constructor
  · refine List.nodup_append.mpr ⟨distinct, List.nodup_range', ?_⟩
    rintro id old other new rfl
    exact absurd (fresh id old) (Nat.not_lt.mpr (List.mem_range'_1.mp new).1)
  · rintro id mem
    rcases List.mem_append.mp mem with old | new
    · exact (fresh id old).trans_le (Nat.le_add_right _ _)
    · exact (List.mem_range'_1.mp new).2

/-- A pushed batch gets the next id. -/
theorem push (accounted : buf.Accounted given) (routed : RoutedStmt) (batch : Batch)
    (seq : Option Nat) :
    (buf.pushPending routed batch seq).1.Accounted (given ++ [buf.nextBatchId]) := by
  obtain ⟨distinct, fresh⟩ := ids_below 1 accounted.distinct accounted.fresh
  refine ⟨?_, distinct, fresh, fun pb mem => ?_, ?_⟩
  · simp only [pushPending, rowsIn_append, accounted.rows]
    simp [rowsIn]
  · rcases List.mem_append.mp mem with old | new
    · exact List.mem_append_left _ (accounted.pending pb old)
    · rw [List.mem_singleton.mp new]
      exact List.mem_append_right _ List.mem_cons_self
  · simp only [pushPending, List.map_append, List.map_cons, List.map_nil]
    refine List.nodup_append.mpr ⟨accounted.apart, List.nodup_singleton _, ?_⟩
    rintro id old other new rfl
    obtain ⟨pb, mem, rfl⟩ := List.mem_map.mp old
    have below := accounted.fresh _ (accounted.pending pb mem)
    exact absurd (List.mem_singleton.mp new) below.ne

/-- Every batch a statement routes gets an id of its own. -/
theorem routes {seq : Option Nat} {result : TableBuf × RoutedStmt} {ops : List RowOp}
    (accounted : buf.Accounted given) (routes : Routes seq buf result ops) :
    result.1.Accounted (given ++ result.2.batchIds) := by
  induction routes with
  | start => rwa [List.append_nil]
  | push prior batch misses ih =>
      have after := ih.push ‹_› batch seq
      rwa [List.append_assoc] at after
  | hit prior state row known live ih => exact ih.congr rfl rfl rfl

theorem restore_ids (id : Nat) (batches : List (Option Nat × Batch)) :
    (restore id batches).map PendingBatch.id = List.range' id batches.length := by
  induction batches generalizing id with
  | nil => rfl
  | cons batch rest ih =>
      obtain ⟨seq, batch⟩ := batch
      simp [restore, ih, List.range'_succ]

theorem rowsIn_restore (id : Nat) (batches : List (Option Nat × Batch)) :
    rowsIn (restore id batches) = (batches.map fun batch => batch.2.length).sum := by
  induction batches generalizing id with
  | nil => rfl
  | cons batch rest ih =>
      obtain ⟨seq, batch⟩ := batch
      have ih := ih (id + 1)
      simp only [rowsIn] at ih
      simp [restore, rowsIn, ih]

/-- Restored batches get new ids. -/
theorem requeue (accounted : buf.Accounted given) {batches : List (Option Nat × Batch)}
    (pending : other.pending = restore buf.nextBatchId batches ++ buf.pending)
    (rows : other.pendingRows =
      buf.pendingRows + (batches.map fun batch => batch.2.length).sum)
    (next : other.nextBatchId = buf.nextBatchId + batches.length) :
    other.Accounted (given ++ (restore buf.nextBatchId batches).map PendingBatch.id) := by
  obtain ⟨distinct, fresh⟩ :=
    ids_below batches.length accounted.distinct accounted.fresh
  rw [restore_ids]
  refine ⟨?_, distinct, next ▸ fresh, fun pb mem => ?_, ?_⟩
  · rw [rows, pending, rowsIn_append, rowsIn_restore, accounted.rows, Nat.add_comm]
  · rw [pending] at mem
    rcases List.mem_append.mp mem with new | old
    · rw [← restore_ids]
      exact List.mem_append_right _ (List.mem_map_of_mem new)
    · exact List.mem_append_left _ (accounted.pending pb old)
  · rw [pending, List.map_append, restore_ids]
    refine List.nodup_append.mpr ⟨List.nodup_range', accounted.apart, ?_⟩
    rintro id new other old rfl
    obtain ⟨pb, mem, rfl⟩ := List.mem_map.mp old
    have below := accounted.fresh _ (accounted.pending pb mem)
    exact absurd below (Nat.not_lt.mpr (List.mem_range'_1.mp new).1)

/-- A statement is taken back only if no snapshot took a batch of it: it is counted by its
ids, and no two pending batches share one. -/
theorem unclaimed (accounted : buf.Accounted given) {routed : RoutedStmt}
    (free : buf.claims routed = false) {pb : PendingBatch} (mem : pb ∈ buf.pending)
    (claimed : pb.claimed = true) : pb.id ∉ routed.batchIds := by
  intro isOwn
  simp only [claims, Bool.or_eq_false_iff, decide_eq_false_iff_not, ne_eq, not_not] at free
  have counted := free.1
  set own := buf.pending.filter fun pb => pb.id ∈ routed.batchIds ∧ ¬ pb.claimed with isFilter
  have sublist : own.Sublist buf.pending := List.filter_sublist
  have ids : (own.map PendingBatch.id).Nodup := accounted.apart.sublist (sublist.map _)
  have within : own.map PendingBatch.id ⊆ routed.batchIds.dedup := by
    intro id isId
    obtain ⟨other, isOther, rfl⟩ := List.mem_map.mp isId
    rw [isFilter, List.mem_filter] at isOther
    exact List.mem_dedup.mpr (by simpa using (of_decide_eq_true isOther.2).1)
  have all : (own.map PendingBatch.id).Perm routed.batchIds.dedup :=
    (ids.subperm within).perm_of_length_le (by rw [List.length_map, counted])
  obtain ⟨other, isOther, same⟩ :=
    List.mem_map.mp (all.mem_iff.mpr (List.mem_dedup.mpr isOwn))
  obtain rfl : other = pb :=
    List.inj_on_of_nodup_map accounted.apart (sublist.subset isOther) mem same
  rw [isFilter, List.mem_filter] at isOther
  exact (of_decide_eq_true isOther.2).2 claimed

end Accounted

/-! ## The keyed entries -/

/-- What stands for a snapshotted entry: itself, or one staged after the snapshot. -/
def Answers (buf : TableBuf) (item : KeyedItem) (entry : KeyedEntry) : Prop :=
  entry = ⟨item.2.1, item.2.2⟩ ∨ buf.claimedBelow ≤ entry.stamp

/-- No stamp was given twice, and every snapshotted entry is live or was overwritten. -/
structure Stamps (buf : TableBuf) (given : List Nat) (held : List KeyedItem)
    (undos : List Undo) : Prop where
  distinct : given.Nodup
  fresh : ∀ stamp ∈ given, stamp < buf.nextStamp
  claimed : buf.claimedBelow ≤ buf.nextStamp
  routed : ∀ undo ∈ undos, undo.2.1 < buf.nextStamp
  live : ∀ item ∈ held, ∃ entry, buf.entries.lookup item.1 = some entry ∧ buf.Answers item entry
  /-- A failed statement would bring back what answers for the snapshotted entry. -/
  displaced : ∀ undo ∈ undos, buf.claimedBelow ≤ undo.2.1 → ∀ item ∈ held, item.1 = undo.1 →
    ∃ prev, undo.2.2 = some prev ∧ buf.Answers item prev

namespace Stamps

variable {buf other : TableBuf} {given : List Nat} {held : List KeyedItem} {undos : List Undo}

theorem empty : TableBuf.empty.Stamps [] [] [] := by
  constructor <;> simp [TableBuf.empty, claimedBelow, nextStamp]

/-- Only the keyed state counts, and fewer records are as good. -/
theorem fewer (stamps : buf.Stamps given held undos) (keyed : other.keyed = buf.keyed)
    {holds : List KeyedItem} {left : List Undo} (items : ∀ item ∈ holds, item ∈ held)
    (records : ∀ undo ∈ left, undo ∈ undos) : other.Stamps given holds left := by
  have entries : other.entries = buf.entries := by rw [TableBuf.entries, TableBuf.entries, keyed]
  have next : other.nextStamp = buf.nextStamp := by rw [nextStamp, nextStamp, keyed]
  have bound : other.claimedBelow = buf.claimedBelow := by rw [claimedBelow, claimedBelow, keyed]
  constructor
  · exact stamps.distinct
  · exact next ▸ stamps.fresh
  · rw [bound, next]
    exact stamps.claimed
  · exact next ▸ fun undo mem => stamps.routed undo (records undo mem)
  · simp only [entries, Answers, bound]
    exact fun item mem => stamps.live item (items item mem)
  · simp only [Answers, bound]
    exact fun undo mem unclaimed item isItem =>
      stamps.displaced undo (records undo mem) unclaimed item (items item isItem)

/-- A key is overwritten under the next stamp. -/
theorem overwrite (stamps : buf.Stamps given held undos) (state : KeyedState) (key : Key)
    (op : KeyedOp) (entries : state.entries = buf.entries) (next : state.nextStamp = buf.nextStamp)
    (bound : state.claimedBelow = buf.claimedBelow ∨
      held = [] ∧ state.claimedBelow ≤ state.nextStamp)
    (keyed : other.keyed = some (KeyedState.overwrite state key op).1) :
    other.Stamps (given ++ [state.nextStamp]) held
      (undos ++ [(key, (KeyedState.overwrite state key op).2)]) := by
  obtain ⟨distinct, fresh⟩ := Accounted.ids_below 1 stamps.distinct stamps.fresh
  have nextOther : other.nextStamp = state.nextStamp + 1 := by
    rw [nextStamp_of_keyed keyed]
    rfl
  have boundOther : other.claimedBelow = state.claimedBelow := by
    rw [claimedBelow_of_keyed keyed]
    rfl
  have entriesOther : other.entries = buf.entries.insert key ⟨state.nextStamp, op⟩ := by
    rw [entries_of_keyed keyed, ← entries]
    rfl
  have claimed : state.claimedBelow ≤ state.nextStamp := by
    rcases bound with same | free
    · rw [same, next]
      exact stamps.claimed
    · exact free.2
  have answers {item : KeyedItem} (mem : item ∈ held) : state.claimedBelow = buf.claimedBelow := by
    rcases bound with same | free
    · exact same
    · rw [free.1] at mem
      cases mem
  rw [← next] at distinct fresh
  refine ⟨distinct, nextOther ▸ fresh, ?_, fun undo mem => ?_, fun item mem => ?_, ?_⟩
  · rw [boundOther, nextOther]
    exact claimed.trans (Nat.le_succ _)
  · rw [nextOther]
    rcases List.mem_append.mp mem with old | new
    · exact ((stamps.routed undo old).trans_eq next.symm).trans (Nat.lt_succ_self _)
    · rw [List.mem_singleton.mp new]
      exact Nat.lt_succ_self _
  · rw [entriesOther]
    by_cases same : item.1 = key
    · rw [same]
      exact ⟨_, AList.lookup_insert _, .inr (boundOther ▸ claimed)⟩
    · simp only [AList.lookup_insert_ne same, Answers, boundOther, answers mem]
      exact stamps.live item mem
  · intro undo mem unclaimed item isItem same
    rw [boundOther, answers isItem] at unclaimed
    simp only [Answers, boundOther, answers isItem]
    rcases List.mem_append.mp mem with old | new
    · exact stamps.displaced undo old unclaimed item isItem same
    · cases List.mem_singleton.mp new
      have same : item.1 = key := same
      obtain ⟨entry, found, is⟩ := stamps.live item isItem
      exact ⟨entry, by rw [← same, ← found, ← entries]; rfl, is⟩

/-- A flusher takes the live entries, and no statement can take one back. -/
theorem take (stamps : buf.Stamps given held undos) :
    buf.snapshotPending.1.Stamps given buf.snapshotPending.2.keyed undos := by
  have next : buf.snapshotPending.1.nextStamp = buf.nextStamp := by
    cases known : buf.keyed <;> simp [snapshotPending, nextStamp, known]
  have bound : buf.keyed ≠ none → buf.snapshotPending.1.claimedBelow = buf.nextStamp := by
    cases known : buf.keyed <;> simp [snapshotPending, claimedBelow, nextStamp, known]
  refine ⟨stamps.distinct, next ▸ stamps.fresh, ?_, next ▸ stamps.routed, ?_, ?_⟩
  · by_cases unknown : buf.keyed = none
    · simp [snapshotPending, claimedBelow, unknown]
    · rw [bound unknown, next]
  · rintro ⟨key, stamp, op⟩ mem
    rw [snapshotPending_entries]
    exact ⟨_, mem_keyedItems.mp mem, .inl rfl⟩
  · intro undo mem unclaimed item isItem
    by_cases unknown : buf.keyed = none
    · simp [snapshotPending, TableBuf.entries, unknown, keyedItems] at isItem
    · rw [bound unknown] at unclaimed
      exact absurd (stamps.routed undo mem) (Nat.not_lt.mpr unclaimed)

/-- One entry of a failed statement is taken back. -/
theorem unroute {undo : Undo} (stamps : buf.Stamps given held (undo :: undos))
    (unclaimed : buf.claimedBelow ≤ undo.2.1)
    (entries : other.entries = unrouteKey buf.entries undo)
    (next : other.nextStamp = buf.nextStamp) (bound : other.claimedBelow = buf.claimedBelow) :
    other.Stamps given held undos := by
  obtain ⟨key, stamp, displaced⟩ := undo
  refine ⟨stamps.distinct, next ▸ stamps.fresh, ?_, ?_, fun item mem => ?_, ?_⟩
  · rw [bound, next]
    exact stamps.claimed
  · exact next ▸ fun undo mem => stamps.routed undo (List.mem_cons_of_mem _ mem)
  · simp only [entries, Answers, bound]
    obtain ⟨entry, found, answers⟩ := stamps.live item mem
    by_cases isOwn : ∃ entry, buf.entries.lookup key = some entry ∧ entry.stamp = stamp
    · obtain ⟨own, foundOwn, isStamp⟩ := isOwn
      rw [lookup_unroute_of_own displaced foundOwn isStamp]
      by_cases same : item.1 = key
      · rw [if_pos same]
        exact stamps.displaced _ List.mem_cons_self unclaimed item mem same
      · rw [if_neg same]
        exact ⟨entry, found, answers⟩
    · rw [unrouteKey_of_other fun entry found isStamp => isOwn ⟨entry, found, isStamp⟩]
      exact ⟨entry, found, answers⟩
  · simp only [Answers, bound]
    exact fun undo mem => stamps.displaced undo (List.mem_cons_of_mem _ mem)

/-- Without a snapshot only the stamps count. -/
theorem release (stamps : buf.Stamps given held undos)
    (next : other.nextStamp = buf.nextStamp) (bound : other.claimedBelow = buf.claimedBelow) :
    other.Stamps given [] undos where
  distinct := stamps.distinct
  fresh := next ▸ stamps.fresh
  claimed := by
    rw [bound, next]
    exact stamps.claimed
  routed := next ▸ stamps.routed
  live := by simp
  displaced := by simp

/-- A failed statement's entries are taken back one by one. -/
theorem unrouteAll {state : KeyedState} {own : List Undo}
    (stamps : buf.Stamps given held (own ++ undos)) (known : buf.keyed = some state)
    (unclaimed : ∀ undo ∈ own, state.claimedBelow ≤ undo.2.1)
    (keyed : other.keyed = some { state with entries := own.foldl unrouteKey state.entries }) :
    other.Stamps given held undos := by
  induction own generalizing buf state with
  | nil => exact stamps.fewer (by rw [keyed, known]; rfl) (fun _ mem => mem) fun _ mem => mem
  | cons undo own ih =>
      have step : ({ buf with
          keyed := some { state with entries := unrouteKey state.entries undo } } :
          TableBuf).Stamps given held (own ++ undos) := by
        refine stamps.unroute ?_ ?_ ?_ ?_
        · rw [claimedBelow_of_keyed known]
          exact unclaimed undo List.mem_cons_self
        · rw [entries_of_keyed known]
          rfl
        · rw [nextStamp_of_keyed known]
          rfl
        · rw [claimedBelow_of_keyed known]
          rfl
      exact ih step rfl (fun other mem => unclaimed other (List.mem_cons_of_mem _ mem)) keyed

/-- Every row that supersedes a live entry gets a stamp of its own. -/
theorem routes {seq : Option Nat} {result : TableBuf × RoutedStmt} {ops : List RowOp}
    (stamps : buf.Stamps given held undos) (routes : Routes seq buf result ops) :
    result.1.Stamps (given ++ result.2.keyed.map fun undo => undo.2.1) held
      (undos ++ result.2.keyed) := by
  induction routes with
  | start =>
      rw [List.map_nil, List.append_nil, List.append_nil]
      exact stamps
  | push prior batch misses ih =>
      refine Stamps.fewer ih ?_ (fun _ mem => mem) fun _ mem => mem
      rfl
  | @hit buf routed ops prior state row known live ih =>
      have after : (buf.overwriteKey state routed row seq).1.Stamps _ held _ :=
        ih.overwrite state _ _ (entries_of_keyed known).symm (nextStamp_of_keyed known).symm
          (.inl (claimedBelow_of_keyed known).symm) rfl
      rw [List.append_assoc, List.append_assoc] at after
      rw [overwriteKey, List.map_append]
      exact after

/-- A keyed statement overwrites its key. -/
theorem stageKeyed (stamps : buf.Stamps given held undos) {pkCols : List Nat} {key : Key}
    {op : KeyedOp} {staged : Option Nat} {result : TableBuf × RoutedStmt}
    (stages : buf.stageKeyed pkCols key op staged = .ok result) :
    result.1.Stamps (given ++ result.2.keyed.map fun undo => undo.2.1) held
      (undos ++ result.2.keyed) := by
  unfold TableBuf.stageKeyed at stages
  dsimp only at stages
  split at stages
  · cases stages
  · cases stages
    refine stamps.overwrite { (buf.keyed.getD ⟨pkCols, ∅, 1, 1⟩) with pkCols := pkCols } key
      { op with seq := staged.or op.seq } ?_ ?_ ?_ rfl
    · cases known : buf.keyed <;> simp [TableBuf.entries, known]
    · cases known : buf.keyed <;> simp [nextStamp, known]
    · cases known : buf.keyed with
      | none =>
          -- no entry is held without keyed state
          refine .inr ⟨List.eq_nil_iff_forall_not_mem.mpr fun item mem => ?_, le_refl _⟩
          obtain ⟨entry, found, -⟩ := stamps.live item mem
          simp [TableBuf.entries, known] at found
      | some state => exact .inl (claimedBelow_of_keyed known).symm

end Stamps

/-- A keyed statement leaves the pending list alone. -/
theorem stageKeyed_frame {buf : TableBuf} {pkCols : List Nat} {key : Key} {op : KeyedOp}
    {staged : Option Nat} {result : TableBuf × RoutedStmt}
    (stages : buf.stageKeyed pkCols key op staged = .ok result) :
    result.1.pending = buf.pending ∧ result.1.pendingRows = buf.pendingRows ∧
      result.1.nextBatchId = buf.nextBatchId ∧ result.2.batchIds = [] ∧
      (buf.keyed ≠ none → result.1.claimedBelow = buf.claimedBelow) := by
  unfold TableBuf.stageKeyed at stages
  dsimp only at stages
  split at stages
  · cases stages
  · cases stages
    refine ⟨?_, ?_, ?_, rfl, fun known => ?_⟩
    · cases staged <;> rfl
    · cases staged <;> rfl
    · cases staged <;> rfl
    · obtain ⟨state, known⟩ := Option.ne_none_iff_exists'.mp known
      simp [claimedBelow, known, KeyedState.overwrite]

end TableBuf

/-- Routing claims nothing. -/
theorem Routes.claimedBelow {seq : Option Nat} {start : TableBuf}
    {result : TableBuf × RoutedStmt} {ops : List RowOp} (routes : Routes seq start result ops) :
    result.1.claimedBelow = start.claimedBelow := by
  induction routes with
  | start => rfl
  | push _ _ _ ih => exact ih
  | hit _ state _ known _ ih =>
      rw [← ih, TableBuf.claimedBelow_of_keyed known]
      rfl

/-- The entries of a statement that is taken back were not taken by a snapshot. -/
theorem TableBuf.unclaimed_of_claims {buf : TableBuf} {state : KeyedState} {routed : RoutedStmt}
    (known : buf.keyed = some state) (free : buf.claims routed = false) {undo : Undo}
    (mem : undo ∈ routed.keyed) : state.claimedBelow ≤ undo.2.1 := by
  simp only [claims, known, Bool.or_eq_false_iff, List.any_eq_false] at free
  have alone := free.2 undo mem
  simp only [Bool.or_eq_true, not_or, decide_eq_true_eq, Nat.not_lt] at alone
  exact alone.1

/-! ## The machine -/

/-- A window with the books beside it. -/
structure Books where
  window : Window
  /-- Every batch id ever given. -/
  batchIds : List Nat
  /-- Every stamp ever given. -/
  stamps : List Nat
  /-- The pending batches the last snapshot took. -/
  taken : List PendingBatch
  /-- The stamps from here on were given after the last snapshot. -/
  since : Nat

namespace Books

/-- The books of a table no statement has touched. -/
def initial : Books where
  window := Window.initial
  batchIds := []
  stamps := []
  taken := []
  since := 0

/-- What a staged statement was given: its batch ids and its stamps. -/
def given (routed : RoutedStmt) : List Nat × List Nat :=
  (routed.batchIds, routed.keyed.map fun undo => undo.2.1)

/-- The batch ids and stamps an action gives. -/
def gives (window : Window) : Window.Action → List Nat × List Nat
  | .append batches staged replaySeq =>
      given (window.buf.stageAppend batches staged replaySeq).2
  | .keyed stmt staged replaySeq =>
      match window.buf.stageKeyed stmt.pkCols stmt.keyRow (stmt.op replaySeq) staged with
      | .ok result => given result.2
      | .error _ => ([], [])
  | .requeue =>
      match window.flusher with
      | .posted snapshotId =>
          match window.buf.flushed.find? fun gen => gen.commit = .snapshot snapshotId with
          | some gen =>
              ((TableBuf.restore window.buf.nextBatchId gen.batches).map PendingBatch.id, [])
          | none => ([], [])
      | _ => ([], [])
  | _ => ([], [])

def step (books : Books) (action : Window.Action) : Option Books :=
  (books.window.step action).map fun next =>
    { window := next
      batchIds := books.batchIds ++ (gives books.window action).1
      stamps := books.stamps ++ (gives books.window action).2
      taken := match action with
        | .take => next.buf.pending
        | _ => books.taken
      since := match action with
        | .take => books.window.buf.nextStamp
        | _ => books.since }

/-- What the flusher took is a claimed prefix of the pending list. -/
def Front (window : Window) (taken : List PendingBatch) : Prop :=
  ∀ snap, window.flusher = .taken snap →
    (∃ behind, window.buf.pending = taken ++ behind) ∧
      snap.batches = taken.map PendingBatch.batch ∧ snap.nBatches = taken.length ∧
      ∀ pb ∈ taken, pb.claimed = true

/-- The books are right. -/
structure Kept (books : Books) : Prop where
  sound : books.window.Sound
  accounted : books.window.buf.Accounted books.batchIds
  stamps : books.window.buf.Stamps books.stamps books.window.held books.window.undos
  front : Front books.window books.taken
  since : books.window.held ≠ [] → books.since ≤ books.window.buf.claimedBelow

theorem Kept.initial : initial.Kept where
  sound := Window.sound_initial
  accounted := TableBuf.Accounted.empty
  stamps := TableBuf.Stamps.empty
  front := by simp [Front, Books.initial, Window.initial]
  since := by simp [Books.initial, Window.initial, Window.held]

namespace Kept

variable {books : Books} {next : Window} {action : Window.Action}

/-- A staged statement joins behind what the flusher took. -/
theorem front_behind (front : Front books.window books.taken)
    (flusher : next.flusher = books.window.flusher)
    (pending : ∃ added, next.buf.pending = books.window.buf.pending ++ added) :
    Front next books.taken := by
  intro snap isTaken
  obtain ⟨⟨behind, isPending⟩, rest⟩ := front snap (flusher ▸ isTaken)
  obtain ⟨added, isNext⟩ := pending
  refine ⟨⟨behind ++ added, ?_⟩, rest⟩
  rw [isNext, isPending, List.append_assoc]

/-- A flusher that took nothing drains nothing. -/
theorem front_free (free : ∀ snap, next.flusher ≠ .taken snap) : Front next books.taken :=
  fun snap isTaken => absurd isTaken (free snap)

/-- A failed statement's batches lie behind what the flusher took. -/
theorem front_fail (kept : books.Kept) {routed : RoutedStmt}
    (free : books.window.buf.claims routed = false)
    (flusher : next.flusher = books.window.flusher)
    (pending : next.buf.pending =
      books.window.buf.pending.filter fun pb => pb.id ∉ routed.batchIds) :
    Front next books.taken := by
  intro snap isTaken
  obtain ⟨⟨behind, isPending⟩, batches, count, claimed⟩ := kept.front snap (flusher ▸ isTaken)
  refine ⟨⟨behind.filter fun pb => pb.id ∉ routed.batchIds, ?_⟩, batches, count, claimed⟩
  have whole : books.taken.filter (fun pb => decide (pb.id ∉ routed.batchIds)) = books.taken := by
    rw [List.filter_eq_self]
    intro pb mem
    exact decide_eq_true (kept.accounted.unclaimed free
      (by rw [isPending]; exact List.mem_append_left _ mem) (claimed pb mem))
  rw [pending, isPending, List.filter_append, whole]

/-- Marks, ages and ends of attempts leave the books alone. -/
theorem outside (kept : books.Kept) (sound : next.Sound)
    (pending : next.buf.pending = books.window.buf.pending)
    (rows : next.buf.pendingRows = books.window.buf.pendingRows)
    (nextId : next.buf.nextBatchId = books.window.buf.nextBatchId)
    (keyed : next.buf.keyed = books.window.buf.keyed)
    (flusher : next.flusher = books.window.flusher ∨ ∀ snap, next.flusher ≠ .taken snap)
    (records : ∀ undo ∈ next.undos, undo ∈ books.window.undos) :
    Kept ⟨next, books.batchIds ++ [], books.stamps ++ [], books.taken, books.since⟩ := by
  have items : next.held = books.window.held ∨ next.held = [] := by
    rcases flusher with same | free
    · exact .inl (by rw [Window.held, Window.held, same])
    · refine .inr ?_
      unfold Window.held
      split
      · next snap isTaken => exact absurd isTaken (free snap)
      · rfl
  have bound : next.buf.claimedBelow = books.window.buf.claimedBelow := by
    rw [TableBuf.claimedBelow, TableBuf.claimedBelow, keyed]
  have stamps : next.buf.Stamps books.stamps next.held next.undos := by
    refine kept.stamps.fewer keyed (fun item mem => ?_) records
    rcases items with same | none
    · exact same ▸ mem
    · rw [none] at mem
      cases mem
  have front : Front next books.taken := by
    rcases flusher with same | free
    · exact front_behind kept.front same ⟨[], by rw [pending, List.append_nil]⟩
    · exact front_free free
  have since (busy : next.held ≠ []) : books.since ≤ next.buf.claimedBelow := by
    rw [bound]
    rcases items with same | none
    · exact kept.since (same ▸ busy)
    · exact absurd none busy
  rw [List.append_nil, List.append_nil]
  exact ⟨sound, kept.accounted.congr pending rows nextId, stamps, front, since⟩

/-- A statement's batches and stamps are entered. -/
theorem staged (kept : books.Kept) {staged : Option Nat} {result : TableBuf × RoutedStmt}
    (sound : (books.window.await staged result).Sound)
    (accounted : result.1.Accounted (books.batchIds ++ (given result.2).1))
    (stamps : result.1.Stamps (books.stamps ++ (given result.2).2) books.window.held
      (books.window.undos ++ result.2.keyed))
    (pending : ∃ added, result.1.pending = books.window.buf.pending ++ added)
    (bound : result.1.claimedBelow = books.window.buf.claimedBelow ∨ books.window.held = []) :
    Kept ⟨books.window.await staged result, books.batchIds ++ (given result.2).1,
      books.stamps ++ (given result.2).2, books.taken, books.since⟩ := by
  have front : Front (books.window.await staged result) books.taken :=
    front_behind kept.front rfl pending
  refine ⟨sound, accounted, ?_, front, fun busy => ?_⟩
  · refine stamps.fewer rfl (fun _ mem => mem) fun undo mem => ?_
    cases staged with
    | none =>
        simp only [Window.await, Window.undos, Option.map_none, Option.toList_none,
          List.append_nil] at mem
        exact List.mem_append_left _ mem
    | some seq => simpa [Window.await, Window.undos] using mem
  · rcases bound with same | none
    · exact same ▸ kept.since busy
    · exact absurd none busy

/-- An insert is routed step by step. -/
theorem append (kept : books.Kept) (batches : List Batch) (staged replaySeq : Option Nat)
    (sound : (books.window.await staged
      (books.window.buf.stageAppend batches staged replaySeq)).Sound) :
    Kept ⟨books.window.await staged (books.window.buf.stageAppend batches staged replaySeq),
      books.batchIds ++ (given (books.window.buf.stageAppend batches staged replaySeq).2).1,
      books.stamps ++ (given (books.window.buf.stageAppend batches staged replaySeq).2).2,
      books.taken, books.since⟩ := by
  obtain ⟨ops, routes, -⟩ := routes_routeAppends (books.window.buf.noteStaged staged) batches
    (staged.or replaySeq)
  have accounted : (books.window.buf.noteStaged staged).Accounted books.batchIds := by
    cases staged <;> exact kept.accounted.congr rfl rfl rfl
  have stamps : (books.window.buf.noteStaged staged).Stamps books.stamps books.window.held
      books.window.undos :=
    kept.stamps.fewer (books.window.buf.noteStaged_keyed staged) (fun _ mem => mem)
      fun _ mem => mem
  obtain ⟨added, pending, -⟩ := routes.pending
  refine kept.staged sound (accounted.routes routes) (stamps.routes routes) ⟨added, ?_⟩ (.inl ?_)
  · rwa [TableBuf.noteStaged_pending] at pending
  · refine routes.claimedBelow.trans ?_
    cases staged <;> rfl

/-- A keyed statement is entered under the next stamp. -/
theorem keyed (kept : books.Kept) {stmt : KeyedStmt} {staged replaySeq : Option Nat}
    {result : TableBuf × RoutedStmt}
    (stages : books.window.buf.stageKeyed stmt.pkCols stmt.keyRow (stmt.op replaySeq) staged =
      .ok result)
    (sound : (books.window.await staged result).Sound) :
    Kept ⟨books.window.await staged result, books.batchIds ++ (given result.2).1,
      books.stamps ++ (given result.2).2, books.taken, books.since⟩ := by
  obtain ⟨pending, rows, nextId, ids, bound⟩ := TableBuf.stageKeyed_frame stages
  refine kept.staged sound ?_ (kept.stamps.stageKeyed stages) ⟨[], ?_⟩ ?_
  · rw [given, ids, List.append_nil]
    exact kept.accounted.congr pending rows nextId
  · rw [List.append_nil, pending]
  · by_cases unknown : books.window.buf.keyed = none
    · exact .inr ((TableBuf.sound_none unknown).mp kept.sound).2.1
    · exact .inl (bound unknown)

/-- A failed statement's rows leave the list and the count. -/
theorem fail (kept : books.Kept) {index : Nat} {stmt : Waiting}
    (found : books.window.waiting[index]? = some stmt)
    (isNext : next = { books.window with
      buf := books.window.buf.unrouteFailed stmt.seq stmt.routed
      waiting := books.window.waiting.eraseIdx index })
    (sound : next.Sound) :
    Kept ⟨next, books.batchIds ++ [], books.stamps ++ [], books.taken, books.since⟩ := by
  have records := Window.undos_eraseIdx found
  have fewer : ∀ undo ∈ next.undos, undo ∈ books.window.undos := fun undo mem =>
    records.mem_iff.mpr (List.mem_append_right _ (by subst isNext; exact mem))
  have held : next.held = books.window.held := by
    subst isNext
    rfl
  cases claims : books.window.buf.claims stmt.routed with
  | true =>
      have same : books.window.buf.unrouteFailed stmt.seq stmt.routed = books.window.buf := by
        rw [TableBuf.unrouteFailed, if_pos claims]
      rw [same] at isNext
      subst isNext
      exact kept.outside sound rfl rfl rfl rfl (.inl rfl) fewer
  | false =>
      have unrouted : books.window.buf.unrouteFailed stmt.seq stmt.routed = _ :=
        if_neg (by rw [claims]; decide)
      rw [unrouted] at isNext
      have accounted : next.buf.Accounted books.batchIds := by
        subst isNext
        refine kept.accounted.fewer List.filter_sublist ?_ rfl
        have parts := rowsIn_filter_add books.window.buf.pending
          fun pb => decide (pb.id ∈ stmt.routed.batchIds)
        simp only [← decide_not] at parts
        dsimp only
        rw [kept.accounted.rows, ← parts]
        exact Nat.add_sub_cancel_left _ _
      have stamps : next.buf.Stamps books.stamps next.held next.undos := by
        cases known : books.window.buf.keyed with
        | none =>
            refine kept.stamps.fewer ?_ (fun item mem => held ▸ mem) fewer
            subst isNext
            rw [known]
            rfl
        | some state =>
            have before : books.window.buf.Stamps books.stamps books.window.held
                (stmt.routed.keyed ++ next.undos) := by
              subst isNext
              exact kept.stamps.fewer rfl (fun _ mem => mem) fun undo mem =>
                records.mem_iff.mpr mem
            rw [held]
            refine before.unrouteAll known (fun undo mem => ?_) (by subst isNext; rw [known]; rfl)
            exact TableBuf.unclaimed_of_claims known claims mem
      have front : Front next books.taken :=
        kept.front_fail claims (by subst isNext; rfl) (by subst isNext; rfl)
      rw [List.append_nil, List.append_nil]
      refine ⟨sound, accounted, stamps, front, fun busy => ?_⟩
      have bound : next.buf.claimedBelow = books.window.buf.claimedBelow := by
        subst isNext
        cases known : books.window.buf.keyed <;> simp [TableBuf.claimedBelow, known]
      dsimp only
      rw [bound]
      exact kept.since (held ▸ busy)

/-- A flusher takes the whole window. -/
theorem take (kept : books.Kept)
    (isNext : next = { books.window with
      buf := books.window.buf.snapshotPending.1
      flusher := if books.window.buf.snapshotPending.2.isEmpty then .idle
        else .taken books.window.buf.snapshotPending.2 })
    (sound : next.Sound) :
    Kept ⟨next, books.batchIds ++ [], books.stamps ++ [], next.buf.pending,
      books.window.buf.nextStamp⟩ := by
  have isTaken (snap : PendingSnapshot) (taken : next.flusher = .taken snap) :
      snap = books.window.buf.snapshotPending.2 := by
    subst isNext
    dsimp only at taken
    split at taken
    · cases taken
    · exact (Flusher.taken.inj taken).symm
  have items (item : KeyedItem) (mem : item ∈ next.held) :
      item ∈ books.window.buf.snapshotPending.2.keyed := by
    unfold Window.held at mem
    split at mem
    · next snap taken => exact isTaken snap taken ▸ mem
    · cases mem
  have front : Front next next.buf.pending := by
    intro snap taken
    rw [isTaken snap taken]
    subst isNext
    refine ⟨⟨[], by rw [List.append_nil]⟩, ?_, ?_, fun pb mem => ?_⟩
    · exact books.window.buf.snapshotPending_batches.symm
    · simp [TableBuf.snapshotPending]
    · obtain ⟨old, -, rfl⟩ := List.mem_map.mp mem
      rfl
  rw [List.append_nil, List.append_nil]
  refine ⟨sound, ?_, ?_, front, fun busy => ?_⟩
  · subst isNext
    have ids : books.window.buf.snapshotPending.1.pending.map PendingBatch.id =
        books.window.buf.pending.map PendingBatch.id := by
      simp [TableBuf.snapshotPending]
    have rows : rowsIn books.window.buf.snapshotPending.1.pending =
        rowsIn books.window.buf.pending := by
      simp [TableBuf.snapshotPending, rowsIn, Function.comp_def]
    refine ⟨kept.accounted.rows.trans rows.symm, kept.accounted.distinct, kept.accounted.fresh,
      fun pb mem => ?_, ids ▸ kept.accounted.apart⟩
    obtain ⟨old, isOld, rfl⟩ := List.mem_map.mp mem
    exact kept.accounted.pending old isOld
  · have after := kept.stamps.take
    subst isNext
    exact after.fewer rfl items fun _ mem => mem
  · obtain ⟨item, mem⟩ := List.exists_mem_of_ne_nil _ busy
    have live := items item mem
    subst isNext
    cases known : books.window.buf.keyed with
    | none => simp [TableBuf.snapshotPending, TableBuf.entries, known, TableBuf.keyedItems] at live
    | some state => simp [TableBuf.snapshotPending, TableBuf.claimedBelow, TableBuf.nextStamp, known]

/-- What the flusher took leaves the list and the count. -/
theorem drains (kept : books.Kept) {count : Nat} {keyed : List KeyedItem}
    (pending : next.buf.pending = books.window.buf.pending.drop count)
    (rows : next.buf.pendingRows =
      books.window.buf.pendingRows - rowsIn (books.window.buf.pending.take count))
    (nextId : next.buf.nextBatchId = books.window.buf.nextBatchId)
    (isKeyed : next.buf.keyed = books.window.buf.keyed.map fun state =>
      { state with entries := keyed.foldl TableBuf.drainKey state.entries })
    (records : next.undos = books.window.undos) (free : ∀ snap, next.flusher ≠ .taken snap)
    (sound : next.Sound) :
    Kept ⟨next, books.batchIds ++ [], books.stamps ++ [], books.taken, books.since⟩ := by
  have held : next.held = [] := by
    unfold Window.held
    split
    · next snap isTaken => exact absurd isTaken (free snap)
    · rfl
  have accounted : next.buf.Accounted books.batchIds := by
    refine kept.accounted.fewer (by rw [pending]; exact List.drop_sublist _ _) ?_ nextId
    rw [rows, pending, kept.accounted.rows, ← rowsIn_take_add _ count]
    exact Nat.add_sub_cancel_left _ _
  have stamps : next.buf.Stamps books.stamps next.held next.undos := by
    rw [held, records]
    refine kept.stamps.release ?_ ?_
    · cases known : books.window.buf.keyed <;> simp [TableBuf.nextStamp, isKeyed, known]
    · cases known : books.window.buf.keyed <;> simp [TableBuf.claimedBelow, isKeyed, known]
  rw [List.append_nil, List.append_nil]
  exact ⟨sound, accounted, stamps, front_free free, fun busy => absurd held busy⟩

/-- The batches of a failed commit come back in front, under new ids. -/
theorem requeue (kept : books.Kept) {snapshotId : Nat}
    (posted : books.window.flusher = .posted snapshotId)
    (sound : (books.window.finish
      (books.window.buf.moveFlushedBackToPending snapshotId)).Sound) :
    Kept ⟨books.window.finish (books.window.buf.moveFlushedBackToPending snapshotId),
      books.batchIds ++ (gives books.window .requeue).1,
      books.stamps ++ (gives books.window .requeue).2, books.taken, books.since⟩ := by
  have stamps : (books.window.buf.moveFlushedBackToPending snapshotId).Stamps books.stamps []
      books.window.undos := by
    refine kept.stamps.release ?_ ?_
    · unfold TableBuf.moveFlushedBackToPending
      split
      · rfl
      · cases known : books.window.buf.keyed <;> simp [TableBuf.nextStamp, known]
    · unfold TableBuf.moveFlushedBackToPending
      split
      · rfl
      · cases known : books.window.buf.keyed <;> simp [TableBuf.claimedBelow, known]
  have accounted : (books.window.buf.moveFlushedBackToPending snapshotId).Accounted
      (books.batchIds ++ (gives books.window .requeue).1) := by
    simp only [gives, posted]
    unfold TableBuf.moveFlushedBackToPending
    cases books.window.buf.flushed.find? fun gen => gen.commit = .snapshot snapshotId with
    | none =>
        rw [List.append_nil]
        exact kept.accounted
    | some gen => exact kept.accounted.requeue rfl rfl rfl
  have noStamps : (gives books.window .requeue).2 = [] := by
    simp only [gives, posted]
    cases books.window.buf.flushed.find? fun gen => gen.commit = .snapshot snapshotId <;> rfl
  rw [noStamps, List.append_nil]
  exact ⟨sound, accounted, stamps, front_free (by simp [Window.finish]),
    fun busy => absurd rfl busy⟩

/-- Every action keeps the books right. -/
theorem step {after : Books} (kept : books.Kept) (taken : books.step action = some after) :
    after.Kept := by
  obtain ⟨next, steps, rfl⟩ := Option.map_eq_some_iff.mp taken
  have sound := kept.sound.step steps
  cases Window.took steps with
  | @append batches staged replaySeq => exact kept.append batches staged replaySeq sound
  | keyed stages =>
      simp only [gives, stages]
      exact kept.keyed stages sound
  | noteTailHigh | observe | age | gc =>
      exact kept.outside sound rfl rfl rfl rfl (.inl rfl) fun _ mem => mem
  | durable =>
      exact kept.outside sound rfl rfl rfl rfl (.inl rfl) fun undo mem =>
        ((List.eraseIdx_sublist _ _).flatMap _).subset mem
  | fail found => exact kept.fail found rfl sound
  | take => exact kept.take rfl sound
  | abandon | settle =>
      exact kept.outside sound rfl rfl rfl rfl (.inr (by simp [Window.finish]))
        fun _ mem => mem
  | drop | park | move => exact kept.drains rfl rfl rfl rfl rfl (by simp [Window.finish]) sound
  | requeue posted => exact kept.requeue posted sound

theorem run (run : Run Books.step Unrestricted Books.initial books) : books.Kept :=
  run.invariant (fun _ _ _ kept _ taken => kept.step taken) .initial

end Kept

/-! ## What a flush drains -/

/-- The action drains what the flusher took. -/
def Drains : Window.Action → Prop
  | .drop | .park _ | .move _ => True
  | _ => False

/-- What draining a snapshot does to the pending list and the keyed entries. -/
structure Drained (books : Books) (snap : PendingSnapshot) (next : TableBuf) : Prop where
  /-- The first pending batches are the ones the snapshot took, and they go. -/
  front : books.window.buf.pending = books.taken ++ next.pending
  count : books.taken.length = snap.nBatches
  batches : books.taken.map PendingBatch.batch = snap.batches
  /-- Exactly the snapshotted entries that are still live go. -/
  keyed : ∀ key entry, next.entries.lookup key = some entry ↔
    books.window.buf.entries.lookup key = some entry ∧
      (key, entry.stamp, entry.op) ∉ snap.keyed
  /-- A snapshotted entry is live unless its key was overwritten after the snapshot. -/
  overwritten : ∀ item ∈ snap.keyed, ∃ entry,
    books.window.buf.entries.lookup item.1 = some entry ∧
      (entry = ⟨item.2.1, item.2.2⟩ ∨ books.since ≤ entry.stamp)

/-- The counts of a window are right, and no subtraction from them can go below zero. -/
structure Balanced (books : Books) : Prop where
  rows : books.window.buf.pendingRows = rowsIn books.window.buf.pending
  /-- Taking a statement back. -/
  routed : ∀ stmt ∈ books.window.waiting,
    rowsRouted books.window.buf stmt.routed ≤ books.window.buf.pendingRows
  /-- Draining a snapshot. -/
  drained : ∀ snap, books.window.flusher = .taken snap →
    snap.nBatches ≤ books.window.buf.pending.length ∧
      rowsIn (books.window.buf.pending.take snap.nBatches) ≤ books.window.buf.pendingRows
  batchIds : books.batchIds.Nodup
  stamps : books.stamps.Nodup
  pending : (books.window.buf.pending.map PendingBatch.id).Nodup

theorem Kept.balanced {books : Books} (kept : books.Kept) : books.Balanced where
  rows := kept.accounted.rows
  routed stmt _ := by
    rw [kept.accounted.rows, rowsRouted, ← rowsIn_filter_add books.window.buf.pending]
    exact Nat.le_add_right _ _
  drained snap isTaken := by
    obtain ⟨⟨behind, isPending⟩, -, count, -⟩ := kept.front snap isTaken
    constructor
    · rw [isPending, count, List.length_append]
      exact Nat.le_add_right _ _
    · rw [kept.accounted.rows, ← rowsIn_take_add books.window.buf.pending snap.nBatches]
      exact Nat.le_add_right _ _
  batchIds := kept.accounted.distinct
  stamps := kept.stamps.distinct
  pending := kept.accounted.apart

theorem Kept.drained {books after : Books} (kept : books.Kept) {action : Window.Action}
    {snap : PendingSnapshot} (isTaken : books.window.flusher = .taken snap)
    (drains : Drains action) (taken : books.step action = some after) :
    Drained books snap after.window.buf := by
  obtain ⟨next, steps, rfl⟩ := Option.map_eq_some_iff.mp taken
  have effect : next.buf.pending = books.window.buf.pending.drop snap.nBatches ∧
      next.buf.keyed = books.window.buf.keyed.map fun state =>
        { state with entries := snap.keyed.foldl TableBuf.drainKey state.entries } := by
    cases action <;> first | exact drains.elim | skip
    all_goals
      simp only [Window.step, isTaken] at steps
      cases steps
      exact ⟨rfl, rfl⟩
  obtain ⟨⟨behind, isPending⟩, batches, count, -⟩ := kept.front snap isTaken
  have held : books.window.held = snap.keyed := by rw [Window.held, isTaken]
  have live : ∀ item ∈ snap.keyed, ∃ entry,
      books.window.buf.entries.lookup item.1 = some entry ∧
        books.window.buf.Answers item entry := held ▸ kept.stamps.live
  refine ⟨?_, count.symm, batches.symm, fun key entry => ?_, fun item mem => ?_⟩
  · rw [effect.1, isPending, count, List.drop_left]
  · cases known : books.window.buf.keyed with
    | none => simp [TableBuf.entries, effect.2, known]
    | some state =>
        have entries : next.buf.entries = snap.keyed.foldl TableBuf.drainKey state.entries := by
          simp [TableBuf.entries, effect.2, known]
        rw [TableBuf.entries_of_keyed known, entries]
        constructor
        · intro found
          have before := lookup_drain_of_some found
          refine ⟨before, fun mem => ?_⟩
          rw [lookup_drain_of_mem mem before] at found
          cases found
        · rintro ⟨found, others⟩
          refine lookup_drain_of_newer found fun item mem isKey isStamp => ?_
          -- an entry under the item's own stamp would be the item
          obtain ⟨own, isOwn, answers⟩ := live item mem
          rw [TableBuf.entries_of_keyed known, isKey, found] at isOwn
          cases isOwn
          rcases answers with rfl | newer
          · exact others (isKey ▸ mem)
          · have below := (TableBuf.Sound.holding kept.sound (held ▸ mem)).1
            omega
  · obtain ⟨entry, found, answers⟩ := live item mem
    refine ⟨entry, found, answers.imp_right (Nat.le_trans (kept.since ?_))⟩
    exact fun none => List.ne_nil_of_mem mem (held ▸ none)

end Books

/-- In every interleaving of statements, flushes, drains and conflicts the counts of the window
are right and nothing is numbered twice, and a flush drains exactly the batches its snapshot took
and the snapshotted entries that were not overwritten. -/
theorem books_balanced {books : Books} (run : Run Books.step Unrestricted Books.initial books) :
    books.Balanced ∧
      ∀ snap action after, books.window.flusher = .taken snap → Books.Drains action →
        books.step action = some after → Books.Drained books snap after.window.buf :=
  ⟨(Books.Kept.run run).balanced, fun _ _ _ isTaken drains taken =>
    (Books.Kept.run run).drained isTaken drains taken⟩

/-- The first flush meets a conflict and is taken again; a statement behind it fails, and a key
it holds is overwritten. -/
def requeued : List Window.Action :=
  [.append [[[.int 1, .bool true]], [[.int 2, .bool true]]] (some 1) none,
   .keyed (byFirstColumn 1 (some (.bool false))) (some 2) none,
   .take, .move 7,
   .append [[[.int 3, .bool true]]] (some 3) none,
   .requeue, .take,
   .append [[[.int 4, .bool true]]] (some 4) none,
   .fail 3,
   .keyed (byFirstColumn 1 none) (some 5) none]

/-- The restored batches have new ids, and the overwritten entry stays behind the drain. -/
theorem books_balanced_requeued :
    (execute Books.step (fun _ _ => true) Books.initial requeued).batchIds = [1, 2, 3, 4, 5, 6] ∧
      (execute Books.step (fun _ _ => true) Books.initial requeued).stamps = [1, 2] ∧
      (execute Books.step (fun _ _ => true) Books.initial requeued).taken.map PendingBatch.id =
        [4, 5, 3] ∧
      (execute Books.step (fun _ _ => true) Books.initial requeued).Balanced ∧
      ∀ snap action after,
        (execute Books.step (fun _ _ => true) Books.initial requeued).window.flusher =
          .taken snap → Books.Drains action →
        (execute Books.step (fun _ _ => true) Books.initial requeued).step action = some after →
          Books.Drained (execute Books.step (fun _ _ => true) Books.initial requeued) snap
            after.window.buf :=
  ⟨by decide +kernel, by decide +kernel, by decide +kernel,
    books_balanced (run_execute (fun _ _ _ => trivial) _ requeued)⟩

end Icegres.Buffer
