import Icegres.Buffer.Route

/-!
# The live keyed entries

The keyed map of a table changes by overwriting, draining a snapshot, restoring a generation and
taking failed statements back. The invariant that ties the map to what was taken from it: an
entry a snapshot holds, or that a statement could still take back, is live under its own stamp or
a newer one, so the declared key columns cannot change under it.
-/

namespace Icegres.Buffer

open TableBuf (drainKey restoreKey unrouteKey keyedItems mem_keyedItems)

/-! ## Lookups after each change -/

theorem lookup_drainKey_of_some {entries : KeyedMap} {item : KeyedItem} {key : Key}
    {entry : KeyedEntry} (after : (drainKey entries item).lookup key = some entry) :
    entries.lookup key = some entry := by
  unfold drainKey at after
  split at after
  · split at after
    · by_cases same : key = item.1
      · rw [same, AList.lookup_erase] at after
        cases after
      · rwa [AList.lookup_erase_ne same] at after
    · exact after
  · exact after

theorem lookup_drainKey_of_newer {entries : KeyedMap} {item : KeyedItem} {key : Key}
    {entry : KeyedEntry} (before : entries.lookup key = some entry)
    (newer : item.1 = key → item.2.1 ≠ entry.stamp) :
    (drainKey entries item).lookup key = some entry := by
  unfold drainKey
  by_cases same : key = item.1
  · subst same
    rw [before]
    dsimp only
    rw [if_neg fun stamp => newer rfl stamp.symm, before]
  · split
    · split
      · rwa [AList.lookup_erase_ne same]
      · exact before
    · exact before

/-- What is live after draining was live before. -/
theorem lookup_drain_of_some {entries : KeyedMap} {items : List KeyedItem} {key : Key}
    {entry : KeyedEntry} (after : (items.foldl drainKey entries).lookup key = some entry) :
    entries.lookup key = some entry := by
  induction items generalizing entries with
  | nil => exact after
  | cons item rest ih => exact lookup_drainKey_of_some (ih after)

/-- Draining leaves entries with other stamps. -/
theorem lookup_drain_of_newer {entries : KeyedMap} {items : List KeyedItem} {key : Key}
    {entry : KeyedEntry} (before : entries.lookup key = some entry)
    (newer : ∀ item ∈ items, item.1 = key → item.2.1 ≠ entry.stamp) :
    (items.foldl drainKey entries).lookup key = some entry := by
  induction items generalizing entries with
  | nil => exact before
  | cons item rest ih =>
      exact ih (lookup_drainKey_of_newer before (newer item List.mem_cons_self))
        fun other mem => newer other (List.mem_cons_of_mem _ mem)

/-- What was live stays when a generation is restored. -/
theorem lookup_restore_of_live {entries : KeyedMap} {items : List KeyedItem} {key : Key}
    {entry : KeyedEntry} (before : entries.lookup key = some entry) :
    (items.foldl restoreKey entries).lookup key = some entry := by
  induction items generalizing entries with
  | nil => exact before
  | cons item rest ih =>
      apply ih
      unfold restoreKey
      split
      · exact before
      · next absent =>
          have other : key ≠ item.1 := by
            rintro rfl
            exact absent (AList.lookup_isSome.mp (by rw [before]; rfl))
          rwa [AList.lookup_insert_ne other]

/-- What is live after a generation was restored was live before or is restored. -/
theorem lookup_restore_cases {entries : KeyedMap} {items : List KeyedItem} {key : Key}
    {entry : KeyedEntry} (after : (items.foldl restoreKey entries).lookup key = some entry) :
    entries.lookup key = some entry ∨ (key, entry.stamp, entry.op) ∈ items := by
  induction items generalizing entries with
  | nil => exact .inl after
  | cons item rest ih =>
      rcases ih after with before | restored
      · unfold restoreKey at before
        split at before
        · exact .inl before
        · by_cases same : key = item.1
          · subst same
            rw [AList.lookup_insert] at before
            cases before
            exact .inr List.mem_cons_self
          · rw [AList.lookup_insert_ne same] at before
            exact .inl before
      · exact .inr (List.mem_cons_of_mem _ restored)

/-- An operation comes back if its key is not live and no other one comes back for it. -/
theorem lookup_restore_of_mem {entries : KeyedMap} {items : List KeyedItem} {key : Key}
    {stamp : Nat} {op : KeyedOp} (distinct : (items.map Prod.fst).Nodup)
    (mem : (key, stamp, op) ∈ items) (absent : key ∉ entries) :
    (items.foldl restoreKey entries).lookup key = some ⟨stamp, op⟩ := by
  induction items generalizing entries with
  | nil => cases mem
  | cons item rest ih =>
      obtain ⟨alone, distinct⟩ := List.nodup_cons.mp distinct
      rcases List.mem_cons.mp mem with rfl | later
      · rw [List.foldl_cons]
        apply lookup_restore_of_live
        simp only [restoreKey, if_neg absent]
        exact AList.lookup_insert _
      · have other : key ≠ item.1 := by
          rintro rfl
          exact alone (List.mem_map.mpr ⟨_, later, rfl⟩)
        refine ih distinct later ?_
        unfold restoreKey
        split
        · exact absent
        · rw [AList.mem_insert]
          exact not_or.mpr ⟨other, absent⟩

/-- A snapshotted entry that is still live leaves. -/
theorem lookup_drain_of_mem {entries : KeyedMap} {items : List KeyedItem} {key : Key}
    {entry : KeyedEntry} (mem : (key, entry.stamp, entry.op) ∈ items)
    (found : entries.lookup key = some entry) :
    (items.foldl drainKey entries).lookup key = none := by
  induction items generalizing entries with
  | nil => cases mem
  | cons item rest ih =>
      -- once gone, the key stays away
      have gone {entries : KeyedMap} (absent : entries.lookup key = none) :
          (rest.foldl drainKey entries).lookup key = none := by
        by_contra live
        obtain ⟨entry, isEntry⟩ := Option.ne_none_iff_exists'.mp live
        rw [lookup_drain_of_some isEntry] at absent
        cases absent
      rw [List.foldl_cons]
      rcases List.mem_cons.mp mem with rfl | later
      · apply gone
        simp only [drainKey, found, if_true]
        exact AList.lookup_erase _ _
      · by_cases same : item.1 = key ∧ item.2.1 = entry.stamp
        · apply gone
          obtain ⟨rfl, isStamp⟩ := same
          simp only [drainKey, found, if_pos isStamp.symm]
          exact AList.lookup_erase _ _
        · exact ih later (lookup_drainKey_of_newer found fun isKey isStamp => same ⟨isKey, isStamp⟩)

/-- Taking an own entry back leaves what it displaced. -/
theorem lookup_unroute_of_own {entries : KeyedMap} {key : Key} {stamp : Nat}
    {entry : KeyedEntry} (displaced : Option KeyedEntry) (found : entries.lookup key = some entry)
    (isOwn : entry.stamp = stamp) (other : Key) :
    (unrouteKey entries (key, stamp, displaced)).lookup other =
      if other = key then displaced else entries.lookup other := by
  simp only [unrouteKey, found, if_pos isOwn]
  by_cases same : other = key
  · rw [if_pos same, same]
    cases displaced with
    | none => exact AList.lookup_erase _ _
    | some prev => exact AList.lookup_insert _
  · rw [if_neg same]
    cases displaced with
    | none => exact AList.lookup_erase_ne same
    | some prev => exact AList.lookup_insert_ne same

/-- An entry that is not its own is left alone. -/
theorem unrouteKey_of_other {entries : KeyedMap} {key : Key} {stamp : Nat}
    {displaced : Option KeyedEntry}
    (other : ∀ entry, entries.lookup key = some entry → entry.stamp ≠ stamp) :
    unrouteKey entries (key, stamp, displaced) = entries := by
  unfold unrouteKey
  dsimp only
  split
  · next entry found => rw [if_neg (other entry found)]
  · rfl

/-! ## The invariant -/

/-- An entry a statement routed, with what it displaced. -/
abbrev Undo := Key × Nat × Option KeyedEntry

/-- The key is live under this stamp or a newer one. -/
def KeyedMap.LiveFrom (entries : KeyedMap) (key : Key) (stamp : Nat) : Prop :=
  ∃ entry, entries.lookup key = some entry ∧ stamp ≤ entry.stamp

/-- The keyed state, the generations it fed, the snapshot a flusher holds and the undo records
of waiting statements belong together. -/
structure KeyedState.Sound (state : KeyedState) (gens : List FlushedGen)
    (held : List KeyedItem) (undos : List Undo) : Prop where
  claimed : state.claimedBelow ≤ state.nextStamp
  live : ∀ key entry, state.entries.lookup key = some entry →
    entry.op.Addresses state.pkCols key ∧ entry.stamp < state.nextStamp
  flushed : ∀ gen ∈ gens, ∀ item ∈ gen.keyed,
    item.2.2.Addresses state.pkCols item.1 ∧ item.2.1 < state.nextStamp
  holding : ∀ item ∈ held, item.2.2.Addresses state.pkCols item.1 ∧
    item.2.1 < state.claimedBelow ∧ KeyedMap.LiveFrom state.entries item.1 item.2.1
  fresh : ∀ undo ∈ undos, undo.2.1 < state.nextStamp
  distinct : (undos.map fun undo => undo.2.1).Nodup
  /-- An entry that can be taken back is live. -/
  undoable : ∀ undo ∈ undos, state.claimedBelow ≤ undo.2.1 →
    KeyedMap.LiveFrom state.entries undo.1 undo.2.1
  /-- What it displaced may come back. -/
  displaced : ∀ undo ∈ undos, state.claimedBelow ≤ undo.2.1 → ∀ prev, undo.2.2 = some prev →
    prev.op.Addresses state.pkCols undo.1 ∧ prev.stamp < state.nextStamp
  /-- It displaced the held entry of its key, or a newer one. -/
  overHeld : ∀ undo ∈ undos, state.claimedBelow ≤ undo.2.1 → ∀ item ∈ held, item.1 = undo.1 →
    ∃ prev, undo.2.2 = some prev ∧ item.2.1 ≤ prev.stamp
  /-- It displaced what earlier statements put under its key, or newer entries. -/
  overOlder : ∀ undo ∈ undos, ∀ older ∈ undos, state.claimedBelow ≤ older.2.1 →
    older.1 = undo.1 → older.2.1 < undo.2.1 →
    ∃ prev, undo.2.2 = some prev ∧ older.2.1 ≤ prev.stamp

namespace KeyedState.Sound

variable {state : KeyedState} {gens : List FlushedGen} {held : List KeyedItem}
  {undos : List Undo}

/-- Fewer generations, no snapshot or fewer undo records. -/
theorem fewer (sound : state.Sound gens held undos) {kept : List FlushedGen}
    {holds : List KeyedItem} {left : List Undo}
    (generations : ∀ gen ∈ kept, ∃ old ∈ gens, gen.keyed = old.keyed)
    (items : ∀ item ∈ holds, item ∈ held) (records : left.Sublist undos) :
    state.Sound kept holds left where
  claimed := sound.claimed
  live := sound.live
  flushed gen mem item isItem := by
    obtain ⟨old, isOld, same⟩ := generations gen mem
    exact sound.flushed old isOld item (same ▸ isItem)
  holding item mem := sound.holding item (items item mem)
  fresh undo mem := sound.fresh undo (records.subset mem)
  distinct := sound.distinct.sublist (records.map _)
  undoable undo mem := sound.undoable undo (records.subset mem)
  displaced undo mem := sound.displaced undo (records.subset mem)
  overHeld undo mem unclaimed item isItem :=
    sound.overHeld undo (records.subset mem) unclaimed item (items item isItem)
  overOlder undo mem older isOlder :=
    sound.overOlder undo (records.subset mem) older (records.subset isOlder)

/-- The order of the undo records does not count. -/
theorem perm (sound : state.Sound gens held undos) {others : List Undo}
    (same : undos.Perm others) : state.Sound gens held others where
  claimed := sound.claimed
  live := sound.live
  flushed := sound.flushed
  holding := sound.holding
  fresh undo mem := sound.fresh undo (same.mem_iff.mpr mem)
  distinct := (same.map _).nodup sound.distinct
  undoable undo mem := sound.undoable undo (same.mem_iff.mpr mem)
  displaced undo mem := sound.displaced undo (same.mem_iff.mpr mem)
  overHeld undo mem := sound.overHeld undo (same.mem_iff.mpr mem)
  overOlder undo mem older isOlder :=
    sound.overOlder undo (same.mem_iff.mpr mem) older (same.mem_iff.mpr isOlder)

/-- A statement overwrites a key. -/
theorem overwrite (sound : state.Sound gens held undos) {key : Key} (op : KeyedOp)
    (addresses : op.Addresses state.pkCols key) :
    (TableBuf.KeyedState.overwrite state key op).1.Sound gens held
      (undos ++ [(key, (TableBuf.KeyedState.overwrite state key op).2)]) := by
  -- whatever was live is live under its own stamp or the new one
  have stays {other : Key} {stamp : Nat} (older : stamp < state.nextStamp)
      (live : KeyedMap.LiveFrom state.entries other stamp) :
      KeyedMap.LiveFrom (state.entries.insert key ⟨state.nextStamp, op⟩) other stamp := by
    by_cases same : other = key
    · subst same
      exact ⟨_, AList.lookup_insert _, older.le⟩
    · obtain ⟨entry, found, newer⟩ := live
      exact ⟨entry, by rwa [AList.lookup_insert_ne same], newer⟩
  -- the new record displaced whatever was live under its key
  have displaces {stamp : Nat} (live : KeyedMap.LiveFrom state.entries key stamp) :
      ∃ prev, state.entries.lookup key = some prev ∧ stamp ≤ prev.stamp := live
  refine
    { claimed := sound.claimed.trans (Nat.le_succ _)
      live := ?_
      flushed := fun gen mem item isItem =>
        ⟨(sound.flushed gen mem item isItem).1,
          (sound.flushed gen mem item isItem).2.trans (Nat.lt_succ_self _)⟩
      holding := fun item mem => ?_
      fresh := ?_
      distinct := ?_
      undoable := ?_
      displaced := ?_
      overHeld := ?_
      overOlder := ?_ }
  · intro other entry found
    change (state.entries.insert key ⟨state.nextStamp, op⟩).lookup other = some entry at found
    by_cases same : other = key
    · subst same
      rw [AList.lookup_insert] at found
      cases found
      exact ⟨addresses, Nat.lt_succ_self _⟩
    · rw [AList.lookup_insert_ne same] at found
      exact ⟨(sound.live other entry found).1,
        (sound.live other entry found).2.trans (Nat.lt_succ_self _)⟩
  · obtain ⟨itemAddresses, below, live⟩ := sound.holding item mem
    exact ⟨itemAddresses, below, stays (below.trans_le sound.claimed) live⟩
  · intro undo mem
    rcases List.mem_append.mp mem with old | new
    · exact (sound.fresh undo old).trans (Nat.lt_succ_self _)
    · cases List.mem_singleton.mp new
      exact Nat.lt_succ_self _
  · rw [List.map_append, List.nodup_append]
    refine ⟨sound.distinct, List.nodup_singleton _, ?_⟩
    intro stamp old other new same
    obtain ⟨undo, isUndo, rfl⟩ := List.mem_map.mp old
    cases List.mem_singleton.mp new
    exact absurd same (sound.fresh undo isUndo).ne
  · intro undo mem unclaimed
    rcases List.mem_append.mp mem with old | new
    · exact stays (sound.fresh undo old) (sound.undoable undo old unclaimed)
    · cases List.mem_singleton.mp new
      exact ⟨_, AList.lookup_insert _, le_refl _⟩
  · intro undo mem unclaimed prev isPrev
    rcases List.mem_append.mp mem with old | new
    · obtain ⟨prevAddresses, stamp⟩ := sound.displaced undo old unclaimed prev isPrev
      exact ⟨prevAddresses, stamp.trans (Nat.lt_succ_self _)⟩
    · cases List.mem_singleton.mp new
      obtain ⟨prevAddresses, stamp⟩ := sound.live key prev isPrev
      exact ⟨prevAddresses, stamp.trans (Nat.lt_succ_self _)⟩
  · intro undo mem unclaimed item isItem same
    rcases List.mem_append.mp mem with old | new
    · exact sound.overHeld undo old unclaimed item isItem same
    · cases List.mem_singleton.mp new
      have same : item.1 = key := same
      exact displaces (same ▸ (sound.holding item isItem).2.2)
  · intro undo mem older isOlder unclaimed same before
    rcases List.mem_append.mp isOlder with oldOlder | newOlder
    · rcases List.mem_append.mp mem with old | new
      · exact sound.overOlder undo old older oldOlder unclaimed same before
      · cases List.mem_singleton.mp new
        have same : older.1 = key := same
        exact displaces (same ▸ sound.undoable older oldOlder unclaimed)
    · -- no record is newer than the new one
      cases List.mem_singleton.mp newOlder
      rcases List.mem_append.mp mem with old | new
      · exact absurd before (sound.fresh undo old).le.not_gt
      · cases List.mem_singleton.mp new
        exact absurd before (lt_irrefl _)

/-- An inserted row of a live key addresses the key: the live entry vouches for its literals. -/
theorem inserted (sound : state.Sound gens held undos) {row : Row} (seq : Option Nat)
    (live : encodeKey state.pkCols row ∈ state.entries) :
    ({ keyCols := state.pkCols, keyRow := projectKeyRow state.pkCols row, kind := .upsert row,
       seq } : KeyedOp).Addresses state.pkCols (encodeKey state.pkCols row) := by
  obtain ⟨entry, found⟩ := Option.isSome_iff_exists.mp (AList.lookup_isSome.mpr live)
  have old := (sound.live _ entry found).1
  refine ⟨rfl, rfl, old.sized, old.literal, fun other mem => ?_⟩
  cases List.mem_singleton.mp mem
  rfl

/-- A flusher takes the live entries: no statement can take anything back. -/
theorem take (sound : state.Sound gens held undos) :
    { state with claimedBelow := state.nextStamp }.Sound gens (keyedItems state.entries)
      undos where
  claimed := le_refl _
  live := sound.live
  flushed := sound.flushed
  holding := by
    rintro ⟨key, stamp, op⟩ mem
    have found := mem_keyedItems.mp mem
    exact ⟨(sound.live key _ found).1, (sound.live key _ found).2, _, found, le_refl _⟩
  fresh := sound.fresh
  distinct := sound.distinct
  undoable undo mem unclaimed := absurd unclaimed (sound.fresh undo mem).not_ge
  displaced undo mem unclaimed := absurd unclaimed (sound.fresh undo mem).not_ge
  overHeld undo mem unclaimed := absurd unclaimed (sound.fresh undo mem).not_ge
  overOlder _ _ older isOlder unclaimed := absurd unclaimed (sound.fresh older isOlder).not_ge

/-- Other entries take the place of the live ones, under which every record that can be taken
back is still live. -/
theorem replace (sound : state.Sound gens held undos) {entries : KeyedMap}
    (live : ∀ key entry, entries.lookup key = some entry →
      entry.op.Addresses state.pkCols key ∧ entry.stamp < state.nextStamp)
    (holding : ∀ item ∈ held, KeyedMap.LiveFrom entries item.1 item.2.1)
    (undoable : ∀ undo ∈ undos, state.claimedBelow ≤ undo.2.1 →
      KeyedMap.LiveFrom entries undo.1 undo.2.1) :
    { state with entries := entries }.Sound gens held undos where
  claimed := sound.claimed
  live := live
  flushed := sound.flushed
  holding item mem :=
    ⟨(sound.holding item mem).1, (sound.holding item mem).2.1, holding item mem⟩
  fresh := sound.fresh
  distinct := sound.distinct
  undoable := undoable
  displaced := sound.displaced
  overHeld := sound.overHeld
  overOlder := sound.overOlder

/-- The held entries leave the map and the flusher's hands. -/
theorem drain (sound : state.Sound gens held undos) :
    { state with entries := held.foldl drainKey state.entries }.Sound gens [] undos := by
  refine (sound.fewer (fun gen mem => ⟨gen, mem, rfl⟩) (by simp) (List.Sublist.refl _)).replace
    (fun key entry found => sound.live key entry (lookup_drain_of_some found)) (by simp) ?_
  intro undo mem unclaimed
  obtain ⟨entry, found, newer⟩ := sound.undoable undo mem unclaimed
  refine ⟨entry, lookup_drain_of_newer found fun item isItem _ stamp => ?_, newer⟩
  have below := (sound.holding item isItem).2.1
  omega

/-- One more generation, of entries that were live. -/
theorem flush (sound : state.Sound gens held undos) {gen : FlushedGen}
    (keyed : ∀ item ∈ gen.keyed,
      item.2.2.Addresses state.pkCols item.1 ∧ item.2.1 < state.nextStamp) :
    state.Sound (gens ++ [gen]) held undos :=
  { sound with
    flushed := by
      intro other mem
      rcases List.mem_append.mp mem with old | new
      · exact sound.flushed other old
      · cases List.mem_singleton.mp new
        exact keyed }

/-- The entries of a generation come back where their keys are not live. -/
theorem restore (sound : state.Sound gens held undos) {gen : FlushedGen} (mem : gen ∈ gens) :
    { state with entries := gen.keyed.foldl restoreKey state.entries }.Sound gens held undos := by
  have stays {key : Key} {stamp : Nat} (live : KeyedMap.LiveFrom state.entries key stamp) :
      KeyedMap.LiveFrom (gen.keyed.foldl restoreKey state.entries) key stamp := by
    obtain ⟨entry, found, newer⟩ := live
    exact ⟨entry, lookup_restore_of_live found, newer⟩
  refine sound.replace (fun key entry found => ?_)
    (fun item isItem => stays (sound.holding item isItem).2.2)
    fun undo isUndo unclaimed => stays (sound.undoable undo isUndo unclaimed)
  rcases lookup_restore_cases found with old | restored
  · exact sound.live key entry old
  · exact sound.flushed gen mem _ restored

/-- A failed statement takes one entry back. -/
theorem unroute {undo : Undo} (sound : state.Sound gens held (undo :: undos))
    (unclaimed : state.claimedBelow ≤ undo.2.1) :
    { state with entries := unrouteKey state.entries undo }.Sound gens held undos := by
  obtain ⟨key, stamp, displaced⟩ := undo
  have rest : state.Sound gens held undos :=
    sound.fewer (fun gen mem => ⟨gen, mem, rfl⟩) (fun _ mem => mem) (List.sublist_cons_self _ _)
  by_cases isOwn : ∃ entry, state.entries.lookup key = some entry ∧ entry.stamp = stamp
  · obtain ⟨entry, found, isOwn⟩ := isOwn
    have lookup := lookup_unroute_of_own displaced found isOwn
    -- what else is tied to the key is older, and was displaced or is older still
    have stays {other : Key} {older : Nat} (live : KeyedMap.LiveFrom state.entries other older)
        (covers : other = key → ∃ prev, displaced = some prev ∧ older ≤ prev.stamp) :
        KeyedMap.LiveFrom (unrouteKey state.entries (key, stamp, displaced)) other older := by
      by_cases same : other = key
      · obtain ⟨prev, isPrev, newer⟩ := covers same
        exact ⟨prev, by rw [lookup, if_pos same, isPrev], newer⟩
      · obtain ⟨entry, found, newer⟩ := live
        exact ⟨entry, by rwa [lookup, if_neg same], newer⟩
    apply rest.replace
    · intro other after isAfter
      rw [lookup] at isAfter
      split at isAfter
      · next same => exact same ▸ sound.displaced _ List.mem_cons_self unclaimed after isAfter
      · exact rest.live other after isAfter
    · intro item isItem
      exact stays (rest.holding item isItem).2.2
        (sound.overHeld _ List.mem_cons_self unclaimed item isItem)
    · intro older isOlder olderUnclaimed
      have live := rest.undoable older isOlder olderUnclaimed
      refine stays live fun same => ?_
      apply sound.overOlder _ List.mem_cons_self older (List.mem_cons_of_mem _ isOlder)
        olderUnclaimed same
      -- it is not newer than the live entry, and stamps are distinct
      obtain ⟨other, otherFound, newer⟩ := live
      rw [same, found] at otherFound
      cases otherFound
      have apart : older.2.1 ≠ stamp := by
        intro equal
        exact (List.nodup_cons.mp sound.distinct).1 (List.mem_map.mpr ⟨older, isOlder, equal⟩)
      dsimp only
      omega
  · rw [unrouteKey_of_other fun entry found isStamp => isOwn ⟨entry, found, isStamp⟩]
    exact rest

/-- A failed statement takes all its entries back. -/
theorem unrouteAll {own : List Undo} (sound : state.Sound gens held (own ++ undos))
    (unclaimed : ∀ undo ∈ own, state.claimedBelow ≤ undo.2.1) :
    { state with entries := own.foldl unrouteKey state.entries }.Sound gens held undos := by
  induction own generalizing state with
  | nil => exact sound
  | cons undo rest ih =>
      exact ih (sound.unroute (unclaimed undo List.mem_cons_self)) fun other mem =>
        unclaimed other (List.mem_cons_of_mem _ mem)

/-- The declaration changes while no key is buffered. -/
theorem redeclare (sound : state.Sound gens held undos) (pkCols : List Nat)
    (noEntries : state.entries.keys = []) (noGens : ∀ gen ∈ gens, gen.keyed = []) :
    { state with pkCols := pkCols }.Sound gens held undos := by
  have nothing {key : Key} {stamp : Nat} : ¬ KeyedMap.LiveFrom state.entries key stamp := by
    rintro ⟨entry, found, -⟩
    have mem : key ∈ state.entries.keys := AList.mem_keys.mp (AList.lookup_isSome.mp (by
      rw [found]
      rfl))
    rw [noEntries] at mem
    cases mem
  refine
    { claimed := sound.claimed
      live := fun key entry found => absurd ⟨entry, found, le_refl _⟩ nothing
      flushed := fun gen mem item isItem => by simp [noGens gen mem] at isItem
      holding := fun item mem => absurd (sound.holding item mem).2.2 nothing
      fresh := sound.fresh
      distinct := sound.distinct
      undoable := sound.undoable
      displaced := fun undo mem unclaimed =>
        absurd (sound.undoable undo mem unclaimed) nothing
      overHeld := sound.overHeld
      overOlder := sound.overOlder }

end KeyedState.Sound

/-! ## The buffer of a table -/

namespace TableBuf

/-- The keyed operations of the buffer belong together. Without keyed state there are none. -/
def Sound (buf : TableBuf) (held : List KeyedItem) (undos : List Undo) : Prop :=
  match buf.keyed with
  | some state => state.Sound buf.flushed held undos
  | none => (∀ gen ∈ buf.flushed, gen.keyed = []) ∧ held = [] ∧ undos = []

variable {buf : TableBuf} {held : List KeyedItem} {undos : List Undo}

theorem sound_some {state : KeyedState} (known : buf.keyed = some state) :
    buf.Sound held undos ↔ state.Sound buf.flushed held undos := by
  rw [Sound, known]

theorem sound_none (unknown : buf.keyed = none) :
    buf.Sound held undos ↔
      (∀ gen ∈ buf.flushed, gen.keyed = []) ∧ held = [] ∧ undos = [] := by
  rw [Sound, unknown]

/-- Only the keyed state and the generations count. -/
theorem Sound.congr {other : TableBuf} (sound : buf.Sound held undos)
    (keyed : other.keyed = buf.keyed) (flushed : other.flushed = buf.flushed) :
    other.Sound held undos := by
  rw [Sound, keyed, flushed]
  exact sound

theorem Sound.fewer (sound : buf.Sound held undos) {other : TableBuf} {holds : List KeyedItem}
    {left : List Undo} (keyed : other.keyed = buf.keyed)
    (gens : ∀ gen ∈ other.flushed, ∃ old ∈ buf.flushed, gen.keyed = old.keyed)
    (items : ∀ item ∈ holds, item ∈ held) (records : left.Sublist undos) :
    other.Sound holds left := by
  cases known : buf.keyed with
  | some state =>
      rw [sound_some (keyed.trans known)]
      exact ((sound_some known).mp sound).fewer gens items records
  | none =>
      obtain ⟨plain, rfl, rfl⟩ := (sound_none known).mp sound
      rw [sound_none (keyed.trans known)]
      refine ⟨fun gen mem => ?_, List.eq_nil_iff_forall_not_mem.mpr fun item mem => ?_,
        List.sublist_nil.mp records⟩
      · obtain ⟨old, isOld, same⟩ := gens gen mem
        rw [same, plain old isOld]
      · cases items item mem

/-- A sound buffer reads and flushes the same rows. -/
theorem Sound.well (sound : buf.Sound held undos) : buf.Well := by
  cases known : buf.keyed with
  | some state =>
      have sound := (sound_some known).mp sound
      refine ⟨fun gen mem item isItem => ?_, fun key entry found => ?_, fun none => ?_⟩
      · rw [pkCols_of_keyed known]
        exact (sound.flushed gen mem item isItem).1
      · rw [entries_of_keyed known] at found
        rw [pkCols_of_keyed known]
        exact (sound.live key entry found).1
      · rw [known] at none
        cases none
  | none =>
      obtain ⟨plain, -, -⟩ := (sound_none known).mp sound
      refine ⟨fun gen mem item isItem => ?_, fun key entry found => ?_, fun _ => plain⟩
      · rw [plain gen mem] at isItem
        cases isItem
      · simp [entries, known] at found

/-- Routing keeps the keyed operations together. -/
theorem Sound.routes {seq : Option Nat} {result : TableBuf × RoutedStmt} {ops : List RowOp}
    (sound : buf.Sound held undos) (routes : Routes seq buf result ops) :
    result.1.Sound held (undos ++ result.2.keyed) ∧ result.1.flushed = buf.flushed := by
  induction routes with
  | start =>
      rw [List.append_nil]
      exact ⟨sound, rfl⟩
  | push prior batch misses ih => exact ⟨ih.1.congr rfl rfl, ih.2⟩
  | hit prior state row known live ih =>
      obtain ⟨before, gens⟩ := ih
      have before := (sound_some known).mp before
      have after := before.overwrite _ (before.inserted seq live)
      rw [List.append_assoc] at after
      exact ⟨after, gens⟩

end TableBuf

end Icegres.Buffer
