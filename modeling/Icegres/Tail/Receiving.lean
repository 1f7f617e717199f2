import Icegres.Tail.Replays

/-!
# The segment that receives appends

What is in the active segment's file, and how far it is acknowledged: behind the durable boundary
of its group, and behind the boundary that the fsync in flight will reach, every frame is one of
a statement that nobody was told is durable.
-/

namespace Icegres.Tail

variable {Batches : Type} {decodeIpc : List UInt8 → Except String Batches}

/-! ## Boundaries -/

section Boundary

variable {waiting : List Waiter} {unacked : List Nat} {id len : Nat}
  {written : List (Written Batches)}

/-- These frames are of unacknowledged statements, and whoever waits for one of them waits for
more of the segment than `len` bytes. -/
def Beyond (waiting : List Waiter) (unacked : List Nat) (id len : Nat)
    (later : List (Written Batches)) : Prop :=
  ∀ frame ∈ later, ∃ seq ∈ unacked, frame.2.1 = seq % 2 ^ 64 ∧
    ∀ waiter ∈ waiting, waiter.seq = seq → waiter.segment = id ∧ len < waiter.myEnd

/-- The frames of a segment are split at `len`. -/
def Boundary (waiting : List Waiter) (unacked : List Nat) (id : Nat)
    (written : List (Written Batches)) (len : Nat) : Prop :=
  ∃ kept later, written = kept ++ later ∧ (bytesOf kept).length = len ∧
    Beyond waiting unacked id len later

theorem Boundary.le (boundary : Boundary waiting unacked id written len) :
    len ≤ (bytesOf written).length := by
  obtain ⟨kept, later, rfl, rfl, -⟩ := boundary
  rw [bytesOf_append, List.length_append]
  exact Nat.le_add_right _ _

/-- At the end of a segment nothing is behind. -/
theorem boundary_end : Boundary waiting unacked id written (bytesOf written).length :=
  ⟨written, [], (List.append_nil _).symm, rfl, by rintro frame ⟨⟩⟩

/-- A waiter that leaves takes no boundary away. -/
theorem Boundary.fewer {fewer : List Waiter} (sub : ∀ waiter ∈ fewer, waiter ∈ waiting)
    (boundary : Boundary waiting unacked id written len) :
    Boundary fewer unacked id written len := by
  obtain ⟨kept, later, isWritten, isLen, beyond⟩ := boundary
  refine ⟨kept, later, isWritten, isLen, fun frame mem => ?_⟩
  obtain ⟨seq, isUnacked, isSeq, waits⟩ := beyond frame mem
  exact ⟨seq, isUnacked, isSeq, fun waiter isWaiter => waits waiter (sub waiter isWaiter)⟩

/-- A statement that is acknowledged has its frame before the boundary. -/
theorem Boundary.acknowledge {waiter : Waiter} (isWaiter : waiter ∈ waiting)
    (reached : waiter.segment = id → waiter.myEnd ≤ len)
    (boundary : Boundary waiting unacked id written len) :
    Boundary waiting (unacked.filter fun seq => seq ≠ waiter.seq) id written len := by
  obtain ⟨kept, later, isWritten, isLen, beyond⟩ := boundary
  refine ⟨kept, later, isWritten, isLen, fun frame mem => ?_⟩
  obtain ⟨seq, isUnacked, isSeq, waits⟩ := beyond frame mem
  refine ⟨seq, List.mem_filter.mpr ⟨isUnacked, ?_⟩, isSeq, waits⟩
  rw [decide_eq_true_iff]
  rintro rfl
  obtain ⟨own, short⟩ := waits waiter isWaiter rfl
  exact absurd (reached own) (Nat.not_le.mpr short)

/-- A frame at the end is behind every boundary. -/
theorem Boundary.push {frame : Written Batches} {waiter : Waiter}
    (own : waiter.segment = id) (ends : (bytesOf written).length < waiter.myEnd)
    (earlier : ∀ other ∈ waiting, other.seq < waiter.seq)
    (isSeq : frame.2.1 = waiter.seq % 2 ^ 64)
    (boundary : Boundary waiting unacked id written len) :
    Boundary (waiting ++ [waiter]) (unacked ++ [waiter.seq]) id (written ++ [frame]) len := by
  have short := boundary.le
  obtain ⟨kept, later, rfl, rfl, beyond⟩ := boundary
  refine ⟨kept, later ++ [frame], List.append_assoc _ _ _, rfl, fun other mem => ?_⟩
  have waits : waiter.segment = id ∧ (bytesOf kept).length < waiter.myEnd := ⟨own, by omega⟩
  rcases List.mem_append.mp mem with old | new
  · obtain ⟨seq, isUnacked, isOther, others⟩ := beyond other old
    refine ⟨seq, List.mem_append_left _ isUnacked, isOther, fun some' isSome same => ?_⟩
    rcases List.mem_append.mp isSome with before | last
    · exact others some' before same
    · rw [List.mem_singleton.mp last]
      exact waits
  · rw [List.mem_singleton.mp new]
    refine ⟨waiter.seq, by simp, isSeq, fun some' isSome same => ?_⟩
    rcases List.mem_append.mp isSome with before | last
    · exact absurd same (Nat.ne_of_lt (earlier some' before))
    · rw [List.mem_singleton.mp last]
      exact waits

end Boundary

/-! ## Groups -/

/-- The group of a segment with these frames, whose failure was not cleaned up. -/
structure GroupFits (waiting : List Waiter) (unacked : List Nat) (id : Nat)
    (written : List (Written Batches)) (group : SegSync) : Prop where
  writtenLen : group.writtenLen = (bytesOf written).length
  unclean : group.cleaned = false
  synced : Boundary waiting unacked id written group.syncedLen
  target : ∀ len seq, group.syncing = some (len, seq) →
    Boundary waiting unacked id written len ∧ group.syncedLen ≤ len

namespace GroupFits

variable {waiting : List Waiter} {unacked : List Nat} {id : Nat}
  {written : List (Written Batches)} {group : SegSync}

theorem lead (fits : GroupFits waiting unacked id written group) :
    GroupFits waiting unacked id written group.lead where
  writtenLen := fits.writtenLen
  unclean := fits.unclean
  synced := fits.synced
  target := by
    rintro len seq ⟨⟩
    rw [fits.writtenLen]
    exact ⟨boundary_end, fits.synced.le⟩

theorem complete (fits : GroupFits waiting unacked id written group) (result : Option String) :
    GroupFits waiting unacked id written (group.complete result) := by
  unfold SegSync.complete
  split
  · exact fits
  · next len seq isTarget =>
      obtain ⟨reached, more⟩ := fits.target len seq isTarget
      split
      · exact ⟨fits.writtenLen, fits.unclean, fits.synced, by rintro _ _ ⟨⟩⟩
      · split
        · refine ⟨fits.writtenLen, fits.unclean, ?_, by rintro _ _ ⟨⟩⟩
          dsimp only
          rwa [Nat.max_eq_right more]
        · exact ⟨fits.writtenLen, fits.unclean, fits.synced, by rintro _ _ ⟨⟩⟩

theorem waitFor (fits : GroupFits waiting unacked id written group) (myEnd : Nat)
    (landing own : Option String) :
    GroupFits waiting unacked id written (group.waitFor myEnd landing own).1 := by
  unfold SegSync.waitFor
  dsimp only
  split
  · exact fits
  · split
    · exact fits
    · split
      · exact fits.complete landing
      · split
        · exact fits.complete landing
        · exact ((fits.complete landing).lead).complete own

theorem fewer {fewer : List Waiter} (sub : ∀ waiter ∈ fewer, waiter ∈ waiting)
    (fits : GroupFits waiting unacked id written group) :
    GroupFits fewer unacked id written group where
  writtenLen := fits.writtenLen
  unclean := fits.unclean
  synced := fits.synced.fewer sub
  target len seq isTarget :=
    ⟨(fits.target len seq isTarget).1.fewer sub, (fits.target len seq isTarget).2⟩

theorem acknowledge {waiter : Waiter} (isWaiter : waiter ∈ waiting)
    (reached : waiter.segment = id → waiter.myEnd ≤ group.syncedLen)
    (fits : GroupFits waiting unacked id written group) :
    GroupFits waiting (unacked.filter fun seq => seq ≠ waiter.seq) id written group where
  writtenLen := fits.writtenLen
  unclean := fits.unclean
  synced := fits.synced.acknowledge isWaiter reached
  target len seq isTarget := by
    obtain ⟨boundary, more⟩ := fits.target len seq isTarget
    exact ⟨boundary.acknowledge isWaiter fun own => Nat.le_trans (reached own) more, more⟩

theorem push {frame : Written Batches} {waiter : Waiter} (own : waiter.segment = id)
    (ends : waiter.myEnd = (bytesOf (written ++ [frame])).length)
    (earlier : ∀ other ∈ waiting, other.seq < waiter.seq)
    (isSeq : frame.2.1 = waiter.seq % 2 ^ 64)
    (fits : GroupFits waiting unacked id written group) :
    GroupFits (waiting ++ [waiter]) (unacked ++ [waiter.seq]) id (written ++ [frame])
      { group with writtenLen := waiter.myEnd, writtenSeq := waiter.seq } := by
  have more : (bytesOf written).length < waiter.myEnd := by
    rw [ends, bytesOf_append, List.length_append, bytesOf_cons, List.length_append,
      Segment.frameOf_length, Segment.frameHeaderBytes]
    omega
  refine ⟨ends, fits.unclean, fits.synced.push own more earlier isSeq,
    fun len seq isTarget => ?_⟩
  obtain ⟨boundary, above⟩ := fits.target len seq isTarget
  exact ⟨boundary.push own more earlier isSeq, above⟩

end GroupFits

/-! ## Logs -/

/-- The last file is the active segment's, with these frames, torn bytes behind them, and no
marker. -/
structure Receiving (decodeIpc : List UInt8 → Except String Batches) (log : TableLog)
    (active : ActiveSegment) (front : List SegmentFile) (written : List (Written Batches))
    (torn : List UInt8) : Prop where
  isDir : log.dir = front ++ [⟨active.id, bytesOf written ++ torn, none⟩]
  genuine : Genuine decodeIpc written
  isTorn : Torn decodeIpc torn
  goodLen : active.goodLen = (bytesOf written).length
  fits : GroupFits log.waiting log.unacked active.id written (log.syncs active.id)

/-- The bookkeeping of a table knows the files and the statements: new ones get ids and sequences
of their own, and the sealed segments are not the active one. -/
structure Booked (log : TableLog) (wal : TableWal) : Prop where
  below : ∀ file ∈ log.dir, file.id < wal.nextSegment
  isSealed : ∀ segment ∈ wal.sealed, ∃ id < wal.nextSegment, segment.1 = segmentName id ∧
    ∀ active, wal.active = some active → id ≠ active.id
  earlier : ∀ waiter ∈ log.waiting,
    waiter.seq < wal.nextSeq ∧ waiter.segment < wal.nextSegment

/-- The bookkeeping of a table and what is on disk agree. -/
structure Loaded (decodeIpc : List UInt8 → Except String Batches) (log : TableLog)
    (wal : TableWal) : Prop where
  booked : Booked log wal
  receiving : ∀ active, wal.active = some active →
    ∃ front written, Receiving decodeIpc log active front written []

/-- What holds of a table's log in every state. -/
structure Sound (decodeIpc : List UInt8 → Except String Batches) (log : TableLog) : Prop where
  ordered : Ordered log.dir
  readable : Readable decodeIpc log.dir
  unopened : log.entry = none → log.waiting = [] ∧ ∀ file ∈ log.dir, file.id < 2 ^ 64
  loaded : ∀ wal, log.entry = some wal → Loaded decodeIpc log wal

theorem sound_of_loaded {log : TableLog} {wal : TableWal} (isEntry : log.entry = some wal)
    (ordered : Ordered log.dir) (readable : Readable decodeIpc log.dir)
    (loaded : Loaded decodeIpc log wal) : Sound decodeIpc log where
  ordered := ordered
  readable := readable
  unopened := by
    intro none'
    rw [isEntry] at none'
    cases none'
  loaded := by
    intro other isOther
    rw [isEntry] at isOther
    cases isOther
    exact loaded

/-- No statement was told that this frame is durable. Sequences are 64 bits wide. -/
def TableLog.Unacked (log : TableLog) (frame : SeqOp Batches) : Prop :=
  ∃ seq ∈ log.unacked, frame.1 = seq % 2 ^ 64

/-- Every acknowledged frame is replayed as before: what is missing are unacknowledged frames at
the end. -/
def StillReplays (decodeIpc : List UInt8 → Except String Batches) (before after : TableLog) :
    Prop :=
  ∃ stay lost, Replays decodeIpc before.dir (stay ++ lost) ∧ Replays decodeIpc after.dir stay ∧
    ∀ frame ∈ lost, before.Unacked frame

theorem Replays.unique {dir : List SegmentFile} {frames other : List (SeqOp Batches)}
    (replays : Replays decodeIpc dir frames) (replays' : Replays decodeIpc dir other) :
    frames = other := by
  obtain ⟨scan, scanned, rfl⟩ := replays
  obtain ⟨scan', scanned', rfl⟩ := replays'
  rw [scanned] at scanned'
  rw [Except.ok.inj scanned']

/-- A directory that replays the same keeps all frames. -/
theorem Sound.stillReplays {before after : TableLog} (sound : Sound decodeIpc before)
    (same : ∀ frames, Replays decodeIpc before.dir frames → Replays decodeIpc after.dir frames) :
    StillReplays decodeIpc before after := by
  obtain ⟨frames, replays⟩ := sound.readable.replays
  exact ⟨frames, [], by rwa [List.append_nil], same frames replays, by rintro frame ⟨⟩⟩

/-- A first change that leaves what is replayed, and then one that loses unacknowledged frames. -/
theorem Sound.stillReplays_trans {before middle after : TableLog} (sound : Sound decodeIpc before)
    (same : ∀ frames, Replays decodeIpc before.dir frames → Replays decodeIpc middle.dir frames)
    (unacked : middle.unacked = before.unacked) (still : StillReplays decodeIpc middle after) :
    StillReplays decodeIpc before after := by
  obtain ⟨frames, replays⟩ := sound.readable.replays
  obtain ⟨stay, lost, whole, left, isUnacked⟩ := still
  rw [(same frames replays).unique whole] at replays
  refine ⟨stay, lost, replays, left, fun frame mem => ?_⟩
  obtain ⟨seq, isSeq, isFrame⟩ := isUnacked frame mem
  exact ⟨seq, unacked ▸ isSeq, isFrame⟩

end Icegres.Tail
