import Icegres.Tail.Receiving

/-!
# Sealing a failed segment

Whatever the disk refuses while a failed segment is sealed, the segment keeps the frames up to its
durable boundary: it is cut there, or clamped there by its marker, or left with all of its frames,
and it is only removed when it has none that are durable.
-/

namespace Icegres.Tail

variable {Batches : Type} {decodeIpc : List UInt8 → Except String Batches}

/-! ## Changing the last file -/

section LastFile

variable {log : TableLog} {front : List SegmentFile} {file : SegmentFile} {id : Nat}

theorem onFile_last (isDir : log.dir = front ++ [file]) (own : file.id = id)
    (others : ∀ other ∈ front, other.id ≠ id) (change : SegmentFile → SegmentFile) :
    log.onFile id change = { log with dir := front ++ [change file] } := by
  have same : front.map (fun other => if other.id = id then change other else other) = front := by
    refine (List.map_congr_left fun other mem => ?_).trans (List.map_id front)
    exact if_neg (others other mem)
  unfold TableLog.onFile
  rw [isDir, List.map_append, same, List.map_singleton, if_pos own]

theorem removeFile_last (isDir : log.dir = front ++ [file]) (own : file.id = id)
    (others : ∀ other ∈ front, other.id ≠ id) :
    log.removeFile (segmentName id) = { log with dir := front } := by
  have stay : front.filter (fun other => segmentName other.id ≠ segmentName id) = front := by
    refine List.filter_eq_self.mpr fun other mem => decide_eq_true fun same => ?_
    exact others other mem (segmentName_inj same)
  unfold TableLog.removeFile
  rw [isDir, List.filter_append, stay, List.filter_cons_of_neg (by simp [own]), List.filter_nil,
    List.append_nil]

/-- In front of the last file are smaller ids. -/
theorem Ordered.front_ne (ordered : Ordered (front ++ [file])) :
    ∀ other ∈ front, other.id ≠ file.id := by
  intro other mem
  exact Nat.ne_of_lt ((List.pairwise_append.mp ordered).2.2 other mem file (by simp))

theorem Ordered.change_last (ordered : Ordered (front ++ [file])) {new : SegmentFile}
    (same : new.id = file.id) : Ordered (front ++ [new]) := by
  obtain ⟨fronts, -, before⟩ := List.pairwise_append.mp ordered
  refine List.pairwise_append.mpr ⟨fronts, List.pairwise_singleton _ _, ?_⟩
  intro other mem last own
  rw [List.mem_singleton.mp own, same]
  exact before other mem file (by simp)

end LastFile

/-! ## What is left of the file -/

section Sealed

variable {log : TableLog} {wal : TableWal} {active : ActiveSegment} {front : List SegmentFile}
  {kept later : List (Written Batches)} {torn : List UInt8}

/-- A file with these frames, and whatever is left of the ones behind. -/
def Leaves (decodeIpc : List UInt8 → Except String Batches) (front : List SegmentFile) (id : Nat)
    (kept later : List (Written Batches)) (dir : List SegmentFile) : Prop :=
  ∃ file rest, dir = front ++ [file] ∧ file.id = id ∧ (rest = [] ∨ rest = later) ∧
    Reads decodeIpc file ((kept ++ rest).map Prod.snd)

/-- A rollback to a boundary cuts everything behind it off, or nothing. -/
theorem rollBack_last
    (isDir : log.dir = front ++ [⟨active.id, bytesOf (kept ++ later) ++ torn, none⟩])
    (others : ∀ other ∈ front, other.id ≠ active.id) (isTorn : Torn decodeIpc torn)
    (outcome : RollBack) :
    ∃ rest left, (rest = [] ∨ rest = later) ∧ Torn decodeIpc left ∧
      (log.rollBackSegment active.id (bytesOf kept).length outcome).1 =
        { log with dir := front ++ [⟨active.id, bytesOf (kept ++ rest) ++ left, none⟩] } := by
  have isCut : log.cut active.id (bytesOf kept).length =
      { log with dir := front ++ [⟨active.id, bytesOf (kept ++ []) ++ [], none⟩] } := by
    unfold TableLog.cut
    refine (onFile_last isDir rfl others _).trans ?_
    simp
  cases outcome with
  | done => exact ⟨[], [], .inl rfl, torn_nil, isCut⟩
  | unsynced why => exact ⟨[], [], .inl rfl, torn_nil, isCut⟩
  | uncut why =>
      refine ⟨later, torn, .inr rfl, isTorn, ?_⟩
      rw [← isDir]
      rfl

/-- The marker, if one is written, keeps the same frames. -/
theorem leaves_of_marker {rest : List (Written Batches)} {left : List UInt8}
    (genuine : Genuine decodeIpc (kept ++ rest)) (isTorn : Torn decodeIpc left)
    (isRest : rest = [] ∨ rest = later) (id nextSeq : Nat) (front : List SegmentFile)
    (marked : Prop) [Decidable marked] :
    Leaves decodeIpc front id kept later (front ++ [⟨id, bytesOf (kept ++ rest) ++ left,
      if marked then some (poisonMarkerText (bytesOf kept).length nextSeq) else none⟩]) := by
  by_cases isMarked : marked
  · rw [if_pos isMarked]
    obtain ⟨stay, isStay, reads⟩ := reads_marked id nextSeq genuine isTorn
    refine ⟨_, stay, rfl, rfl, ?_, reads⟩
    rcases isStay with rfl | rfl
    · exact .inl rfl
    · exact isRest
  · rw [if_neg isMarked]
    exact ⟨_, rest, rfl, rfl, isRest, reads_written id genuine isTorn⟩

/-- Cut at its durable boundary, or clamped there, the file keeps the frames before it. -/
theorem clamp_last (disk : Disk) {group : SegSync} (nextSeq : Nat)
    (isDir : log.dir = front ++ [⟨active.id, bytesOf (kept ++ later) ++ torn, none⟩])
    (others : ∀ other ∈ front, other.id ≠ active.id)
    (genuine : Genuine decodeIpc (kept ++ later)) (isTorn : Torn decodeIpc torn)
    (isLen : (bytesOf kept).length = group.syncedLen) :
    ∃ file, file.id = active.id ∧ Leaves decodeIpc front active.id kept later (front ++ [file]) ∧
      log.clampFailed disk active group nextSeq = { log with dir := front ++ [file] } := by
  obtain ⟨rest, left, isRest, isLeft, rolled⟩ :=
    rollBack_last isDir others isTorn disk.erase
  rw [isLen] at rolled
  have restGenuine : Genuine decodeIpc (kept ++ rest) := by
    rcases isRest with rfl | rfl
    · intro frame mem
      rw [List.append_nil] at mem
      exact genuine frame (List.mem_append_left _ mem)
    · exact genuine
  unfold TableLog.clampFailed
  dsimp only
  rw [rolled]
  split
  · have leaves := leaves_of_marker restGenuine isLeft isRest active.id nextSeq front True
    rw [if_pos trivial, isLen] at leaves
    have marked := @onFile_last
      { log with dir := front ++ [⟨active.id, bytesOf (kept ++ rest) ++ left, none⟩] } front
      ⟨active.id, bytesOf (kept ++ rest) ++ left, none⟩ active.id rfl rfl others fun file =>
        { file with marker := some (poisonMarkerText group.syncedLen nextSeq) }
    exact ⟨_, rfl, leaves, marked⟩
  · have leaves := leaves_of_marker restGenuine isLeft isRest active.id nextSeq front False
    rw [if_neg not_false] at leaves
    exact ⟨_, rfl, leaves, rfl⟩

/-- A failed segment is sealed with the frames before its durable boundary. -/
theorem sealFailed_spec (disk : Disk) {group : SegSync}
    (isDir : log.dir = front ++ [⟨active.id, bytesOf (kept ++ later) ++ torn, none⟩])
    (others : ∀ other ∈ front, other.id ≠ active.id)
    (genuine : Genuine decodeIpc (kept ++ later)) (isTorn : Torn decodeIpc torn)
    (isLen : (bytesOf kept).length = group.syncedLen) :
    ∃ dir sealed, TableLog.sealFailed disk wal active group log =
        { log with dir := dir, entry := some { wal with active := none, sealed := sealed } } ∧
      (∀ segment ∈ sealed, segment ∈ wal.sealed ∨ segment.1 = segmentName active.id) ∧
      (Leaves decodeIpc front active.id kept later dir ∨ dir = front ∧ kept = []) := by
  obtain ⟨file, own, leaves, clamped⟩ :=
    clamp_last disk wal.nextSeq isDir others genuine isTorn isLen
  unfold TableLog.sealFailed
  dsimp only
  rw [clamped]
  split
  · refine ⟨_, _, rfl, fun segment mem => ?_, .inl leaves⟩
    rcases List.mem_append.mp mem with old | new
    · exact .inl old
    · exact .inr (congrArg Prod.fst (List.mem_singleton.mp new))
  · next short =>
    split
    · refine ⟨front, wal.sealed, ?_, fun segment mem => .inl mem, .inr ⟨rfl, ?_⟩⟩
      · exact removeFile_last rfl own others
      · exact eq_nil_of_bytesOf (by omega)
    · exact ⟨_, wal.sealed, rfl, fun segment mem => .inl mem, .inl leaves⟩

theorem readable_front {file : SegmentFile}
    (readable : Readable decodeIpc (front ++ [file])) : Readable decodeIpc front :=
  fun other mem => readable other (List.mem_append_left _ mem)

/-- Of the frames that the directory replayed only some behind the durable boundary are gone. -/
theorem replays_leaves {old : SegmentFile} {dir : List SegmentFile}
    (readable : Readable decodeIpc front)
    (reads : Reads decodeIpc old ((kept ++ later).map Prod.snd))
    (isLeft : Leaves decodeIpc front active.id kept later dir ∨ dir = front ∧ kept = []) :
    ∃ stay lost, Replays decodeIpc (front ++ [old]) (stay ++ lost) ∧ Replays decodeIpc dir stay ∧
      ∀ frame ∈ lost, frame ∈ later.map Prod.snd := by
  rw [List.map_append] at reads
  rcases isLeft with ⟨file, rest, rfl, -, isRest, rereads⟩ | ⟨rfl, rfl⟩
  · rw [List.map_append] at rereads
    exact replays_cut readable reads rereads
      (isRest.imp (congrArg (List.map Prod.snd)) (congrArg (List.map Prod.snd)))
  · exact replays_gone readable reads

theorem Leaves.readable {dir : List SegmentFile} {id : Nat} (readable : Readable decodeIpc front)
    (leaves : Leaves decodeIpc front id kept later dir) : Readable decodeIpc dir := by
  obtain ⟨file, rest, rfl, -, -, reads⟩ := leaves
  intro other mem
  rcases List.mem_append.mp mem with inFront | last
  · exact readable other inFront
  · rw [List.mem_singleton.mp last]
    exact ⟨_, reads⟩

end Sealed

/-! ## Cleaning up -/

section Cleanup

variable {log : TableLog} {wal : TableWal} {active : ActiveSegment} {front : List SegmentFile}
  {written : List (Written Batches)} {torn : List UInt8}

/-- The boundary stays where it is once a failure is noted. -/
theorem syncedLen_failedGroup (disk : Disk) (why : String) (group : SegSync) :
    (TableLog.failedGroup disk why group).syncedLen = group.syncedLen := by
  unfold TableLog.failedGroup SegSync.complete
  dsimp only
  split
  · rfl
  · split
    · rfl
    · rw [if_neg (by simp)]

/-- No segment receives appends. -/
def Idle (log : TableLog) : Prop :=
  ∃ wal, log.entry = some wal ∧ wal.active = none

/-- The active segment is cleaned up: the bookkeeping is in order, and all frames are left but some
of unacknowledged statements. -/
theorem cleanup_spec (disk : Disk) (why : String) (isEntry : log.entry = some wal)
    (isActive : wal.active = some active) (booked : Booked log wal) (ordered : Ordered log.dir)
    (readable : Readable decodeIpc log.dir)
    (receiving : Receiving decodeIpc log active front written torn) :
    Sound decodeIpc (log.cleanupFailedSegment disk active.id why) ∧
      Idle (log.cleanupFailedSegment disk active.id why) ∧
      (log.cleanupFailedSegment disk active.id why).waiting = log.waiting ∧
      (log.cleanupFailedSegment disk active.id why).unacked = log.unacked ∧
      StillReplays decodeIpc log (log.cleanupFailedSegment disk active.id why) := by
  obtain ⟨isDir, genuine, isTorn, -, fits⟩ := receiving
  obtain ⟨kept, later, rfl, isLen, beyond⟩ := fits.synced
  rw [isDir] at ordered readable
  have others := ordered.front_ne
  have cleaned : log.cleanupFailedSegment disk active.id why =
      TableLog.sealFailed disk wal active
        (TableLog.failedGroup disk why (log.syncs active.id))
        (log.setSync active.id (TableLog.failedGroup disk why (log.syncs active.id))) := by
    unfold TableLog.cleanupFailedSegment
    rw [fits.unclean]
    simp [TableLog.setSync, isEntry, isActive]
  have isLen' : (bytesOf kept).length =
      (TableLog.failedGroup disk why (log.syncs active.id)).syncedLen :=
    isLen.trans (syncedLen_failedGroup _ _ _).symm
  obtain ⟨dir, sealed, after, isSealed, isLeft⟩ :=
    @sealFailed_spec _ decodeIpc
      (log.setSync active.id (TableLog.failedGroup disk why (log.syncs active.id))) wal active
      front kept later torn disk _ isDir others genuine isTorn isLen'
  have frontReadable := readable_front readable
  have reads := reads_written active.id genuine isTorn
  have idBelow : active.id < wal.nextSegment :=
    booked.below ⟨active.id, bytesOf (kept ++ later) ++ torn, none⟩ (by rw [isDir]; simp)
  have dirOrdered : Ordered dir := by
    rcases isLeft with ⟨last, rest, rfl, own, -⟩ | ⟨rfl, -⟩
    · exact ordered.change_last own
    · exact (List.pairwise_append.mp ordered).1
  have dirReadable : Readable decodeIpc dir := by
    rcases isLeft with leaves | ⟨rfl, -⟩
    · exact leaves.readable frontReadable
    · exact frontReadable
  have dirBelow : ∀ file ∈ dir, file.id < wal.nextSegment := by
    intro file mem
    have inFront : file ∈ front → file.id < wal.nextSegment := fun inside =>
      booked.below file (by rw [isDir]; exact List.mem_append_left _ inside)
    rcases isLeft with ⟨last, rest, rfl, own, -⟩ | ⟨rfl, -⟩
    · rcases List.mem_append.mp mem with inside | isLast
      · exact inFront inside
      · rw [List.mem_singleton.mp isLast, own]
        exact idBelow
    · exact inFront mem
  rw [cleaned, after]
  refine ⟨sound_of_loaded rfl dirOrdered dirReadable ⟨⟨dirBelow, fun segment mem => ?_,
    booked.earlier⟩, by rintro _ ⟨⟩⟩, ⟨_, rfl, rfl⟩, rfl, rfl, ?_⟩
  · rcases isSealed segment mem with old | new
    · obtain ⟨id, isBelow, isName, -⟩ := booked.isSealed segment old
      exact ⟨id, isBelow, isName, by rintro _ ⟨⟩⟩
    · exact ⟨active.id, idBelow, new, by rintro _ ⟨⟩⟩
  · obtain ⟨stay, lost, whole, left, isLost⟩ := replays_leaves frontReadable reads isLeft
    refine ⟨stay, lost, isDir ▸ whole, left, fun frame mem => ?_⟩
    obtain ⟨lostFrame, isLater, rfl⟩ := List.mem_map.mp (isLost frame mem)
    obtain ⟨seq, isUnacked, isSeq, -⟩ := beyond lostFrame isLater
    exact ⟨seq, isUnacked, isSeq⟩

end Cleanup

end Icegres.Tail
