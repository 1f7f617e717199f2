import Icegres.Tail.Appending

/-!
# The calls of the local WAL

Every call keeps the bookkeeping of its table in order, and a statement whose group fsync failed
is told so, without harm to a frame that is acknowledged.
-/

namespace Icegres.Tail

variable {Batches : Type} {encodeIpc : Batches → Except String (List UInt8)}
  {decodeIpc : List UInt8 → Except String Batches} {log : TableLog} {wal : TableWal}

/-! ## Groups and waiters -/

/-- Only the group of the active segment has to fit its file. -/
theorem Sound.setSync (sound : Sound decodeIpc log) {id : Nat} {group : SegSync}
    (fits : ∀ wal active, log.entry = some wal → wal.active = some active → active.id = id →
      ∀ written : List (Written Batches),
        GroupFits log.waiting log.unacked id written (log.syncs id) →
          GroupFits log.waiting log.unacked id written group) :
    Sound decodeIpc (log.setSync id group) := by
  refine ⟨sound.ordered, sound.readable, sound.unopened, fun wal isEntry => ?_⟩
  obtain ⟨booked, receives⟩ := sound.loaded wal isEntry
  refine ⟨⟨booked.below, booked.isSealed, booked.earlier⟩, fun active isActive => ?_⟩
  obtain ⟨front, written, receiving⟩ := receives active isActive
  refine ⟨front, written, receiving.isDir, receiving.genuine, receiving.isTorn,
    receiving.goodLen, ?_⟩
  by_cases own : active.id = id
  · have isGroup : (log.setSync id group).syncs active.id = group := if_pos own
    rw [isGroup]
    have before := receiving.fits
    rw [own] at before ⊢
    exact fits wal active isEntry isActive own written before
  · have isGroup : (log.setSync id group).syncs active.id = log.syncs active.id := if_neg own
    rw [isGroup]
    exact receiving.fits

theorem Sound.lead (sound : Sound decodeIpc log) (segment : Nat) :
    Sound decodeIpc (log.setSync segment (log.syncs segment).lead) :=
  sound.setSync fun _ _ _ _ _ _ fits => fits.lead

theorem Sound.complete (sound : Sound decodeIpc log) (segment : Nat) (result : Option String) :
    Sound decodeIpc (log.setSync segment ((log.syncs segment).complete result)) :=
  sound.setSync fun _ _ _ _ _ _ fits => fits.complete result

theorem Sound.waitFor (sound : Sound decodeIpc log) (segment myEnd : Nat)
    (landing own : Option String) :
    Sound decodeIpc (log.setSync segment ((log.syncs segment).waitFor myEnd landing own).1) :=
  sound.setSync fun _ _ _ _ _ _ fits => fits.waitFor myEnd landing own

theorem mem_dropWaiter {gone waiter : Waiter} (mem : waiter ∈ (log.dropWaiter gone).waiting) :
    waiter ∈ log.waiting :=
  List.mem_of_mem_erase mem

/-- A statement that waits no more changes nothing else. -/
theorem Sound.dropWaiter (sound : Sound decodeIpc log) (gone : Waiter) :
    Sound decodeIpc (log.dropWaiter gone) := by
  refine ⟨sound.ordered, sound.readable, fun none' => ?_, fun wal isEntry => ?_⟩
  · obtain ⟨noWaiter, fits⟩ := sound.unopened none'
    refine ⟨List.eq_nil_iff_forall_not_mem.mpr fun waiter mem => ?_, fits⟩
    have inside := mem_dropWaiter mem
    rw [noWaiter] at inside
    cases inside
  · obtain ⟨booked, receives⟩ := sound.loaded wal isEntry
    refine ⟨⟨booked.below, booked.isSealed,
      fun waiter mem => booked.earlier waiter (mem_dropWaiter mem)⟩, fun active isActive => ?_⟩
    obtain ⟨front, written, receiving⟩ := receives active isActive
    exact ⟨front, written, receiving.isDir, receiving.genuine, receiving.isTorn,
      receiving.goodLen, receiving.fits.fewer fun waiter mem => mem_dropWaiter mem⟩

/-- A statement is acknowledged only below the boundary of its segment. -/
theorem Sound.acknowledge (sound : Sound decodeIpc log) {waiter : Waiter}
    (isWaiter : waiter ∈ log.waiting)
    (reached : waiter.myEnd ≤ (log.syncs waiter.segment).syncedLen) :
    Sound decodeIpc (log.acknowledge waiter) := by
  refine ⟨sound.ordered, sound.readable, sound.unopened, fun wal isEntry => ?_⟩
  obtain ⟨booked, receives⟩ := sound.loaded wal isEntry
  refine ⟨⟨booked.below, booked.isSealed, booked.earlier⟩, fun active isActive => ?_⟩
  obtain ⟨front, written, receiving⟩ := receives active isActive
  refine ⟨front, written, receiving.isDir, receiving.genuine, receiving.isTorn,
    receiving.goodLen, receiving.fits.acknowledge isWaiter fun own => ?_⟩
  rw [← own]
  exact reached

/-! ## A statement that ends -/

/-- Of a segment that is not the active one only the group changes. -/
theorem cleanup_apart {id : Nat}
    (apart : ¬ ∃ wal active, log.entry = some wal ∧ wal.active = some active ∧ active.id = id)
    (disk : Disk) (why : String) :
    log.cleanupFailedSegment disk id why = log ∨
      ∃ group, log.cleanupFailedSegment disk id why = log.setSync id group := by
  unfold TableLog.cleanupFailedSegment
  split
  · exact .inl rfl
  · refine .inr ⟨TableLog.failedGroup disk why (log.syncs id), ?_⟩
    dsimp only
    split
    · rfl
    · next wal isEntry =>
      split
      · rfl
      · next active isActive =>
        exact if_neg fun same => apart ⟨wal, active, isEntry, isActive, same⟩

/-- A failed group is cleaned up: only frames of unacknowledged statements can be gone, and if it
was the active segment's, no segment receives appends. -/
theorem Sound.cleanup (sound : Sound decodeIpc log) (disk : Disk) (id : Nat) (why : String) :
    Sound decodeIpc (log.cleanupFailedSegment disk id why) ∧
      StillReplays decodeIpc log (log.cleanupFailedSegment disk id why) ∧
      ((∀ wal active, log.entry = some wal → wal.active = some active → active.id ≠ id →
        (log.syncs active.id).failed = none) →
          Ready (log.cleanupFailedSegment disk id why)) := by
  have same : StillReplays decodeIpc log log := sound.stillReplays fun _ replays => replays
  by_cases own : ∃ wal active, log.entry = some wal ∧ wal.active = some active ∧ active.id = id
  · obtain ⟨wal, active, isEntry, isActive, rfl⟩ := own
    obtain ⟨booked, receives⟩ := sound.loaded wal isEntry
    obtain ⟨front, written, receiving⟩ := receives active isActive
    obtain ⟨after, idle, -, -, still⟩ := cleanup_spec disk why isEntry isActive booked sound.ordered
      sound.readable receiving
    exact ⟨after, still, fun _ => idle.ready⟩
  · -- the segment is not the active one, and only its group changes
    rcases cleanup_apart own disk why with unchanged | ⟨group, changed⟩
    · rw [unchanged]
      refine ⟨sound, same, fun others wal active isEntry isActive => ?_⟩
      exact others wal active isEntry isActive fun same =>
        own ⟨wal, active, isEntry, isActive, same⟩
    · rw [changed]
      refine ⟨sound.setSync fun wal active isEntry isActive isId =>
        absurd ⟨wal, active, isEntry, isActive, isId⟩ own, same,
        fun others wal active isEntry isActive => ?_⟩
      have apart : active.id ≠ id := fun same => own ⟨wal, active, isEntry, isActive, same⟩
      have isGroup : (log.setSync id group).syncs active.id = log.syncs active.id := if_neg apart
      rw [isGroup]
      exact others wal active isEntry isActive apart

/-- Every failure of a group but that of `segment` was cleaned up. -/
def ReadyBut (log : TableLog) (segment : Nat) : Prop :=
  ∀ wal active, log.entry = some wal → wal.active = some active → active.id ≠ segment →
    (log.syncs active.id).failed = none

/-- A statement is told that its frame is durable, which the boundary of its segment must say, or
that its group failed; then its segment is cleaned up. -/
theorem release_spec (sound : Sound decodeIpc log) {disk : Disk} {waiter : Waiter}
    {failed : Option String} (isWaiter : waiter ∈ log.waiting)
    (reached : failed = none → waiter.myEnd ≤ (log.syncs waiter.segment).syncedLen)
    {after : TableLog} {reply : Except WalError Unit}
    (answers : log.release disk waiter failed = (after, reply)) :
    Sound decodeIpc after ∧
      (failed = none ∧ reply = .ok () ∨
        ∃ why, failed = some why ∧
          reply = .error (.groupFsync (segmentName waiter.segment) why) ∧
          StillReplays decodeIpc log after ∧ (ReadyBut log waiter.segment → Ready after)) := by
  unfold TableLog.release at answers
  cases failed with
  | none =>
      cases answers
      exact ⟨(sound.acknowledge isWaiter (reached rfl)).dropWaiter waiter, .inl ⟨rfl, rfl⟩⟩
  | some why =>
      cases answers
      obtain ⟨soundAfter, still, ready⟩ := (sound.dropWaiter waiter).cleanup disk waiter.segment why
      exact ⟨soundAfter, .inr ⟨why, rfl, rfl, still, ready⟩⟩

/-- A statement of a failed group is told so. -/
theorem finish_spec (sound : Sound decodeIpc log) {disk : Disk} {waiter : Waiter}
    {after : TableLog} {reply : Except WalError Unit}
    (answers : log.finish disk waiter = some (after, reply)) :
    waiter ∈ log.waiting ∧ Sound decodeIpc after ∧
      ((log.syncs waiter.segment).failed = none ∧ reply = .ok () ∨
        ∃ why, (log.syncs waiter.segment).failed = some why ∧
          reply = .error (.groupFsync (segmentName waiter.segment) why) ∧
          StillReplays decodeIpc log after ∧ (ReadyBut log waiter.segment → Ready after)) := by
  unfold TableLog.finish at answers
  dsimp only at answers
  split at answers
  · cases answers
  · next isWaiter =>
    split at answers
    · next over' =>
      refine ⟨not_not.mp isWaiter, release_spec sound (not_not.mp isWaiter) (fun none' => ?_)
        (Option.some.inj answers)⟩
      rcases over' with failed | reached
      · rw [none'] at failed
        cases failed
      · exact reached
    · cases answers

/-! ## Rotation and truncation -/

/-- Files that are removed, other than that of the active segment. -/
def TableLog.withFiles (log : TableLog) (keep : SegmentFile → Bool) : TableLog :=
  { log with dir := log.dir.filter keep }

theorem removeFile_eq (path : String) :
    log.removeFile path = log.withFiles fun file => segmentName file.id ≠ path := rfl

theorem removeFiles_eq (segments : List (String × Nat)) :
    segments.foldl (fun log segment => log.removeFile segment.1) log =
      log.withFiles fun file => segmentName file.id ∉ segments.map Prod.fst := by
  induction segments generalizing log with
  | nil =>
      unfold TableLog.withFiles
      rw [List.filter_eq_self.mpr (by simp)]
      rfl
  | cons segment rest ih =>
      rw [List.foldl_cons, ih, removeFile_eq]
      unfold TableLog.withFiles
      rw [List.filter_filter]
      refine congrArg (fun dir => { log with dir := dir }) (List.filter_congr fun file _ => ?_)
      rw [List.map_cons, ← Bool.decide_and, decide_eq_decide, List.mem_cons, not_or]
      exact and_comm

/-- Without some files, and with no segment that receives appends, the bookkeeping is in order. -/
theorem sound_idle (sound : Sound decodeIpc log) (isEntry : log.entry = some wal)
    (keep : SegmentFile → Bool) {sealed : List (String × Nat)}
    (isSealed : ∀ segment ∈ sealed, ∃ id < wal.nextSegment, segment.1 = segmentName id) :
    Sound decodeIpc { log.withFiles keep with
      entry := some { wal with active := none, sealed := sealed } } := by
  have booked := (sound.loaded wal isEntry).booked
  refine sound_of_loaded rfl (sound.ordered.filter _)
    (fun file mem => sound.readable file (List.mem_filter.mp mem).1)
    ⟨⟨fun file mem => booked.below file (List.mem_filter.mp mem).1, fun segment mem => ?_,
      booked.earlier⟩, by rintro _ ⟨⟩⟩
  obtain ⟨id, isBelow, isName⟩ := isSealed segment mem
  exact ⟨id, isBelow, isName, by rintro _ ⟨⟩⟩

theorem withFiles_all : log.withFiles (fun _ => true) = log := by
  unfold TableLog.withFiles
  rw [List.filter_eq_self.mpr (by simp)]

theorem sealActive_sound (sound : Sound decodeIpc log) (isEntry : log.entry = some wal)
    (disk : Disk) : Sound decodeIpc (log.sealActive disk wal) := by
  obtain ⟨booked, receives⟩ := sound.loaded wal isEntry
  have old : ∀ segment ∈ wal.sealed, ∃ id < wal.nextSegment, segment.1 = segmentName id := by
    intro segment mem
    obtain ⟨id, isBelow, isName, -⟩ := booked.isSealed segment mem
    exact ⟨id, isBelow, isName⟩
  unfold TableLog.sealActive
  cases isActive : wal.active with
  | none => exact sound
  | some active =>
      obtain ⟨front, written, receiving⟩ := receives active isActive
      have isBelow := booked.below ⟨active.id, bytesOf written ++ [], none⟩
        (by rw [receiving.isDir]; simp)
      dsimp only
      split
      · have idle := @sound_idle _ decodeIpc log wal sound isEntry (fun _ => true)
          (wal.sealed ++ [(segmentName active.id, active.maxSeq)]) fun segment mem => by
            rcases List.mem_append.mp mem with before | new
            · exact old segment before
            · rw [List.mem_singleton.mp new]
              exact ⟨active.id, isBelow, rfl⟩
        rwa [withFiles_all] at idle
      · split
        · exact sound_idle sound isEntry _ old
        · have idle := @sound_idle _ decodeIpc log wal sound isEntry (fun _ => true) wal.sealed old
          rwa [withFiles_all] at idle

theorem rotate_sound (sound : Sound decodeIpc log) (disk : Disk) :
    Sound decodeIpc (log.rotate disk).1 := by
  unfold TableLog.rotate
  cases isEntry : log.entry with
  | none => exact sound
  | some wal =>
      dsimp only
      split
      · exact sound
      · next active isActive =>
        split
        · exact sealActive_sound sound isEntry disk
        · have waited := sound.waitFor active.id (log.syncs active.id).writtenLen disk.landing
            disk.sync
          split
          · exact sealActive_sound waited isEntry disk
          · exact (waited.cleanup disk active.id _).1

/-- Without some files that are not the active segment's, and some sealed segments. -/
theorem sound_removed (sound : Sound decodeIpc log) (isEntry : log.entry = some wal)
    {keep : SegmentFile → Bool} {sealed : List (String × Nat)}
    (fewer : ∀ segment ∈ sealed, segment ∈ wal.sealed)
    (stays : ∀ active, wal.active = some active → ∀ file : SegmentFile, file.id = active.id →
      keep file) :
    Sound decodeIpc { log.withFiles keep with entry := some { wal with sealed := sealed } } := by
  obtain ⟨booked, receives⟩ := sound.loaded wal isEntry
  refine sound_of_loaded rfl (sound.ordered.filter _)
    (fun file mem => sound.readable file (List.mem_filter.mp mem).1)
    ⟨⟨fun file mem => booked.below file (List.mem_filter.mp mem).1,
      fun segment mem => booked.isSealed segment (fewer segment mem), booked.earlier⟩,
      fun active isActive => ?_⟩
  obtain ⟨front, written, receiving⟩ := receives active isActive
  refine ⟨front.filter keep, written, ?_, receiving.genuine, receiving.isTorn, receiving.goodLen,
    receiving.fits⟩
  unfold TableLog.withFiles
  dsimp only
  rw [receiving.isDir, List.filter_append,
    List.filter_cons_of_pos (stays active isActive _ rfl), List.filter_nil]

theorem truncate_sound (sound : Sound decodeIpc log) (disk : Disk) (uptoSeq : Nat) :
    Sound decodeIpc (log.truncate disk uptoSeq).1 := by
  unfold TableLog.truncate
  cases isEntry : log.entry with
  | none => exact sound
  | some wal =>
      obtain ⟨booked, -⟩ := sound.loaded wal isEntry
      dsimp only
      rw [removeFiles_eq]
      generalize isRemoved : (wal.sealed.filter fun segment => segment.2 ≤ uptoSeq).filter
        (fun segment => disk.remove segment.1) = removed
      have fromSealed : ∀ segment ∈ removed, segment ∈ wal.sealed := by
        rintro segment mem
        rw [← isRemoved] at mem
        exact (List.mem_filter.mp (List.mem_filter.mp mem).1).1
      have fewer : ∀ segment ∈ wal.sealed.filter (fun segment =>
          uptoSeq < segment.2 ∨ disk.remove segment.1 = false), segment ∈ wal.sealed :=
        fun segment mem => (List.mem_filter.mp mem).1
      have stays (active : ActiveSegment) (isActive : wal.active = some active)
          (file : SegmentFile) (own : file.id = active.id) :
          decide (segmentName file.id ∉ removed.map Prod.fst) = true := by
        refine decide_eq_true fun mem => ?_
        obtain ⟨segment, isSegment, isName⟩ := List.mem_map.mp mem
        obtain ⟨id, -, isOther, apart⟩ := booked.isSealed segment (fromSealed segment isSegment)
        rw [isOther] at isName
        exact apart active isActive ((segmentName_inj isName).trans own)
      have after := sound_removed sound isEntry fewer stays
      split
      · exact after
      · next active isActive =>
        split
        · have names : ∀ segment ∈ wal.sealed.filter (fun segment =>
              uptoSeq < segment.2 ∨ disk.remove segment.1 = false),
              ∃ id < wal.nextSegment, segment.1 = segmentName id := by
            intro segment mem
            obtain ⟨id, isBelow, isName, -⟩ := booked.isSealed segment (fewer segment mem)
            exact ⟨id, isBelow, isName⟩
          split
          · exact sound_idle after rfl _ names
          · have idle := sound_idle after rfl (fun _ => true) names
            rwa [withFiles_all] at idle
        · exact after

theorem ensureSeqFloor_sound (sound : Sound decodeIpc log) (disk : Disk) (floor : Nat) :
    Sound decodeIpc (log.ensureSeqFloor decodeIpc disk floor).1 := by
  unfold TableLog.ensureSeqFloor
  rcases tableEntry_spec disk sound with
    ⟨why, entered, -⟩ | ⟨middle, wal, entered, soundMiddle, isEntry, -⟩
  · rw [entered]
    exact sound
  · rw [entered]
    obtain ⟨booked, receives⟩ := soundMiddle.loaded wal isEntry
    refine sound_of_loaded rfl soundMiddle.ordered soundMiddle.readable
      ⟨⟨booked.below, booked.isSealed, fun waiter mem => ?_⟩, fun active isActive => ?_⟩
    · obtain ⟨before, placed⟩ := booked.earlier waiter mem
      exact ⟨Nat.lt_of_lt_of_le before (Nat.le_max_left _ _), placed⟩
    · obtain ⟨front, written, receiving⟩ := receives active isActive
      exact ⟨front, written, receiving.isDir, receiving.genuine, receiving.isTorn,
        receiving.goodLen, receiving.fits⟩

end Icegres.Tail
