import Icegres.Tail.Calls

/-!
# Failures that stay

Once the group of a segment failed it stays failed, whatever is called on the table, and no later
segment gets its id; so a statement that waits for it is told of the failure whenever it looks.
-/

namespace Icegres.Tail

variable {Batches : Type} {encodeIpc : Batches → Except String (List UInt8)}
  {decodeIpc : List UInt8 → Except String Batches} {log : TableLog} {wal : TableWal}

/-! ## Groups that failed -/

namespace SegSync

variable {group : SegSync}

theorem failed_complete (failed : group.failed.isSome) (result : Option String) :
    (group.complete result).failed.isSome := by
  unfold SegSync.complete
  split
  · exact failed
  · split
    · rfl
    · split
      · exact failed
      · exact failed

theorem failed_waitFor (failed : group.failed.isSome) (myEnd : Nat) (landing own : Option String) :
    (group.waitFor myEnd landing own).1 = group := by
  obtain ⟨why, isFailed⟩ := Option.isSome_iff_exists.mp failed
  rw [SegSync.waitFor, isFailed]

/-- On a working disk an fsync fails no group. -/
theorem complete_working (unfailed : group.failed = none) :
    (group.complete none).failed = none := by
  unfold SegSync.complete
  split
  · exact unfailed
  · dsimp only
    split
    · exact unfailed
    · exact unfailed

theorem waitFor_working (unfailed : group.failed = none) (myEnd : Nat) :
    (group.waitFor myEnd none none).2 = none := by
  have joined := complete_working unfailed
  have led : ((group.complete none).lead.complete none).failed = none :=
    complete_working joined
  unfold SegSync.waitFor
  rw [unfailed]
  dsimp only
  rw [joined]
  dsimp only
  split
  · rfl
  · split
    · rfl
    · exact led

end SegSync

theorem entry_rollBackSegment (log : TableLog) (id len : Nat) (outcome : RollBack) :
    (log.rollBackSegment id len outcome).1.entry = log.entry := by
  cases outcome with
  | done => rfl
  | uncut why => rfl
  | unsynced why => rfl

theorem entry_clampFailed {disk : Disk} {active : ActiveSegment} {group : SegSync} {nextSeq : Nat} :
    (log.clampFailed disk active group nextSeq).entry = log.entry := by
  unfold TableLog.clampFailed
  dsimp only
  split
  · exact entry_rollBackSegment log _ _ _
  · exact entry_rollBackSegment log _ _ _

/-- The group of a segment failed, and no later segment gets its id. -/
def Failed (log : TableLog) (id : Nat) : Prop :=
  (log.syncs id).failed.isSome ∧ ∃ wal, log.entry = some wal ∧ id < wal.nextSegment

namespace Failed

variable {id : Nat} {after : TableLog} {disk : Disk}

theorem setSync (failed : Failed log id) {other : Nat} {group : SegSync}
    (stays : other = id → group.failed.isSome) : Failed (log.setSync other group) id := by
  refine ⟨?_, failed.2⟩
  change (if id = other then group else log.syncs id).failed.isSome
  split
  · next same => exact stays same.symm
  · exact failed.1

/-- Ids are only counted up. -/
theorem setEntry (failed : Failed log id) (isEntry : log.entry = some wal) {next : TableWal}
    (more : wal.nextSegment ≤ next.nextSegment) : Failed { log with entry := some next } id := by
  obtain ⟨isFailed, other, isOther, below⟩ := failed
  rw [isEntry] at isOther
  cases isOther
  exact ⟨isFailed, next, rfl, Nat.lt_of_lt_of_le below more⟩

theorem rollBack (failed : Failed log id) (segment len : Nat) (outcome : RollBack) :
    Failed (log.rollBackSegment segment len outcome).1 id := by
  cases outcome with
  | done => exact failed
  | uncut why => exact failed
  | unsynced why => exact failed

theorem clamp (failed : Failed log id) (disk : Disk) (active : ActiveSegment) (group : SegSync)
    (nextSeq : Nat) : Failed (log.clampFailed disk active group nextSeq) id := by
  unfold TableLog.clampFailed
  dsimp only
  split
  · exact failed.rollBack _ _ _
  · exact failed.rollBack _ _ _

/-- Without an active segment the next id stays. -/
theorem idle (failed : Failed log id) (isEntry : log.entry = some wal)
    (sealed : List (String × Nat)) :
    Failed { log with entry := some { wal with active := none, sealed := sealed } } id :=
  failed.setEntry isEntry (Nat.le_refl _)

theorem sealFailed (failed : Failed log id) (isEntry : log.entry = some wal)
    (active : ActiveSegment) (group : SegSync) :
    Failed (log.sealFailed disk wal active group) id := by
  have clamped := failed.clamp disk active group wal.nextSeq
  have sameEntry : (log.clampFailed disk active group wal.nextSeq).entry = some wal := by
    rw [← isEntry]
    exact entry_clampFailed
  unfold TableLog.sealFailed
  dsimp only
  split
  · exact clamped.idle sameEntry _
  · split
    · exact clamped.idle sameEntry _
    · exact clamped.idle sameEntry _

theorem cleanup (failed : Failed log id) (disk : Disk) (other : Nat) (why : String) :
    Failed (log.cleanupFailedSegment disk other why) id := by
  unfold TableLog.cleanupFailedSegment
  split
  · exact failed
  · dsimp only
    have noted : Failed (log.setSync other
        (TableLog.failedGroup disk why (log.syncs other))) id :=
      failed.setSync fun _ => SegSync.failed_complete rfl _
    split
    · exact noted
    · next wal isEntry =>
      split
      · exact noted
      · next active isActive =>
        split
        · exact noted.sealFailed isEntry active _
        · exact noted

theorem undoAppend (failed : Failed log id) (active : ActiveSegment) :
    Failed (log.undoAppend disk active) id := by
  have first := failed.rollBack active.id active.goodLen disk.undo
  unfold TableLog.undoAppend
  split
  · next undone =>
      rw [undone] at first
      exact first
  · next undone =>
      rw [undone] at first
      have second := first.rollBack active.id active.goodLen disk.undoAgain
      split
      · next again =>
          rw [again] at second
          exact second
      · next again =>
          rw [again] at second
          exact second.cleanup disk active.id _

theorem writeFrame (failed : Failed log id) (isEntry : log.entry = some wal)
    (active : ActiveSegment) (frame : List UInt8) :
    Failed (log.writeFrame disk wal active frame).1 id := by
  unfold TableLog.writeFrame
  split
  · exact @undoAppend (log.onFile active.id _) id disk failed active
  · have grown := @setSync log id failed active.id
      { log.syncs active.id with
        writtenLen := active.goodLen + frame.length, writtenSeq := wal.nextSeq }
      fun own => own ▸ failed.1
    exact grown.setEntry isEntry (Nat.le_refl _)

theorem appendFrame (failed : Failed log id) (isEntry : log.entry = some wal)
    (kind : TailOpKind) (batches : Batches) (active : ActiveSegment) :
    Failed (log.appendFrame encodeIpc disk kind batches wal active).1 id := by
  unfold TableLog.appendFrame
  split
  · exact failed
  · exact failed.writeFrame isEntry active _

/-- A fresh segment has an id of its own. -/
theorem created (failed : Failed log id) (isEntry : log.entry = some wal) :
    Failed (log.created wal) id := by
  obtain ⟨isFailed, other, isOther, below⟩ := failed
  rw [isEntry] at isOther
  cases isOther
  refine ⟨?_, _, rfl, Nat.lt_succ_of_lt below⟩
  change (if id = wal.nextSegment then SegSync.new (wal.nextSeq - 1) else
    log.syncs id).failed.isSome
  rw [if_neg (Nat.ne_of_lt below)]
  exact isFailed

theorem appendStaged (failed : Failed log id) (disk : Disk) (kind : TailOpKind)
    (batches : Batches) :
    Failed (log.appendStaged encodeIpc decodeIpc disk kind batches).1 id := by
  obtain ⟨wal, isEntry, -⟩ := failed.2
  unfold TableLog.appendStaged
  rw [tableEntry_of_entry isEntry]
  dsimp only
  unfold TableLog.ensureActive
  cases isActive : wal.active with
  | some active => exact failed.appendFrame isEntry kind batches active
  | none =>
      dsimp only
      split
      · next refused =>
          split at refused
          · cases refused
            exact failed
          · split at refused
            · cases refused
              exact failed
            · split at refused
              · cases refused
                exact failed
              · cases refused
      · next created =>
          split at created
          · cases created
          · split at created
            · cases created
            · split at created
              · cases created
              · cases created
                exact (failed.created isEntry).appendFrame rfl kind batches _

theorem release (failed : Failed log id) (disk : Disk) (waiter : Waiter) (why : Option String) :
    Failed (log.release disk waiter why).1 id := by
  unfold TableLog.release
  cases why with
  | none => exact failed
  | some why => exact @cleanup (log.dropWaiter waiter) id failed disk waiter.segment why

theorem sealActive (failed : Failed log id) (isEntry : log.entry = some wal) (disk : Disk) :
    Failed (log.sealActive disk wal) id := by
  unfold TableLog.sealActive
  split
  · exact failed
  · dsimp only
    split
    · exact failed.idle isEntry _
    · split
      · exact failed.idle isEntry _
      · exact failed.idle isEntry _

theorem rotate (failed : Failed log id) (disk : Disk) : Failed (log.rotate disk).1 id := by
  unfold TableLog.rotate
  split
  · exact failed
  · next wal isEntry =>
    split
    · exact failed
    · next active isActive =>
      split
      · exact failed.sealActive isEntry disk
      · have waited : Failed (log.setSync active.id ((log.syncs active.id).waitFor
            (log.syncs active.id).writtenLen disk.landing disk.sync).1) id := by
          refine failed.setSync fun own => ?_
          have isFailed : (log.syncs active.id).failed.isSome := own ▸ failed.1
          rw [SegSync.failed_waitFor isFailed]
          exact isFailed
        dsimp only
        split
        · exact waited.sealActive isEntry disk
        · exact waited.cleanup disk active.id _

theorem truncate (failed : Failed log id) (disk : Disk) (uptoSeq : Nat) :
    Failed (log.truncate disk uptoSeq).1 id := by
  unfold TableLog.truncate
  split
  · exact failed
  · next wal isEntry =>
    dsimp only
    rw [removeFiles_eq]
    have fewer (sealed : List (String × Nat)) (keep : SegmentFile → Bool) :=
      @setEntry (log.withFiles keep) wal id failed isEntry { wal with sealed := sealed }
        (Nat.le_refl _)
    have idle (sealed : List (String × Nat)) (keep : SegmentFile → Bool) :=
      @Failed.idle (log.withFiles keep) wal id failed isEntry sealed
    split
    · exact fewer _ _
    · split
      · split
        · exact idle _ fun _ => true
        · exact idle _ _
      · exact fewer _ _

theorem ensureSeqFloor (failed : Failed log id) (disk : Disk) (floor : Nat) :
    Failed (log.ensureSeqFloor decodeIpc disk floor).1 id := by
  obtain ⟨wal, isEntry, -⟩ := failed.2
  unfold TableLog.ensureSeqFloor
  rw [tableEntry_of_entry isEntry]
  exact failed.setEntry isEntry (Nat.le_refl _)

/-- A group that failed stays failed, whatever is called. -/
theorem call (failed : Failed log id) {call : Call Batches} {reply : Except WalError Unit}
    (answers : log.call encodeIpc decodeIpc disk call = some (after, reply)) :
    Failed after id := by
  cases call with
  | appendStaged kind batches =>
      cases answers
      exact failed.appendStaged disk kind batches
  | leadSync segment =>
      obtain ⟨led, isLed, same⟩ := Option.map_eq_some_iff.mp answers
      cases same
      unfold TableLog.leadSync at isLed
      dsimp only at isLed
      split at isLed
      · cases isLed
        exact failed.setSync fun own => own ▸ failed.1
      · cases isLed
  | completeSync segment =>
      obtain ⟨completed, isCompleted, same⟩ := Option.map_eq_some_iff.mp answers
      cases same
      unfold TableLog.completeSync at isCompleted
      split at isCompleted
      · cases isCompleted
      · cases isCompleted
        exact failed.setSync fun own => SegSync.failed_complete (own ▸ failed.1) _
  | finish waiter =>
      change log.finish disk waiter = some (after, reply) at answers
      unfold TableLog.finish at answers
      dsimp only at answers
      split at answers
      · cases answers
      · split at answers
        · have released := failed.release disk waiter (log.syncs waiter.segment).failed
          rwa [Option.some.inj answers] at released
        · cases answers
  | rotate =>
      have rotated := failed.rotate disk
      rwa [Option.some.inj answers] at rotated
  | truncate uptoSeq =>
      have truncated := failed.truncate disk uptoSeq
      rwa [Option.some.inj answers] at truncated
  | ensureSeqFloor floor =>
      have raised := @ensureSeqFloor _ decodeIpc log id failed disk floor
      rwa [Option.some.inj answers] at raised

end Failed

end Icegres.Tail
