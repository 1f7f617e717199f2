import Icegres.Tail.Failures

/-!
# Retrying an append

A statement is appended on a working disk if no failed group is in the way. A statement that fails
leaves a table where this is so, but for two cases: the file of a new segment stays behind if its
directory is not made durable, and a segment whose group failed receives appends until a statement
that waits for it has cleaned up.
-/

namespace Icegres.Tail

variable {Batches : Type} {encodeIpc : Batches → Except String (List UInt8)}
  {decodeIpc : List UInt8 → Except String Batches} {log : TableLog} {wal : TableWal}

/-! ## Every call -/

/-- A segment that the call creates is made durable in its directory. -/
def Call.Durable (log : TableLog) (disk : Disk) : Call Batches → Prop
  | .appendStaged _ _ => log.Creates disk → disk.syncDir = none
  | _ => True

/-- Every call keeps the bookkeeping in order. -/
theorem Sound.call (readsBack : ReadsBack encodeIpc decodeIpc) (sound : Sound decodeIpc log)
    {disk : Disk} {call : Call Batches} (durable : call.Durable log disk) {after : TableLog}
    {reply : Except WalError Unit}
    (answers : log.call encodeIpc decodeIpc disk call = some (after, reply)) :
    Sound decodeIpc after := by
  cases call with
  | appendStaged kind batches =>
      cases staged : log.appendStaged encodeIpc decodeIpc disk kind batches with
      | mk next waits =>
          rw [TableLog.call, staged] at answers
          cases answers
          rcases appendStaged_spec readsBack sound durable staged with
            ⟨waiter, -, appended⟩ | ⟨why, -, survives, -⟩
          · exact appended.sound
          · exact survives.sound
  | leadSync segment =>
      obtain ⟨led, isLed, same⟩ := Option.map_eq_some_iff.mp answers
      cases same
      unfold TableLog.leadSync at isLed
      dsimp only at isLed
      split at isLed
      · cases isLed
        exact sound.lead segment
      · cases isLed
  | completeSync segment =>
      obtain ⟨completed, isCompleted, same⟩ := Option.map_eq_some_iff.mp answers
      cases same
      unfold TableLog.completeSync at isCompleted
      split at isCompleted
      · cases isCompleted
      · cases isCompleted
        exact sound.complete segment disk.sync
  | finish waiter => exact (finish_spec sound answers).2.1
  | rotate =>
      have rotated := rotate_sound sound disk
      rwa [Option.some.inj answers] at rotated
  | truncate uptoSeq =>
      have truncated := truncate_sound sound disk uptoSeq
      rwa [Option.some.inj answers] at truncated
  | ensureSeqFloor floor =>
      have raised := ensureSeqFloor_sound sound disk floor
      rwa [Option.some.inj answers] at raised

/-! ## On a working disk -/

/-- A statement whose rows can be encoded is appended, on a disk that works. -/
def Retries (encodeIpc : Batches → Except String (List UInt8))
    (decodeIpc : List UInt8 → Except String Batches) (log : TableLog) : Prop :=
  ∀ kind batches, (∃ frame, encodeFrame encodeIpc 0 kind batches = .ok frame) →
    ∃ after seq, log.append encodeIpc decodeIpc Disk.working kind batches = (after, .ok seq)

/-- On a working disk a wait ends well. -/
theorem waitDurable_working {waiter : Waiter}
    (unfailed : (log.syncs waiter.segment).failed = none) :
    ∃ after, log.waitDurable Disk.working waiter = (after, .ok ()) := by
  have working := SegSync.waitFor_working unfailed waiter.myEnd
  unfold TableLog.waitDurable
  dsimp only [Disk.working]
  rw [working]
  exact ⟨_, rfl⟩

theorem waitDurable_failed {disk : Disk} {waiter : Waiter} {why : String}
    (failed : (log.syncs waiter.segment).failed = some why) :
    ∃ after, log.waitDurable disk waiter =
      (after, .error (.groupFsync (segmentName waiter.segment) why)) := by
  unfold TableLog.waitDurable SegSync.waitFor
  rw [failed]
  exact ⟨_, rfl⟩

/-- Without a failed group in the way nothing but the disk refuses a statement. -/
theorem Ready.retries (readsBack : ReadsBack encodeIpc decodeIpc) (sound : Sound decodeIpc log)
    (ready : Ready log) : Retries encodeIpc decodeIpc log := by
  rintro kind batches ⟨frame, encodes⟩
  unfold TableLog.append
  cases staged : log.appendStaged encodeIpc decodeIpc Disk.working kind batches with
  | mk middle waits =>
      rcases appendStaged_spec readsBack sound (fun _ => rfl) staged with
        ⟨waiter, rfl, appended⟩ | ⟨why, -, -, refused⟩
      · obtain ⟨after, waited⟩ := waitDurable_working (appended.unfailed ready)
        refine ⟨after, waiter.seq, ?_⟩
        dsimp only
        rw [waited]
      · rcases refused with disk | ⟨seq, text, unencoded, -⟩
        · simp [Disk.working] at disk
        · obtain ⟨frame, encoded⟩ := encodeFrame_seq seq encodes
          rw [encoded] at unencoded
          cases unencoded

/-- A segment whose group failed receives no statement. -/
theorem Retries.ready (retries : Retries encodeIpc decodeIpc log) {kind : TailOpKind}
    {batches : Batches} {frame : List UInt8}
    (encodes : encodeFrame encodeIpc 0 kind batches = .ok frame) : Ready log := by
  intro wal active isEntry isActive
  by_contra failed
  obtain ⟨why, isFailed⟩ := Option.ne_none_iff_exists'.mp failed
  obtain ⟨after, seq, appended⟩ := retries kind batches ⟨frame, encodes⟩
  obtain ⟨framed, encoded⟩ := encodeFrame_seq wal.nextSeq encodes
  have entered := @tableEntry_of_entry _ decodeIpc _ _ isEntry Disk.working
  have found : log.ensureActive Disk.working wal = (log, .ok (wal, active)) := by
    unfold TableLog.ensureActive
    rw [isActive]
  unfold TableLog.append TableLog.appendStaged at appended
  rw [entered] at appended
  dsimp only at appended
  rw [found] at appended
  dsimp only at appended
  unfold TableLog.appendFrame at appended
  rw [encoded] at appended
  dsimp only at appended
  cases wrote : log.writeFrame Disk.working wal active framed with
  | mk middle waits =>
      rw [wrote] at appended
      obtain ⟨isMiddle, isWaiter⟩ := Prod.mk.inj wrote
      rw [← isWaiter] at appended
      dsimp only at appended
      have doomed : (middle.syncs active.id).failed = some why := by
        rw [← isMiddle]
        exact (congrArg SegSync.failed (if_pos rfl)).trans isFailed
      obtain ⟨after', waited⟩ := @waitDurable_failed middle Disk.working
        ⟨active.id, wal.nextSeq, active.goodLen + framed.length⟩ why doomed
      rw [waited] at appended
      cases appended

theorem tableEntry_working {disk : Disk} {middle : TableLog}
    (entered : log.tableEntry decodeIpc disk = (middle, .ok wal)) :
    log.tableEntry decodeIpc Disk.working = (middle, .ok wal) := by
  unfold TableLog.tableEntry at entered ⊢
  split at entered
  · next isEntry => exact entered
  · split at entered
    · cases entered
    · split at entered
      · cases entered
      · exact entered

theorem ensureActive_working {disk : Disk} {middle : TableLog} {next : TableWal}
    {active : ActiveSegment} (found : log.ensureActive disk wal = (middle, .ok (next, active))) :
    log.ensureActive Disk.working wal = (middle, .ok (next, active)) := by
  unfold TableLog.ensureActive at found ⊢
  split at found
  · exact found
  · dsimp only at found ⊢
    split at found
    · cases found
    · next fresh =>
      rw [if_neg fresh]
      split at found
      · cases found
      · split at found
        · cases found
        · exact found

theorem appendFrame_working {disk : Disk} {kind : TailOpKind} {batches : Batches}
    {active : ActiveSegment} {after : TableLog} {waiter : Waiter}
    (appended : log.appendFrame encodeIpc disk kind batches wal active = (after, .ok waiter)) :
    log.appendFrame encodeIpc Disk.working kind batches wal active = (after, .ok waiter) := by
  unfold TableLog.appendFrame at appended ⊢
  split at appended
  · cases appended
  · unfold TableLog.writeFrame at appended ⊢
    split at appended
    · cases appended
    · exact appended

/-- A statement whose frame is appended met no failure. -/
theorem appendStaged_working {disk : Disk} {kind : TailOpKind} {batches : Batches}
    {after : TableLog} {waiter : Waiter}
    (staged : log.appendStaged encodeIpc decodeIpc disk kind batches = (after, .ok waiter)) :
    log.appendStaged encodeIpc decodeIpc Disk.working kind batches = (after, .ok waiter) := by
  unfold TableLog.appendStaged at staged ⊢
  split at staged
  · cases staged
  · next middle wal entered =>
    rw [tableEntry_working entered]
    dsimp only
    split at staged
    · cases staged
    · next next wal' active found =>
      rw [ensureActive_working found]
      exact appendFrame_working staged

/-! ## Statements that fail -/

/-- Some rows can be encoded. -/
def Encodable (encodeIpc : Batches → Except String (List UInt8)) : Prop :=
  ∃ kind batches frame, encodeFrame encodeIpc 0 kind batches = .ok frame

/-- The call is a step of an append, of rows that can be encoded. -/
def Call.Appends (encodeIpc : Batches → Except String (List UInt8)) : Call Batches → Prop
  | .appendStaged kind batches => ∃ frame, encodeFrame encodeIpc 0 kind batches = .ok frame
  | .finish _ => Encodable encodeIpc
  | _ => False

theorem Call.Appends.encodable {call : Call Batches} (appends : call.Appends encodeIpc) :
    Encodable encodeIpc := by
  cases call with
  | appendStaged kind batches =>
      obtain ⟨frame, encodes⟩ := appends
      exact ⟨kind, batches, frame, encodes⟩
  | finish waiter => exact appends
  | leadSync segment => cases appends
  | completeSync segment => cases appends
  | rotate => cases appends
  | truncate uptoSeq => cases appends
  | ensureSeqFloor floor => cases appends

/-- A segment that is not made durable in its directory wedges its table: its file is there, and
every later statement gives the next segment the same name. -/
theorem wedged (sound : Sound decodeIpc log) {disk : Disk} (creates : log.Creates disk)
    {refused : String} (unsynced : disk.syncDir = some refused) (kind : TailOpKind)
    (batches : Batches) :
    ∃ after path, log.appendStaged encodeIpc decodeIpc disk kind batches =
        (after, .error (.syncDir refused)) ∧
      ∀ again kind batches, after.append encodeIpc decodeIpc again kind batches =
        (after, .error (.create path "File exists")) := by
  obtain ⟨created, opens⟩ := creates
  rcases tableEntry_spec disk sound with ⟨why, -, none', refusing, -⟩ |
    ⟨middle, wal, entered, soundMiddle, isEntry, -, origin⟩
  · rw [none'] at opens
    rcases refusing with some' | some'
    · exact absurd opens.1 some'
    · exact absurd opens.2 some'
  · have idle : wal.active = none := by
      rcases origin with ⟨isOrigin, -⟩ | ⟨-, noActive, -⟩
      · rw [isOrigin] at opens
        exact opens
      · exact noActive
    have fresh := (soundMiddle.loaded wal isEntry).booked.fresh
    let after : TableLog := { middle with dir := middle.dir ++ [⟨wal.nextSegment, [], none⟩] }
    refine ⟨after, segmentName wal.nextSegment, ?_, fun again kind batches => ?_⟩
    · unfold TableLog.appendStaged
      rw [entered]
      dsimp only
      unfold TableLog.ensureActive
      rw [idle]
      dsimp only
      rw [if_neg fresh, created, unsynced]
    · have isAfter : after.entry = some wal := isEntry
      have there : (after.dir.any fun file => file.id = wal.nextSegment) = true := by
        simp [after]
      unfold TableLog.append TableLog.appendStaged
      rw [tableEntry_of_entry isAfter]
      dsimp only
      unfold TableLog.ensureActive
      rw [idle]
      dsimp only
      rw [if_pos there]

/-- Where a retry succeeds no segment stayed behind. -/
theorem durable_of_retries (sound : Sound decodeIpc log) {disk : Disk} {call : Call Batches}
    (appends : call.Appends encodeIpc) {after : TableLog} {reply : Except WalError Unit}
    (answers : log.call encodeIpc decodeIpc disk call = some (after, reply))
    (retries : Retries encodeIpc decodeIpc after) : call.Durable log disk := by
  cases call with
  | appendStaged kind batches =>
      intro creates
      by_contra unsynced
      obtain ⟨refused, unsynced⟩ := Option.ne_none_iff_exists'.mp unsynced
      obtain ⟨stuck, path, staged, refuses⟩ :=
        @wedged _ encodeIpc _ _ sound _ creates _ unsynced kind batches
      rw [TableLog.call, staged] at answers
      cases answers
      obtain ⟨later, seq, appended⟩ := retries kind batches appends
      rw [refuses] at appended
      cases appended
  | finish waiter => trivial
  | leadSync segment => trivial
  | completeSync segment => trivial
  | rotate => trivial
  | truncate uptoSeq => trivial
  | ensureSeqFloor floor => trivial

/-- A statement of a failed group returns. -/
theorem finish_failed {disk : Disk} {waiter : Waiter} {why : String}
    (waits : waiter ∈ log.waiting) (failed : (log.syncs waiter.segment).failed = some why) :
    log.finish disk waiter = some (log.release disk waiter (some why)) := by
  unfold TableLog.finish
  dsimp only
  rw [if_neg (not_not.mpr waits), failed, if_pos (.inl rfl)]

/-- A frame is not written whole, and cannot be taken away. -/
def Disk.Poisons (disk : Disk) : Prop :=
  disk.write ≠ none ∧ disk.undo ≠ .done ∧ disk.undoAgain ≠ .done

/-- No failed group of the active segment waits for its clean-up, unless the statement that fails
cleans it up itself. -/
def Call.Settled (log : TableLog) (disk : Disk) : Call Batches → Prop
  | .finish waiter => ReadyBut log waiter.segment
  | _ => Ready log ∨ disk.Poisons

/-- A segment that is cleaned up receives nothing. -/
theorem idle_cleanup (isEntry : log.entry = some wal) {active : ActiveSegment}
    (isActive : wal.active = some active) (unclean : (log.syncs active.id).cleaned = false)
    (disk : Disk) (why : String) : Idle (log.cleanupFailedSegment disk active.id why) := by
  have unclean' : ¬ (log.syncs active.id).cleaned = true := by simp [unclean]
  unfold TableLog.cleanupFailedSegment
  rw [if_neg unclean']
  dsimp only [TableLog.setSync]
  rw [isEntry]
  dsimp only
  rw [isActive]
  dsimp only
  rw [if_pos rfl]
  unfold TableLog.sealFailed
  dsimp only
  split
  · exact ⟨_, rfl, rfl⟩
  · split
    · exact ⟨_, rfl, rfl⟩
    · exact ⟨_, rfl, rfl⟩

theorem rollBack_refused {id len : Nat} {outcome : RollBack} (refused : outcome ≠ .done) :
    ∃ why, (log.rollBackSegment id len outcome).2 = some why ∧
      (log.rollBackSegment id len outcome).1.entry = log.entry ∧
      (log.rollBackSegment id len outcome).1.syncs = log.syncs := by
  cases outcome with
  | done => exact absurd rfl refused
  | uncut why => exact ⟨why, rfl, rfl, rfl⟩
  | unsynced why => exact ⟨why, rfl, rfl, rfl⟩

/-- A frame that cannot be taken away again leaves no segment that receives appends. -/
theorem idle_undoAppend (isEntry : log.entry = some wal) {active : ActiveSegment}
    (isActive : wal.active = some active) (unclean : (log.syncs active.id).cleaned = false)
    {disk : Disk} (undo : disk.undo ≠ .done) (undoAgain : disk.undoAgain ≠ .done) :
    Idle (log.undoAppend disk active) := by
  obtain ⟨first, refused, firstEntry, firstSyncs⟩ :=
    @rollBack_refused log active.id active.goodLen _ undo
  unfold TableLog.undoAppend
  cases undone : log.rollBackSegment active.id active.goodLen disk.undo with
  | mk middle failed =>
      rw [undone] at refused firstEntry firstSyncs
      dsimp only at refused firstEntry firstSyncs ⊢
      rw [refused]
      obtain ⟨second, refused', secondEntry, secondSyncs⟩ :=
        @rollBack_refused middle active.id active.goodLen _ undoAgain
      dsimp only
      cases again : middle.rollBackSegment active.id active.goodLen disk.undoAgain with
      | mk last failed =>
          rw [again] at refused' secondEntry secondSyncs
          dsimp only at refused' secondEntry secondSyncs ⊢
          rw [refused']
          refine idle_cleanup (by rw [secondEntry, firstEntry, isEntry]) isActive ?_ disk _
          rw [secondSyncs, firstSyncs]
          exact unclean

/-- A frame that is taken away again leaves the bookkeeping. -/
theorem undoAppend_undone {disk : Disk} (undone : disk.undo = .done ∨ disk.undoAgain = .done)
    (active : ActiveSegment) :
    (log.undoAppend disk active).entry = log.entry ∧
      (log.undoAppend disk active).syncs = log.syncs := by
  unfold TableLog.undoAppend
  cases first : disk.undo with
  | done => exact ⟨rfl, rfl⟩
  | uncut why =>
      rw [undone.resolve_left (by simp [first])]
      exact ⟨rfl, rfl⟩
  | unsynced why =>
      rw [undone.resolve_left (by simp [first])]
      exact ⟨rfl, rfl⟩

/-- Of a statement that finds a failed group. -/
theorem appendStaged_failedGroup (isEntry : log.entry = some wal) {active : ActiveSegment}
    (isActive : wal.active = some active) {disk : Disk} {kind : TailOpKind} {batches : Batches}
    {frame : List UInt8} (encodes : encodeFrame encodeIpc 0 kind batches = .ok frame)
    {after : TableLog} {why : WalError}
    (staged : log.appendStaged encodeIpc decodeIpc disk kind batches = (after, .error why)) :
    disk.write ≠ none ∧ ∃ part : TableLog, part.entry = log.entry ∧ part.syncs = log.syncs ∧
      part.undoAppend disk active = after := by
  obtain ⟨framed, encoded⟩ := encodeFrame_seq wal.nextSeq encodes
  unfold TableLog.appendStaged at staged
  rw [tableEntry_of_entry isEntry] at staged
  dsimp only at staged
  unfold TableLog.ensureActive at staged
  rw [isActive] at staged
  dsimp only at staged
  unfold TableLog.appendFrame at staged
  rw [encoded] at staged
  dsimp only at staged
  unfold TableLog.writeFrame at staged
  cases writes : disk.write with
  | none =>
      rw [writes] at staged
      cases staged
  | some refused =>
      rw [writes] at staged
      obtain ⟨isAfter, -⟩ := Prod.mk.inj staged
      exact ⟨by simp, log.onFile active.id _, rfl, rfl, isAfter⟩

/-- A statement that fails leaves no failed group exactly if there was none, or it cleaned up. -/
theorem ready_iff_settled (readsBack : ReadsBack encodeIpc decodeIpc)
    (sound : Sound decodeIpc log) {disk : Disk} {call : Call Batches}
    (appends : call.Appends encodeIpc) (durable : call.Durable log disk) {after : TableLog}
    {why : WalError}
    (answers : log.call encodeIpc decodeIpc disk call = some (after, .error why)) :
    StillReplays decodeIpc log after ∧ (Ready after ↔ call.Settled log disk) := by
  cases call with
  | appendStaged kind batches =>
      cases staged : log.appendStaged encodeIpc decodeIpc disk kind batches with
      | mk next waits =>
          rw [TableLog.call, staged] at answers
          obtain ⟨rfl, isError⟩ := Prod.mk.inj (Option.some.inj answers)
          rcases appendStaged_spec readsBack sound durable staged with
            ⟨waiter, rfl, -⟩ | ⟨cause, rfl, survives, -⟩
          · cases isError
          · refine ⟨survives.still, ?_⟩
            by_cases ready : Ready log
            · exact iff_of_true (survives.ready ready) (.inl ready)
            · obtain ⟨frame, encodes⟩ := appends
              have found := ready
              simp only [Ready, not_forall] at found
              obtain ⟨wal, active, isEntry, isActive, failed⟩ := found
              obtain ⟨writes, part, partEntry, partSyncs, rfl⟩ :=
                appendStaged_failedGroup isEntry isActive encodes staged
              obtain ⟨front, written, receiving⟩ :=
                (sound.loaded wal isEntry).receiving active isActive
              rw [isEntry] at partEntry
              by_cases undone : disk.undo = .done ∨ disk.undoAgain = .done
              · obtain ⟨sameEntry, sameSyncs⟩ := @undoAppend_undone part _ undone active
                refine iff_of_false (fun readyAfter => failed ?_) ?_
                · rw [← partSyncs, ← sameSyncs]
                  exact readyAfter wal active (sameEntry.trans partEntry) isActive
                · rintro (readyLog | ⟨-, undo, undoAgain⟩)
                  · exact ready readyLog
                  · exact undone.elim undo undoAgain
              · obtain ⟨undo, undoAgain⟩ := not_or.mp undone
                refine iff_of_true (idle_undoAppend partEntry isActive ?_ undo undoAgain).ready
                  (.inr ⟨writes, undo, undoAgain⟩)
                rw [partSyncs]
                exact receiving.fits.unclean
  | finish waiter =>
      obtain ⟨isWaiter, -, ⟨-, isOk⟩ | ⟨cause, failed, -, still, ready⟩⟩ :=
        finish_spec sound answers
      · cases isOk
      · refine ⟨still, fun readyAfter wal active isEntry isActive apart => ?_, ready⟩
        have finishes : log.finish disk waiter = some (after, .error why) := answers
        rw [finish_failed isWaiter failed] at finishes
        obtain ⟨isAfter, -⟩ := Prod.mk.inj (Option.some.inj finishes)
        have others : ¬ ∃ wal active, (log.dropWaiter waiter).entry = some wal ∧
            wal.active = some active ∧ active.id = waiter.segment := by
          rintro ⟨wal', active', isEntry', isActive', same⟩
          cases isEntry.symm.trans isEntry'
          cases isActive.symm.trans isActive'
          exact apart same
        rcases cleanup_apart others disk cause with unchanged | ⟨group, changed⟩
        · rw [unchanged] at isAfter
          rw [← isAfter] at readyAfter
          exact readyAfter wal active isEntry isActive
        · rw [changed] at isAfter
          rw [← isAfter] at readyAfter
          have isGroup : ((log.dropWaiter waiter).setSync waiter.segment group).syncs active.id =
              log.syncs active.id := if_neg apart
          rw [← isGroup]
          exact readyAfter wal active isEntry isActive
  | leadSync segment => cases appends
  | completeSync segment => cases appends
  | rotate => cases appends
  | truncate uptoSeq => cases appends
  | ensureSeqFloor floor => cases appends

end Icegres.Tail
