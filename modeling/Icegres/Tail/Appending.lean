import Icegres.Fallible
import Icegres.Segment.Ranges
import Icegres.Tail.Sealing

/-!
# Appending a frame

What a statement finds when its frame is appended, step by step, and what is left when a step
fails: every failure but that of the directory fsync behind a new segment leaves the bookkeeping
in order.
-/

namespace Icegres.Tail

variable {Batches : Type} {encodeIpc : Batches → Except String (List UInt8)}
  {decodeIpc : List UInt8 → Except String Batches}

/-! ## Frames -/

/-- Rows are read as they were written. -/
def ReadsBack (encodeIpc : Batches → Except String (List UInt8))
    (decodeIpc : List UInt8 → Except String Batches) : Prop :=
  ∀ batches ipc, encodeIpc batches = .ok ipc → decodeIpc ipc = .ok batches

theorem fromByte_toByte (kind : TailOpKind) : TailOpKind.fromByte kind.toByte = .ok kind := by
  cases kind <;> rfl

/-- The frame of a statement is whole, and read as it was written. -/
theorem encodeFrame_spec (readsBack : ReadsBack encodeIpc decodeIpc) {seq : Nat}
    {kind : TailOpKind} {batches : Batches} {frame : List UInt8}
    (encodes : encodeFrame encodeIpc seq kind batches = .ok frame) :
    ∃ payload, frame = Segment.frameOf payload ∧
      Decodes decodeIpc payload (seq % 2 ^ 64, ⟨kind, batches⟩) := by
  obtain ⟨body, isBody, framed⟩ := bind_eq_ok encodes
  obtain ⟨fits, rfl⟩ := Segment.frameBytes_eq_ok framed
  cases written : encodeIpc batches with
  | error why =>
      rw [encodeOpPayload, written] at isBody
      cases isBody
  | ok ipc =>
      rw [encodeOpPayload, written] at isBody
      cases isBody
      refine ⟨_, rfl, fits, ?_⟩
      have header := Segment.leBytes_length 8 seq
      have long :
          ¬ (Segment.leBytes 8 seq ++ tailPayloadFormat :: kind.toByte :: ipc).length < 8 := by
        rw [List.length_append, header]
        omega
      rw [decodePayload, if_neg long, List.drop_left' header, List.take_left' header,
        Segment.ofLeBytes_leBytes_mod]
      simp [decodeOpPayload, fromByte_toByte, readsBack batches ipc written, Except.map]

/-- Whether a statement can be encoded does not depend on its sequence. -/
theorem encodeFrame_seq {seq : Nat} (other : Nat) {kind : TailOpKind} {batches : Batches}
    {frame : List UInt8} (encodes : encodeFrame encodeIpc seq kind batches = .ok frame) :
    ∃ frame, encodeFrame encodeIpc other kind batches = .ok frame := by
  obtain ⟨body, isBody, framed⟩ := bind_eq_ok encodes
  obtain ⟨_, checked, -⟩ := bind_eq_ok framed
  have sameLength : (Segment.leBytes 8 other ++ body).length =
      (Segment.leBytes 8 seq ++ body).length := by
    rw [List.length_append, List.length_append, Segment.leBytes_length, Segment.leBytes_length]
  refine ⟨Segment.frameOf (Segment.leBytes 8 other ++ body), ?_⟩
  rw [encodeFrame, isBody]
  simp only [bind, Except.bind, Segment.frameBytes, sameLength, checked]
  rfl

/-! ## The entry of a table -/

variable {log : TableLog} {wal : TableWal}

/-- Nothing but the files of a table changes, and they replay the same. -/
structure Unmoved (decodeIpc : List UInt8 → Except String Batches) (log after : TableLog) :
    Prop where
  replays : ∀ frames, Replays decodeIpc log.dir frames → Replays decodeIpc after.dir frames
  waiting : after.waiting = log.waiting
  unacked : after.unacked = log.unacked

theorem Unmoved.refl (log : TableLog) : Unmoved decodeIpc log log :=
  ⟨fun _ replays => replays, rfl, rfl⟩

theorem Unmoved.trans {middle after : TableLog} (first : Unmoved decodeIpc log middle)
    (second : Unmoved decodeIpc middle after) : Unmoved decodeIpc log after :=
  ⟨fun frames replays => second.replays frames (first.replays frames replays),
    second.waiting.trans first.waiting, second.unacked.trans first.unacked⟩

/-- What a scan finds is in order for the repaired directory. -/
theorem booked_of_scan (fits : ∀ file ∈ log.dir, file.id < 2 ^ 64) (noWaiter : log.waiting = [])
    {state : ScanState Batches}
    (scanned : (scanFiles decodeIpc .start (log.dir.map SegmentFile.named)).1 = .ok state)
    (ops : List FileOp) (nextSeq : Nat) :
    Booked { log with dir := repairDir ops log.dir }
      ⟨nextSeq, state.nextSegment, none, state.sealed⟩ := by
  obtain ⟨-, below, fromDir⟩ := scanFiles_counts scanned
  have idBelow : ∀ file ∈ log.dir, file.id < state.nextSegment := fun file mem =>
    below file.named (List.mem_map_of_mem mem) file.id (segmentId_segmentName (fits file mem))
  refine ⟨fun file mem => ?_, fun segment mem => ?_, fun waiter mem => ?_⟩
  · obtain ⟨old, isOld, same⟩ := id_of_mem_repairDir mem
    rw [← same]
    exact idBelow old isOld
  · rcases fromDir segment mem with start | ⟨named, isNamed, isName⟩
    · cases start
    · obtain ⟨file, isFile, rfl⟩ := List.mem_map.mp isNamed
      exact ⟨file.id, idBelow file isFile, isName.symm, by rintro _ ⟨⟩⟩
  · have none' : waiter ∈ log.waiting := mem
    rw [noWaiter] at none'
    cases none'

theorem tableEntry_of_entry (isEntry : log.entry = some wal) (disk : Disk) :
    log.tableEntry decodeIpc disk = (log, .ok wal) := by
  unfold TableLog.tableEntry
  rw [isEntry]

/-- The entry of a table is there, or made from a scan; only the directories on the way to the
table can refuse. -/
theorem tableEntry_spec (disk : Disk) (sound : Sound decodeIpc log) :
    (∃ why, log.tableEntry decodeIpc disk = (log, .error why) ∧ log.entry = none ∧
      (disk.createDir ≠ none ∨ disk.syncRoot ≠ none) ∧ ∀ text, why ≠ .encode text) ∨
    ∃ middle wal, log.tableEntry decodeIpc disk = (middle, .ok wal) ∧ Sound decodeIpc middle ∧
      middle.entry = some wal ∧ Unmoved decodeIpc log middle ∧
      (log.entry = some wal ∧ middle = log ∨
        log.entry = none ∧ wal.active = none ∧ disk.createDir = none ∧ disk.syncRoot = none) := by
  unfold TableLog.tableEntry
  cases isEntry : log.entry with
  | some wal => exact .inr ⟨log, wal, rfl, sound, isEntry, .refl log, .inl ⟨rfl, rfl⟩⟩
  | none =>
      cases createDir : disk.createDir with
      | some why =>
          exact .inl ⟨_, rfl, rfl, .inl (by simp), by rintro text ⟨⟩⟩
      | none =>
          cases syncRoot : disk.syncRoot with
          | some why => exact .inl ⟨_, rfl, rfl, .inr (by simp), by rintro text ⟨⟩⟩
          | none =>
              obtain ⟨noWaiter, fits⟩ := sound.unopened isEntry
              obtain ⟨state, scanned⟩ := exists_scan sound.readable (.start : ScanState Batches)
              obtain ⟨frames, replays⟩ := sound.readable.replays
              have isScan : (scanTable decodeIpc (log.dir.map SegmentFile.named)).1 =
                  .ok state.tableScan := by
                rw [scanTable_eq, scanned]
                rfl
              have same (frames : List (SeqOp Batches))
                  (replays : Replays decodeIpc log.dir frames) :=
                replays.repairDir sound.ordered
              let wal : TableWal :=
                ⟨state.tableScan.nextSeq, state.nextSegment, none, state.sealed⟩
              let dir := repairDir (scanTable decodeIpc (log.dir.map SegmentFile.named)).2 log.dir
              refine .inr ⟨{ log with dir := dir, entry := some wal }, wal, ?_, ?_, rfl,
                ⟨same, rfl, rfl⟩, .inr ⟨rfl, rfl, rfl, rfl⟩⟩
              · dsimp only
                rw [isScan]
                rfl
              · refine sound_of_loaded rfl (sound.ordered.repairDir _)
                  (same frames replays).readable ⟨?_, by rintro _ ⟨⟩⟩
                have booked := booked_of_scan fits noWaiter scanned
                  (scanTable decodeIpc (log.dir.map SegmentFile.named)).2 state.tableScan.nextSeq
                exact ⟨booked.below, booked.isSealed, booked.earlier⟩

/-! ## The active segment -/

/-- The log with a fresh segment. -/
def TableLog.created (log : TableLog) (wal : TableWal) : TableLog :=
  let active : ActiveSegment := ⟨wal.nextSegment, 0, 0⟩
  let wal' := { wal with nextSegment := wal.nextSegment + 1, active := some active }
  let log : TableLog :=
    { log with dir := log.dir ++ [⟨wal.nextSegment, [], none⟩], entry := some wal' }
  log.setSync wal.nextSegment (.new (wal.nextSeq - 1))

theorem groupFits_new (waiting : List Waiter) (unacked : List Nat) (id baseSeq : Nat) :
    GroupFits waiting unacked id ([] : List (Written Batches)) (.new baseSeq) where
  writtenLen := rfl
  unclean := rfl
  synced := boundary_end
  target := by rintro len seq ⟨⟩

theorem reads_empty (id : Nat) : Reads decodeIpc ⟨id, [], none⟩ [] :=
  @reads_written _ decodeIpc id [] [] (by rintro frame ⟨⟩) torn_nil

/-- A fresh segment keeps everything in order. -/
theorem sound_created (sound : Sound decodeIpc log) (isEntry : log.entry = some wal) :
    Sound decodeIpc (log.created wal) ∧ Unmoved decodeIpc log (log.created wal) ∧
      Receiving decodeIpc (log.created wal) ⟨wal.nextSegment, 0, 0⟩ log.dir [] [] := by
  have booked := (sound.loaded wal isEntry).booked
  have isGroup : (log.created wal).syncs wal.nextSegment = .new (wal.nextSeq - 1) := if_pos rfl
  have receiving : Receiving decodeIpc (log.created wal) ⟨wal.nextSegment, 0, 0⟩ log.dir [] [] := by
    refine ⟨rfl, by rintro frame ⟨⟩, torn_nil, rfl, ?_⟩
    rw [isGroup]
    exact groupFits_new _ _ _ _
  refine ⟨sound_of_loaded rfl ?_ ?_ ⟨⟨?_, ?_, ?_⟩, ?_⟩,
    ⟨fun frames replays => replays.snoc_empty (reads_empty _), rfl, rfl⟩, receiving⟩
  · refine List.pairwise_append.mpr ⟨sound.ordered, List.pairwise_singleton _ _, ?_⟩
    intro file mem last isLast
    rw [List.mem_singleton.mp isLast]
    exact booked.below file mem
  · intro file mem
    rcases List.mem_append.mp mem with old | last
    · exact sound.readable file old
    · rw [List.mem_singleton.mp last]
      exact ⟨_, reads_empty _⟩
  · intro file mem
    rcases List.mem_append.mp mem with old | last
    · exact Nat.lt_succ_of_lt (booked.below file old)
    · rw [List.mem_singleton.mp last]
      exact Nat.lt_succ_self _
  · intro segment mem
    obtain ⟨id, isBelow, isName, -⟩ := booked.isSealed segment mem
    refine ⟨id, Nat.lt_succ_of_lt isBelow, isName, ?_⟩
    rintro active ⟨⟩
    exact Nat.ne_of_lt isBelow
  · intro waiter mem
    obtain ⟨before, placed⟩ := booked.earlier waiter mem
    exact ⟨before, Nat.lt_succ_of_lt placed⟩
  · rintro active ⟨⟩
    exact ⟨_, _, receiving⟩

/-- No file has the next id. -/
theorem Booked.fresh (booked : Booked log wal) :
    ¬ (log.dir.any fun file => file.id = wal.nextSegment) = true := by
  intro found
  obtain ⟨file, mem, same⟩ := List.any_eq_true.mp found
  exact absurd (of_decide_eq_true same) (Nat.ne_of_lt (booked.below file mem))

/-- What a statement finds as the active segment: the one there is, or a fresh one. The file of a
fresh one cannot be there already. -/
theorem ensureActive_spec (disk : Disk) (sound : Sound decodeIpc log)
    (isEntry : log.entry = some wal) :
    (∃ active, wal.active = some active ∧ log.ensureActive disk wal = (log, .ok (wal, active))) ∨
    wal.active = none ∧
      ((∃ path why, log.ensureActive disk wal = (log, .error (.create path why)) ∧
          disk.create ≠ none) ∨
        (∃ after why, log.ensureActive disk wal = (after, .error (.syncDir why)) ∧
          disk.create = none ∧ disk.syncDir ≠ none) ∨
        ∃ next, log.ensureActive disk wal =
          (log.created wal, .ok (next, ⟨wal.nextSegment, 0, 0⟩)) ∧
            (log.created wal).entry = some next ∧
            next = { wal with
              nextSegment := wal.nextSegment + 1, active := some ⟨wal.nextSegment, 0, 0⟩ }) := by
  unfold TableLog.ensureActive
  cases isActive : wal.active with
  | some active => exact .inl ⟨active, rfl, rfl⟩
  | none =>
      have fresh := (sound.loaded wal isEntry).booked.fresh
      refine .inr ⟨rfl, ?_⟩
      dsimp only
      rw [if_neg fresh]
      cases create : disk.create with
      | some why => exact .inl ⟨_, why, rfl, by simp⟩
      | none =>
          cases syncDir : disk.syncDir with
          | some why => exact .inr (.inl ⟨_, why, rfl, rfl, by simp⟩)
          | none => exact .inr (.inr ⟨_, rfl, rfl, rfl⟩)

/-! ## Undoing a frame -/

theorem Replays.last_congr {front : List SegmentFile} {old new : SegmentFile}
    {frames replayed : List (SeqOp Batches)} (readable : Readable decodeIpc front)
    (reads : Reads decodeIpc old frames) (rereads : Reads decodeIpc new frames)
    (replays : Replays decodeIpc (front ++ [old]) replayed) :
    Replays decodeIpc (front ++ [new]) replayed := by
  rw [← List.append_nil frames] at reads rereads
  obtain ⟨stay, lost, whole, left, none'⟩ := replays_cut readable reads rereads (.inl rfl)
  have isNil : lost = [] := List.eq_nil_iff_forall_not_mem.mpr fun frame mem => by
    cases none' frame mem
  rw [isNil, List.append_nil] at whole
  rwa [replays.unique whole]

section Undo

variable {active : ActiveSegment} {front : List SegmentFile} {written : List (Written Batches)}
  {torn : List UInt8}

/-- The log with these bytes behind the frames of its last segment. -/
def TableLog.withTorn (log : TableLog) (active : ActiveSegment) (front : List SegmentFile)
    (written : List (Written Batches)) (torn : List UInt8) : TableLog :=
  { log with dir := front ++ [⟨active.id, bytesOf written ++ torn, none⟩] }

/-- Torn bytes are cut off, or stay. -/
theorem rollBack_torn (others : ∀ other ∈ front, other.id ≠ active.id)
    (isTorn : Torn decodeIpc torn) (outcome : RollBack) :
    ∃ left, Torn decodeIpc left ∧
      ((log.withTorn active front written torn).rollBackSegment active.id
        (bytesOf written).length outcome).1 = log.withTorn active front written left ∧
      (((log.withTorn active front written torn).rollBackSegment active.id
        (bytesOf written).length outcome).2 = none → left = []) := by
  have isCut : (log.withTorn active front written torn).cut active.id (bytesOf written).length =
      log.withTorn active front written [] := by
    have last := @onFile_last (log.withTorn active front written torn) front
      ⟨active.id, bytesOf written ++ torn, none⟩ active.id rfl rfl others fun file =>
        { file with data := file.data.take (bytesOf written).length }
    refine last.trans ?_
    simp [TableLog.withTorn]
  cases outcome with
  | done => exact ⟨[], torn_nil, isCut, fun _ => rfl⟩
  | unsynced why => exact ⟨[], torn_nil, isCut, fun _ => rfl⟩
  | uncut why => exact ⟨torn, isTorn, rfl, by rintro ⟨⟩⟩

/-- A frame that is not written whole is undone, or its segment is cleaned up. -/
theorem undoAppend_cases (disk : Disk) (receiving : Receiving decodeIpc log active front written [])
    (others : ∀ other ∈ front, other.id ≠ active.id) (isTorn : Torn decodeIpc torn) :
    (log.withTorn active front written torn).undoAppend disk active = log ∨
      ∃ left why, Torn decodeIpc left ∧
        (log.withTorn active front written torn).undoAppend disk active =
          (log.withTorn active front written left).cleanupFailedSegment disk active.id why := by
  have back : log.withTorn active front written [] = log := by
    unfold TableLog.withTorn
    rw [← receiving.isDir]
  unfold TableLog.undoAppend
  rw [receiving.goodLen]
  obtain ⟨left, isLeft, rolled, clean⟩ := @rollBack_torn _ _ log _ _ _ _ others isTorn disk.undo
  cases undone : (log.withTorn active front written torn).rollBackSegment active.id
      (bytesOf written).length disk.undo with
  | mk first failed =>
      rw [undone] at rolled clean
      cases failed with
      | none =>
          rw [clean rfl, back] at rolled
          exact .inl rolled
      | some why =>
          dsimp only at rolled ⊢
          rw [rolled]
          obtain ⟨left', isLeft', rolled', clean'⟩ :=
            @rollBack_torn _ _ log _ _ _ _ others isLeft disk.undoAgain
          cases again : (log.withTorn active front written left).rollBackSegment active.id
              (bytesOf written).length disk.undoAgain with
          | mk second failed =>
              rw [again] at rolled' clean'
              cases failed with
              | none =>
                  rw [clean' rfl, back] at rolled'
                  exact .inl rolled'
              | some why =>
                  dsimp only at rolled' ⊢
                  rw [rolled']
                  exact .inr ⟨left', _, isLeft', rfl⟩

/-- Undone or cleaned up, the bookkeeping is in order and no acknowledged frame is gone. -/
theorem undoAppend_spec (disk : Disk) (sound : Sound decodeIpc log) (isEntry : log.entry = some wal)
    (isActive : wal.active = some active)
    (receiving : Receiving decodeIpc log active front written []) (isTorn : Torn decodeIpc torn)
    {after : TableLog}
    (undone : (log.withTorn active front written torn).undoAppend disk active = after) :
    Sound decodeIpc after ∧ StillReplays decodeIpc log after ∧ (after = log ∨ Idle after) := by
  have isDir := receiving.isDir
  have ordered := sound.ordered
  have readable := sound.readable
  rw [isDir] at ordered readable
  rcases undoAppend_cases disk receiving ordered.front_ne isTorn with
    same | ⟨left, why, isLeft, isAfter⟩
  · rw [undone] at same
    subst same
    exact ⟨sound, sound.stillReplays fun _ replays => replays, .inl rfl⟩
  · rw [undone] at isAfter
    subst isAfter
    have booked := (sound.loaded wal isEntry).booked
    have frontReadable := readable_front readable
    have rereads := reads_written active.id receiving.genuine isLeft
    have tornReceiving : Receiving decodeIpc (log.withTorn active front written left) active front
        written left := ⟨rfl, receiving.genuine, isLeft, receiving.goodLen, receiving.fits⟩
    have tornBooked : Booked (log.withTorn active front written left) wal := by
      refine ⟨fun file mem => ?_, booked.isSealed, booked.earlier⟩
      rcases List.mem_append.mp mem with inFront | last
      · exact booked.below file (by rw [isDir]; exact List.mem_append_left _ inFront)
      · rw [List.mem_singleton.mp last]
        exact booked.below ⟨active.id, bytesOf written ++ [], none⟩ (by rw [isDir]; simp)
    have tornReadable : Readable decodeIpc (log.withTorn active front written left).dir := by
      intro file mem
      rcases List.mem_append.mp mem with inFront | last
      · exact frontReadable file inFront
      · rw [List.mem_singleton.mp last]
        exact ⟨_, rereads⟩
    have tornOrdered : Ordered (log.withTorn active front written left).dir :=
      ordered.change_last rfl
    have tornEntry : (log.withTorn active front written left).entry = some wal := isEntry
    obtain ⟨after, idle, -, -, still⟩ :=
      cleanup_spec disk why tornEntry isActive tornBooked tornOrdered tornReadable tornReceiving
    have same (frames : List (SeqOp Batches)) (replays : Replays decodeIpc log.dir frames) :
        Replays decodeIpc (log.withTorn active front written left).dir frames := by
      rw [isDir] at replays
      exact replays.last_congr frontReadable
        (reads_written active.id receiving.genuine torn_nil) rereads
    exact ⟨after, sound.stillReplays_trans same rfl still, .inr idle⟩

/-! ## Writing a frame -/

/-- A frame that is written whole: its statement waits for more than there was. -/
theorem sound_written (readsBack : ReadsBack encodeIpc decodeIpc) (sound : Sound decodeIpc log)
    (isEntry : log.entry = some wal) (isActive : wal.active = some active)
    (receiving : Receiving decodeIpc log active front written []) {kind : TailOpKind}
    {batches : Batches} {frame : List UInt8}
    (encodes : encodeFrame encodeIpc wal.nextSeq kind batches = .ok frame) {disk : Disk}
    (writes : disk.write = none) {after : TableLog} {reply : Except WalError Waiter}
    (wrote : log.writeFrame disk wal active frame = (after, reply)) :
    Sound decodeIpc after ∧
      reply = .ok ⟨active.id, wal.nextSeq, active.goodLen + frame.length⟩ ∧
      after.waiting = log.waiting ++
        [⟨active.id, wal.nextSeq, active.goodLen + frame.length⟩] ∧
      after.syncs active.id = { log.syncs active.id with
        writtenLen := active.goodLen + frame.length, writtenSeq := wal.nextSeq } := by
  obtain ⟨payload, rfl, decodes⟩ := encodeFrame_spec readsBack encodes
  have ordered := sound.ordered
  rw [receiving.isDir] at ordered
  have written' := @onFile_last log front ⟨active.id, bytesOf written ++ [], none⟩ active.id
    receiving.isDir rfl ordered.front_ne fun file =>
      { file with data := file.data ++ Segment.frameOf payload }
  unfold TableLog.writeFrame at wrote
  rw [writes] at wrote
  dsimp only at wrote
  rw [written'] at wrote
  cases wrote
  have isLast : bytesOf written ++ [] ++ Segment.frameOf payload =
      bytesOf (written ++ [(payload, (wal.nextSeq % 2 ^ 64, ⟨kind, batches⟩))]) ++ [] := by
    rw [bytesOf_append, bytesOf_cons, bytesOf_nil]
    simp
  have genuine : Genuine decodeIpc
      (written ++ [(payload, (wal.nextSeq % 2 ^ 64, ⟨kind, batches⟩))]) := by
    intro other mem
    rcases List.mem_append.mp mem with old | new
    · exact receiving.genuine other old
    · rw [List.mem_singleton.mp new]
      exact decodes
  have isEnd : active.goodLen + (Segment.frameOf payload).length =
      (bytesOf (written ++ [(payload, (wal.nextSeq % 2 ^ 64, ⟨kind, batches⟩))])).length := by
    rw [receiving.goodLen, bytesOf_append, List.length_append, bytesOf_cons, bytesOf_nil,
      List.append_nil]
  have booked := (sound.loaded wal isEntry).booked
  have isBelow : active.id < wal.nextSegment :=
    booked.below ⟨active.id, bytesOf written ++ [], none⟩ (by rw [receiving.isDir]; simp)
  have fits := @GroupFits.push Batches log.waiting log.unacked active.id written
    (log.syncs active.id) (payload, (wal.nextSeq % 2 ^ 64, ⟨kind, batches⟩))
    ⟨active.id, wal.nextSeq, active.goodLen + (Segment.frameOf payload).length⟩ rfl isEnd
    (fun other mem => (booked.earlier other mem).1) rfl receiving.fits
  have readable := sound.readable
  rw [receiving.isDir] at readable
  refine ⟨sound_of_loaded rfl (ordered.change_last rfl) ?_ ⟨⟨?_, ?_, ?_⟩, ?_⟩, rfl, rfl,
    if_pos rfl⟩
  · intro file mem
    rcases List.mem_append.mp mem with inFront | last
    · exact readable_front readable file inFront
    · rw [List.mem_singleton.mp last, isLast]
      exact ⟨_, reads_written active.id genuine torn_nil⟩
  · intro file mem
    rcases List.mem_append.mp mem with inFront | last
    · exact booked.below file (by rw [receiving.isDir]; exact List.mem_append_left _ inFront)
    · rw [List.mem_singleton.mp last]
      exact isBelow
  · intro segment mem
    obtain ⟨id, isBelow, isName, apart⟩ := booked.isSealed segment mem
    refine ⟨id, isBelow, isName, ?_⟩
    rintro _ ⟨⟩
    exact apart active isActive
  · intro waiter mem
    rcases List.mem_append.mp mem with old | new
    · obtain ⟨before, placed⟩ := booked.earlier waiter old
      exact ⟨Nat.lt_succ_of_lt before, placed⟩
    · rw [List.mem_singleton.mp new]
      exact ⟨Nat.lt_succ_self _, isBelow⟩
  · rintro _ ⟨⟩
    refine ⟨front, _, congrArg (fun data => front ++ [⟨active.id, data, none⟩]) isLast, genuine,
      torn_nil, isEnd, ?_⟩
    simpa [TableLog.setSync] using fits

/-- A frame that is not written whole. -/
theorem writeFrame_failed (readsBack : ReadsBack encodeIpc decodeIpc) (sound : Sound decodeIpc log)
    (isEntry : log.entry = some wal) (isActive : wal.active = some active)
    (receiving : Receiving decodeIpc log active front written []) {kind : TailOpKind}
    {batches : Batches} {frame : List UInt8}
    (encodes : encodeFrame encodeIpc wal.nextSeq kind batches = .ok frame) {disk : Disk}
    {refused : Nat × String} (writes : disk.write = some refused) {after : TableLog}
    {reply : Except WalError Waiter}
    (wrote : log.writeFrame disk wal active frame = (after, reply)) :
    Sound decodeIpc after ∧ StillReplays decodeIpc log after ∧ (after = log ∨ Idle after) ∧
      reply = .error (.append (segmentName active.id) refused.2) := by
  obtain ⟨payload, rfl, decodes⟩ := encodeFrame_spec readsBack encodes
  have ordered := sound.ordered
  rw [receiving.isDir] at ordered
  have torn := @torn_take _ decodeIpc payload decodes.1 refused.1
  have partly := @onFile_last log front ⟨active.id, bytesOf written ++ [], none⟩ active.id
    receiving.isDir rfl ordered.front_ne fun file =>
      { file with data := file.data ++ (Segment.frameOf payload).dropLast.take refused.1 }
  have isTorn : log.onFile active.id (fun file =>
      { file with data := file.data ++ (Segment.frameOf payload).dropLast.take refused.1 }) =
        log.withTorn active front written ((Segment.frameOf payload).dropLast.take refused.1) := by
    rw [partly, List.append_nil]
    rfl
  unfold TableLog.writeFrame at wrote
  rw [writes] at wrote
  dsimp only at wrote
  rw [isTorn] at wrote
  obtain ⟨isAfter, isReply⟩ := Prod.mk.inj wrote
  obtain ⟨soundAfter, still, same⟩ :=
    undoAppend_spec disk sound isEntry isActive receiving torn isAfter
  exact ⟨soundAfter, still, same, isReply.symm⟩

end Undo

/-! ## Appending -/

/-- The segment that receives appends has no failed group fsync. -/
def Ready (log : TableLog) : Prop :=
  ∀ wal active, log.entry = some wal → wal.active = some active →
    (log.syncs active.id).failed = none

theorem Idle.ready (idle : Idle log) : Ready log := by
  obtain ⟨wal, isEntry, none'⟩ := idle
  intro other active isOther isActive
  rw [isEntry] at isOther
  cases isOther
  rw [none'] at isActive
  cases isActive

/-- The statement gets as far as creating a segment. -/
def TableLog.Creates (log : TableLog) (disk : Disk) : Prop :=
  disk.create = none ∧
    match log.entry with
    | none => disk.createDir = none ∧ disk.syncRoot = none
    | some wal => wal.active = none

/-- What a statement whose frame is not appended leaves. -/
structure Survives (decodeIpc : List UInt8 → Except String Batches) (log after : TableLog) :
    Prop where
  sound : Sound decodeIpc after
  still : StillReplays decodeIpc log after
  ready : Ready log → Ready after

theorem survives_of_unmoved (sound : Sound decodeIpc log) {middle after : TableLog}
    (unmoved : Unmoved decodeIpc log middle) (ready : Ready log → Ready middle)
    (survives : Survives decodeIpc middle after) : Survives decodeIpc log after where
  sound := survives.sound
  still := sound.stillReplays_trans unmoved.replays unmoved.unacked survives.still
  ready isReady := survives.ready (ready isReady)

theorem Sound.survives (sound : Sound decodeIpc log) : Survives decodeIpc log log :=
  ⟨sound, sound.stillReplays fun _ replays => replays, fun ready => ready⟩

/-- A statement whose frame was appended waits for it. -/
structure Appended (decodeIpc : List UInt8 → Except String Batches) (log after : TableLog)
    (waiter : Waiter) : Prop where
  sound : Sound decodeIpc after
  isWaiting : after.waiting = log.waiting ++ [waiter]
  unfailed : Ready log → (after.syncs waiter.segment).failed = none
  unclean : (after.syncs waiter.segment).cleaned = false

theorem Appended.of_unmoved {middle after : TableLog} {waiter : Waiter}
    (unmoved : Unmoved decodeIpc log middle) (ready : Ready log → Ready middle)
    (appended : Appended decodeIpc middle after waiter) : Appended decodeIpc log after waiter where
  sound := appended.sound
  isWaiting := by rw [appended.isWaiting, unmoved.waiting]
  unfailed isReady := appended.unfailed (ready isReady)
  unclean := appended.unclean

/-- A frame that is not appended could not be encoded, or the disk refused it. -/
theorem appendFrame_spec (readsBack : ReadsBack encodeIpc decodeIpc) (sound : Sound decodeIpc log)
    (isEntry : log.entry = some wal) {active : ActiveSegment} (isActive : wal.active = some active)
    {disk : Disk} {kind : TailOpKind} {batches : Batches} {after : TableLog}
    {reply : Except WalError Waiter}
    (answers : log.appendFrame encodeIpc disk kind batches wal active = (after, reply)) :
    (∃ waiter, reply = .ok waiter ∧ Appended decodeIpc log after waiter) ∨
      ∃ why, reply = .error why ∧ Survives decodeIpc log after ∧
        (disk.write ≠ none ∨ ∃ seq text, encodeFrame encodeIpc seq kind batches = .error text ∧
          why = .encode text) := by
  obtain ⟨front, written, receiving⟩ := (sound.loaded wal isEntry).receiving active isActive
  unfold TableLog.appendFrame at answers
  cases encodes : encodeFrame encodeIpc wal.nextSeq kind batches with
  | error text =>
      rw [encodes] at answers
      cases answers
      exact .inr ⟨_, rfl, sound.survives, .inr ⟨_, text, encodes, rfl⟩⟩
  | ok frame =>
      rw [encodes] at answers
      cases writes : disk.write with
      | none =>
          obtain ⟨soundAfter, isReply, isWaiting, isGroup⟩ :=
            sound_written readsBack sound isEntry isActive receiving encodes writes answers
          refine .inl ⟨_, isReply, soundAfter, isWaiting, fun ready => ?_, ?_⟩
          · rw [isGroup]
            exact ready wal active isEntry isActive
          · rw [isGroup]
            exact receiving.fits.unclean
      | some refused =>
          obtain ⟨soundAfter, still, same, isReply⟩ :=
            writeFrame_failed readsBack sound isEntry isActive receiving encodes writes answers
          refine .inr ⟨_, isReply, ⟨soundAfter, still, fun ready => ?_⟩, .inl (by simp)⟩
          rcases same with rfl | idle
          · exact ready
          · exact idle.ready

/-- The disk refuses something on the way to an appended frame, or it cannot be encoded. -/
def Refused (encodeIpc : Batches → Except String (List UInt8)) (disk : Disk) (kind : TailOpKind)
    (batches : Batches) (why : WalError) : Prop :=
  (disk.createDir ≠ none ∨ disk.syncRoot ≠ none ∨ disk.create ≠ none ∨ disk.write ≠ none) ∨
    ∃ seq text, encodeFrame encodeIpc seq kind batches = .error text ∧ why = .encode text

/-- A statement whose segment, if it creates one, is durable in its directory either waits for its
frame or leaves everything in order. -/
theorem appendStaged_spec (readsBack : ReadsBack encodeIpc decodeIpc) (sound : Sound decodeIpc log)
    {disk : Disk} (durable : log.Creates disk → disk.syncDir = none) {kind : TailOpKind}
    {batches : Batches} {after : TableLog} {reply : Except WalError Waiter}
    (answers : log.appendStaged encodeIpc decodeIpc disk kind batches = (after, reply)) :
    (∃ waiter, reply = .ok waiter ∧ Appended decodeIpc log after waiter) ∨
      ∃ why, reply = .error why ∧ Survives decodeIpc log after ∧
        Refused encodeIpc disk kind batches why := by
  unfold TableLog.appendStaged at answers
  rcases tableEntry_spec disk sound with ⟨why, isEntry, none', refused, -⟩ |
    ⟨middle, wal, entered, soundMiddle, isEntry, unmoved, origin⟩
  · rw [isEntry] at answers
    cases answers
    exact .inr ⟨why, rfl, sound.survives, .inl (refused.imp_right .inl)⟩
  · rw [entered] at answers
    dsimp only at answers
    have readyMiddle (ready : Ready log) : Ready middle := by
      rcases origin with ⟨-, rfl⟩ | ⟨-, noActive, -⟩
      · exact ready
      · exact Idle.ready ⟨wal, isEntry, noActive⟩
    have finish {next : TableLog} {nextWal : TableWal} {active : ActiveSegment}
        (soundNext : Sound decodeIpc next) (isNext : next.entry = some nextWal)
        (isActive : nextWal.active = some active) (unmoved : Unmoved decodeIpc log next)
        (ready : Ready log → Ready next)
        (answers : next.appendFrame encodeIpc disk kind batches nextWal active = (after, reply)) :
        (∃ waiter, reply = .ok waiter ∧ Appended decodeIpc log after waiter) ∨
          ∃ why, reply = .error why ∧ Survives decodeIpc log after ∧
            Refused encodeIpc disk kind batches why := by
      rcases appendFrame_spec readsBack soundNext isNext isActive answers with
        ⟨waiter, isReply, appended⟩ | ⟨why, isReply, survives, cause⟩
      · exact .inl ⟨waiter, isReply, appended.of_unmoved unmoved ready⟩
      · exact .inr ⟨why, isReply, survives_of_unmoved sound unmoved ready survives,
          cause.imp_left fun refused => .inr (.inr (.inr refused))⟩
    rcases ensureActive_spec disk soundMiddle isEntry with ⟨active, isActive, found⟩ |
      ⟨noActive, ⟨path, why, refusing, isRefused⟩ | ⟨next, why, refusing, created, isRefused⟩ |
        ⟨next, found, isNext, rfl⟩⟩
    · rw [found] at answers
      exact finish soundMiddle isEntry isActive unmoved readyMiddle answers
    · rw [refusing] at answers
      cases answers
      exact .inr ⟨_, rfl, survives_of_unmoved sound unmoved readyMiddle soundMiddle.survives,
        .inl (.inr (.inr (.inl isRefused)))⟩
    · -- the directory fsync behind a fresh segment does not fail
      refine absurd (durable ⟨created, ?_⟩) isRefused
      rcases origin with ⟨isOrigin, -⟩ | ⟨none', -, open'⟩
      · rw [isOrigin]
        exact noActive
      · rw [none']
        exact open'
    · obtain ⟨soundNext, still, receiving⟩ := sound_created soundMiddle isEntry
      rw [found] at answers
      refine finish soundNext isNext rfl (unmoved.trans still) (fun _ => ?_) answers
      intro other active isOther isActive
      rw [isNext] at isOther
      cases isOther
      cases isActive
      exact congrArg SegSync.failed (if_pos rfl)

end Icegres.Tail
