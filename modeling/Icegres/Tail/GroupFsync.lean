import Icegres.Tail.Failures
import Icegres.Tail.Staging
import Icegres.Transition

/-!
# A statement is told that its frame is durable when it is

However appends, fsyncs, rotations, failures and rollbacks interleave, a statement is told that its
frame is durable only after an fsync that began behind the frame has succeeded, and no rollback
removes the frame. A failed fsync may have lost it in one case: the rollback of a later statement's
partial frame cut the segment but could not sync it, and nothing failed the group for that.
-/

namespace Icegres.Tail

/-! ## A frame and the group of its segment -/

/-- What the group of a segment knows of a frame in it. `doubtful` says that the fsync of a
rollback failed, which the group is not told yet. -/
structure Held (journal : List FileEvent) (frame : Waiter) (group : SegSync) (doubtful : Prop) :
    Prop where
  positive : 0 < frame.myEnd
  written : frame.myEnd ≤ group.writtenLen
  synced : frame.myEnd ≤ group.syncedLen → Synced journal frame ∧ ¬ Harmed journal frame
  syncing : ∀ len seq, group.syncing = some (len, seq) → frame.myEnd ≤ len →
    Syncing journal frame
  intact : group.failed = none → doubtful ∨ ¬ Harmed journal frame

namespace Held

variable {journal : List FileEvent} {frame : Waiter} {event : FileEvent} {group : SegSync}
  {doubtful later : Prop}

theorem weaken (held : Held journal frame group doubtful) (more : doubtful → later) :
    Held journal frame group later :=
  ⟨held.positive, held.written, held.synced, held.syncing,
    fun unfailed => (held.intact unfailed).imp_left more⟩

/-- An operation that leaves the group. -/
theorem concat (held : Held journal frame group doubtful)
    (passes : group.syncing.isSome → event.Passes frame.segment)
    (harmless : frame.myEnd ≤ group.syncedLen → ¬ Harms journal frame event)
    (intact : group.failed = none → later ∨ ¬ Harmed journal frame ∧ ¬ Harms journal frame event) :
    Held (journal ++ [event]) frame group later where
  positive := held.positive
  written := held.written
  synced reached := by
    obtain ⟨synced, unharmed⟩ := held.synced reached
    exact ⟨synced.append _, fun harmed =>
      (harmed_concat.mp harmed).elim unharmed (harmless reached)⟩
  syncing len seq isTarget reached := by
    refine (held.syncing len seq isTarget reached).append (passes ?_)
    rw [isTarget]
    rfl
  intact unfailed := (intact unfailed).imp_right fun unharmed harmed =>
    (harmed_concat.mp harmed).elim unharmed.1 unharmed.2

/-- What happens to another segment does nothing to the frame. -/
theorem apart (held : Held journal frame group doubtful) (other : event.segment ≠ frame.segment)
    (more : doubtful → later) : Held (journal ++ [event]) frame group later := by
  have harmless : ¬ Harms journal frame event := fun harms => other harms.2.1
  refine held.concat (fun _ result same => ?_) (fun _ => harmless) fun unfailed => ?_
  · rw [same] at other
    exact other rfl
  · exact (held.intact unfailed).imp more fun unharmed => ⟨unharmed, harmless⟩

theorem apart_all (held : Held journal frame group doubtful) {events : List FileEvent}
    (others : ∀ event ∈ events, event.segment ≠ frame.segment) (more : doubtful → later) :
    Held (journal ++ events) frame group later := by
  induction events generalizing journal doubtful with
  | nil =>
      rw [List.append_nil]
      exact held.weaken more
  | cons event rest ih =>
      rw [List.append_cons]
      exact ih (held.apart (others event (by simp)) more)
        (fun other mem => others other (by simp [mem])) fun doubt => doubt

theorem not_harms_wrote {other : Waiter} : ¬ Harms journal frame (.wrote other) := by
  rintro ⟨-, -, removes | ⟨fails, -⟩⟩
  · exact removes
  · exact fails

/-- A frame that is written changes nothing for the others of its segment. -/
theorem published {other : Waiter} {len : Nat} (held : Held journal frame group doubtful)
    (certain : ¬ doubtful) (more : group.writtenLen ≤ len) (seq : Nat) :
    Held (journal ++ [.wrote other]) frame { group with writtenLen := len, writtenSeq := seq }
      later := by
  have kept := @concat journal frame (.wrote other) group doubtful later held
    (fun _ _ => by rintro ⟨⟩) (fun _ => not_harms_wrote) fun unfailed =>
      .inr ⟨(held.intact unfailed).resolve_left certain, not_harms_wrote⟩
  exact ⟨kept.positive, Nat.le_trans kept.written more, kept.synced, kept.syncing, kept.intact⟩

theorem begins (held : Held journal frame group doubtful) (written : .wrote frame ∈ journal) :
    Held (journal ++ [.syncBegins frame.segment]) frame group.lead doubtful := by
  have harmless : ¬ Harms journal frame (.syncBegins frame.segment) := by
    rintro ⟨-, -, removes | ⟨fails, -⟩⟩
    · exact removes
    · exact fails
  have same := @concat journal frame (.syncBegins frame.segment) group doubtful doubtful held
    (fun _ _ => by rintro ⟨⟩) (fun _ => harmless)
    fun unfailed => (held.intact unfailed).imp_right fun unharmed => ⟨unharmed, harmless⟩
  exact ⟨same.positive, same.written, same.synced, fun _ _ _ _ => syncing_begins written,
    same.intact⟩

/-- The fsync in flight succeeds or fails. If it succeeds behind the back of a failed one, it must
not reach further than what is durable. -/
theorem ends {len seq : Nat} (held : Held journal frame group doubtful)
    (isTarget : group.syncing = some (len, seq)) (result : Option String)
    (sure : result = none → doubtful → group.failed.isSome ∨ len ≤ group.syncedLen) :
    Held (journal ++ [.syncEnds frame.segment result]) frame (group.complete result) doubtful := by
  have durable (reached : frame.myEnd ≤ group.syncedLen) :
      Synced (journal ++ [.syncEnds frame.segment result]) frame ∧
        ¬ Harmed (journal ++ [.syncEnds frame.segment result]) frame := by
    obtain ⟨synced, unharmed⟩ := held.synced reached
    refine ⟨synced.append _, fun harmed => ?_⟩
    rcases harmed_concat.mp harmed with before | ⟨-, -, removes | ⟨-, lost⟩⟩
    · exact unharmed before
    · exact removes
    · exact lost synced
  cases result with
  | some why =>
      have failed : group.complete (some why) =
          { group with syncing := none, failed := some s!"fsync failed: {why}" } := by
        unfold SegSync.complete
        rw [isTarget]
      rw [failed]
      exact ⟨held.positive, held.written, durable, by rintro _ _ ⟨⟩, by rintro ⟨⟩⟩
  | none =>
      have harmless : ¬ Harms journal frame (.syncEnds frame.segment none) := by
        rintro ⟨-, -, removes | ⟨fails, -⟩⟩
        · exact removes
        · exact fails rfl
      have intact (unfailed : group.failed = none) :
          doubtful ∨ ¬ Harmed (journal ++ [.syncEnds frame.segment none]) frame :=
        (held.intact unfailed).imp_right fun unharmed harmed =>
          (harmed_concat.mp harmed).elim unharmed harmless
      by_cases open' : group.failed = none ∧ group.cleaned = false
      · have advanced : group.complete none =
            { group with
              syncing := none
              syncedLen := max group.syncedLen len
              syncedSeq := max group.syncedSeq seq } := by
          unfold SegSync.complete
          rw [isTarget]
          exact if_pos open'
        rw [advanced]
        refine ⟨held.positive, held.written, fun reached => ?_, by rintro _ _ ⟨⟩, intact⟩
        by_cases before : frame.myEnd ≤ group.syncedLen
        · exact durable before
        · have inFlight : frame.myEnd ≤ len := by
            have reached : frame.myEnd ≤ max group.syncedLen len := reached
            omega
          refine ⟨(held.syncing len seq isTarget inFlight).succeeds, ?_⟩
          refine (intact open'.1).resolve_left fun doubt => ?_
          rcases sure rfl doubt with failed | short
          · rw [open'.1] at failed
            cases failed
          · exact before (Nat.le_trans inFlight short)
      · have stayed : group.complete none = { group with syncing := none } := by
          unfold SegSync.complete
          rw [isTarget]
          exact if_neg open'
        rw [stayed]
        exact ⟨held.positive, held.written, durable, by rintro _ _ ⟨⟩, intact⟩

/-- A failure that is noted ends every doubt. -/
theorem noted (held : Held journal frame group doubtful) (why : String) :
    Held journal frame (Staging.noted group why) later :=
  ⟨held.positive, held.written, held.synced, held.syncing, by rintro ⟨⟩⟩

/-- A rollback to a length that keeps what is durable, and all frames if the group has not
failed. -/
theorem rollsBack {len : Nat} {outcome : RollBack} (held : Held journal frame group doubtful)
    (segment : Nat)
    (keeps : group.syncedLen ≤ len)
    (sure : group.failed = none → later ∨
      ¬ Harmed journal frame ∧ frame.myEnd ≤ len ∧ ¬ outcome.Unsynced) :
    Held (journal ++ [.rollsBack segment len outcome]) frame group later := by
  refine held.concat (fun _ _ => by rintro ⟨⟩) (fun reached => ?_) fun unfailed => ?_
  · rintro ⟨-, -, removes | ⟨-, lost⟩⟩
    · exact absurd (Nat.le_trans reached keeps) (Nat.not_le.mpr removes)
    · exact lost (held.synced reached).1
  · refine (sure unfailed).imp_right fun ⟨unharmed, inside, isSynced⟩ => ⟨unharmed, ?_⟩
    rintro ⟨-, -, removes | ⟨fails, -⟩⟩
    · exact absurd inside (Nat.not_le.mpr removes)
    · exact isSynced fails

/-- The file of a failed segment without a durable frame is removed. -/
theorem discards (held : Held journal frame group doubtful) (segment : Nat)
    (failed : group.failed.isSome) (none' : group.syncedLen = 0) :
    Held (journal ++ [.discards segment]) frame group later := by
  refine held.concat (fun _ _ => by rintro ⟨⟩) (fun reached => ?_) fun unfailed => ?_
  · rw [none'] at reached
    exact absurd held.positive (Nat.not_lt.mpr reached)
  · rw [unfailed] at failed
    cases failed

end Held

/-! ## Calls that stage nothing -/

/-- The segment that receives appends. -/
def Receives (log : TableLog) (active : ActiveSegment) : Prop :=
  ∃ wal, log.entry = some wal ∧ wal.active = some active

/-- Files and bookkeeping may change, but no group does, no statement is staged, and no other
segment receives appends. -/
structure Retains (log after : TableLog) : Prop where
  syncs : after.syncs = log.syncs
  waiting : ∀ frame ∈ after.waiting, frame ∈ log.waiting
  entry : ∀ wal, log.entry = some wal → ∃ next, after.entry = some next ∧
    wal.nextSegment ≤ next.nextSegment
  receives : ∀ active, Receives after active → Receives log active

namespace Retains

variable {log middle after : TableLog} {wal : TableWal}

theorem refl (log : TableLog) : Retains log log :=
  ⟨rfl, fun _ mem => mem, fun wal isEntry => ⟨wal, isEntry, Nat.le_refl _⟩,
    fun _ receives => receives⟩

theorem trans (first : Retains log middle) (second : Retains middle after) :
    Retains log after where
  syncs := second.syncs.trans first.syncs
  waiting frame mem := first.waiting frame (second.waiting frame mem)
  entry wal isEntry := by
    obtain ⟨next, isNext, below⟩ := first.entry wal isEntry
    obtain ⟨last, isLast, above⟩ := second.entry next isNext
    exact ⟨last, isLast, Nat.le_trans below above⟩
  receives active receives := first.receives active (second.receives active receives)

theorem files (log : TableLog) (dir : List SegmentFile) : Retains log { log with dir := dir } :=
  ⟨rfl, fun _ mem => mem, fun wal isEntry => ⟨wal, isEntry, Nat.le_refl _⟩,
    fun _ receives => receives⟩

/-- The bookkeeping changes, and the active segment stays or is set aside. -/
theorem booked (isEntry : log.entry = some wal) {next : TableWal}
    (more : wal.nextSegment ≤ next.nextSegment)
    (active : next.active = wal.active ∨ next.active = none) :
    Retains log { log with entry := some next } where
  syncs := rfl
  waiting _ mem := mem
  entry other isOther := by
    rw [isEntry] at isOther
    cases isOther
    exact ⟨next, rfl, more⟩
  receives other receives := by
    obtain ⟨same, isSame, isActive⟩ := receives
    cases isSame
    rcases active with stays | none'
    · exact ⟨wal, isEntry, stays ▸ isActive⟩
    · rw [none'] at isActive
      cases isActive

theorem dropWaiter (log : TableLog) (waiter : Waiter) : Retains log (log.dropWaiter waiter) :=
  ⟨rfl, fun _ mem => List.mem_of_mem_erase mem,
    fun wal isEntry => ⟨wal, isEntry, Nat.le_refl _⟩, fun _ receives => receives⟩

theorem rollBack (log : TableLog) (id len : Nat) (outcome : RollBack) :
    Retains log (log.rollBackSegment id len outcome).1 := by
  cases outcome with
  | done => exact .files log _
  | uncut why => exact .refl log
  | unsynced why => exact .files log _

theorem clamp (log : TableLog) (disk : Disk) (active : ActiveSegment) (group : SegSync)
    (nextSeq : Nat) : Retains log (log.clampFailed disk active group nextSeq) := by
  unfold TableLog.clampFailed
  dsimp only
  split
  · exact (Retains.rollBack log _ _ _).trans (.files _ _)
  · exact .rollBack log _ _ _

theorem sealFailed (disk : Disk) (isEntry : log.entry = some wal) (active : ActiveSegment)
    (group : SegSync) : Retains log (log.sealFailed disk wal active group) := by
  have clamped := Retains.clamp log disk active group wal.nextSeq
  have sameEntry : (log.clampFailed disk active group wal.nextSeq).entry = some wal :=
    entry_clampFailed.trans isEntry
  have idle (sealed : List (String × Nat)) :=
    clamped.trans (@booked _ _ sameEntry { wal with active := none, sealed } (Nat.le_refl _)
      (.inr rfl))
  unfold TableLog.sealFailed
  dsimp only
  split
  · exact idle _
  · split
    · exact (idle wal.sealed).trans (.files _ _)
    · exact idle wal.sealed

theorem sealActive (disk : Disk) (isEntry : log.entry = some wal) :
    Retains log (log.sealActive disk wal) := by
  have idle (sealed : List (String × Nat)) :=
    @booked _ _ isEntry { wal with active := none, sealed } (Nat.le_refl _) (.inr rfl)
  unfold TableLog.sealActive
  split
  · exact .refl log
  · dsimp only
    split
    · exact idle _
    · split
      · exact (idle wal.sealed).trans (.files _ _)
      · exact idle wal.sealed

theorem truncate (log : TableLog) (disk : Disk) (uptoSeq : Nat) :
    Retains log (log.truncate disk uptoSeq).1 := by
  unfold TableLog.truncate
  split
  · exact .refl log
  · next wal isEntry =>
    dsimp only
    rw [removeFiles_eq]
    generalize isRemoved : log.withFiles _ = removed
    have kept : Retains log removed := isRemoved ▸ .files log _
    have sameEntry : removed.entry = some wal := by
      rw [← isRemoved]
      exact isEntry
    have fewer (active : Option ActiveSegment) (sealed : List (String × Nat))
        (stays : active = wal.active ∨ active = none) :=
      kept.trans (@booked _ _ sameEntry { wal with active, sealed } (Nat.le_refl _) stays)
    split
    · exact fewer _ _ (.inl rfl)
    · split
      · split
        · exact (fewer none _ (.inr rfl)).trans (.files _ _)
        · exact fewer none _ (.inr rfl)
      · exact fewer _ _ (.inl rfl)

/-- A scan of the directory leaves no segment that receives appends. -/
theorem scanned (none' : log.entry = none) (dir : List SegmentFile) {next : TableWal}
    (inactive : next.active = none) : Retains log { log with dir := dir, entry := some next } where
  syncs := rfl
  waiting _ mem := mem
  entry wal isEntry := by
    rw [none'] at isEntry
    cases isEntry
  receives active receives := by
    obtain ⟨wal, isEntry, isActive⟩ := receives
    cases isEntry
    rw [inactive] at isActive
    cases isActive

end Retains

section Calls

variable {Batches : Type} {encodeIpc : Batches → Except String (List UInt8)}
  {decodeIpc : List UInt8 → Except String Batches}

theorem tableEntry_retains (log : TableLog) (disk : Disk) :
    Retains log (log.tableEntry decodeIpc disk).1 ∧
      ∀ wal, (log.tableEntry decodeIpc disk).2 = .ok wal →
        (log.tableEntry decodeIpc disk).1.entry = some wal := by
  unfold TableLog.tableEntry
  split
  · next wal isEntry =>
    refine ⟨.refl log, ?_⟩
    rintro _ ⟨⟩
    exact isEntry
  · next none' =>
    split
    · exact ⟨.refl log, by rintro _ ⟨⟩⟩
    · split
      · exact ⟨.refl log, by rintro _ ⟨⟩⟩
      · dsimp only
        split
        · exact ⟨.files log _, by rintro _ ⟨⟩⟩
        · refine ⟨.scanned none' _ rfl, ?_⟩
          rintro _ ⟨⟩
          rfl

/-- The segment for a frame is the active one, or a fresh one. -/
theorem ensureActive_retains (log : TableLog) (wal : TableWal) (disk : Disk) :
    (∃ why, (log.ensureActive disk wal).2 = .error why ∧
        Retains log (log.ensureActive disk wal).1) ∨
      (∃ active, wal.active = some active ∧
        log.ensureActive disk wal = (log, .ok (wal, active))) ∨
      ∃ next, log.ensureActive disk wal =
          (log.created wal, .ok (next, ⟨wal.nextSegment, 0, 0⟩)) ∧
        (log.created wal).entry = some next ∧ next.active = some ⟨wal.nextSegment, 0, 0⟩ := by
  unfold TableLog.ensureActive
  cases isActive : wal.active with
  | some active => exact .inr (.inl ⟨active, rfl, rfl⟩)
  | none =>
    dsimp only
    split
    · exact .inl ⟨_, rfl, .refl log⟩
    · split
      · exact .inl ⟨_, rfl, .refl log⟩
      · split
        · exact .inl ⟨_, rfl, .files log _⟩
        · exact .inr (.inr ⟨_, rfl, rfl, rfl⟩)

theorem ensureSeqFloor_retains (log : TableLog) (disk : Disk) (floor : Nat) :
    Retains log (log.ensureSeqFloor decodeIpc disk floor).1 := by
  obtain ⟨retains, entered⟩ := @tableEntry_retains _ decodeIpc log disk
  unfold TableLog.ensureSeqFloor
  split
  · next isError =>
    rw [isError] at retains
    exact retains
  · next wal isOk =>
    rw [isOk] at retains entered
    exact retains.trans (@Retains.booked _ _ (entered wal rfl)
      { wal with nextSeq := max wal.nextSeq floor } (Nat.le_refl _) (.inl rfl))

end Calls

/-! ## The threads of a table -/

namespace Staging

/-- A rollback's fsync failed on the segment, and its group is not failed for that yet. -/
def Doubtful (state : Staging) (segment : Nat) : Prop :=
  match state.holder with
  | some (.undoingAgain active first) => active.id = segment ∧ first.Unsynced
  | some (.poisoned active first second _) =>
    active.id = segment ∧ (first.Unsynced ∨ second.Unsynced)
  | _ => False

/-- Every frame that was written is held by the group of its segment. -/
def Frames (journal : List FileEvent) (syncs : Nat → SegSync) (doubtful : Nat → Prop) : Prop :=
  ∀ frame, .wrote frame ∈ journal →
    Held journal frame (syncs frame.segment) (doubtful frame.segment)

/-- The boundaries of the active segment's group are inside its file. -/
structure Bounded (active : ActiveSegment) (group : SegSync) : Prop where
  goodLen : group.writtenLen = active.goodLen
  synced : group.syncedLen ≤ group.writtenLen
  target : ∀ len seq, group.syncing = some (len, seq) → len ≤ group.writtenLen

/-- What the holder of the lock relies on. -/
def HolderFits (log : TableLog) : Option Holder → Prop
  | some (.writing wal active frame) =>
    log.entry = some wal ∧ wal.active = some active ∧ 0 < frame.length
  | some (.undoing active) => Receives log active
  | some (.undoingAgain active _) => Receives log active
  | some (.poisoned active _ _ _) => Receives log active
  | some (.rotating active _ _) => Receives log active
  | some (.draining segment _ _) => (log.syncs segment).failed.isSome
  | some (.erasing wal active group _ _) =>
    log.entry = some wal ∧ wal.active = some active ∧ log.syncs active.id = group ∧
      group.failed.isSome ∧ group.syncing = none
  | _ => True

/-- What holds of the threads of a table in every state. -/
structure Inv (state : Staging) : Prop where
  placed : ∀ event ∈ state.journal, ∃ wal, state.log.entry = some wal ∧
    event.segment < wal.nextSegment
  below : ∀ wal active, state.log.entry = some wal → wal.active = some active →
    active.id < wal.nextSegment
  active : ∀ active, Receives state.log active → Bounded active (state.log.syncs active.id)
  waiting : ∀ frame ∈ state.log.waiting, .wrote frame ∈ state.journal
  frames : Frames state.journal state.log.syncs state.Doubtful
  told : ∀ frame, (frame, .ok ()) ∈ state.told → .wrote frame ∈ state.journal ∧
    frame.myEnd ≤ (state.log.syncs frame.segment).syncedLen
  fits : HolderFits state.log state.holder

theorem Fresh.inv {state : Staging} (fresh : state.Fresh) : state.Inv where
  placed event mem := by
    rw [fresh.unwritten] at mem
    cases mem
  below wal active isEntry isActive := by
    rw [fresh.inactive wal isEntry] at isActive
    cases isActive
  active active receives := by
    obtain ⟨wal, isEntry, isActive⟩ := receives
    rw [fresh.inactive wal isEntry] at isActive
    cases isActive
  waiting frame mem := by
    rw [fresh.unwaited] at mem
    cases mem
  frames frame mem := by
    rw [fresh.unwritten] at mem
    cases mem
  told frame mem := by
    rw [fresh.untold] at mem
    cases mem
  fits := by
    rw [fresh.free]
    trivial

/-- A step that stages no frame and creates no segment: one group may change, and what happens to
files happens to its segment. -/
structure Keeps (state after : Staging) (segment : Nat) (events : List FileEvent) : Prop where
  journal : after.journal = state.journal ++ events
  own : ∀ event ∈ events, event.segment = segment ∧ ∀ frame, event ≠ .wrote frame
  placed : events = [] ∨ ∃ wal, state.log.entry = some wal ∧ segment < wal.nextSegment
  entry : ∀ wal, state.log.entry = some wal → ∃ next, after.log.entry = some next ∧
    wal.nextSegment ≤ next.nextSegment
  receives : ∀ active, Receives after.log active → Receives state.log active
  apart : ∀ id, id ≠ segment → after.log.syncs id = state.log.syncs id
  bounded : ∀ active : ActiveSegment, active.id = segment →
    Bounded active (state.log.syncs segment) → Bounded active (after.log.syncs segment)
  more : (state.log.syncs segment).syncedLen ≤ (after.log.syncs segment).syncedLen
  waiting : ∀ frame ∈ after.log.waiting, frame ∈ state.log.waiting
  told : ∀ frame, (frame, .ok ()) ∈ after.told → (frame, .ok ()) ∈ state.told ∨
    frame ∈ state.log.waiting ∧ frame.myEnd ≤ (after.log.syncs frame.segment).syncedLen
  held : ∀ frame, .wrote frame ∈ state.journal → frame.segment = segment →
    Held state.journal frame (state.log.syncs segment) (state.Doubtful segment) →
      Held after.journal frame (after.log.syncs segment) (after.Doubtful segment)
  doubtful : ∀ id, id ≠ segment → state.Doubtful id → after.Doubtful id
  fits : HolderFits after.log after.holder

theorem Inv.keeps {state after : Staging} {segment : Nat} {events : List FileEvent}
    (inv : state.Inv) (keeps : state.Keeps after segment events) : after.Inv := by
  have written (frame : Waiter) (mem : .wrote frame ∈ after.journal) :
      .wrote frame ∈ state.journal := by
    rw [keeps.journal] at mem
    exact (List.mem_append.mp mem).resolve_right fun new => (keeps.own _ new).2 frame rfl
  have stays (frame : Waiter) (mem : .wrote frame ∈ state.journal) :
      .wrote frame ∈ after.journal := by
    rw [keeps.journal]
    exact List.mem_append_left _ mem
  have further (id : Nat) :
      (state.log.syncs id).syncedLen ≤ (after.log.syncs id).syncedLen := by
    by_cases own : id = segment
    · rw [own]
      exact keeps.more
    · rw [keeps.apart id own]
  refine
    { placed := fun event mem => ?_
      below := fun wal active isEntry isActive => ?_
      active := fun active receives => ?_
      waiting := fun frame mem => stays frame (inv.waiting frame (keeps.waiting frame mem))
      frames := fun frame mem => ?_
      told := fun frame mem => ?_
      fits := keeps.fits }
  · rw [keeps.journal] at mem
    have place : ∃ wal, state.log.entry = some wal ∧ event.segment < wal.nextSegment := by
      rcases List.mem_append.mp mem with old | new
      · exact inv.placed event old
      · rw [(keeps.own event new).1]
        exact keeps.placed.resolve_left (List.ne_nil_of_mem new)
    obtain ⟨wal, isEntry, isBelow⟩ := place
    obtain ⟨next, isNext, more⟩ := keeps.entry wal isEntry
    exact ⟨next, isNext, Nat.lt_of_lt_of_le isBelow more⟩
  · obtain ⟨before, isBefore, wasActive⟩ := keeps.receives active ⟨wal, isEntry, isActive⟩
    obtain ⟨next, isNext, more⟩ := keeps.entry before isBefore
    rw [isEntry] at isNext
    cases isNext
    exact Nat.lt_of_lt_of_le (inv.below before active isBefore wasActive) more
  · have before := inv.active active (keeps.receives active receives)
    by_cases own : active.id = segment
    · rw [own] at before ⊢
      exact keeps.bounded active own before
    · rwa [keeps.apart active.id own]
  · have old := written frame mem
    have held := inv.frames frame old
    by_cases own : frame.segment = segment
    · rw [own] at held ⊢
      exact keeps.held frame old own held
    · rw [keeps.apart frame.segment own, keeps.journal]
      exact held.apart_all (fun event new same => own (same.symm.trans (keeps.own event new).1))
        (keeps.doubtful frame.segment own)
  · rcases keeps.told frame mem with old | ⟨waits, reached⟩
    · obtain ⟨isWritten, reached⟩ := inv.told frame old
      exact ⟨stays frame isWritten, Nat.le_trans reached (further _)⟩
    · exact ⟨stays frame (inv.waiting frame waits), reached⟩

variable {state : Staging}

theorem not_doubtful_of_free (free : state.holder = none) (segment : Nat) :
    ¬ state.Doubtful segment := by
  unfold Doubtful
  rw [free]
  exact id

/-- A step that leaves the groups and writes nothing. -/
theorem Inv.retains (inv : state.Inv) {after : Staging} (retains : Retains state.log after.log)
    (isJournal : after.journal = state.journal)
    (told : ∀ frame, (frame, .ok ()) ∈ after.told → (frame, .ok ()) ∈ state.told ∨
      frame ∈ state.log.waiting ∧
        frame.myEnd ≤ (state.log.syncs frame.segment).syncedLen)
    (doubtful : ∀ id, state.Doubtful id → after.Doubtful id)
    (fits : HolderFits after.log after.holder) : after.Inv := by
  have syncs := retains.syncs
  refine @Inv.keeps state after 0 [] inv
    { journal := by rw [isJournal, List.append_nil]
      own := by rintro event ⟨⟩
      placed := .inl rfl
      entry := retains.entry
      receives := retains.receives
      apart := fun id _ => congrFun syncs id
      bounded := fun active _ before => by rwa [syncs]
      more := by rw [syncs]
      waiting := retains.waiting
      told := by rwa [syncs]
      held := fun frame _ _ held => ?_
      doubtful := fun id _ => doubtful id
      fits := fits }
  rw [isJournal, syncs]
  exact held.weaken (doubtful 0)

/-- Where threads stand changes. -/
theorem Inv.threads (inv : state.Inv) (holder : Option Holder) (doing : Waiter → WaitPc)
    (doubtful : ∀ id, state.Doubtful id → { state with holder, doing }.Doubtful id)
    (fits : HolderFits state.log holder) : { state with holder, doing }.Inv :=
  inv.retains (.refl _) rfl (fun _ mem => .inl mem) doubtful fits

/-- What the holder relies on does not break when a group that failed stays as it is. -/
theorem HolderFits.setSync {log : TableLog} {holder : Option Holder} {segment : Nat}
    {group : SegSync} (fits : HolderFits log holder)
    (stays : (log.syncs segment).failed.isSome → group.failed.isSome)
    (frozen : (log.syncs segment).failed.isSome → (log.syncs segment).syncing = none →
      group = log.syncs segment) : HolderFits (log.setSync segment group) holder := by
  have own : (log.setSync segment group).syncs segment = group := if_pos rfl
  have apart (id : Nat) (other : id ≠ segment) :
      (log.setSync segment group).syncs id = log.syncs id := if_neg other
  cases holder with
  | none => trivial
  | some holder =>
    cases holder with
    | writing | undoing | undoingAgain | poisoned | rotating => exact fits
    | cleaning => trivial
    | draining id why caller =>
        change ((log.setSync segment group).syncs id).failed.isSome
        have failed : (log.syncs id).failed.isSome := fits
        by_cases same : id = segment
        · subst same
          rw [own]
          exact stays failed
        · rwa [apart id same]
    | erasing wal active shown why caller =>
        obtain ⟨isEntry, isActive, isGroup, failed, idle⟩ := fits
        refine ⟨isEntry, isActive, ?_, failed, idle⟩
        by_cases same : active.id = segment
        · subst same
          rw [own, ← isGroup]
          rw [← isGroup] at failed idle
          exact frozen failed idle
        · rw [apart active.id same, isGroup]

theorem HolderFits.dropWaiter {log : TableLog} {holder : Option Holder}
    (fits : HolderFits log holder) (waiter : Waiter) :
    HolderFits (log.dropWaiter waiter) holder := by
  cases holder with
  | none => trivial
  | some holder => cases holder <;> exact fits

/-- One group changes, and what happens to files happens to its segment. -/
theorem Inv.setSync (inv : state.Inv) {segment : Nat} {group : SegSync}
    {events : List FileEvent} (holder : Option Holder)
    (own : ∀ event ∈ events, event.segment = segment ∧ ∀ frame, event ≠ .wrote frame)
    (placed : events = [] ∨ ∃ wal, state.log.entry = some wal ∧ segment < wal.nextSegment)
    (bounded : ∀ active, Bounded active (state.log.syncs segment) → Bounded active group)
    (more : (state.log.syncs segment).syncedLen ≤ group.syncedLen)
    (held : ∀ frame, .wrote frame ∈ state.journal → frame.segment = segment →
      Held state.journal frame (state.log.syncs segment) (state.Doubtful segment) →
        Held (state.journal ++ events) frame group ({ state with holder }.Doubtful segment))
    (doubtful : ∀ id, id ≠ segment → state.Doubtful id → { state with holder }.Doubtful id)
    (fits : HolderFits (state.log.setSync segment group) holder) :
    { state with
      log := state.log.setSync segment group, journal := state.journal ++ events, holder }.Inv := by
  have isGroup : (state.log.setSync segment group).syncs segment = group := if_pos rfl
  exact inv.keeps
    { journal := rfl
      own := own
      placed := placed
      entry := fun wal isEntry => ⟨wal, isEntry, Nat.le_refl _⟩
      receives := fun _ receives => receives
      apart := fun id other => if_neg other
      bounded := fun active _ before => by
        rw [isGroup]
        exact bounded active before
      more := by rwa [isGroup]
      waiting := fun _ mem => mem
      told := fun _ mem => .inl mem
      held := fun frame mem isSegment before => by
        rw [isGroup]
        exact held frame mem isSegment before
      doubtful := doubtful
      fits := fits }

/-! ### Fsyncs -/

theorem Bounded.lead {active : ActiveSegment} {group : SegSync} (bounded : Bounded active group) :
    Bounded active group.lead where
  goodLen := bounded.goodLen
  synced := bounded.synced
  target := by
    rintro len seq ⟨⟩
    exact Nat.le_refl _

/-- An fsync that ends takes the boundary to where it began, or leaves it. -/
theorem complete_lengths {group : SegSync} {len seq : Nat}
    (isTarget : group.syncing = some (len, seq)) (result : Option String) :
    (group.complete result).writtenLen = group.writtenLen ∧
      (group.complete result).syncing = none ∧
      ((group.complete result).syncedLen = group.syncedLen ∨
        (group.complete result).syncedLen = max group.syncedLen len) := by
  unfold SegSync.complete
  rw [isTarget]
  dsimp only
  split
  · exact ⟨rfl, rfl, .inl rfl⟩
  · split
    · exact ⟨rfl, rfl, .inr rfl⟩
    · exact ⟨rfl, rfl, .inl rfl⟩

theorem Bounded.complete {active : ActiveSegment} {group : SegSync} {len seq : Nat}
    (bounded : Bounded active group) (isTarget : group.syncing = some (len, seq))
    (result : Option String) : Bounded active (group.complete result) := by
  obtain ⟨isWritten, idle, isSynced⟩ := complete_lengths isTarget result
  refine ⟨isWritten.trans bounded.goodLen, ?_, fun len seq busy => ?_⟩
  · have before := bounded.synced
    have reached := bounded.target len seq isTarget
    rw [isWritten]
    rcases isSynced with same | further
    · rwa [same]
    · rw [further]
      exact Nat.max_le.mpr ⟨before, reached⟩
  · rw [idle] at busy
    cases busy

/-- An fsync begins behind every frame of its segment. -/
theorem Inv.begins (inv : state.Inv) {segment myEnd : Nat} {next : Staging}
    (placed : ∃ wal, state.log.entry = some wal ∧ segment < wal.nextSegment)
    (begun : state.begins segment myEnd = some next) :
    next.Inv ∧ next.log.waiting = state.log.waiting ∧ next.log.entry = state.log.entry ∧
      next.holder = state.holder := by
  unfold Staging.begins at begun
  dsimp only at begun
  split at begun
  · next open' =>
    cases begun
    refine ⟨?_, rfl, rfl, rfl⟩
    refine inv.setSync state.holder (fun event mem => ?_) (.inr placed)
      (fun active before => before.lead) (Nat.le_refl _) (fun frame mem isSegment held => ?_)
      (fun _ _ doubt => doubt) (inv.fits.setSync (fun failed => failed) fun failed _ => ?_)
    · rw [List.mem_singleton.mp mem]
      exact ⟨rfl, by rintro frame ⟨⟩⟩
    · subst isSegment
      exact held.begins mem
    · rw [open'.1] at failed
      cases failed
  · cases begun

/-- The group failed, or its boundary reaches that far already. -/
def Covered (state : Staging) (segment len : Nat) : Prop :=
  (state.log.syncs segment).failed.isSome ∨ len ≤ (state.log.syncs segment).syncedLen

/-- An fsync ends, without covering what a failed one may have lost. -/
theorem Inv.ends (inv : state.Inv) {segment : Nat} {result : Option String} {next : Staging}
    (placed : ∃ wal, state.log.entry = some wal ∧ segment < wal.nextSegment)
    (sure : result = none → state.Doubtful segment → ∀ len seq,
      (state.log.syncs segment).syncing = some (len, seq) → state.Covered segment len)
    (ended : state.ends segment result = some next) :
    next.Inv ∧ next.log.waiting = state.log.waiting ∧ next.log.entry = state.log.entry ∧
      next.holder = state.holder := by
  unfold Staging.ends at ended
  dsimp only at ended
  split at ended
  · next busy =>
    cases ended
    obtain ⟨⟨len, seq⟩, isTarget⟩ := Option.isSome_iff_exists.mp busy
    obtain ⟨-, -, isSynced⟩ := complete_lengths isTarget result
    refine ⟨?_, rfl, rfl, rfl⟩
    refine inv.setSync state.holder (fun event mem => ?_) (.inr placed)
      (fun active before => before.complete isTarget result) ?_
      (fun frame mem isSegment held => ?_) (fun _ _ doubt => doubt)
      (inv.fits.setSync (fun failed => SegSync.failed_complete failed result) fun _ idle => ?_)
    · rw [List.mem_singleton.mp mem]
      exact ⟨rfl, by rintro frame ⟨⟩⟩
    · rcases isSynced with same | further
      · rw [same]
      · rw [further]
        exact Nat.le_max_left _ _
    · subst isSegment
      exact held.ends isTarget result fun succeeds doubt => sure succeeds doubt len seq isTarget
    · rw [isTarget] at idle
      cases idle
  · cases ended

/-- The segment of a statement that waits was created. -/
theorem Inv.placed_waiting (inv : state.Inv) {waiter : Waiter}
    (mem : waiter ∈ state.log.waiting) :
    ∃ wal, state.log.entry = some wal ∧ waiter.segment < wal.nextSegment :=
  inv.placed (.wrote waiter) (inv.waiting waiter mem)

theorem Inv.placed_active (inv : state.Inv) {active : ActiveSegment}
    (receives : Receives state.log active) :
    ∃ wal, state.log.entry = some wal ∧ active.id < wal.nextSegment := by
  obtain ⟨wal, isEntry, isActive⟩ := receives
  exact ⟨wal, isEntry, inv.below wal active isEntry isActive⟩

/-- A rotation that goes on waiting. -/
theorem Inv.rotates (inv : state.Inv) {active : ActiveSegment} {written : Nat} {leads : Bool}
    (isHolder : state.holder = some (.rotating active written leads)) (after : Bool) :
    { state with holder := some (.rotating active written after) }.Inv := by
  have fits := inv.fits
  rw [isHolder] at fits
  refine inv.threads _ state.doing (fun id doubt => ?_) fits
  unfold Doubtful at doubt
  rw [isHolder] at doubt
  exact doubt.elim

theorem Inv.lead (inv : state.Inv) {waiter : Option Waiter} {after : Staging}
    (led : state.lead waiter = some after) : after.Inv := by
  cases waiter with
  | some waiter =>
      unfold Staging.lead at led
      dsimp only at led
      split at led
      · next waits =>
        obtain ⟨next, begun, same⟩ := Option.map_eq_some_iff.mp led
        obtain ⟨nextInv, -⟩ := inv.begins (inv.placed_waiting waits.1) begun
        rw [← same]
        exact nextInv.threads next.holder _ (fun _ doubt => doubt) nextInv.fits
      · cases led
  | none =>
      unfold Staging.lead at led
      dsimp only at led
      split at led
      · next active written isHolder =>
        obtain ⟨next, begun, same⟩ := Option.map_eq_some_iff.mp led
        have receives : Receives state.log active := by
          have fits := inv.fits
          rwa [isHolder] at fits
        obtain ⟨nextInv, -, -, sameHolder⟩ := inv.begins (inv.placed_active receives) begun
        rw [← same]
        exact nextInv.rotates (sameHolder.trans isHolder) true
      · cases led

theorem Inv.complete (inv : state.Inv) {waiter : Option Waiter} {result : Option String}
    {after : Staging}
    (sure : ∀ own, waiter = some own → result = none → state.Doubtful own.segment → ∀ len seq,
      (state.log.syncs own.segment).syncing = some (len, seq) → state.Covered own.segment len)
    (completed : state.complete waiter result = some after) : after.Inv := by
  cases waiter with
  | some waiter =>
      unfold Staging.complete at completed
      dsimp only at completed
      split at completed
      · next waits =>
        obtain ⟨next, ended, same⟩ := Option.map_eq_some_iff.mp completed
        obtain ⟨nextInv, -⟩ := inv.ends (inv.placed_waiting waits.1) (sure waiter rfl) ended
        rw [← same]
        exact nextInv.threads next.holder _ (fun _ doubt => doubt) nextInv.fits
      · cases completed
  | none =>
      unfold Staging.complete at completed
      dsimp only at completed
      split at completed
      · next active written isHolder =>
        obtain ⟨next, ended, same⟩ := Option.map_eq_some_iff.mp completed
        have receives : Receives state.log active := by
          have fits := inv.fits
          rwa [isHolder] at fits
        -- the holder of the lock rotates, so no rollback of its is in doubt
        have certain : ¬ state.Doubtful active.id := by
          unfold Doubtful
          rw [isHolder]
          exact fun doubt => doubt
        obtain ⟨nextInv, -, -, sameHolder⟩ := inv.ends (inv.placed_active receives)
          (fun _ doubt => absurd doubt certain) ended
        rw [← same]
        exact nextInv.rotates (sameHolder.trans isHolder) false
      · cases completed

/-- A statement is told that its frame is durable below the boundary of its group only. -/
theorem Inv.answer (inv : state.Inv) {waiter : Waiter} {after : Staging}
    (answered : state.answer waiter = some after) : after.Inv := by
  unfold Staging.answer at answered
  dsimp only at answered
  split at answered
  · next waits =>
    split at answered
    · cases answered
      exact inv.threads state.holder _ (fun _ doubt => doubt) inv.fits
    · split at answered
      · next reached =>
        cases answered
        refine inv.retains (.dropWaiter state.log waiter) rfl (fun frame mem => ?_)
          (fun _ doubt => doubt) (inv.fits.dropWaiter waiter)
        rcases List.mem_append.mp mem with old | new
        · exact .inl old
        · cases List.mem_singleton.mp new
          exact .inr ⟨waits.1, reached⟩
      · cases answered
  · cases answered

theorem Inv.cleanUp (inv : state.Inv) {waiter : Waiter} {after : Staging}
    (cleans : state.cleanUp waiter = some after) : after.Inv := by
  unfold Staging.cleanUp at cleans
  split at cleans
  · next free _ =>
    split at cleans
    · cases cleans
      exact inv.retains (.dropWaiter state.log waiter) rfl (fun _ mem => .inl mem)
        (fun id doubt => (not_doubtful_of_free free id doubt).elim) trivial
    · cases cleans
  · cases cleans

/-! ### Failures -/

/-- A group changes and no file does. -/
theorem Inv.regroup (inv : state.Inv) {segment : Nat} {group : SegSync} (holder : Option Holder)
    (bounded : ∀ active, Bounded active (state.log.syncs segment) → Bounded active group)
    (more : (state.log.syncs segment).syncedLen ≤ group.syncedLen)
    (held : ∀ frame, Held state.journal frame (state.log.syncs segment) (state.Doubtful segment) →
      Held state.journal frame group ({ state with holder }.Doubtful segment))
    (doubtful : ∀ id, id ≠ segment → state.Doubtful id → { state with holder }.Doubtful id)
    (fits : HolderFits (state.log.setSync segment group) holder) :
    { state with log := state.log.setSync segment group, holder }.Inv := by
  have changed := @Inv.setSync state inv segment group [] holder (by rintro event ⟨⟩) (.inl rfl)
    bounded more (fun frame _ _ before => by
      rw [List.append_nil]
      exact held frame before) doubtful fits
  rwa [List.append_nil] at changed

/-- The failure of a group is noted. -/
theorem Inv.noted (inv : state.Inv) (segment : Nat) (why : String) (holder : Option Holder)
    (doubtful : ∀ id, id ≠ segment → state.Doubtful id → { state with holder }.Doubtful id)
    (fits : HolderFits (state.log.setSync segment (noted (state.log.syncs segment) why)) holder) :
    { state with
      log := state.log.setSync segment (noted (state.log.syncs segment) why), holder }.Inv :=
  inv.regroup holder (fun _ before => ⟨before.goodLen, before.synced, before.target⟩)
    (Nat.le_refl _) (fun _ held => held.noted why) doubtful fits

theorem Inv.poison (inv : state.Inv) {after : Staging} (poisoned : state.poison = some after) :
    after.Inv := by
  unfold Staging.poison at poisoned
  split at poisoned
  · next active first second why isHolder =>
    cases poisoned
    refine inv.noted active.id why _ (fun id other doubt => ?_) trivial
    unfold Doubtful at doubt
    rw [isHolder] at doubt
    exact absurd doubt.1.symm other
  · cases poisoned

/-- The lock is free again. -/
theorem Inv.release (inv : state.Inv) (certain : ∀ id, ¬ state.Doubtful id) (why : String)
    (caller : Option Waiter) : (state.release why caller).Inv := by
  refine inv.retains (.refl _) rfl (fun frame mem => .inl ?_)
    (fun id doubt => (certain id doubt).elim) trivial
  rcases List.mem_append.mp mem with old | new
  · exact old
  · cases caller with
    | none => cases new
    | some waiter => cases List.mem_singleton.mp new

theorem Inv.clean (inv : state.Inv) {after : Staging} (cleaned : state.clean = some after) :
    after.Inv := by
  unfold Staging.clean at cleaned
  split at cleaned
  · next segment why caller isHolder =>
    have certain (id : Nat) : ¬ state.Doubtful id := by
      unfold Doubtful
      rw [isHolder]
      exact fun doubt => doubt
    dsimp only at cleaned
    split at cleaned
    · cases cleaned
      exact inv.release certain why caller
    · cases cleaned
      refine inv.noted segment why _ (fun id _ doubt => (certain id doubt).elim) ?_
      change ((state.log.setSync segment _).syncs segment).failed.isSome
      rw [show (state.log.setSync segment _).syncs segment = _ from if_pos rfl]
      rfl
  · cases cleaned

/-- The clean-up of a failed group begins. -/
theorem Inv.close (inv : state.Inv) {segment : Nat}
    (failed : (state.log.syncs segment).failed.isSome) (certain : ∀ id, ¬ state.Doubtful id)
    (holder : Option Holder)
    (fits : HolderFits (state.log.setSync segment
      { state.log.syncs segment with cleaned := true }) holder) :
    { state with
      log := state.log.setSync segment { state.log.syncs segment with cleaned := true },
      holder }.Inv := by
  refine @Inv.regroup state inv segment { state.log.syncs segment with cleaned := true } holder
    (fun _ before => ⟨before.goodLen, before.synced, before.target⟩) (Nat.le_refl _)
    (fun _ held => ⟨held.positive, held.written, held.synced, held.syncing, fun unfailed => ?_⟩)
    (fun id _ doubt => (certain id doubt).elim) fits
  have unfailed : (state.log.syncs segment).failed = none := unfailed
  rw [unfailed] at failed
  cases failed

theorem Inv.drain (inv : state.Inv) {after : Staging} (drained : state.drain = some after) :
    after.Inv := by
  unfold Staging.drain at drained
  split at drained
  · next segment why caller isHolder =>
    have certain (id : Nat) : ¬ state.Doubtful id := by
      unfold Doubtful
      rw [isHolder]
      exact fun doubt => doubt
    have failed : (state.log.syncs segment).failed.isSome := by
      have fits := inv.fits
      rwa [isHolder] at fits
    dsimp only at drained
    split at drained
    · cases drained
    · next idle =>
      have idle : (state.log.syncs segment).syncing = none := by simpa using idle
      split at drained
      · cases drained
        exact inv.release certain why caller
      · have isGroup : (state.log.setSync segment
            { state.log.syncs segment with cleaned := true }).syncs segment =
              { state.log.syncs segment with cleaned := true } := if_pos rfl
        have closed (holder : Option Holder) (fits) := inv.close failed certain holder fits
        have released := (closed none trivial).release (fun id doubt => doubt) why caller
        split at drained
        · cases drained
          exact released
        · next wal isEntry =>
          split at drained
          · cases drained
            exact released
          · next active isActive =>
            split at drained
            · next own =>
              cases drained
              subst own
              exact closed _ ⟨isEntry, isActive, isGroup, failed, idle⟩
            · cases drained
              exact released
  · cases drained

/-- A failed segment is sealed at its boundary, which keeps what is durable. -/
theorem Inv.erase (inv : state.Inv) {disk : Disk} {after : Staging}
    (erased : state.erase disk = some after) : after.Inv := by
  unfold Staging.erase at erased
  split at erased
  · next wal active group why caller isHolder =>
    cases erased
    have certain (id : Nat) : ¬ state.Doubtful id := by
      unfold Doubtful
      rw [isHolder]
      exact fun doubt => doubt
    obtain ⟨isEntry, isActive, isGroup, failed, -⟩ :
        state.log.entry = some wal ∧ wal.active = some active ∧
          state.log.syncs active.id = group ∧ group.failed.isSome ∧ group.syncing = none := by
      have fits := inv.fits
      rwa [isHolder] at fits
    have retains := Retains.sealFailed disk isEntry active group
    have sealed : { state with
        log := state.log.sealFailed disk wal active group
        holder := none
        journal := state.journal ++ sealEvents disk active.id group }.Inv := by
      refine @Inv.keeps state _ active.id (sealEvents disk active.id group) inv
        { journal := rfl
          own := fun event mem => ?_
          placed := .inr ⟨wal, isEntry, inv.below wal active isEntry isActive⟩
          entry := retains.entry
          receives := retains.receives
          apart := fun id _ => congrFun retains.syncs id
          bounded := fun active _ before => by rwa [retains.syncs]
          more := by rw [retains.syncs]
          waiting := retains.waiting
          told := fun _ mem => .inl mem
          held := fun frame mem isSegment held => ?_
          doubtful := fun id _ doubt => (certain id doubt).elim
          fits := trivial }
      · unfold sealEvents at mem
        rcases List.mem_cons.mp mem with rfl | removal
        · exact ⟨rfl, by rintro frame ⟨⟩⟩
        · split at removal
          · rw [List.mem_singleton.mp removal]
            exact ⟨rfl, by rintro frame ⟨⟩⟩
          · cases removal
      · rw [retains.syncs]
        rw [isGroup] at held ⊢
        have cut := @Held.rollsBack _ _ _ _ False _ disk.erase held active.id (Nat.le_refl _)
          fun unfailed => by
            rw [unfailed] at failed
            cases failed
        unfold sealEvents
        split
        · next removed =>
          rw [List.append_cons]
          exact cut.discards active.id failed removed.1
        · exact cut
    exact sealed.release (fun id doubt => doubt) why caller
  · cases erased

theorem rollBack_done {log after : TableLog} {id len : Nat} {outcome : RollBack}
    (isDone : log.rollBackSegment id len outcome = (after, none)) : outcome = .done := by
  cases outcome with
  | done => rfl
  | uncut why => cases isDone
  | unsynced why => cases isDone

/-- A partial frame is cut off behind all frames of the segment. The fsync behind that may fail. -/
theorem Inv.rollsBack (inv : state.Inv) {active : ActiveSegment}
    (receives : Receives state.log active) (outcome : RollBack) (holder : Option Holder)
    (sure : (state.log.syncs active.id).failed = none →
      { state with holder }.Doubtful active.id ∨
        (∀ frame, .wrote frame ∈ state.journal → frame.segment = active.id →
          ¬ Harmed state.journal frame) ∧ ¬ outcome.Unsynced)
    (doubtful : ∀ id, id ≠ active.id → state.Doubtful id → { state with holder }.Doubtful id)
    (fits : ∀ log, Receives log active → HolderFits log holder) :
    { state with
      log := (state.log.rollBackSegment active.id active.goodLen outcome).1,
      journal := state.journal ++ [FileEvent.rollsBack active.id active.goodLen outcome],
      holder }.Inv := by
  have bounded := inv.active active receives
  have retains := Retains.rollBack state.log active.id active.goodLen outcome
  have stillReceives :
      Receives (state.log.rollBackSegment active.id active.goodLen outcome).1 active := by
    obtain ⟨wal, isEntry, isActive⟩ := receives
    exact ⟨wal, (entry_rollBackSegment _ _ _ _).trans isEntry, isActive⟩
  refine @Inv.keeps state _ active.id [FileEvent.rollsBack active.id active.goodLen outcome] inv
    { journal := rfl
      own := fun event mem => ?_
      placed := .inr (inv.placed_active receives)
      entry := retains.entry
      receives := retains.receives
      apart := fun id _ => congrFun retains.syncs id
      bounded := fun active _ before => by rwa [retains.syncs]
      more := by rw [retains.syncs]
      waiting := retains.waiting
      told := fun _ mem => .inl mem
      held := fun frame mem isSegment held => ?_
      doubtful := doubtful
      fits := fits _ stillReceives }
  · rw [List.mem_singleton.mp mem]
    exact ⟨rfl, by rintro frame ⟨⟩⟩
  · rw [retains.syncs]
    refine held.rollsBack active.id (bounded.goodLen ▸ bounded.synced) fun unfailed => ?_
    rcases sure unfailed with doubt | ⟨unharmed, isSynced⟩
    · exact .inl doubt
    · exact .inr ⟨unharmed frame mem isSegment, bounded.goodLen ▸ held.written, isSynced⟩

theorem Inv.undo (inv : state.Inv) {outcome : RollBack} {after : Staging}
    (undone : state.undo outcome = some after) : after.Inv := by
  unfold Staging.undo at undone
  split at undone
  · next active isHolder =>
    have certain (id : Nat) : ¬ state.Doubtful id := by
      unfold Doubtful
      rw [isHolder]
      exact fun doubt => doubt
    have receives : Receives state.log active := by
      have fits := inv.fits
      rwa [isHolder] at fits
    have unharmed (unfailed : (state.log.syncs active.id).failed = none) (frame : Waiter)
        (mem : .wrote frame ∈ state.journal) (isSegment : frame.segment = active.id) :
        ¬ Harmed state.journal frame := by
      have held := inv.frames frame mem
      rw [isSegment] at held
      exact (held.intact unfailed).resolve_left (certain _)
    have rolled (holder : Option Holder) := inv.rollsBack receives outcome holder
    dsimp only at undone
    split at undone
    · next log isDone =>
      cases undone
      cases rollBack_done isDone
      have cut := rolled none (fun unfailed => .inr ⟨unharmed unfailed, fun fails => fails⟩)
        (fun id _ doubt => (certain id doubt).elim) fun _ _ => trivial
      rwa [isDone] at cut
    · next log refused isRefused =>
      cases undone
      have cut := rolled (some (.undoingAgain active outcome))
        (fun unfailed => (em outcome.Unsynced).imp (fun fails => ⟨rfl, fails⟩)
          fun isSynced => ⟨unharmed unfailed, isSynced⟩)
        (fun id _ doubt => (certain id doubt).elim) fun _ stays => stays
      rwa [isRefused] at cut
  · cases undone

/-- The second rollback must not work when the fsync of the first one failed behind frames that
are not durable. -/
theorem Inv.undoAgain (inv : state.Inv) {outcome : RollBack} {after : Staging}
    (sure : ∀ active first, state.holder = some (.undoingAgain active first) → first.Unsynced →
      outcome = .done → state.Covered active.id active.goodLen)
    (undone : state.undoAgain outcome = some after) : after.Inv := by
  unfold Staging.undoAgain at undone
  split at undone
  · next active first isHolder =>
    have receives : Receives state.log active := by
      have fits := inv.fits
      rwa [isHolder] at fits
    have bounded := inv.active active receives
    have isDoubtful (id : Nat) : state.Doubtful id ↔ active.id = id ∧ first.Unsynced := by
      unfold Doubtful
      rw [isHolder]
    have unharmed (unfailed : (state.log.syncs active.id).failed = none)
        (covered : first.Unsynced → state.Covered active.id active.goodLen) (frame : Waiter)
        (mem : .wrote frame ∈ state.journal) (isSegment : frame.segment = active.id) :
        ¬ Harmed state.journal frame := by
      have held := inv.frames frame mem
      rw [isSegment] at held
      refine (held.intact unfailed).elim (fun doubt => ?_) fun unharmed => unharmed
      rcases covered ((isDoubtful active.id).mp doubt).2 with failed | durable
      · rw [unfailed] at failed
        cases failed
      · refine (held.synced (Nat.le_trans ?_ durable)).2
        rw [← bounded.goodLen]
        exact held.written
    have rolled (holder : Option Holder) := inv.rollsBack receives outcome holder
    dsimp only at undone
    split at undone
    · next log isDone =>
      cases undone
      cases rollBack_done isDone
      have cut := rolled none
        (fun unfailed => .inr ⟨unharmed unfailed fun fails => sure active first isHolder fails rfl,
          fun fails => fails⟩)
        (fun id other doubt => absurd ((isDoubtful id).mp doubt).1.symm other) fun _ _ => trivial
      rwa [isDone] at cut
    · next log refused isRefused =>
      cases undone
      have certain (unfailed : (state.log.syncs active.id).failed = none) :
          (first.Unsynced ∨ outcome.Unsynced) ∨
            (∀ frame, .wrote frame ∈ state.journal → frame.segment = active.id →
              ¬ Harmed state.journal frame) ∧ ¬ outcome.Unsynced := by
        refine (em (first.Unsynced ∨ outcome.Unsynced)).imp_right fun isSynced => ?_
        obtain ⟨firstSynced, isSynced⟩ := not_or.mp isSynced
        exact ⟨unharmed unfailed fun lost => absurd lost firstSynced, isSynced⟩
      have cut := rolled (some (.poisoned active first outcome
          s!"append failed AND rollback failed: {refused}"))
        (fun unfailed => (certain unfailed).imp_left fun lost => ⟨rfl, lost⟩)
        (fun id other doubt => absurd ((isDoubtful id).mp doubt).1.symm other) fun _ stays => stays
      rwa [isRefused] at cut
  · cases undone

/-! ### Rotating and truncating -/

/-- While nobody holds the lock, files and bookkeeping change. -/
theorem Inv.relog (inv : state.Inv) (free : state.holder = none) {log : TableLog}
    (retains : Retains state.log log) (holder : Option Holder) (fits : HolderFits log holder) :
    { state with log, holder }.Inv :=
  inv.retains retains rfl (fun _ mem => .inl mem)
    (fun id doubt => (not_doubtful_of_free free id doubt).elim) fits

theorem eq_none_of_free (free : ¬ state.holder.isSome = true) : state.holder = none :=
  Option.not_isSome_iff_eq_none.mp free

theorem Inv.rotate (inv : state.Inv) {disk : Disk} {after : Staging}
    (rotated : state.rotate disk = some after) : after.Inv := by
  unfold Staging.rotate at rotated
  split at rotated
  · cases rotated
  · next isFree =>
    have free := eq_none_of_free isFree
    split at rotated
    · cases rotated
      exact inv
    · next wal isEntry =>
      split at rotated
      · cases rotated
        exact inv
      · next active isActive =>
        split at rotated
        · cases rotated
          exact inv.relog free (.sealActive disk isEntry) state.holder (by rw [free]; trivial)
        · cases rotated
          exact inv.relog free (.refl _) _ ⟨wal, isEntry, isActive⟩

theorem Inv.rotated (inv : state.Inv) {disk : Disk} {after : Staging}
    (sealed : state.rotated disk = some after) : after.Inv := by
  unfold Staging.rotated at sealed
  split at sealed
  · next active written isHolder =>
    have certain (id : Nat) : ¬ state.Doubtful id := by
      unfold Doubtful
      rw [isHolder]
      exact fun doubt => doubt
    have relog {log : TableLog} (retains : Retains state.log log) (holder : Option Holder)
        (fits : HolderFits log holder) : { state with log, holder }.Inv :=
      inv.retains retains rfl (fun _ mem => .inl mem) (fun id doubt => (certain id doubt).elim) fits
    dsimp only at sealed
    split at sealed
    · cases sealed
      exact relog (.refl _) _ trivial
    · split at sealed
      · split at sealed
        · cases sealed
          exact relog (.refl _) none trivial
        · next wal isEntry =>
          cases sealed
          exact relog (.sealActive disk isEntry) none trivial
      · cases sealed
  · cases sealed

theorem Inv.truncate (inv : state.Inv) {disk : Disk} {uptoSeq : Nat} {after : Staging}
    (truncated : state.truncate disk uptoSeq = some after) : after.Inv := by
  unfold Staging.truncate at truncated
  split at truncated
  · cases truncated
  · next isFree =>
    have free := eq_none_of_free isFree
    cases truncated
    exact inv.relog free (.truncate state.log disk uptoSeq) state.holder (by rw [free]; trivial)

/-! ### Appending -/

/-- A fresh segment has no frame, and its group has nothing to make durable. -/
theorem Inv.created (inv : state.Inv) (free : state.holder = none) {wal : TableWal}
    (isEntry : state.log.entry = some wal) :
    { state with log := state.log.created wal }.Inv := by
  have isGroup : (state.log.created wal).syncs wal.nextSegment = .new (wal.nextSeq - 1) :=
    if_pos rfl
  have apart (frame : Waiter) (mem : .wrote frame ∈ state.journal) :
      frame.segment < wal.nextSegment := by
    obtain ⟨other, isOther, isBelow⟩ := inv.placed _ mem
    rw [isEntry] at isOther
    cases isOther
    exact isBelow
  have same (frame : Waiter) (mem : .wrote frame ∈ state.journal) :
      (state.log.created wal).syncs frame.segment = state.log.syncs frame.segment :=
    if_neg (Nat.ne_of_lt (apart frame mem))
  refine
    { placed := fun event mem => ?_
      below := ?_
      active := ?_
      waiting := inv.waiting
      frames := fun frame mem => ?_
      told := fun frame mem => ?_
      fits := ?_ }
  · obtain ⟨other, isOther, isBelow⟩ := inv.placed event mem
    rw [isEntry] at isOther
    cases isOther
    exact ⟨_, rfl, Nat.lt_succ_of_lt isBelow⟩
  · rintro _ _ ⟨⟩ ⟨⟩
    exact Nat.lt_succ_self _
  · rintro _ ⟨_, ⟨⟩, ⟨⟩⟩
    rw [isGroup]
    exact ⟨rfl, Nat.le_refl _, by rintro _ _ ⟨⟩⟩
  · rw [same frame mem]
    exact inv.frames frame mem
  · obtain ⟨isWritten, reached⟩ := inv.told frame mem
    refine ⟨isWritten, ?_⟩
    rwa [same frame isWritten]
  · change HolderFits _ state.holder
    rw [free]
    trivial

section Calls

variable {Batches : Type} {encodeIpc : Batches → Except String (List UInt8)}
  {decodeIpc : List UInt8 → Except String Batches}

theorem encodeFrame_pos {seq : Nat} {kind : TailOpKind} {batches : Batches} {frame : List UInt8}
    (encodes : encodeFrame encodeIpc seq kind batches = .ok frame) : 0 < frame.length := by
  obtain ⟨body, -, framed⟩ := bind_eq_ok encodes
  obtain ⟨-, rfl⟩ := Segment.frameBytes_eq_ok framed
  rw [Segment.frameOf_length, Segment.frameHeaderBytes]
  exact Nat.add_pos_left (by decide) _

theorem Inv.append (inv : state.Inv) {disk : Disk} {kind : TailOpKind} {batches : Batches}
    {after : Staging}
    (appended : state.append encodeIpc decodeIpc disk kind batches = some after) : after.Inv := by
  unfold Staging.append at appended
  split at appended
  · cases appended
  · next isFree =>
    have free := eq_none_of_free isFree
    obtain ⟨retains, entered⟩ := @tableEntry_retains _ decodeIpc state.log disk
    have relog {log : TableLog} (retains : Retains state.log log) : { state with log }.Inv :=
      inv.relog free retains state.holder (by rw [free]; trivial)
    split at appended
    · next log why isError =>
      cases appended
      rw [isError] at retains
      exact relog retains
    · next log wal isOk =>
      rw [isOk] at retains entered
      have entered : log.entry = some wal := entered wal rfl
      have reloged := relog retains
      rcases ensureActive_retains log wal disk with
        ⟨why, refused, ensures⟩ | ⟨active, isActive, ensures⟩ | ⟨next, ensures, isNext, isActive⟩
      · split at appended
        · next log' why isError =>
          cases appended
          rw [isError] at ensures
          exact relog (retains.trans ensures)
        · next isOk =>
          rw [isOk] at refused
          cases refused
      · rw [ensures] at appended
        dsimp only at appended
        split at appended
        · cases appended
          exact reloged
        · next frame encodes =>
          cases appended
          exact inv.relog free retains _ ⟨entered, isActive, encodeFrame_pos encodes⟩
      · have created := reloged.created free entered
        rw [ensures] at appended
        dsimp only at appended
        split at appended
        · cases appended
          exact created
        · next frame encodes =>
          cases appended
          exact created.relog free (.refl _) _ ⟨isNext, isActive, encodeFrame_pos encodes⟩

theorem Inv.ensureSeqFloor (inv : state.Inv) {disk : Disk} {floor : Nat} {after : Staging}
    (raised : state.ensureSeqFloor decodeIpc disk floor = some after) : after.Inv := by
  unfold Staging.ensureSeqFloor at raised
  split at raised
  · cases raised
  · next isFree =>
    have free := eq_none_of_free isFree
    cases raised
    exact inv.relog free (ensureSeqFloor_retains state.log disk floor) state.holder
      (by rw [free]; trivial)

end Calls

/-- A frame that is written is behind every boundary of its group. -/
theorem held_published {journal : List FileEvent} {frame : Waiter} {active : ActiveSegment}
    {group : SegSync} {later : Prop} (unwritten : .wrote frame ∉ journal)
    (bounded : Bounded active group) (behind : active.goodLen < frame.myEnd) (seq : Nat) :
    Held (journal ++ [.wrote frame]) frame
      { group with writtenLen := frame.myEnd, writtenSeq := seq } later := by
  have beyond : group.writtenLen < frame.myEnd := bounded.goodLen ▸ behind
  refine ⟨Nat.zero_lt_of_lt behind, Nat.le_refl _, fun reached => ?_,
    fun len seq isTarget reached => ?_, fun _ => .inr fun harmed => ?_⟩
  · have reached : frame.myEnd ≤ group.syncedLen := reached
    have inside := bounded.synced
    omega
  · have inside := bounded.target len seq isTarget
    omega
  · rcases harmed_concat.mp harmed with ⟨before, event, after, rfl, harms⟩ | harms
    · exact unwritten (List.mem_append_left _ harms.1)
    · exact Held.not_harms_wrote harms

/-- What a statement finds after its frame is written whole. -/
theorem writeFrame_published {log after : TableLog} {wal : TableWal} {active : ActiveSegment}
    {frame : List UInt8} {waiter : Waiter}
    (writes : log.writeFrame .working wal active frame = (after, .ok waiter)) :
    waiter = ⟨active.id, wal.nextSeq, active.goodLen + frame.length⟩ ∧
      after.entry = some { wal with
        nextSeq := wal.nextSeq + 1
        active := some ⟨active.id, wal.nextSeq, active.goodLen + frame.length⟩ } ∧
      after.syncs waiter.segment = { log.syncs active.id with
        writtenLen := waiter.myEnd, writtenSeq := wal.nextSeq } ∧
      (∀ id, id ≠ active.id → after.syncs id = log.syncs id) ∧
      after.waiting = log.waiting ++ [waiter] := by
  cases writes
  exact ⟨rfl, rfl, if_pos rfl, fun id other => if_neg other, rfl⟩

theorem Inv.publish (inv : state.Inv) {wal : TableWal} {active : ActiveSegment}
    {frame : List UInt8} (isHolder : state.holder = some (.writing wal active frame))
    {log : TableLog} {waiter : Waiter}
    (writes : state.log.writeFrame .working wal active frame = (log, .ok waiter)) :
    { state with
      log, holder := none, journal := state.journal ++ [FileEvent.wrote waiter] }.Inv := by
  obtain ⟨isEntry, isActive, long⟩ :
      state.log.entry = some wal ∧ wal.active = some active ∧ 0 < frame.length := by
    have fits := inv.fits
    rwa [isHolder] at fits
  have certain (id : Nat) : ¬ state.Doubtful id := by
    unfold Doubtful
    rw [isHolder]
    exact fun doubt => doubt
  have bounded := inv.active active ⟨wal, isEntry, isActive⟩
  have isBelow := inv.below wal active isEntry isActive
  obtain ⟨isWaiter, after, isGroup, apart, waiting⟩ := writeFrame_published writes
  have own : waiter.segment = active.id := by rw [isWaiter]
  have isEnd : waiter.myEnd = active.goodLen + frame.length := by rw [isWaiter]
  have behind : active.goodLen < waiter.myEnd := by omega
  have unwritten : .wrote waiter ∉ state.journal := by
    intro mem
    have inside := (inv.frames _ mem).written
    rw [own, bounded.goodLen] at inside
    omega
  rw [own] at isGroup
  refine
    { placed := fun event mem => ?_
      below := fun other segment isOther isSegment => ?_
      active := fun segment receives => ?_
      waiting := fun other mem => ?_
      frames := fun other mem => ?_
      told := fun other mem => ?_
      fits := trivial }
  · refine ⟨_, after, ?_⟩
    rcases List.mem_append.mp mem with old | new
    · obtain ⟨before, isBefore, placed⟩ := inv.placed event old
      rw [isEntry] at isBefore
      cases isBefore
      exact placed
    · rw [List.mem_singleton.mp new]
      exact own ▸ isBelow
  · cases isOther.symm.trans after
    cases isSegment
    exact isBelow
  · obtain ⟨other, isOther, isSegment⟩ := receives
    cases isOther.symm.trans after
    cases isSegment
    change Bounded _ (log.syncs active.id)
    rw [isGroup]
    refine ⟨isEnd, ?_, fun len seq isTarget => ?_⟩
    · exact Nat.le_trans bounded.synced (bounded.goodLen ▸ Nat.le_of_lt behind)
    · exact Nat.le_trans (bounded.target len seq isTarget) (bounded.goodLen ▸ Nat.le_of_lt behind)
  · rw [waiting] at mem
    rcases List.mem_append.mp mem with old | new
    · exact List.mem_append_left _ (inv.waiting other old)
    · rw [List.mem_singleton.mp new]
      exact List.mem_append_right _ List.mem_cons_self
  · rcases List.mem_append.mp mem with old | new
    · have held := inv.frames other old
      by_cases same : other.segment = active.id
      · rw [same] at held ⊢
        change Held _ _ (log.syncs active.id) _
        rw [isGroup]
        exact held.published (certain _) (bounded.goodLen ▸ Nat.le_of_lt behind) _
      · rw [apart other.segment same]
        refine held.apart (fun isSame => same ?_) fun doubt => (certain _ doubt).elim
        exact isSame.symm.trans own
    · cases List.mem_singleton.mp new
      rw [own]
      change Held _ _ (log.syncs active.id) _
      rw [isGroup]
      exact held_published unwritten bounded behind _
  · obtain ⟨isWritten, reached⟩ := inv.told other mem
    refine ⟨List.mem_append_left _ isWritten, ?_⟩
    by_cases same : other.segment = active.id
    · rw [same] at reached ⊢
      change other.myEnd ≤ (log.syncs active.id).syncedLen
      rw [isGroup]
      exact reached
    · rwa [apart other.segment same]

theorem Inv.write (inv : state.Inv) {fault : Option (Nat × String)} {after : Staging}
    (written : state.write fault = some after) : after.Inv := by
  unfold Staging.write at written
  split at written
  · next wal active frame isHolder =>
    split at written
    · cases written
      obtain ⟨isEntry, isActive, -⟩ :
          state.log.entry = some wal ∧ wal.active = some active ∧ 0 < frame.length := by
        have fits := inv.fits
        rwa [isHolder] at fits
      refine inv.retains (.files state.log _) rfl (fun _ mem => .inl mem) (fun id doubt => ?_)
        ⟨wal, isEntry, isActive⟩
      unfold Doubtful at doubt
      rw [isHolder] at doubt
      exact doubt.elim
    · split at written
      · next log waiter writes =>
        cases written
        exact inv.publish isHolder writes
      · cases written
  · cases written

/-! ## What the statements are told -/

section Runs

variable {Batches : Type} {encodeIpc : Batches → Except String (List UInt8)}
  {decodeIpc : List UInt8 → Except String Batches}

/-- The step covers no frame that the failed fsync of a rollback may have lost: before the group is
failed for it, the second rollback does not work and no fsync of the segment succeeds, unless
nothing more is covered. -/
def Certain (state : Staging) : Action Batches → Prop
  | .undoAgain .done => ∀ active first, state.holder = some (.undoingAgain active first) →
      first.Unsynced → state.Covered active.id active.goodLen
  | .complete (some waiter) none => state.Doubtful waiter.segment → ∀ len seq,
      (state.log.syncs waiter.segment).syncing = some (len, seq) →
        state.Covered waiter.segment len
  | _ => True

theorem Inv.step (inv : state.Inv) {action : Action Batches} {after : Staging}
    (certain : state.Certain action)
    (taken : state.step encodeIpc decodeIpc action = some after) : after.Inv := by
  cases action with
  | append disk kind batches => exact inv.append taken
  | write fault => exact inv.write taken
  | undo outcome => exact inv.undo taken
  | undoAgain outcome =>
      refine inv.undoAgain (fun active first isHolder fails isDone => ?_) taken
      subst isDone
      exact certain active first isHolder fails
  | poison => exact inv.poison taken
  | clean => exact inv.clean taken
  | drain => exact inv.drain taken
  | erase disk => exact inv.erase taken
  | rotate disk => exact inv.rotate taken
  | lead waiter => exact inv.lead taken
  | complete waiter result =>
      refine inv.complete (fun own isWaiter succeeds => ?_) taken
      subst isWaiter
      subst succeeds
      exact certain
  | answer waiter => exact inv.answer taken
  | cleanUp waiter => exact inv.cleanUp taken
  | rotated disk => exact inv.rotated taken
  | truncate disk uptoSeq => exact inv.truncate taken
  | ensureSeqFloor disk floor => exact inv.ensureSeqFloor taken

/-- If no failed fsync of a rollback is covered up: whoever is told that its
frame is durable waited for an fsync that began behind the frame and succeeded, and whoever has a
frame that a rollback removed, or that a failed fsync may have lost, is told of the failure. -/
theorem told_durable {start : Staging} (fresh : start.Fresh)
    (run : Run (step encodeIpc decodeIpc) Certain start state) :
    (∀ frame reply, (frame, reply) ∈ state.told →
      (reply = .ok () → Synced state.journal frame) ∧
        (Harmed state.journal frame → ∃ why, reply = .error why)) ∧
      ∀ frame after, Harmed state.journal frame → state.answer frame = some after →
        ∃ why, after.doing frame = .failed why := by
  have inv : state.Inv := run.invariant
    (fun _ _ _ before certain taken => before.step certain taken) fresh.inv
  refine ⟨fun frame reply told => ?_, fun frame after harmed answered => ?_⟩
  · cases reply with
    | error why => exact ⟨by rintro ⟨⟩, fun _ => ⟨why, rfl⟩⟩
    | ok told' =>
        obtain ⟨isWritten, reached⟩ := inv.told frame told
        obtain ⟨synced, unharmed⟩ := (inv.frames frame isWritten).synced reached
        exact ⟨fun _ => synced, fun harmed => absurd harmed unharmed⟩
  · unfold Staging.answer at answered
    dsimp only at answered
    split at answered
    · next waits =>
      split at answered
      · next why _ =>
        cases answered
        exact ⟨why, Function.update_self _ _ _⟩
      · split at answered
        · next reached =>
          have held := inv.frames frame (inv.waiting frame waits.1)
          exact absurd harmed (held.synced reached).2
        · cases answered
    · cases answered

/-- No statement was staged, and no segment is there. -/
def empty : Staging :=
  ⟨⟨[], none, fun _ => .new 0, [], []⟩, none, fun _ => .waits, [], []⟩

theorem fresh_empty : empty.Fresh where
  inactive := by rintro wal ⟨⟩
  unwaited := rfl
  free := rfl
  unwritten := rfl
  untold := rfl

/-- Steps among which the second rollback keeps no more than what is durable, and no fsync ends
beside a rollback. -/
def unhindered (state : Staging) : Action Batches → Bool
  | .undoAgain _ =>
    match state.holder with
    | some (.undoingAgain active _) => active.goodLen ≤ (state.log.syncs active.id).syncedLen
    | _ => false
  | .complete _ _ => state.holder.isNone
  | _ => true

theorem certain_of_unhindered (state : Staging) (action : Action Batches)
    (passes : state.unhindered action = true) : state.Certain action := by
  cases action with
  | undoAgain outcome =>
      cases outcome with
      | done =>
        intro active first isHolder _
        simp only [unhindered, isHolder, decide_eq_true_eq] at passes
        exact .inr passes
      | _ => trivial
  | complete waiter result =>
      have free : state.holder = none := Option.isNone_iff_eq_none.mp passes
      cases waiter with
      | none => trivial
      | some waiter =>
        cases result with
        | some why => trivial
        | none => exact fun doubt => (not_doubtful_of_free free _ doubt).elim
  | _ => trivial

/-- The frames of three statements. -/
def firstFrame : Waiter := ⟨1, 1, 19⟩

def secondFrame : Waiter := ⟨1, 2, 38⟩

def thirdFrame : Waiter := ⟨1, 3, 57⟩

/-- Two statements share an fsync. The frame of another one is written in part, and the fsync of its
first rollback fails. The frame of the third one is written whole, but its fsync fails. -/
def shared : List (Action (List UInt8)) :=
  [.append .working .append [1], .write none, .append .working .append [2], .write none,
    .lead (some firstFrame), .complete (some firstFrame) none, .answer firstFrame,
    .answer secondFrame, .append .working .append [3],
    .write (some (3, "No space left on device")), .undo (.unsynced "Input/output error"),
    .undoAgain .done, .append .working .append [4], .write none, .lead (some thirdFrame),
    .complete (some thirdFrame) (some "Input/output error"), .answer thirdFrame,
    .cleanUp thirdFrame, .clean, .drain, .erase .working]

def ended : Staging := execute (step Except.ok Except.ok) unhindered empty shared

theorem told_durable_shared :
    ((firstFrame, .ok ()) ∈ ended.told ∧ Synced ended.journal firstFrame) ∧
      ((secondFrame, .ok ()) ∈ ended.told ∧ Synced ended.journal secondFrame) ∧
        Harmed ended.journal thirdFrame ∧
          ∃ reply, (thirdFrame, reply) ∈ ended.told ∧ ∃ why, reply = .error why := by
  have run : Run (step Except.ok Except.ok) Certain empty ended :=
    run_execute certain_of_unhindered empty shared
  have certain := (told_durable fresh_empty run).1
  have first : (firstFrame, .ok ()) ∈ ended.told := List.mem_cons_self
  have second : (secondFrame, .ok ()) ∈ ended.told := .tail _ List.mem_cons_self
  have third : (thirdFrame, .error "fsync failed: Input/output error") ∈ ended.told :=
    .tail _ (.tail _ List.mem_cons_self)
  have harmed : Harmed ended.journal thirdFrame := by
    refine ⟨[.wrote firstFrame, .wrote secondFrame, .syncBegins 1, .syncEnds 1 none,
      .rollsBack 1 38 (.unsynced "Input/output error"), .rollsBack 1 38 .done, .wrote thirdFrame,
      .syncBegins 1, .syncEnds 1 (some "Input/output error")], .rollsBack 1 38 .done, [], rfl, ?_⟩
    exact ⟨by simp, rfl, .inl (by decide : 38 < 57)⟩
  exact ⟨⟨first, (certain _ _ first).1 rfl⟩, ⟨second, (certain _ _ second).1 rfl⟩, harmed,
    _, third, (certain _ _ third).2 harmed⟩

/-- The frame of a second statement is written in part. The rollback cuts it off, but its fsync
fails; a fresh handle cuts and syncs. -/
def resynced : List (Action (List UInt8)) :=
  [.append .working .append [1], .write none, .append .working .append [2],
    .write (some (3, "No space left on device")), .undo (.unsynced "Input/output error"),
    .undoAgain .done, .lead (some firstFrame), .complete (some firstFrame) none,
    .answer firstFrame]

/-- The first statement is told that its frame is durable, though the failed fsync may have lost
it. -/
theorem told_harmed_resynced :
    ∃ state, Run (step Except.ok (Except.ok : List UInt8 → Except String (List UInt8)))
        Unrestricted empty state ∧
      (firstFrame, .ok ()) ∈ state.told ∧ Harmed state.journal firstFrame := by
  refine ⟨execute (step Except.ok Except.ok) (fun _ _ => true) empty resynced,
    run_execute (fun _ _ _ => trivial) empty resynced, List.mem_singleton_self _, ?_⟩
  refine ⟨[.wrote firstFrame], .rollsBack 1 19 (.unsynced "Input/output error"),
    [.rollsBack 1 19 .done, .syncBegins 1, .syncEnds 1 none], rfl, List.mem_cons_self, rfl,
    .inr ⟨trivial, ?_⟩⟩
  rintro ⟨before, after, eq, -⟩
  have mem : FileEvent.syncEnds firstFrame.segment none ∈ [FileEvent.wrote firstFrame] := by
    rw [eq]
    simp
  cases List.mem_singleton.mp mem

end Runs

end Staging

end Icegres.Tail
