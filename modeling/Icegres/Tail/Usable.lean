import Icegres.Tail.Retry
import Icegres.Tail.TableNames
import Icegres.Transition

/-!
# A failed append leaves the local WAL usable

Statements on any tables run interleaved, and the disk may refuse any operation of any call. A
statement that an operation failed for is told so, no other table changes, what is acknowledged is
replayed as before, and once the disk works a statement is appended, but for the two cases in which
something of an earlier failure is in the way.
-/

namespace Icegres.Tail

variable {Batches : Type} {encodeIpc : Batches → Except String (List UInt8)}
  {decodeIpc : List UInt8 → Except String Batches}

/-! ## All tables -/

/-- A table whose name makes a directory. -/
abbrev NamedTable := { table : TableIdent // table.NulFree }

/-- The log of each table. Different tables have different directories (`tableDirName_inj`). -/
abbrev LocalWal := NamedTable → TableLog

/-- A call on a table, and what the disk answers to it. -/
structure Request (Batches : Type) where
  table : NamedTable
  disk : Disk
  call : Call Batches

namespace LocalWal

variable (encodeIpc decodeIpc)

def answer (wal : LocalWal) (request : Request Batches) :
    Option (LocalWal × Except WalError Unit) :=
  ((wal request.table).call encodeIpc decodeIpc request.disk request.call).map fun next =>
    (Function.update wal request.table next.1, next.2)

def step (wal : LocalWal) (request : Request Batches) : Option LocalWal :=
  (wal.answer encodeIpc decodeIpc request).map Prod.fst

variable {encodeIpc decodeIpc}

/-- No table was used yet, and the segments of each can be read. -/
structure Fresh (decodeIpc : List UInt8 → Except String Batches) (wal : LocalWal) : Prop where
  unopened : ∀ table, (wal table).entry = none
  idle : ∀ table, (wal table).waiting = []
  ordered : ∀ table, Ordered (wal table).dir
  readable : ∀ table, Readable decodeIpc (wal table).dir
  named : ∀ table, ∀ file ∈ (wal table).dir, file.id < 2 ^ 64

theorem answer_eq_some {wal after : LocalWal} {request : Request Batches}
    {reply : Except WalError Unit}
    (answers : wal.answer encodeIpc decodeIpc request = some (after, reply)) :
    (wal request.table).call encodeIpc decodeIpc request.disk request.call =
        some (after request.table, reply) ∧
      ∀ other, other ≠ request.table → after other = wal other := by
  obtain ⟨⟨log, told⟩, called, same⟩ := Option.map_eq_some_iff.mp answers
  cases same
  refine ⟨by rw [called, Function.update_self], fun other apart => ?_⟩
  exact Function.update_of_ne apart _ _

theorem step_eq_some {wal after : LocalWal} {request : Request Batches}
    (steps : wal.step encodeIpc decodeIpc request = some after) :
    ∃ reply, wal.answer encodeIpc decodeIpc request = some (after, reply) := by
  obtain ⟨⟨next, reply⟩, answers, same⟩ := Option.map_eq_some_iff.mp steps
  cases same
  exact ⟨reply, answers⟩

end LocalWal

/-- A segment that the request creates is made durable in its directory. -/
def Request.Durable (wal : LocalWal) (request : Request Batches) : Prop :=
  request.call.Durable (wal request.table) request.disk

/-- Every table's bookkeeping is in order. -/
def LocalWal.Sound (decodeIpc : List UInt8 → Except String Batches) (wal : LocalWal) : Prop :=
  ∀ table, Tail.Sound decodeIpc (wal table)

theorem LocalWal.Fresh.sound {wal : LocalWal} (fresh : wal.Fresh decodeIpc) :
    wal.Sound decodeIpc := by
  intro table
  refine ⟨fresh.ordered table, fresh.readable table,
    fun _ => ⟨fresh.idle table, fresh.named table⟩, fun other isEntry => ?_⟩
  rw [fresh.unopened table] at isEntry
  cases isEntry

/-- Every durable request keeps every table's bookkeeping in order. -/
theorem LocalWal.Sound.step (readsBack : ReadsBack encodeIpc decodeIpc) {wal after : LocalWal}
    (sound : wal.Sound decodeIpc) {request : Request Batches} (durable : request.Durable wal)
    (steps : wal.step encodeIpc decodeIpc request = some after) : after.Sound decodeIpc := by
  obtain ⟨reply, answers⟩ := LocalWal.step_eq_some steps
  obtain ⟨called, others⟩ := LocalWal.answer_eq_some answers
  intro table
  by_cases own : table = request.table
  · rw [own]
    exact (sound request.table).call readsBack durable called
  · rw [others table own]
    exact sound table

/-- Every state reached by durable requests has its bookkeeping in order. -/
theorem LocalWal.Fresh.sound_of_run (readsBack : ReadsBack encodeIpc decodeIpc)
    {start wal : LocalWal} (fresh : start.Fresh decodeIpc)
    (run : Run (LocalWal.step encodeIpc decodeIpc) Request.Durable start wal) :
    wal.Sound decodeIpc :=
  run.invariant (fun _ _ _ sound durable steps => sound.step readsBack durable steps) fresh.sound

/-! ## Failures -/

/-- The statement waits in vain: whenever it looks at its group it is told of the failure. -/
def Doomed (encodeIpc : Batches → Except String (List UInt8))
    (decodeIpc : List UInt8 → Except String Batches) (wal : LocalWal) (table : NamedTable)
    (waiter : Waiter) : Prop :=
  ∀ later, Run (LocalWal.step encodeIpc decodeIpc) Unrestricted wal later →
    waiter ∈ (later table).waiting → ∀ disk, ∃ after why,
      later.answer encodeIpc decodeIpc ⟨table, disk, .finish waiter⟩ =
        some (after, .error (.groupFsync (segmentName waiter.segment) why))

theorem Failed.run {start wal : LocalWal} {table : NamedTable} {id : Nat}
    (failed : Failed (start table) id)
    (run : Run (LocalWal.step encodeIpc decodeIpc) Unrestricted start wal) :
    Failed (wal table) id := by
  refine @Run.invariant _ _ _ _ (fun wal => Failed (wal table) id)
    (fun state request next failed _ steps => ?_) _ _ failed run
  obtain ⟨reply, answers⟩ := LocalWal.step_eq_some steps
  obtain ⟨called, others⟩ := LocalWal.answer_eq_some answers
  by_cases own : table = request.table
  · subst own
    exact failed.call called
  · rw [others table own]
    exact failed

/-- A statement of a failed group waits in vain. -/
theorem Failed.doomed {wal : LocalWal} {table : NamedTable} {waiter : Waiter}
    (failed : Failed (wal table) waiter.segment) : Doomed encodeIpc decodeIpc wal table waiter := by
  intro later run waits disk
  obtain ⟨why, isFailed⟩ := Option.isSome_iff_exists.mp (failed.run run).1
  have finishes := @finish_failed _ disk _ _ waits isFailed
  refine ⟨Function.update later table ((later table).release disk waiter (some why)).1, why, ?_⟩
  rw [LocalWal.answer, TableLog.call, finishes]
  rfl

/-- An fsync that fails dooms every statement of its segment. -/
theorem doomed_of_failedSync {wal after : LocalWal} {table : NamedTable} {disk : Disk}
    (sound : wal.Sound decodeIpc) {waiter : Waiter} (waits : waiter ∈ (wal table).waiting)
    (fails : disk.sync ≠ none) {reply : Except WalError Unit}
    (answers : wal.answer encodeIpc decodeIpc ⟨table, disk, .completeSync waiter.segment⟩ =
      some (after, reply)) :
    Doomed encodeIpc decodeIpc after table waiter := by
  obtain ⟨called, -⟩ := LocalWal.answer_eq_some answers
  obtain ⟨completed, isCompleted, same⟩ := Option.map_eq_some_iff.mp called
  obtain ⟨isAfter, -⟩ := Prod.mk.inj same
  obtain ⟨why, isWhy⟩ := Option.ne_none_iff_exists'.mp fails
  have isEntry : ∃ entry, (wal table).entry = some entry := by
    rcases Option.eq_none_or_eq_some (wal table).entry with none' | opened
    · rw [((sound table).unopened none').1] at waits
      cases waits
    · exact opened
  obtain ⟨entry, isEntry⟩ := isEntry
  have placed := (((sound table).loaded entry isEntry).booked.earlier waiter waits).2
  refine Failed.doomed ?_
  rw [← isAfter]
  unfold TableLog.completeSync at isCompleted
  split at isCompleted
  · cases isCompleted
  · next running =>
    cases isCompleted
    refine ⟨?_, entry, isEntry, placed⟩
    change (if waiter.segment = waiter.segment then
      ((wal table).syncs waiter.segment).complete disk.sync else _).failed.isSome
    rw [if_pos rfl, isWhy]
    unfold SegSync.complete
    split
    · next none' => exact absurd none' running
    · rfl

/-- What a failed statement on a table leaves. -/
structure Usable (encodeIpc : Batches → Except String (List UInt8))
    (decodeIpc : List UInt8 → Except String Batches) (before after : LocalWal)
    (table : NamedTable) : Prop where
  others : ∀ other, other ≠ table → after other = before other
  replays : StillReplays decodeIpc (before table) (after table)
  retries : Retries encodeIpc decodeIpc (after table)

/-- Of a statement that meets a failure: its frame is not appended, or it waits in vain; and when
it is told so, the local WAL is usable, exactly if its segment did not stay behind undurable and
no failed group is in the way. -/
theorem usable_iff_settled (readsBack : ReadsBack encodeIpc decodeIpc) {start wal : LocalWal}
    (fresh : start.Fresh decodeIpc)
    (run : Run (LocalWal.step encodeIpc decodeIpc) Request.Durable start wal)
    (table : NamedTable) (disk : Disk) :
    (∀ kind batches after waiter,
      (wal table).appendStaged encodeIpc decodeIpc disk kind batches = (after, .ok waiter) →
        (wal table).appendStaged encodeIpc decodeIpc Disk.working kind batches =
          (after, .ok waiter)) ∧
      (∀ waiter ∈ (wal table).waiting, disk.sync ≠ none → ∀ after reply,
        wal.answer encodeIpc decodeIpc ⟨table, disk, .completeSync waiter.segment⟩ =
          some (after, reply) → Doomed encodeIpc decodeIpc after table waiter) ∧
      ∀ (call : Call Batches) after why, call.Appends encodeIpc →
        wal.answer encodeIpc decodeIpc ⟨table, disk, call⟩ = some (after, .error why) →
          (Usable encodeIpc decodeIpc wal after table ↔
            call.Durable (wal table) disk ∧ call.Settled (wal table) disk) := by
  have sound := fresh.sound_of_run readsBack run
  refine ⟨fun kind batches after waiter => appendStaged_working,
    fun waiter waits fails after reply answers => doomed_of_failedSync sound waits fails answers,
    fun call after why appends answers => ?_⟩
  obtain ⟨called, others⟩ := LocalWal.answer_eq_some answers
  constructor
  · intro usable
    have durable := durable_of_retries (sound table) appends called usable.retries
    obtain ⟨kind, batches, frame, encodes⟩ := appends.encodable
    exact ⟨durable, (ready_iff_settled readsBack (sound table) appends durable called).2.mp
      (usable.retries.ready encodes)⟩
  · rintro ⟨durable, settled⟩
    obtain ⟨still, ready⟩ := ready_iff_settled readsBack (sound table) appends durable called
    have soundAfter := (sound table).call readsBack durable called
    exact ⟨others, still, (ready.mpr settled).retries readsBack soundAfter⟩

/-! ## A first statement and a second one -/

/-- No table has a file. -/
def LocalWal.empty : LocalWal := fun _ => ⟨[], none, fun _ => .new 0, [], []⟩

theorem fresh_empty :
    LocalWal.empty.Fresh (Except.ok : List UInt8 → Except String (List UInt8)) where
  unopened _ := rfl
  idle _ := rfl
  ordered _ := List.Pairwise.nil
  readable := by rintro table file ⟨⟩
  named := by rintro table file ⟨⟩

def trips : NamedTable :=
  ⟨⟨["demo"], "trips"⟩, by
    unfold TableIdent.NulFree
    decide⟩

/-- A statement waits for its frame. -/
def firstLog : TableLog :=
  ((LocalWal.empty trips).appendStaged Except.ok Except.ok Disk.working .append [1]).1

def firstAppend : LocalWal := Function.update LocalWal.empty trips firstLog

/-- A frame is cut off after three bytes, and neither handle can take them away. -/
def fullDisk : Disk :=
  { Disk.working with
    write := some (3, "No space left on device")
    undo := .uncut "Input/output error"
    undoAgain := .uncut "Input/output error" }

theorem usable_iff_settled_fullDisk :
    ∃ after why, firstAppend.answer Except.ok Except.ok
        ⟨trips, fullDisk, .appendStaged .append [2]⟩ = some (after, .error why) ∧
      Usable Except.ok Except.ok firstAppend after trips := by
  have readsBack : ReadsBack (Except.ok : List UInt8 → Except String (List UInt8)) Except.ok := by
    rintro batches ipc ⟨⟩
    rfl
  have run : Run (LocalWal.step Except.ok Except.ok) Request.Durable LocalWal.empty firstAppend :=
    @Run.step _ _ _ _ _ _ _ ⟨trips, Disk.working, .appendStaged .append [1]⟩ .refl
      (fun _ => rfl) rfl
  have own : firstAppend trips = firstLog := Function.update_self _ _ _
  have answers : ∃ after why, firstAppend.answer Except.ok Except.ok
      ⟨trips, fullDisk, .appendStaged .append [2]⟩ = some (after, .error why) := by
    rw [LocalWal.answer, own]
    exact ⟨_, _, rfl⟩
  obtain ⟨after, why, answers⟩ := answers
  have ready : Ready (firstAppend trips) := by
    rw [own]
    rintro _ _ ⟨⟩ ⟨⟩
    rfl
  exact ⟨after, why, answers, ((usable_iff_settled readsBack fresh_empty run trips fullDisk).2.2
    (.appendStaged .append [2]) after why ⟨_, rfl⟩ answers).mpr ⟨fun _ => rfl, .inl ready⟩⟩

/-- The table's directory is not made durable behind its first segment. -/
def unsyncedDir : Disk := { Disk.working with syncDir := some "Input/output error" }

/-- Then the file of the segment is in the way of every retry. -/
theorem not_usable_unsyncedDir :
    ∃ after, LocalWal.empty.answer Except.ok Except.ok
        ⟨trips, unsyncedDir, .appendStaged .append [1]⟩ =
        some (after, .error (.syncDir "Input/output error")) ∧
      ((after trips).append Except.ok Except.ok Disk.working .append [1]).2 =
        .error (.create "0000000000000001.seg" "File exists") ∧
      ¬ Usable Except.ok Except.ok LocalWal.empty after trips := by
  refine ⟨_, rfl, ?_, fun usable => ?_⟩
  · rw [Function.update_self]
    rfl
  · obtain ⟨later, seq, appended⟩ := usable.retries .append [1] ⟨_, rfl⟩
    rw [Function.update_self] at appended
    cases appended

end Icegres.Tail
