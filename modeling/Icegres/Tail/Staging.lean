import Icegres.Tail.Journal

/-!
# Statements that share fsyncs

Appends, rotations, truncations and clean-ups run one at a time, under the lock of the tables, but
the statements that wait for their frames do not hold it: one of them runs the fsync of a segment
while others append to it, or while the holder of the lock takes a partial frame away. The steps
here are those between which another thread can run.
-/

namespace Icegres.Tail

/-- Where a statement that waits stands. -/
inductive WaitPc where
  | waits
  /-- It runs the fsync of its segment. -/
  | leads
  /-- Its group failed, and it has to clean up. -/
  | failed (why : String)
  deriving DecidableEq

/-- Where the holder of the tables' lock stands. -/
inductive Holder where
  /-- A statement has its frame encoded. -/
  | writing (wal : TableWal) (active : ActiveSegment) (frame : List UInt8)
  /-- The frame was written in part. -/
  | undoing (active : ActiveSegment)
  /-- The first rollback did not work. -/
  | undoingAgain (active : ActiveSegment) (first : RollBack)
  /-- Nor did the second one. -/
  | poisoned (active : ActiveSegment) (first second : RollBack) (why : String)
  /-- A clean-up begins, for a statement that waited or for the holder itself. -/
  | cleaning (segment : Nat) (why : String) (caller : Option Waiter)
  /-- It waits for the fsync in flight. -/
  | draining (segment : Nat) (why : String) (caller : Option Waiter)
  /-- It seals the segment at the boundary it found. -/
  | erasing (wal : TableWal) (active : ActiveSegment) (group : SegSync) (why : String)
    (caller : Option Waiter)
  /-- A rotation waits for what is written, and may lead an fsync itself. -/
  | rotating (active : ActiveSegment) (written : Nat) (leads : Bool)

/-- The log of a table and the threads that work on it. -/
structure Staging where
  log : TableLog
  holder : Option Holder
  doing : Waiter → WaitPc
  journal : List FileEvent
  /-- What the statements that waited were told. -/
  told : List (Waiter × Except String Unit)

inductive Staging.Action (Batches : Type) where
  | append (disk : Disk) (kind : TailOpKind) (batches : Batches)
  | write (fault : Option (Nat × String))
  | undo (outcome : RollBack)
  | undoAgain (outcome : RollBack)
  | poison
  | clean
  | drain
  | erase (disk : Disk)
  | rotate (disk : Disk)
  | lead (waiter : Option Waiter)
  | complete (waiter : Option Waiter) (result : Option String)
  | answer (waiter : Waiter)
  | cleanUp (waiter : Waiter)
  | rotated (disk : Disk)
  | truncate (disk : Disk) (uptoSeq : Nat)
  | ensureSeqFloor (disk : Disk) (floor : Nat)

namespace Staging

/-! ## Appending -/

section Calls

variable {Batches : Type} (encodeIpc : Batches → Except String (List UInt8))
  (decodeIpc : List UInt8 → Except String Batches)

/-- A statement takes the lock and encodes its frame. -/
def append (disk : Disk) (kind : TailOpKind) (batches : Batches) (state : Staging) :
    Option Staging :=
  if state.holder.isSome then
    none
  else
    match state.log.tableEntry decodeIpc disk with
    | (log, .error _) => some { state with log }
    | (log, .ok wal) =>
      match log.ensureActive disk wal with
      | (log, .error _) => some { state with log }
      | (log, .ok (wal, active)) =>
        match encodeFrame encodeIpc wal.nextSeq kind batches with
        | .error _ => some { state with log }
        | .ok frame => some { state with log, holder := some (.writing wal active frame) }

def ensureSeqFloor (disk : Disk) (floor : Nat) (state : Staging) : Option Staging :=
  if state.holder.isSome then none
  else some { state with log := (state.log.ensureSeqFloor decodeIpc disk floor).1 }

end Calls

/-- It writes the frame. A whole one is published to the group, and its statement waits. -/
def write (fault : Option (Nat × String)) (state : Staging) : Option Staging :=
  match state.holder with
  | some (.writing wal active frame) =>
    match fault with
    | some (count, _) =>
      let written := frame.dropLast.take count
      let log := state.log.onFile active.id fun file => { file with data := file.data ++ written }
      some { state with log, holder := some (.undoing active) }
    | none =>
      match state.log.writeFrame .working wal active frame with
      | (log, .ok waiter) =>
        some { state with log, holder := none, journal := state.journal ++ [.wrote waiter] }
      | (_, .error _) => none
  | _ => none

/-- The rollback of a partial frame through the segment's handle. -/
def undo (outcome : RollBack) (state : Staging) : Option Staging :=
  match state.holder with
  | some (.undoing active) =>
    let journal := state.journal ++ [.rollsBack active.id active.goodLen outcome]
    match state.log.rollBackSegment active.id active.goodLen outcome with
    | (log, none) => some { state with log, journal, holder := none }
    | (log, some _) =>
      some { state with log, journal, holder := some (.undoingAgain active outcome) }
  | _ => none

/-- And through a fresh handle. -/
def undoAgain (outcome : RollBack) (state : Staging) : Option Staging :=
  match state.holder with
  | some (.undoingAgain active first) =>
    let journal := state.journal ++ [.rollsBack active.id active.goodLen outcome]
    match state.log.rollBackSegment active.id active.goodLen outcome with
    | (log, none) => some { state with log, journal, holder := none }
    | (log, some refused) =>
      let why := s!"append failed AND rollback failed: {refused}"
      some { state with log, journal, holder := some (.poisoned active first outcome why) }
  | _ => none

/-! ## Cleaning up -/

/-- The group of a segment, once its failure is noted. -/
def noted (group : SegSync) (why : String) : SegSync :=
  { group with failed := some (group.failed.getD why) }

/-- The group fails, as neither rollback worked. -/
def poison (state : Staging) : Option Staging :=
  match state.holder with
  | some (.poisoned active _ _ why) =>
    some { state with
      log := state.log.setSync active.id (noted (state.log.syncs active.id) why)
      holder := some (.cleaning active.id why none) }
  | _ => none

/-- The lock is free again, and the statement that cleaned up is told of the failure. -/
def release (why : String) (caller : Option Waiter) (state : Staging) : Staging :=
  { state with
    holder := none
    told := state.told ++ (caller.map fun waiter => (waiter, .error why)).toList }

/-- A failed group is cleaned up once. -/
def clean (state : Staging) : Option Staging :=
  match state.holder with
  | some (.cleaning segment why caller) =>
    let group := state.log.syncs segment
    if group.cleaned then
      some (state.release why caller)
    else
      some { state with
        log := state.log.setSync segment (noted group why)
        holder := some (.draining segment why caller) }
  | _ => none

/-- When no fsync is in flight the boundary is final. Only the active segment is sealed at it. -/
def drain (state : Staging) : Option Staging :=
  match state.holder with
  | some (.draining segment why caller) =>
    let group := state.log.syncs segment
    if group.syncing.isSome then
      none
    else if group.cleaned then
      some (state.release why caller)
    else
      let group := { group with cleaned := true }
      let state := { state with log := state.log.setSync segment group }
      match state.log.entry with
      | none => some (state.release why caller)
      | some wal =>
        match wal.active with
        | none => some (state.release why caller)
        | some active =>
          if active.id = segment then
            some { state with holder := some (.erasing wal active group why caller) }
          else
            some (state.release why caller)
  | _ => none

/-- What sealing a failed segment does to its file. -/
def sealEvents (disk : Disk) (segment : Nat) (group : SegSync) : List FileEvent :=
  .rollsBack segment group.syncedLen disk.erase ::
    if group.syncedLen = 0 ∧ disk.remove (segmentName segment) = true then [.discards segment]
    else []

def erase (disk : Disk) (state : Staging) : Option Staging :=
  match state.holder with
  | some (.erasing wal active group why caller) =>
    some (release why caller { state with
      log := state.log.sealFailed disk wal active group
      journal := state.journal ++ sealEvents disk active.id group })
  | _ => none

/-! ## Waiting -/

/-- An fsync of the segment begins, if whoever needs it up to `myEnd` has to lead one. -/
def begins (segment myEnd : Nat) (state : Staging) : Option Staging :=
  let group := state.log.syncs segment
  if group.failed = none ∧ group.syncedLen < myEnd ∧ group.syncing = none then
    some { state with
      log := state.log.setSync segment group.lead
      journal := state.journal ++ [.syncBegins segment] }
  else
    none

/-- The fsync in flight of the segment ends. -/
def ends (segment : Nat) (result : Option String) (state : Staging) : Option Staging :=
  let group := state.log.syncs segment
  if group.syncing.isSome then
    some { state with
      log := state.log.setSync segment (group.complete result)
      journal := state.journal ++ [.syncEnds segment result] }
  else
    none

/-- A statement that waits, or else the rotation that holds the lock, begins an fsync. -/
def lead (waiter : Option Waiter) (state : Staging) : Option Staging :=
  match waiter with
  | some waiter =>
    if waiter ∈ state.log.waiting ∧ state.doing waiter = .waits then
      (state.begins waiter.segment waiter.myEnd).map fun next =>
        { next with doing := Function.update next.doing waiter .leads }
    else
      none
  | none =>
    match state.holder with
    | some (.rotating active written false) =>
      (state.begins active.id written).map fun next =>
        { next with holder := some (.rotating active written true) }
    | _ => none

/-- Its fsync ends. -/
def complete (waiter : Option Waiter) (result : Option String) (state : Staging) :
    Option Staging :=
  match waiter with
  | some waiter =>
    if waiter ∈ state.log.waiting ∧ state.doing waiter = .leads then
      (state.ends waiter.segment result).map fun next =>
        { next with doing := Function.update next.doing waiter .waits }
    else
      none
  | none =>
    match state.holder with
    | some (.rotating active written true) =>
      (state.ends active.id result).map fun next =>
        { next with holder := some (.rotating active written false) }
    | _ => none

/-- A statement looks at its group: a failure comes before a boundary that seems reached. -/
def answer (waiter : Waiter) (state : Staging) : Option Staging :=
  let group := state.log.syncs waiter.segment
  if waiter ∈ state.log.waiting ∧ state.doing waiter = .waits then
    match group.failed with
    | some why => some { state with doing := Function.update state.doing waiter (.failed why) }
    | none =>
      if waiter.myEnd ≤ group.syncedLen then
        some { state with
          log := state.log.dropWaiter waiter
          told := state.told ++ [(waiter, .ok ())] }
      else
        none
  else
    none

/-- It takes the lock to clean up. -/
def cleanUp (waiter : Waiter) (state : Staging) : Option Staging :=
  match state.holder, state.doing waiter with
  | none, .failed why =>
    if waiter ∈ state.log.waiting then
      some { state with
        log := state.log.dropWaiter waiter
        holder := some (.cleaning waiter.segment why (some waiter)) }
    else
      none
  | _, _ => none

/-! ## Rotating and truncating -/

/-- A rotation begins. Only a segment with frames is waited for. -/
def rotate (disk : Disk) (state : Staging) : Option Staging :=
  if state.holder.isSome then
    none
  else
    match state.log.entry with
    | none => some state
    | some wal =>
      match wal.active with
      | none => some state
      | some active =>
        if active.maxSeq = 0 then
          some { state with log := state.log.sealActive disk wal }
        else
          let written := (state.log.syncs active.id).writtenLen
          some { state with holder := some (.rotating active written false) }

/-- It looks at the group, and seals the segment or cleans it up. -/
def rotated (disk : Disk) (state : Staging) : Option Staging :=
  match state.holder with
  | some (.rotating active written false) =>
    let group := state.log.syncs active.id
    match group.failed with
    | some why => some { state with holder := some (.cleaning active.id why none) }
    | none =>
      if written ≤ group.syncedLen then
        match state.log.entry with
        | none => some { state with holder := none }
        | some wal => some { state with log := state.log.sealActive disk wal, holder := none }
      else
        none
  | _ => none

def truncate (disk : Disk) (uptoSeq : Nat) (state : Staging) : Option Staging :=
  if state.holder.isSome then none
  else some { state with log := (state.log.truncate disk uptoSeq).1 }

/-! ## Runs -/

variable {Batches : Type} (encodeIpc : Batches → Except String (List UInt8))
  (decodeIpc : List UInt8 → Except String Batches)

def step (state : Staging) : Action Batches → Option Staging
  | .append disk kind batches => state.append encodeIpc decodeIpc disk kind batches
  | .write fault => state.write fault
  | .undo outcome => state.undo outcome
  | .undoAgain outcome => state.undoAgain outcome
  | .poison => state.poison
  | .clean => state.clean
  | .drain => state.drain
  | .erase disk => state.erase disk
  | .rotate disk => state.rotate disk
  | .lead waiter => state.lead waiter
  | .complete waiter result => state.complete waiter result
  | .answer waiter => state.answer waiter
  | .cleanUp waiter => state.cleanUp waiter
  | .rotated disk => state.rotated disk
  | .truncate disk uptoSeq => state.truncate disk uptoSeq
  | .ensureSeqFloor disk floor => state.ensureSeqFloor decodeIpc disk floor

/-- No statement was staged yet. -/
structure Fresh (state : Staging) : Prop where
  inactive : ∀ wal, state.log.entry = some wal → wal.active = none
  unwaited : state.log.waiting = []
  free : state.holder = none
  unwritten : state.journal = []
  untold : state.told = []

end Staging

end Icegres.Tail
