import Icegres.Tail.Texts

/-!
# The local WAL of a table

A statement is appended as one frame to the active segment of its table and waits for a group
fsync that covers it. Every file operation can fail, and each failure has an undo of its own: a
partial frame is cut off again, and a segment whose fsync fails, or whose partial frame cannot be
cut off, is sealed at the length that is known to be durable.
-/

namespace Icegres.Tail

/-! ## Files -/

/-- A segment in a table's directory, which lists them by id. -/
structure SegmentFile where
  id : Nat
  data : List UInt8
  marker : Option String
  deriving DecidableEq

def SegmentFile.named (file : SegmentFile) : SegFile :=
  ⟨segmentName file.id, file.data, file.marker⟩

/-- How cutting a file at a length ended. -/
inductive RollBack where
  | done
  /-- Nothing was cut. -/
  | uncut (why : String)
  /-- It was cut, but not made durable. -/
  | unsynced (why : String)

/-- What the disk answers during one call: why an operation fails, if it does. -/
structure Disk where
  createDir : Option String
  syncRoot : Option String
  create : Option String
  syncDir : Option String
  /-- How many bytes of the frame are written when not all of them are, and why. -/
  write : Option (Nat × String)
  /-- Cutting off a partial frame. -/
  undo : RollBack
  /-- Cutting it off through a fresh handle. -/
  undoAgain : RollBack
  /-- Cutting a failed segment at its durable length. -/
  erase : RollBack
  /-- A poison marker can be written. -/
  marker : Bool
  /-- The file can be removed. -/
  remove : String → Bool
  /-- The fsync that is in flight. -/
  landing : Option String
  /-- An fsync that the call itself leads. -/
  sync : Option String

/-- Nothing fails. -/
def Disk.working : Disk where
  createDir := none
  syncRoot := none
  create := none
  syncDir := none
  write := none
  undo := .done
  undoAgain := .done
  erase := .done
  marker := true
  remove _ := true
  landing := none
  sync := none

/-! ## Bookkeeping -/

/-- The group fsync of one segment. -/
structure SegSync where
  /-- Bytes of whole frames, and the sequence of the last one. -/
  writtenLen : Nat
  writtenSeq : Nat
  /-- Bytes a completed fsync covers. -/
  syncedLen : Nat
  syncedSeq : Nat
  /-- What was written when the fsync in flight began. -/
  syncing : Option (Nat × Nat)
  failed : Option String
  cleaned : Bool

def SegSync.new (baseSeq : Nat) : SegSync :=
  ⟨0, baseSeq, 0, baseSeq, none, none, false⟩

namespace SegSync

/-- A waiter begins an fsync. -/
def lead (group : SegSync) : SegSync :=
  { group with syncing := some (group.writtenLen, group.writtenSeq) }

/-- The fsync in flight is over. Behind a failure the boundary stays. -/
def complete (group : SegSync) (result : Option String) : SegSync :=
  match group.syncing with
  | none => group
  | some (len, seq) =>
    match result with
    | some why => { group with syncing := none, failed := some s!"fsync failed: {why}" }
    | none =>
      if group.failed = none ∧ group.cleaned = false then
        { group with
          syncing := none
          syncedLen := max group.syncedLen len
          syncedSeq := max group.syncedSeq seq }
      else
        { group with syncing := none }

/-- Wait until `myEnd` bytes are durable: join the fsync in flight and then lead one. A failure
comes before a boundary that seems reached. -/
def waitFor (group : SegSync) (myEnd : Nat) (landing own : Option String) :
    SegSync × Option String :=
  match group.failed with
  | some why => (group, some why)
  | none =>
    if myEnd ≤ group.syncedLen then
      (group, none)
    else
      let joined := group.complete landing
      match joined.failed with
      | some why => (joined, some why)
      | none =>
        if myEnd ≤ joined.syncedLen then
          (joined, none)
        else
          let led := joined.lead.complete own
          (led, led.failed)

end SegSync

/-- The segment that receives appends. -/
structure ActiveSegment where
  id : Nat
  maxSeq : Nat
  /-- The end of the last whole frame. -/
  goodLen : Nat

structure TableWal where
  nextSeq : Nat
  nextSegment : Nat
  active : Option ActiveSegment
  sealed : List (String × Nat)

/-- A statement whose frame is written, and where it ends. -/
structure Waiter where
  segment : Nat
  seq : Nat
  myEnd : Nat
  deriving DecidableEq

/-- One table: its directory, its entry once there is one, the groups of its segments and the
statements that wait. `unacked` are the sequences of the statements nobody was told are
durable. -/
structure TableLog where
  dir : List SegmentFile
  entry : Option TableWal
  syncs : Nat → SegSync
  waiting : List Waiter
  unacked : List Nat

inductive WalError where
  | createDir (why : String)
  | syncRoot (why : String)
  | scan (why : String)
  | create (path why : String)
  | syncDir (why : String)
  | encode (why : String)
  | append (path why : String)
  | groupFsync (path why : String)
  | rotation (why : String)
  | delete (path : String)
  deriving DecidableEq

namespace TableLog

def setSync (log : TableLog) (id : Nat) (group : SegSync) : TableLog :=
  { log with syncs := fun other => if other = id then group else log.syncs other }

/-- Change one file. -/
def onFile (log : TableLog) (id : Nat) (change : SegmentFile → SegmentFile) : TableLog :=
  { log with dir := log.dir.map fun file => if file.id = id then change file else file }

def cut (log : TableLog) (id len : Nat) : TableLog :=
  log.onFile id fun file => { file with data := file.data.take len }

/-- Remove a file, and its marker with it. -/
def removeFile (log : TableLog) (path : String) : TableLog :=
  { log with dir := log.dir.filter fun file => segmentName file.id ≠ path }

def rollBackSegment (log : TableLog) (id goodLen : Nat) : RollBack → TableLog × Option String
  | .done => (log.cut id goodLen, none)
  | .uncut why => (log, some why)
  | .unsynced why => (log.cut id goodLen, some why)

/-! ## Failed segments -/

/-- Cut a failed segment at its durable length. If the disk refuses, a marker clamps it there. -/
def clampFailed (disk : Disk) (active : ActiveSegment) (group : SegSync) (nextSeq : Nat)
    (log : TableLog) : TableLog :=
  let rolled := log.rollBackSegment active.id group.syncedLen disk.erase
  if rolled.2.isSome ∧ disk.marker = true then
    rolled.1.onFile active.id fun file =>
      { file with marker := some (poisonMarkerText group.syncedLen nextSeq) }
  else
    rolled.1

/-- Close a failed segment at its durable length; one that has none is removed. -/
def sealFailed (disk : Disk) (wal : TableWal) (active : ActiveSegment) (group : SegSync)
    (log : TableLog) : TableLog :=
  let path := segmentName active.id
  let log := log.clampFailed disk active group wal.nextSeq
  if 0 < group.syncedLen then
    let wal :=
      { wal with active := none, sealed := wal.sealed ++ [(path, group.syncedSeq)] }
    { log with entry := some wal }
  else
    let log := { log with entry := some { wal with active := none } }
    if disk.remove path then log.removeFile path else log

/-- The group once its failure is noted and the fsync in flight is waited out. -/
def failedGroup (disk : Disk) (why : String) (group : SegSync) : SegSync :=
  let noted := { group with failed := some (group.failed.getD why) }
  { noted.complete disk.landing with cleaned := true }

/-- Seal a segment whose group failed, once. Its sequences are burned: `nextSeq` stays. -/
def cleanupFailedSegment (disk : Disk) (id : Nat) (why : String) (log : TableLog) : TableLog :=
  if (log.syncs id).cleaned then
    log
  else
    let group := failedGroup disk why (log.syncs id)
    let log := log.setSync id group
    match log.entry with
    | none => log
    | some wal =>
      match wal.active with
      | none => log
      | some active => if active.id = id then sealFailed disk wal active group log else log

end TableLog

section Calls

variable {Batches : Type} (encodeIpc : Batches → Except String (List UInt8))
  (decodeIpc : List UInt8 → Except String Batches)

/-- `[version][op][rows]`. Writing the rows is the Arrow library's. -/
def encodeOpPayload (kind : TailOpKind) (batches : Batches) : Except String (List UInt8) :=
  (encodeIpc batches).map fun ipc => tailPayloadFormat :: kind.toByte :: ipc

def encodeFrame (seq : Nat) (kind : TailOpKind) (batches : Batches) :
    Except String (List UInt8) := do
  let body ← encodeOpPayload encodeIpc kind batches
  Segment.frameBytes (Segment.leBytes 8 seq ++ body) "tail"

/-- The files after the repairs of a scan. -/
def repairDir (ops : List FileOp) (dir : List SegmentFile) : List SegmentFile :=
  dir.filterMap fun file =>
    (applyOps ops [file.named]).head?.map fun left => ⟨file.id, left.data, left.marker⟩

namespace TableLog

/-- The entry of the table. Without one its directory is scanned first. -/
def tableEntry (disk : Disk) (log : TableLog) : TableLog × Except WalError TableWal :=
  match log.entry with
  | some wal => (log, .ok wal)
  | none =>
    match disk.createDir with
    | some why => (log, .error (.createDir why))
    | none =>
      match disk.syncRoot with
      | some why => (log, .error (.syncRoot why))
      | none =>
        let (result, ops) := scanTable decodeIpc (log.dir.map SegmentFile.named)
        let log := { log with dir := repairDir ops log.dir }
        match result with
        | .error why => (log, .error (.scan why))
        | .ok scan =>
          let wal := ⟨scan.nextSeq, scan.nextSegment, none, scan.sealed⟩
          ({ log with entry := some wal }, .ok wal)

/-- The active segment. Without one a fresh one is created. -/
def ensureActive (disk : Disk) (wal : TableWal) (log : TableLog) :
    TableLog × Except WalError (TableWal × ActiveSegment) :=
  match wal.active with
  | some active => (log, .ok (wal, active))
  | none =>
    let id := wal.nextSegment
    let path := segmentName id
    if log.dir.any fun file => file.id = id then
      (log, .error (.create path "File exists"))
    else
      match disk.create with
      | some why => (log, .error (.create path why))
      | none =>
        let log := { log with dir := log.dir ++ [⟨id, [], none⟩] }
        match disk.syncDir with
        | some why => (log, .error (.syncDir why))
        | none =>
          let active : ActiveSegment := ⟨id, 0, 0⟩
          let wal := { wal with nextSegment := id + 1, active := some active }
          let log := { log with entry := some wal }
          (log.setSync id (.new (wal.nextSeq - 1)), .ok (wal, active))

/-- Cut a partial frame off, through a fresh handle if need be. If neither works the whole
group fails. -/
def undoAppend (disk : Disk) (active : ActiveSegment) (log : TableLog) : TableLog :=
  match log.rollBackSegment active.id active.goodLen disk.undo with
  | (log, none) => log
  | (log, some _) =>
    match log.rollBackSegment active.id active.goodLen disk.undoAgain with
    | (log, none) => log
    | (log, some refused) =>
      log.cleanupFailedSegment disk active.id s!"append failed AND rollback failed: {refused}"

/-- Append the bytes of a frame, and let its statement wait. -/
def writeFrame (disk : Disk) (wal : TableWal) (active : ActiveSegment) (frame : List UInt8)
    (log : TableLog) : TableLog × Except WalError Waiter :=
  match disk.write with
  | some (count, why) =>
    -- what is written of a frame that is not written whole is less than all of it
    let written := frame.dropLast.take count
    let log := log.onFile active.id fun file => { file with data := file.data ++ written }
    (log.undoAppend disk active, .error (.append (segmentName active.id) why))
  | none =>
    let seq := wal.nextSeq
    let goodLen := active.goodLen + frame.length
    let log := log.onFile active.id fun file => { file with data := file.data ++ frame }
    let log := log.setSync active.id
      { log.syncs active.id with writtenLen := goodLen, writtenSeq := seq }
    let active : ActiveSegment := ⟨active.id, seq, goodLen⟩
    let wal := { wal with nextSeq := seq + 1, active := some active }
    let waiter : Waiter := ⟨active.id, seq, goodLen⟩
    ({ log with
        entry := some wal
        waiting := log.waiting ++ [waiter]
        unacked := log.unacked ++ [seq] }, .ok waiter)

/-- Encode a frame and append it. -/
def appendFrame (disk : Disk) (kind : TailOpKind) (batches : Batches) (wal : TableWal)
    (active : ActiveSegment) (log : TableLog) : TableLog × Except WalError Waiter :=
  match encodeFrame encodeIpc wal.nextSeq kind batches with
  | .error why => (log, .error (.encode why))
  | .ok frame => log.writeFrame disk wal active frame

def appendStaged (disk : Disk) (kind : TailOpKind) (batches : Batches) (log : TableLog) :
    TableLog × Except WalError Waiter :=
  match log.tableEntry decodeIpc disk with
  | (log, .error why) => (log, .error why)
  | (log, .ok wal) =>
    match log.ensureActive disk wal with
    | (log, .error why) => (log, .error why)
    | (log, .ok (wal, active)) => log.appendFrame encodeIpc disk kind batches wal active

/-- A statement stops waiting. -/
def dropWaiter (log : TableLog) (waiter : Waiter) : TableLog :=
  { log with waiting := log.waiting.erase waiter }

/-- A statement is told that it is durable. -/
def acknowledge (log : TableLog) (waiter : Waiter) : TableLog :=
  { log with unacked := log.unacked.filter fun seq => seq ≠ waiter.seq }

/-- A waiter returns. -/
def release (disk : Disk) (waiter : Waiter) (failed : Option String) (log : TableLog) :
    TableLog × Except WalError Unit :=
  match failed with
  | some why =>
    ((log.dropWaiter waiter).cleanupFailedSegment disk waiter.segment why,
      .error (.groupFsync (segmentName waiter.segment) why))
  | none => ((log.dropWaiter waiter).acknowledge waiter, .ok ())

/-- A waiter looks at its group, and returns if it need not wait on. -/
def finish (disk : Disk) (waiter : Waiter) (log : TableLog) :
    Option (TableLog × Except WalError Unit) :=
  let group := log.syncs waiter.segment
  if waiter ∉ log.waiting then none
  else if group.failed.isSome ∨ waiter.myEnd ≤ group.syncedLen then
    some (log.release disk waiter group.failed)
  else
    none

/-- Wait for the group fsync; nothing else happens meanwhile. -/
def waitDurable (disk : Disk) (waiter : Waiter) (log : TableLog) :
    TableLog × Except WalError Unit :=
  let (group, failed) :=
    (log.syncs waiter.segment).waitFor waiter.myEnd disk.landing disk.sync
  (log.setSync waiter.segment group).release disk waiter failed

/-- Append and wait. -/
def append (disk : Disk) (kind : TailOpKind) (batches : Batches) (log : TableLog) :
    TableLog × Except WalError Nat :=
  match log.appendStaged encodeIpc decodeIpc disk kind batches with
  | (log, .error why) => (log, .error why)
  | (log, .ok waiter) =>
    match log.waitDurable disk waiter with
    | (log, .error why) => (log, .error why)
    | (log, .ok _) => (log, .ok waiter.seq)

/-! ## The other calls -/

/-- A waiter begins an fsync of its segment. -/
def leadSync (segment : Nat) (log : TableLog) : Option TableLog :=
  let group := log.syncs segment
  if group.failed = none ∧ group.syncing = none ∧
      ∃ waiter ∈ log.waiting, waiter.segment = segment ∧ group.syncedLen < waiter.myEnd then
    some (log.setSync segment group.lead)
  else
    none

/-- The fsync in flight of a segment is over. -/
def completeSync (disk : Disk) (segment : Nat) (log : TableLog) : Option TableLog :=
  if (log.syncs segment).syncing = none then
    none
  else
    some (log.setSync segment ((log.syncs segment).complete disk.sync))

/-- Set a segment aside; one without frames is removed. -/
def sealActive (disk : Disk) (wal : TableWal) (log : TableLog) : TableLog :=
  match wal.active with
  | none => log
  | some active =>
    let path := segmentName active.id
    if 0 < active.maxSeq then
      let wal := { wal with active := none, sealed := wal.sealed ++ [(path, active.maxSeq)] }
      { log with entry := some wal }
    else
      let log := { log with entry := some { wal with active := none } }
      if disk.remove path then log.removeFile path else log

def rotate (disk : Disk) (log : TableLog) : TableLog × Except WalError Unit :=
  match log.entry with
  | none => (log, .ok ())
  | some wal =>
    match wal.active with
    | none => (log, .ok ())
    | some active =>
      if active.maxSeq = 0 then
        (log.sealActive disk wal, .ok ())
      else
        let (group, failed) := (log.syncs active.id).waitFor (log.syncs active.id).writtenLen
          disk.landing disk.sync
        let log := log.setSync active.id group
        match failed with
        | none => (log.sealActive disk wal, .ok ())
        | some why => (log.cleanupFailedSegment disk active.id why, .error (.rotation why))

/-- Delete the segments whose rows are committed. -/
def truncate (disk : Disk) (uptoSeq : Nat) (log : TableLog) : TableLog × Except WalError Unit :=
  match log.entry with
  | none => (log, .ok ())
  | some wal =>
    let covered := wal.sealed.filter fun segment => segment.2 ≤ uptoSeq
    let removed := covered.filter fun segment => disk.remove segment.1
    let log := removed.foldl (fun log segment => log.removeFile segment.1) log
    let sealed := wal.sealed.filter fun segment =>
      uptoSeq < segment.2 ∨ disk.remove segment.1 = false
    let stuck := (covered.find? fun segment => disk.remove segment.1 = false).map Prod.fst
    let log := { log with entry := some { wal with sealed := sealed } }
    let reply (stuck : Option String) : Except WalError Unit :=
      match stuck with
      | none => .ok ()
      | some path => .error (.delete path)
    match wal.active with
    | none => (log, reply stuck)
    | some active =>
      if 0 < active.maxSeq ∧ active.maxSeq ≤ uptoSeq then
        let path := segmentName active.id
        let log := { log with entry := some { wal with active := none, sealed := sealed } }
        if disk.remove path then (log.removeFile path, reply stuck)
        else (log, reply (stuck.or (some path)))
      else
        (log, reply stuck)

def ensureSeqFloor (disk : Disk) (floor : Nat) (log : TableLog) :
    TableLog × Except WalError Unit :=
  match log.tableEntry decodeIpc disk with
  | (log, .error why) => (log, .error why)
  | (log, .ok wal) =>
    ({ log with entry := some { wal with nextSeq := max wal.nextSeq floor } }, .ok ())

end TableLog

/-- A call of the store, or a step of a statement that waits. -/
inductive Call (Batches : Type) where
  | appendStaged (kind : TailOpKind) (batches : Batches)
  | leadSync (segment : Nat)
  | completeSync (segment : Nat)
  | finish (waiter : Waiter)
  | rotate
  | truncate (uptoSeq : Nat)
  | ensureSeqFloor (floor : Nat)

/-- One call on the log of a table, and what it answers. -/
def TableLog.call (log : TableLog) (disk : Disk) :
    Call Batches → Option (TableLog × Except WalError Unit)
  | .appendStaged kind batches =>
    let (log, reply) := log.appendStaged encodeIpc decodeIpc disk kind batches
    some (log, reply.map fun _ => ())
  | .leadSync segment => (log.leadSync segment).map fun log => (log, .ok ())
  | .completeSync segment => (log.completeSync disk segment).map fun log => (log, .ok ())
  | .finish waiter => log.finish disk waiter
  | .rotate => some (log.rotate disk)
  | .truncate uptoSeq => some (log.truncate disk uptoSeq)
  | .ensureSeqFloor floor => some (log.ensureSeqFloor decodeIpc disk floor)

end Calls

end Icegres.Tail
