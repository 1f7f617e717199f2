import Icegres.Tail.LocalWal
import Icegres.Tail.TableNames
import Icegres.Transition

/-!
# The tail in a Postgres database

The frames of a tail are rows of a database, and one connection at a time may write them: a process
takes a lock when it opens the tail, and the lock is held as long as the backend of its connection
lives. The process may lose its connection while the backend still has a statement to execute, and
the backend may end while the process still has an answer to read.
-/

namespace Icegres.Tail.Postgres

/-! ## The schema -/

/-- A row of `frames`. The key and the sequence are the primary key. -/
structure FrameRow where
  tableKey : String
  seq : Int
  payload : List UInt8
  deriving DecidableEq

/-- The row of `meta`. -/
structure MetaRow where
  identity : String
  format : Int
  deriving DecidableEq

structure Schema where
  metaRow : Option MetaRow
  frames : List FrameRow
  /-- The key is the primary key. -/
  watermarks : List (String × Int)
  deriving DecidableEq

/-- `INSERT .. ON CONFLICT DO UPDATE SET seq = GREATEST(..)` -/
def upsertWatermark (key : String) (seq : Int) : List (String × Int) → List (String × Int)
  | [] => [(key, seq)]
  | row :: rest =>
      if row.1 = key then (key, max row.2 seq) :: rest
      else row :: upsertWatermark key seq rest

/-- One request to the worker thread. -/
inductive Job where
  | append (key : String) (seq : Int) (payload : List UInt8)
  | replay
  | truncate (key : String) (uptoSeq : Int)
  | recordWatermark (key : String) (seq : Int)
  deriving DecidableEq

/-- The rows of a replay as they leave the database. -/
structure RawReplay where
  frames : List FrameRow
  watermarks : List (String × Int)
  deriving DecidableEq

inductive JobReply where
  | done
  /-- The primary key of the row is taken. -/
  | duplicate
  | rows (raw : RawReplay)
  deriving DecidableEq

/-- By `table_key` and then `seq`, with the order of texts that the database has. -/
def rowLe (collate : String → String → Bool) (left right : FrameRow) : Bool :=
  if left.tableKey = right.tableKey then decide (left.seq ≤ right.seq)
  else collate left.tableKey right.tableKey

/-- `ORDER BY table_key, seq` -/
def orderRows (collate : String → String → Bool) (rows : List FrameRow) : List FrameRow :=
  rows.mergeSort (rowLe collate)

def replayRows (collate : String → String → Bool) (schema : Schema) : RawReplay :=
  ⟨orderRows collate schema.frames, schema.watermarks⟩

def runJob (collate : String → String → Bool) (schema : Schema) : Job → Schema × JobReply
  | .append key seq payload =>
      if schema.frames.any fun row => row.tableKey = key ∧ row.seq = seq then
        (schema, .duplicate)
      else
        ({ schema with frames := schema.frames ++ [⟨key, seq, payload⟩] }, .done)
  | .replay => (schema, .rows (replayRows collate schema))
  | .truncate key uptoSeq =>
      ({ schema with
          frames := schema.frames.filter fun row => ¬ (row.tableKey = key ∧ row.seq ≤ uptoSeq) },
        .done)
  | .recordWatermark key seq =>
      ({ schema with watermarks := upsertWatermark key seq schema.watermarks }, .done)

/-! ## The handle of a process -/

/-- The next sequence that the rows of a key leave, if it has any. -/
def seedOf (schema : Schema) (key : String) : Option Nat :=
  let frames := ((schema.frames.filter (·.tableKey = key)).map (·.seq)).max?.map (·.toNat + 1)
  let watermark := (schema.watermarks.lookup key).map (·.toNat + 1)
  match frames, watermark with
  | none, none => none
  | some floor, none => some floor
  | none, some floor => some (max 1 floor)
  | some floor, some other => some (max floor other)

/-- Every key with the next sequence that its rows leave. -/
def seeds (schema : Schema) : List (String × Nat) :=
  (schema.frames.map (·.tableKey) ++ schema.watermarks.map Prod.fst).dedup.filterMap fun key =>
    (seedOf schema key).map (key, ·)

structure PgTail where
  propKey : String
  nextSeq : TableIdent → Option Nat

def tailSeqPropertyPrefix : String := "icegres.tail-seq."

/-- The largest `BIGINT`. -/
def maxBigint : Nat := 2 ^ 63 - 1

/-- The seed of a key that names no table is ignored. -/
def PgTail.seeded (fromStrs : List String → Option TableIdent) (identity : String)
    (seeds : List (String × Nat)) : PgTail where
  propKey := tailSeqPropertyPrefix ++ identity
  nextSeq := seeds.foldl (fun map seed =>
    match parseTableDirName fromStrs seed.1 with
    | some ident => Function.update map ident (some seed.2)
    | none => map) fun _ => none

/-- The sequence of the next append. -/
def PgTail.next (tail : PgTail) (ident : TableIdent) : Nat := (tail.nextSeq ident).getD 1

def PgTail.setNext (tail : PgTail) (ident : TableIdent) (seq : Nat) : PgTail :=
  { tail with nextSeq := Function.update tail.nextSeq ident (some seq) }

@[simp] theorem PgTail.next_setNext (tail : PgTail) (ident : TableIdent) (seq : Nat) :
    (tail.setNext ident seq).next ident = seq := by
  simp [next, setNext]

theorem PgTail.next_setNext_of_ne (tail : PgTail) {ident other : TableIdent} (apart : other ≠ ident)
    (seq : Nat) : (tail.setNext ident seq).next other = tail.next other := by
  simp [next, setNext, Function.update_of_ne apart]

def PgTail.ensureSeqFloor (tail : PgTail) (ident : TableIdent) (floor : Nat) : PgTail :=
  tail.setNext ident (max (tail.next ident) floor)

/-! ## Processes and their connections -/

/-- How far the opening of a tail has come. -/
inductive Stage where
  | connected
  | locked
  /-- The tables exist. -/
  | prepared
  | minted
  | opened (tail : PgTail)

/-- The backend has taken the lock. -/
def Stage.Locked : Stage → Prop
  | .connected => False
  | _ => True

/-- A statement on its way into the tail. -/
structure Entry (Batches : Type) where
  session : Nat
  ident : TableIdent
  seq : Nat
  op : TailOp Batches

/-- A call of the tail that waits for the database. -/
inductive Call (Batches : Type) where
  | append (entry : Entry Batches)
  | replay
  /-- The first half of `tail_truncate_covered`. -/
  | record (ident : TableIdent) (uptoSeq : Nat)
  | truncate (ident : TableIdent) (uptoSeq : Nat)

/-- The request of a call, and the one answer to it. -/
inductive Wire (Batches : Type) where
  | idle
  | asked (call : Call Batches) (job : Job)
  | answered (call : Call Batches) (reply : JobReply)

structure Session (Batches : Type) where
  stage : Stage
  wire : Wire Batches
  /-- The process reads from its connection. -/
  attached : Bool
  /-- The backend executes what is sent, and holds its locks. -/
  serving : Bool

/-- The database, the processes and what has been done so far. -/
structure Sys (Batches : Type) where
  schema : Option Schema
  /-- The session that holds the lock. -/
  holder : Option Nat
  sessions : Nat → Option (Session Batches)
  /-- The frames that were inserted, in order. -/
  inserted : List (Entry Batches)
  /-- The appends that returned a sequence, in order. -/
  acked : List (Entry Batches)
  /-- The tails that were opened. -/
  opened : List (Nat × String)

def Sys.init (Batches : Type) : Sys Batches where
  schema := none
  holder := none
  sessions := fun _ => none
  inserted := []
  acked := []
  opened := []

/-- What a process asks of its tail. The worker thread serves one request after the other. -/
inductive Request (Batches : Type) where
  | append (ident : TableIdent) (kind : TailOpKind) (batches : Batches)
  | replay
  | tailTruncateCovered (ident : TableIdent) (uptoSeq : Nat)

inductive Action (Batches : Type) where
  | connects (session : Nat)
  /-- The next statements of an opening are executed, and their answers read. -/
  | opens (session : Nat) (minted : String)
  | ensureSeqFloor (session : Nat) (ident : TableIdent) (floor : Nat)
  | starts (session : Nat) (request : Request Batches)
  | executes (session : Nat)
  | receives (session : Nat)
  /-- The process dies, or gives its connection up. -/
  | detaches (session : Nat)
  /-- The backend ends, and its locks are free. -/
  | ends (session : Nat)

section Steps

variable {Batches : Type} (encodeIpc : Batches → Except String (List UInt8))
  (collate : String → String → Bool) (fromStrs : List String → Option TableIdent)
  (parsesUuid : String → Bool)

/-- An unencodable statement, and a sequence that does not fit, fail with nothing sent. -/
def startAppend (session : Nat) (tail : PgTail) (ident : TableIdent) (kind : TailOpKind)
    (batches : Batches) : Except String (Call Batches × Job) := do
  let key ← tableDirName ident
  let payload ← encodeOpPayload encodeIpc kind batches
  let seq := tail.next ident
  if maxBigint < seq then
    throw "tail sequence overflows BIGINT"
  return (.append ⟨session, ident, seq, ⟨kind, batches⟩⟩, .append key seq payload)

def startRecord (ident : TableIdent) (seq : Nat) : Except String (Call Batches × Job) := do
  let key ← tableDirName ident
  if maxBigint < seq then
    throw "tail-pg watermark overflows BIGINT"
  return (.record ident seq, .recordWatermark key seq)

/-- A sequence that does not fit is cut down to the largest that does. -/
def startTruncate (ident : TableIdent) (uptoSeq : Nat) : Except String (Call Batches × Job) := do
  let key ← tableDirName ident
  let upto := min uptoSeq maxBigint
  return (.truncate ident upto, .truncate key upto)

def start (session : Nat) (tail : PgTail) :
    Request Batches → Except String (Call Batches × Job)
  | .append ident kind batches => startAppend encodeIpc session tail ident kind batches
  | .replay => .ok (.replay, .replay)
  | .tailTruncateCovered ident uptoSeq => startRecord ident uptoSeq

def asked : Except String (Call Batches × Job) → Wire Batches
  | .ok (call, job) => .asked call job
  | .error _ => .idle

namespace Sys

variable (sys : Sys Batches)

def setSession (id : Nat) (session : Session Batches) : Sys Batches :=
  { sys with sessions := Function.update sys.sessions id (some session) }

/-- The session ends on both sides. -/
def close (id : Nat) (session : Session Batches) : Sys Batches :=
  { sys.setSession id { session with attached := false, serving := false } with
    holder := if sys.holder = some id then none else sys.holder }

/-- `open_connection`, one part after the other. -/
def openNext (id : Nat) (minted : String) (session : Session Batches) : Option (Sys Batches) :=
  match session.stage with
  | .connected =>
      if sys.holder = none then
        some { sys.setSession id { session with stage := .locked } with holder := some id }
      else
        some (sys.close id session)
  | .locked =>
      some { sys.setSession id { session with stage := .prepared } with
        schema := some (sys.schema.getD ⟨none, [], []⟩) }
  | .prepared =>
      sys.schema.map fun schema =>
        { sys.setSession id { session with stage := .minted } with
          schema := some { schema with
            metaRow := some (schema.metaRow.getD ⟨minted, tailPayloadFormat.toNat⟩) } }
  | .minted =>
      sys.schema.bind fun schema => schema.metaRow.map fun row =>
        let identity := row.identity.trimAscii.toString
        if row.format ≠ (tailPayloadFormat.toNat : Int) ∨ parsesUuid identity = false then
          sys.close id session
        else
          let tail := PgTail.seeded fromStrs identity (seeds schema)
          { sys.setSession id { session with stage := .opened tail } with
            opened := sys.opened ++ [(id, tail.propKey)] }
  | .opened _ => none

/-- What the history says of a job that the database has executed. -/
def note (call : Call Batches) (reply : JobReply) : Sys Batches :=
  match call, reply with
  | .append entry, .done => { sys with inserted := sys.inserted ++ [entry] }
  | _, _ => sys

def executeNext (id : Nat) (session : Session Batches) : Option (Sys Batches) :=
  match session.wire, sys.schema with
  | .asked call job, some schema =>
      let done := runJob collate schema job
      some ({ sys.setSession id { session with wire := .answered call done.2 } with
        schema := some done.1 }.note call done.2)
  | _, _ => none

/-- The call returns, or goes on with its next request. -/
def receiveNext (id : Nat) (session : Session Batches) (tail : PgTail) : Option (Sys Batches) :=
  match session.wire with
  | .answered (.append entry) .done =>
      -- only now is the frame durable, and the sequence consumed
      some { sys.setSession id { session with
          stage := .opened (tail.setNext entry.ident (entry.seq + 1)), wire := .idle } with
        acked := sys.acked ++ [entry] }
  | .answered (.record ident seq) .done =>
      some (sys.setSession id { session with wire := asked (startTruncate ident seq) })
  | .answered _ _ => some (sys.setSession id { session with wire := .idle })
  | _ => none

def step (sys : Sys Batches) : Action Batches → Option (Sys Batches)
  | .connects id =>
      match sys.sessions id with
      | none => some (sys.setSession id ⟨.connected, .idle, true, true⟩)
      | some _ => none
  | .opens id minted =>
      (sys.sessions id).bind fun session =>
        if session.attached ∧ session.serving then
          sys.openNext fromStrs parsesUuid id minted session
        else none
  | .ensureSeqFloor id ident floor =>
      (sys.sessions id).bind fun session =>
        match session.stage, session.wire with
        | .opened tail, .idle =>
            some (sys.setSession id
              { session with stage := .opened (tail.ensureSeqFloor ident floor) })
        | _, _ => none
  | .starts id request =>
      (sys.sessions id).bind fun session =>
        match session.stage, session.wire with
        | .opened tail, .idle =>
            if session.attached then
              some (sys.setSession id
                { session with wire := asked (start encodeIpc id tail request) })
            else none
        | _, _ => none
  | .executes id =>
      (sys.sessions id).bind fun session =>
        if session.serving then sys.executeNext collate id session else none
  | .receives id =>
      (sys.sessions id).bind fun session =>
        match session.stage with
        | .opened tail => if session.attached then sys.receiveNext id session tail else none
        | _ => none
  | .detaches id =>
      (sys.sessions id).map fun session => sys.setSession id { session with attached := false }
  | .ends id =>
      (sys.sessions id).map fun session =>
        { sys.setSession id { session with serving := false } with
          holder := if sys.holder = some id then none else sys.holder }

end Sys

end Steps

end Icegres.Tail.Postgres
