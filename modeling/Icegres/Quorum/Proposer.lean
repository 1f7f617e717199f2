import Icegres.Quorum.Acceptor
import Mathlib.Data.List.Sort

/-!
# The proposer's rules and shared state

The election, donor, commit and horizon rules as pure functions, and the state the
proposer's tasks share. Every definition here is one critical section or one pure
computation of the source; the tasks that string them together are in
`Icegres.Quorum.System`.
-/

namespace Icegres.Quorum

/-- The static membership: exactly three acceptors. -/
inductive AcceptorId where
  | first
  | second
  | third
  deriving DecidableEq

/-- The acceptors in address order. -/
def AcceptorId.all : List AcceptorId := [.first, .second, .third]

/-- One value per acceptor. -/
structure Tri (α : Type) where
  first : α
  second : α
  third : α

namespace Tri

variable {α β : Type}

def get (tri : Tri α) : AcceptorId → α
  | .first => tri.first
  | .second => tri.second
  | .third => tri.third

def set (tri : Tri α) (id : AcceptorId) (value : α) : Tri α :=
  match id with
  | .first => { tri with first := value }
  | .second => { tri with second := value }
  | .third => { tri with third := value }

def replicate (value : α) : Tri α := ⟨value, value, value⟩

def map (f : α → β) (tri : Tri α) : Tri β := ⟨f tri.first, f tri.second, f tri.third⟩

def toList (tri : Tri α) : List α := [tri.first, tri.second, tri.third]

@[simp] theorem get_set_self (tri : Tri α) (id : AcceptorId) (value : α) :
    (tri.set id value).get id = value := by
  cases id <;> rfl

@[simp] theorem get_set_ne (tri : Tri α) {id other : AcceptorId} (value : α)
    (different : other ≠ id) : (tri.set id value).get other = tri.get other := by
  cases id <;> cases other <;> first | rfl | exact absurd rfl different

theorem get_set (tri : Tri α) (id other : AcceptorId) (value : α) :
    (tri.set id value).get other = if other = id then value else tri.get other := by
  by_cases same : other = id
  · subst same
    simp
  · simp [same]

@[simp] theorem get_replicate (value : α) (id : AcceptorId) : (replicate value).get id = value := by
  cases id <;> rfl

@[simp] theorem get_map (f : α → β) (tri : Tri α) (id : AcceptorId) :
    (tri.map f).get id = f (tri.get id) := by
  cases id <;> rfl

end Tri

/-- Votes and acks of this many acceptors are a quorum. -/
def quorum : Nat := 2

/-- Bytes of records per append batch. -/
def maxAppendBatchBytes : Nat := 1 <<< 20

/-- Headroom reserved inside a wire message for an append's header and framing. -/
def appendMessageHeadroom : Nat := 4096

/-- A horizon-blocking watermark record this far behind the head is re-appended fresh. -/
def watermarkRefreshSlack : Nat := 1 <<< 20

/-- An acceptor lagging this many bytes behind the horizon is dropped from catch-up. -/
def maxPeerLagBytes : Nat := 256 <<< 20

/-- Consecutive failed internal re-elections before the tail poisons. -/
def maxReelectionFailures : Nat := 2

/-- The most advanced voter by `(last_log_term, flush_lsn)`; the last of equals, as the
standard library's `max_by_key` has it. -/
def pickDonor : List (AcceptorId × Nat × Nat) → Option AcceptorId
  | [] => none
  | candidate :: rest =>
    let best := rest.foldl (fun best next =>
      if best.2.1 < next.2.1 ∨ best.2.1 = next.2.1 ∧ best.2.2 ≤ next.2.2 then next else best)
      candidate
    some best.1

/-- The quorum-acked position: flushes below the new term's start count as zero, and the
second highest of the rest is taken. -/
def quorumCommit (flushes : List Nat) (termStartLsn : Nat) : Nat :=
  let vals := flushes.map fun flush => if flush < termStartLsn then 0 else flush
  (vals.insertionSort (· ≥ ·)).getD (quorum - 1) 0

/-- A record admitted into the log must fit one wire message with headroom to spare. -/
def checkRecordFrameLen (frameLen : Nat) : Except String Unit :=
  if frameLen + appendMessageHeadroom > maxMessageBytes then
    .error s!"tail record of {frameLen} framed bytes exceeds the quorum message cap ({maxMessageBytes - appendMessageHeadroom} bytes with batching headroom); split the statement into smaller inserts"
  else
    .ok ()

/-- Where to start streaming to one acceptor: the proposer-side mirror of
`findHighestCommonPoint`. A fresh acceptor joins at `base`. -/
def computeStart (propTh skTh : TermHistory) (skFlush propTerm base : Nat) :
    Except String Nat :=
  match commonSwitches (fun prop _ =>
    s!"term histories disagree on the start of term {prop.term}") propTh skTh with
  | .error why => .error why
  | .ok 0 =>
      if skTh.isEmpty ∧ skFlush = 0 then
        .ok base
      else
        match propTh.head? with
        | some entry => .ok entry.lsn
        | none => .error "proposer term history is empty"
  | .ok (before + 1) =>
      if TermLog.History.lastTerm (propTh.take (before + 1)) = propTerm then
        .ok skFlush
      else
        match propTh.drop (before + 1), skTh.drop (before + 1) with
        | [], _ => .error "index out of bounds"
        | next :: _, [] => .ok (min next.lsn skFlush)
        | next :: _, other :: _ => .ok (min next.lsn other.lsn)

/-- The retained log suffix and the per-table coverage bookkeeping. -/
structure LogBuf where
  /-- First retained byte. -/
  base : Nat
  /-- End of the log, the next record's start. -/
  head : Nat
  records : List Record
  /-- Per-table highest covered sequence, zero when none was noted. -/
  covered : String → Nat
  /-- Per-table `(start, seq)` of the latest watermark record in the log. -/
  lastWm : String → Option (Nat × Nat)

namespace LogBuf

/-- The latest-watermark table after the record enters the log. -/
def noteRecord (lastWm : String → Option (Nat × Nat)) (record : Record) :
    String → Option (Nat × Nat) :=
  match record.kind with
  | .frame => lastWm
  | .watermark => fun key =>
      if key = record.tableKey then some (record.lsn, record.seq) else lastWm key

/-- The log seeded with the recovered suffix `[base, head)`. -/
def recovered (base head : Nat) (records : List Record) : LogBuf where
  base := base
  head := head
  records := records
  covered _ := 0
  lastWm := records.foldl noteRecord fun _ => none

/-- Enter a record that starts at the head. -/
def push (log : LogBuf) (record : Record) : LogBuf :=
  { log with
    head := record.endLsn
    records := log.records ++ [record]
    lastWm := noteRecord log.lastWm record }

/-- A frame may leave once it is covered and a watermark at or above its sequence is in the
log; a watermark once a later one for its table is. -/
def coverable (log : LogBuf) (record : Record) : Bool :=
  match record.kind with
  | .frame =>
      log.covered record.tableKey ≥ record.seq &&
        (log.lastWm record.tableKey).any fun wm => wm.2 ≥ record.seq
  | .watermark => (log.lastWm record.tableKey).any fun wm => wm.1 > record.lsn

/-- The walk of `coverablePrefix` from `prefixEnd` over the records not yet passed. -/
def coverableFrom (log : LogBuf) (commit : Nat) :
    Nat → List Record → Nat × Option (String × Nat)
  | prefixEnd, [] => (prefixEnd, none)
  | prefixEnd, record :: rest =>
    if record.endLsn > commit then
      (prefixEnd, none)
    else if log.coverable record then
      log.coverableFrom commit record.endLsn rest
    else if record.kind = .watermark ∧ log.head - record.lsn > watermarkRefreshSlack then
      (prefixEnd, some (record.tableKey, max record.seq (log.covered record.tableKey)))
    else
      (prefixEnd, none)

/-- The coverable prefix of the retained log, and the watermark to re-append when a last
watermark far behind the head blocks it. -/
def coverablePrefix (log : LogBuf) (commit : Nat) : Nat × Option (String × Nat) :=
  log.coverableFrom commit log.base log.records

/-- Drop local records that end at or below `dropTo`, from the front. -/
def dropTo (log : LogBuf) (upto : Nat) : LogBuf :=
  let dropped := log.records.takeWhile fun record => record.endLsn ≤ upto
  { log with
    base := (dropped.getLast?.map Record.endLsn).getD log.base
    records := log.records.drop dropped.length }

/-- The records of a batch after the first, as long as the message can carry them and the
batch is below its byte target. -/
def takeBatch : Nat → List Record → List Record
  | _, [] => []
  | len, record :: rest =>
    if len ≥ maxAppendBatchBytes ∨
        len + record.frameLen + appendMessageHeadroom > maxMessageBytes then
      []
    else
      record :: takeBatch (len + record.frameLen) rest

/-- What to send next to a peer. -/
inductive Batch where
  | data (begin finish : Nat) (records : List Record)
  | upToDate
  | behind

/-- The next batch of records for a peer whose acked flush is `pos`. -/
def nextBatch (log : LogBuf) (pos : Nat) : Batch :=
  if pos ≥ log.head then
    .upToDate
  else if pos < log.base then
    .behind
  else
    match log.records.filter fun record => pos < record.endLsn with
    | [] => .upToDate
    | record :: rest =>
        let records := record :: takeBatch record.frameLen rest
        .data record.lsn (record.lsn + framesLen records) records

end LogBuf

/-- One acceptor's proposer-side state. -/
structure Peer where
  /-- Its last acked durable flush position in the current term. -/
  flush : Nat
  /-- Out until the next election. -/
  failed : Bool

/-- The election-scoped consensus state. -/
structure Election where
  term : Nat
  termStartLsn : Nat
  history : TermHistory

/-- Why the supervisor should attempt an internal re-election. -/
inductive ReelectReason where
  | fenced (term : Nat)
  | stalled (position : Nat)

/-- The state the tasks of one open tail share. -/
structure Shared where
  tailId : String
  election : Election
  log : LogBuf
  peers : Tri Peer
  commit : Nat
  horizon : Nat
  poison : Option String
  /-- Re-election requests not yet taken by the supervisor, oldest first. -/
  requests : List ReelectReason

namespace Shared

/-- The first poison reason stays. -/
def poisonWith (shared : Shared) (why : String) : Shared :=
  { shared with poison := some (shared.poison.getD why) }

def recomputeCommit (shared : Shared) : Shared :=
  let cand := quorumCommit (shared.peers.map Peer.flush).toList shared.election.termStartLsn
  if cand ≥ shared.election.termStartLsn ∧ cand > shared.commit then
    { shared with commit := cand }
  else
    shared

/-- The request was answered by an earlier re-election, or by a commit that came after all. -/
def resolved (shared : Shared) : ReelectReason → Bool
  | .fenced term => term ≤ shared.election.term
  | .stalled position => position ≤ shared.commit

/-- Record one acceptor's flush ack, provided it belongs to the current term's connection. -/
def storeAck (shared : Shared) (id : AcceptorId) (connTerm flush : Nat) : Option Shared :=
  if shared.election.term ≠ connTerm then
    none
  else
    let peer := { shared.peers.get id with flush := flush }
    some { shared with peers := shared.peers.set id peer }.recomputeCommit

def setFailed (shared : Shared) (id : AcceptorId) : Shared :=
  { shared with peers := shared.peers.set id { shared.peers.get id with failed := true } }

def request (shared : Shared) (reason : ReelectReason) : Shared :=
  { shared with requests := shared.requests ++ [reason] }

/-- The peer furthest behind among those still streaming, the first of equals. -/
def slowest (peers : Tri Peer) : Option AcceptorId :=
  (AcceptorId.all.filter fun id => !(peers.get id).failed).foldl (fun best id =>
    match best with
    | none => some id
    | some low => if (peers.get id).flush < (peers.get low).flush then some id else some low) none

/-- The local retention floor after the horizon moved: keep what lagging live peers need,
but drop a peer beyond the lag bound. Each round drops one of three peers. -/
def retain (horizon : Nat) : Nat → Tri Peer → Tri Peer × Nat
  | 0, peers => (peers, horizon)
  | rounds + 1, peers =>
    match slowest peers with
    | none => (peers, horizon)
    | some id =>
        let dropTo := min horizon (peers.get id).flush
        if horizon - dropTo > maxPeerLagBytes then
          retain horizon rounds (peers.set id { peers.get id with failed := true })
        else
          (peers, dropTo)

/-- Advance the horizon over the coverable prefix and trim the local log; returns the
watermark refresh the caller should append. -/
def advanceHorizon (shared : Shared) : Shared × Option (String × Nat) :=
  let covered := shared.log.coverablePrefix shared.commit
  let horizon := max (min covered.1 shared.commit) shared.horizon
  if horizon > shared.horizon then
    let retained := retain horizon 4 shared.peers
    ({ shared with
        horizon := horizon
        peers := retained.1
        log := shared.log.dropTo retained.2 }, covered.2)
  else
    (shared, covered.2)

/-- Record that a flush covered `tableKey` up to `uptoSeq`, then advance the horizon. -/
def noteCovered (shared : Shared) (tableKey : String) (uptoSeq : Nat) :
    Shared × Option (String × Nat) :=
  let covered := fun key =>
    if key = tableKey then max (shared.log.covered key) uptoSeq else shared.log.covered key
  { shared with log := { shared.log with covered := covered } }.advanceHorizon

/-- Enter one record into the retained log. The arguments are `u64`, and so is the log
position; an oversized record fails before it enters the log. -/
def submit (shared : Shared) (kind : RecordKind) (tableKey : String) (seq : Nat)
    (body : Segment.Bytes) : Except String (Shared × Record) :=
  match shared.poison with
  | some why => .error why
  | none =>
      if fits : shared.log.head < 2 ^ 64 ∧ seq < 2 ^ 64 ∧
          recordPayloadLen tableKey body.len < 2 ^ 32 then
        let record : Record :=
          { lsn := shared.log.head, kind, tableKey, seq, body, lsn_lt := fits.1,
            seq_lt := fits.2.1, payload_fits := fits.2.2 }
        match checkRecordFrameLen record.frameLen with
        | .error why => .error s!"quorum-tail append for {tableKey}/{seq} refused: {why}"
        | .ok () => .ok ({ shared with log := shared.log.push record }, record)
      else
        .error "log frame payload is over the u32 frame-length limit (4294967295); split the statement into smaller inserts"

/-- Adopt the new term of a won re-election. Peer flushes are zeroed: only new-term
handshakes may feed the commit rule. -/
def adoptTerm (shared : Shared) (election : Election) : Shared :=
  { shared with
    election := election
    peers := Tri.replicate { flush := 0, failed := false } }

end Shared

end Icegres.Quorum
