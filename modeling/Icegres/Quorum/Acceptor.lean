import Icegres.Quorum.Wal

/-!
# The acceptor state machine

Message in, message out, over the control file and the segmented log. The handlers keep the
source's order of durable effects: a vote and an adopted identity are persisted before the
response, an elected proposer's term, then the truncation, then its history, and an append's
records before the horizon that lets older files go. `crashDuring` is the disk a failure
leaves between two of these effects, `restart` what the next process makes of the disk.

Storage errors that leave the process running wedge the source's acceptor and are not
modelled.
-/

namespace Icegres.Quorum

/-- Everything that must survive a restart. -/
structure PersistentState where
  /-- The cluster identity, adopted permanently from the first greeting that carries one. -/
  tailId : Option String
  /-- Last term this acceptor voted for or acknowledged. -/
  term : Nat
  /-- Adopted in full from the proposer; may extend beyond the local log. -/
  termHistory : TermHistory
  /-- Quorum-committed position as last heard, clamped to the local flush. -/
  commitLsn : Nat
  /-- Everything below is covered; files under it may be deleted. -/
  horizonLsn : Nat

/-- The control state of a new data directory. -/
def PersistentState.new : PersistentState where
  tailId := none
  term := 0
  termHistory := []
  commitLsn := 0
  horizonLsn := 0

/-- An acceptor: its state in memory, the control file and the log. -/
structure Acceptor where
  state : PersistentState
  ctrl : PersistentState
  wal : SegmentWal

namespace Acceptor

/-- Start over a control file and segment files: the flush position is recomputed, and
nothing is claimed committed that is not held. -/
def boot (ctrl : PersistentState) (files : List Seg) (rotateBytes : Nat) : Acceptor :=
  let wal := SegmentWal.open files rotateBytes
  { state := { ctrl with commitLsn := min ctrl.commitLsn wal.flush }, ctrl, wal }

/-- A new acceptor over an empty data directory. -/
def new : Acceptor :=
  boot PersistentState.new [] segmentRotateBytes

/-- The process stops and starts again over its disk. -/
def restart (acceptor : Acceptor) : Acceptor :=
  boot acceptor.ctrl acceptor.wal.files acceptor.wal.rotateBytes

/-- Make `next` durable, then adopt it in memory. -/
def persist (acceptor : Acceptor) (next : PersistentState) : Acceptor :=
  { acceptor with state := next, ctrl := next }

/-- Adopt a tail identity permanently, or refuse a greeting for another one. -/
def handleGreeting (acceptor : Acceptor) (tailId : Option String) :
    Acceptor × Except String Message :=
  let respond (acceptor : Acceptor) : Acceptor × Except String Message :=
    (acceptor, .ok (.greetingResp acceptor.state.tailId acceptor.state.term acceptor.wal.flush))
  match tailId, acceptor.state.tailId with
  | some id, none => respond (acceptor.persist { acceptor.state with tailId := some id })
  | some id, some mine =>
      if mine ≠ id then
        (acceptor, .error s!"this acceptor belongs to tail {mine}; refusing a greeting for tail {id} ({wrongClusterMark} — check the --tail-quorum addresses)")
      else
        respond acceptor
  | none, _ => respond acceptor

/-- The horizon an acceptor reports: files are only deleted below a covered position, so the
first retained LSN is a truthful floor. -/
def effectiveHorizon (acceptor : Acceptor) : Nat :=
  max acceptor.state.horizonLsn acceptor.wal.retainedStart

/-- Grant a vote for a strictly higher term; a refusal still reports the positions. -/
def handleVote (acceptor : Acceptor) (term : Nat) : Acceptor × Except String Message :=
  let flush := acceptor.wal.flush
  let granted := acceptor.state.term < term
  let acceptor :=
    if granted then acceptor.persist { acceptor.state with term := term } else acceptor
  (acceptor, .ok (.voteResponse
    { term := acceptor.state.term
      granted := granted
      flushLsn := flush
      lastLogTerm := lastLogTerm acceptor.state.termHistory flush
      termHistory := acceptor.state.termHistory.upTo flush
      horizonLsn := acceptor.effectiveHorizon
      commitLsn := acceptor.state.commitLsn }))

/-- Acknowledge a higher term. -/
def bumpTerm (acceptor : Acceptor) (term : Nat) : Acceptor :=
  if acceptor.state.term < term then
    acceptor.persist { acceptor.state with term := term }
  else
    acceptor

/-- The start position this acceptor computes for an elected proposer. A fresh acceptor joins
wherever the proposer starts. -/
def expectedStart (acceptor : Acceptor) (startLsn : Nat) (termHistory : TermHistory) :
    Except String Nat :=
  let flush := acceptor.wal.flush
  let skTh := acceptor.state.termHistory.upTo flush
  match findHighestCommonPoint termHistory skTh flush with
  | .error why => .error why
  | .ok (some point) => .ok point.lsn
  | .ok none =>
      if skTh = [] ∧ acceptor.wal.empty then
        .ok startLsn
      else
        match termHistory.head? with
        | some first => .ok first.lsn
        | none => .error "elected message carries an empty term history"

/-- The checks an elected message passes before the log is truncated. -/
def checkElected (acceptor : Acceptor) (startLsn : Nat) (termHistory : TermHistory) :
    Except String Unit :=
  match acceptor.expectedStart startLsn termHistory with
  | .error why => .error why
  | .ok expected =>
      if expected ≠ startLsn then
        .error s!"elected start_lsn {startLsn} does not match the divergence point {expected} computed here (flush moved?); retry the handshake"
      else if startLsn < acceptor.state.commitLsn then
        .error s!"refusing to truncate at {startLsn} BELOW the committed position {acceptor.state.commitLsn} — a proposer may never rewind committed records"
      else
        .ok ()

/-- Cut the divergent suffix and adopt the history. -/
def adopt (acceptor : Acceptor) (startLsn : Nat) (termHistory : TermHistory) : Acceptor :=
  let wal := acceptor.wal.truncateFrom startLsn
  { acceptor with wal := wal }.persist
    { acceptor.state with
      termHistory := termHistory
      commitLsn := min acceptor.state.commitLsn wal.flush }

/-- Adopt the elected proposer: truncate the divergent suffix, adopt its term history in
full, persist, acknowledge. -/
def handleElected (acceptor : Acceptor) (term startLsn : Nat) (termHistory : TermHistory) :
    Acceptor × Except String Message :=
  let acceptor := acceptor.bumpTerm term
  if acceptor.state.term > term then
    (acceptor, .ok (.electedResp acceptor.state.term false))
  else
    match acceptor.checkElected startLsn termHistory with
    | .error why => (acceptor, .error why)
    | .ok () =>
        let acceptor := acceptor.adopt startLsn termHistory
        (acceptor, .ok (.electedResp acceptor.state.term true))

/-- The checks an append passes before anything touches the disk. -/
def checkAppend (acceptor : Acceptor) (request : AppendRequest) : Except String Unit :=
  if request.records.isEmpty then
    .error "empty AppendRequest"
  else
    match checkStream request.beginLsn request.records with
    | .error why => .error why
    | .ok () =>
        let pos := if acceptor.wal.empty then request.beginLsn else acceptor.wal.flush
        if request.beginLsn + framesLen request.records ≠ request.endLsn then
          .error s!"AppendRequest end_lsn {request.endLsn} does not match begin {request.beginLsn} + {framesLen request.records} payload bytes"
        else if request.beginLsn ≠ pos then
          .error s!"non-consecutive append: write position is {pos}, request begins at {request.beginLsn} (rewrites and gaps are only ever repositioned by ProposerElected)"
        else
          .ok ()

/-- Commit position and horizon as an append to a log flushed up to `flush` moves them. -/
def advance (state : PersistentState) (request : AppendRequest) (flush : Nat) :
    PersistentState :=
  let commitLsn := min (max request.commitLsn state.commitLsn) flush
  { state with
    commitLsn := commitLsn
    horizonLsn := max state.horizonLsn (min request.horizonLsn commitLsn) }

/-- Write the batch, move the commit position in memory and, when the horizon moves, persist
it before any file below it is deleted. -/
def applyAppend (acceptor : Acceptor) (request : AppendRequest) (wal : SegmentWal) : Acceptor :=
  let next := advance acceptor.state request wal.flush
  if next.horizonLsn > acceptor.state.horizonLsn then
    { acceptor with wal := wal.dropBelow next.horizonLsn }.persist next
  else
    { acceptor with wal := wal, state := next }

/-- Append records: only in the exact acknowledged term. A higher local term is the fence. -/
def handleAppend (acceptor : Acceptor) (request : AppendRequest) :
    Acceptor × Except String Message :=
  if acceptor.state.term < request.term then
    (acceptor, .error s!"got an AppendRequest for term {request.term} before its ProposerElected (our term is {acceptor.state.term})")
  else if acceptor.state.term > request.term then
    (acceptor, .ok (.appendResp acceptor.state.term false 0 0))
  else
    match acceptor.checkAppend request with
    | .error why => (acceptor, .error why)
    | .ok () =>
        match acceptor.wal.append request.beginLsn request.records with
        | .error why => (acceptor, .error why)
        | .ok wal =>
            let acceptor := acceptor.applyAppend request wal
            (acceptor, .ok (.appendResp acceptor.state.term true wal.flush
              acceptor.state.commitLsn))

/-- Serve `[fromLsn, toLsn)` clamped to the flush position. No term is checked. -/
def handleRead (acceptor : Acceptor) (fromLsn toLsn : Nat) : Except String Message :=
  let upto := min toLsn acceptor.wal.flush
  if fromLsn ≥ upto then
    .ok (.readResp fromLsn [])
  else
    match acceptor.wal.read fromLsn upto with
    | .error why => .error why
    | .ok records => .ok (.readResp fromLsn records)

/-- Handle one request; failures become error responses. -/
def process (acceptor : Acceptor) (message : Message) : Acceptor × Message :=
  let handled : Acceptor × Except String Message :=
    match message with
    | .greeting tailId => acceptor.handleGreeting tailId
    | .voteRequest term => acceptor.handleVote term
    | .elected term startLsn termHistory => acceptor.handleElected term startLsn termHistory
    | .append request => acceptor.handleAppend request
    | .read fromLsn toLsn => (acceptor, acceptor.handleRead fromLsn toLsn)
    | _ => (acceptor, .error "unexpected message sent to an acceptor")
  match handled with
  | (acceptor, .ok response) => (acceptor, response)
  | (acceptor, .error why) => (acceptor, .error why)

/-- Where a failure can interrupt a handler between two durable effects. Before the first
and after the last effect it is a restart before or after the request. -/
inductive CrashPoint where
  /-- Elected: the term is persisted, the log untouched. -/
  | termPersisted
  /-- Elected: this many trailing files are deleted. -/
  | deleting (deleted : Nat)
  /-- Elected: the log is truncated, the history not yet persisted. -/
  | truncated
  /-- Append: this many bytes of the batch are written. -/
  | appending (written : Nat)
  /-- Append: the horizon is persisted, this many files are deleted. -/
  | dropping (dropped : Nat)

/-- The disk a failure inside the handling of an elected message leaves. -/
def crashElected (acceptor : Acceptor) (term startLsn : Nat) (termHistory : TermHistory)
    (point : CrashPoint) : Option (PersistentState × List Seg) :=
  let acceptor := acceptor.bumpTerm term
  let passes := acceptor.state.term = term ∧
    (acceptor.checkElected startLsn termHistory).isOk
  match point with
  | .termPersisted => some (acceptor.ctrl, acceptor.wal.files)
  | .deleting deleted =>
      if passes then some (acceptor.ctrl, acceptor.wal.truncateCrash startLsn deleted) else none
  | .truncated =>
      if passes then some (acceptor.ctrl, (acceptor.wal.truncateFrom startLsn).files) else none
  | _ => none

/-- The disk a failure inside the handling of an append leaves. -/
def crashAppend (acceptor : Acceptor) (request : AppendRequest) (point : CrashPoint) :
    Option (PersistentState × List Seg) :=
  if acceptor.state.term = request.term ∧ (acceptor.checkAppend request).isOk then
    match point with
    | .appending written =>
        some (acceptor.ctrl,
          acceptor.wal.appendCrash request.beginLsn request.records written)
    | .dropping dropped =>
        match acceptor.wal.append request.beginLsn request.records with
        | .error _ => none
        | .ok wal =>
            let next := advance acceptor.state request wal.flush
            if next.horizonLsn > acceptor.state.horizonLsn then
              some (next, wal.dropCrash next.horizonLsn dropped)
            else
              none
    | _ => none
  else
    none

/-- The acceptor that starts again after a failure inside the handling of `message`. -/
def crashDuring (acceptor : Acceptor) (message : Message) (point : CrashPoint) :
    Option Acceptor :=
  let disk :=
    match message with
    | .elected term startLsn termHistory =>
        acceptor.crashElected term startLsn termHistory point
    | .append request => acceptor.crashAppend request point
    | _ => none
  disk.map fun (ctrl, files) => boot ctrl files acceptor.wal.rotateBytes

/-- What a failure inside the handling of an elected message leaves. -/
theorem crashElected_cases {acceptor : Acceptor} {term startLsn : Nat}
    {termHistory : TermHistory} {point : CrashPoint} {ctrl : PersistentState} {files : List Seg}
    (crashed : acceptor.crashElected term startLsn termHistory point = some (ctrl, files)) :
    ctrl = (acceptor.bumpTerm term).ctrl ∧
      (files = (acceptor.bumpTerm term).wal.files ∨
        (acceptor.bumpTerm term).state.term = term ∧
          (acceptor.bumpTerm term).checkElected startLsn termHistory = .ok () ∧
          ((∃ deleted, files = (acceptor.bumpTerm term).wal.truncateCrash startLsn deleted) ∨
            files = ((acceptor.bumpTerm term).wal.truncateFrom startLsn).files)) := by
  have passed : ∀ {result : Except String Unit}, result.isOk = true → result = .ok () := by
    intro result isOk
    cases result with
    | error why => cases isOk
    | ok value => rfl
  cases point with
  | termPersisted =>
      cases crashed
      exact ⟨rfl, .inl rfl⟩
  | deleting deleted =>
      simp only [crashElected] at crashed
      split at crashed
      · rename_i passes
        cases crashed
        exact ⟨rfl, .inr ⟨passes.1, passed passes.2, .inl ⟨deleted, rfl⟩⟩⟩
      · cases crashed
  | truncated =>
      simp only [crashElected] at crashed
      split at crashed
      · rename_i passes
        cases crashed
        exact ⟨rfl, .inr ⟨passes.1, passed passes.2, .inr rfl⟩⟩
      · cases crashed
  | appending | dropping => cases crashed

/-- What a failure inside the handling of an append leaves. -/
theorem crashAppend_cases {acceptor : Acceptor} {request : AppendRequest} {point : CrashPoint}
    {ctrl : PersistentState} {files : List Seg}
    (crashed : acceptor.crashAppend request point = some (ctrl, files)) :
    acceptor.state.term = request.term ∧ acceptor.checkAppend request = .ok () ∧
      ((∃ written, ctrl = acceptor.ctrl ∧
          files = acceptor.wal.appendCrash request.beginLsn request.records written) ∨
        ∃ dropped wal, acceptor.wal.append request.beginLsn request.records = .ok wal ∧
          ctrl = advance acceptor.state request wal.flush ∧
          acceptor.state.horizonLsn < ctrl.horizonLsn ∧
          files = wal.dropCrash ctrl.horizonLsn dropped) := by
  simp only [crashAppend] at crashed
  split at crashed
  · rename_i passes
    have passed : acceptor.checkAppend request = .ok () := by
      cases check : acceptor.checkAppend request with
      | error why => simp [check, Except.isOk, Except.toBool] at passes
      | ok value => rfl
    refine ⟨passes.1, passed, ?_⟩
    cases point with
    | appending written =>
        cases crashed
        exact .inl ⟨written, rfl, rfl⟩
    | dropping dropped =>
        simp only at crashed
        split at crashed
        · cases crashed
        · rename_i wal appended
          split at crashed
          · rename_i moved
            cases crashed
            exact .inr ⟨dropped, wal, appended, rfl, moved, rfl⟩
          · cases crashed
    | termPersisted | deleting | truncated => cases crashed
  · cases crashed

end Acceptor

end Icegres.Quorum
