import Icegres.Quorum.Proposer

/-!
# The proposer's tasks

`Quorum::open`, the three streaming tasks and the re-election supervisor, each as a program
counter with what it has collected so far. A task suspends at every request to an acceptor;
`pending` is the request it waits on and `resume` what it does with the outcome. Between two
suspensions the source reads shared state under separate locks, and the counters keep those
reads apart.
-/

namespace Icegres.Quorum

/-- How a request to an acceptor ends. -/
inductive Outcome where
  | response (message : Message)
  /-- The acceptor answered with an error. -/
  | refused (why : String)
  /-- No answer within the call timeout. -/
  | timedOut
  /-- The connection could not be made or broke. -/
  | broken

/-- An answer from the wire as a call result. -/
def Outcome.ofMessage : Message → Outcome
  | .error why => .refused why
  | message => .response message

/-- What one granted vote told the opening proposer. -/
structure Vote where
  flush : Nat
  lastLogTerm : Nat
  history : TermHistory
  horizon : Nat

/-- Where `Quorum::open` stands. The lists are the acceptors still to be called in the
current phase; the first is the one being called. -/
inductive OpenPc where
  | greeting (todo : List AcceptorId)
  | adopting (todo : List AcceptorId)
  | voting (todo : List AcceptorId)
  | reading
  | electing (todo : List AcceptorId) (start : Nat)
  /-- Waiting until the commit position covers the recovered records. -/
  | waiting (stalledOnce : Bool)
  | returned
  | failed (why : String)

/-- The locals of `Quorum::open`. -/
structure Opening where
  pc : OpenPc
  /-- Bytes per donor read. -/
  recoveryReadChunk : Nat
  /-- The identity this process would mint. -/
  minted : String
  conns : Tri Bool
  /-- Identity, term and flush position of each greeted acceptor. -/
  greets : Tri (Option (Option String × Nat × Nat))
  tailId : String
  term : Nat
  votes : Tri (Option Vote)
  donor : AcceptorId
  truncateLsn : Nat
  termStartLsn : Nat
  readPos : Nat
  recBytes : List UInt8
  recovered : List Record

namespace Opening

/-- A process enters `Quorum::open`. -/
def start (minted : String) (recoveryReadChunk : Nat) : Opening where
  pc := .greeting AcceptorId.all
  recoveryReadChunk := recoveryReadChunk
  minted := minted
  conns := Tri.replicate false
  greets := Tri.replicate none
  tailId := ""
  term := 0
  votes := Tri.replicate none
  donor := .first
  truncateLsn := 0
  termStartLsn := 0
  readPos := 0
  recBytes := []
  recovered := []

def fail (opening : Opening) (why : String) : Opening :=
  { opening with pc := .failed why }

def drop (opening : Opening) (id : AcceptorId) : Opening :=
  { opening with conns := opening.conns.set id false }

/-- The acceptors still connected, in address order. -/
def connected (opening : Opening) : List AcceptorId :=
  AcceptorId.all.filter fun id => opening.conns.get id

/-- The identities the greeted acceptors know. -/
def known (opening : Opening) : List String :=
  (opening.greets.toList.filterMap fun greet => greet.bind Prod.fst).dedup

/-- All acceptors are greeted: check the quorum and settle the tail identity. -/
def settleIdentity (opening : Opening) : Opening :=
  let live := opening.connected
  if live.length < quorum then
    opening.fail s!"only {live.length} of 3 acceptors are reachable; a quorum of {quorum} is required to open the tail"
  else
    match opening.known with
    | [] => { opening with tailId := opening.minted, pc := .adopting live }
    | [id] => { opening with tailId := id, pc := .adopting live }
    | _ => opening.fail "the acceptors disagree on the tail identity — the --tail-quorum addresses mix different clusters"

/-- Campaign above every greeted term. -/
def campaign (opening : Opening) : Opening :=
  let terms := opening.greets.toList.filterMap fun greet => greet.map fun seen => seen.2.1
  { opening with
    term := terms.foldl max 0 + 1
    pc := .voting opening.connected }

/-- The granted votes in address order. -/
def granted (opening : Opening) : List (AcceptorId × Vote) :=
  AcceptorId.all.filterMap fun id => (opening.votes.get id).map fun vote => (id, vote)

/-- The recovery range is complete: decode it. -/
def decode (opening : Opening) : Opening :=
  if opening.truncateLsn + opening.recBytes.length ≠ opening.termStartLsn then
    opening.fail s!"donor returned {opening.recBytes.length} bytes for [{opening.truncateLsn}, {opening.termStartLsn}) — short read"
  else
    match decodeRecords opening.recBytes opening.truncateLsn with
    | .error why => opening.fail s!"the donor's recovered records do not decode: {why}"
    | .ok records => { opening with recovered := records, pc := .electing [] 0 }

/-- The vote phase is over: choose the donor and the recovery range. -/
def chooseDonor (opening : Opening) : Opening :=
  let granted := opening.granted
  if granted.length < quorum then
    opening.fail s!"won only {granted.length} of 3 votes; a quorum of {quorum} is required"
  else
    let candidates := granted.map fun (id, vote) => (id, vote.lastLogTerm, vote.flush)
    match pickDonor candidates with
    | none => opening.fail "granted >= quorum"
    | some donor =>
        let termStartLsn := ((opening.votes.get donor).map Vote.flush).getD 0
        let truncateLsn := (granted.map fun (_, vote) => vote.horizon).foldl max 0
        if truncateLsn > termStartLsn then
          opening.fail s!"acceptor horizon {truncateLsn} is beyond the donor flush {termStartLsn} — inconsistent acceptor state"
        else
          let chosen :=
            { opening with
              donor, truncateLsn, termStartLsn, readPos := truncateLsn, recBytes := [] }
          if truncateLsn < termStartLsn then { chosen with pc := .reading } else chosen.decode

/-- The donor's history with the new term appended, or why it cannot be. -/
def newHistory (opening : Opening) : Except String TermHistory :=
  let history := ((opening.votes.get opening.donor).map Vote.history).getD []
  if history.lastTerm ≥ opening.term ∧ history ≠ [] then
    .error s!"donor history already contains term {history.lastTerm} >= {opening.term}"
  else
    .ok (history ++ [⟨opening.term, opening.termStartLsn⟩])

/-- The shared state seeded with the recovered suffix. -/
def seed (opening : Opening) (history : TermHistory) : Shared where
  tailId := opening.tailId
  election := { term := opening.term, termStartLsn := opening.termStartLsn, history }
  log := LogBuf.recovered opening.truncateLsn opening.termStartLsn opening.recovered
  peers := Tri.replicate { flush := 0, failed := false }
  commit := 0
  horizon := opening.truncateLsn
  poison := none
  requests := []

/-- The request `Quorum::open` waits on. -/
def pending (opening : Opening) (shared : Option Shared) : Option (AcceptorId × Message) :=
  match opening.pc with
  | .greeting (id :: _) => some (id, .greeting none)
  | .adopting (id :: _) => some (id, .greeting (some opening.tailId))
  | .voting (id :: _) => some (id, .voteRequest opening.term)
  | .reading =>
      some (opening.donor, .read opening.readPos
        (min opening.termStartLsn (opening.readPos + max opening.recoveryReadChunk 1)))
  | .electing (id :: _) start =>
      shared.map fun shared => (id, .elected opening.term start shared.election.history)
  | _ => none

end Opening

/-- Where a streaming task stands. -/
inductive PeerPc where
  /-- Top of the loop without a connection. -/
  | reconnecting
  | greeting (el : Election)
  | voting (el : Election)
  | electing (el : Election) (start : Nat)
  /-- Top of the loop with a connection. -/
  | resumed (connTerm : Nat)
  /-- Top of the streaming loop. -/
  | connected (connTerm : Nat)
  /-- The term was compared with the connection's. -/
  | fetching (connTerm : Nat)
  /-- The batch is assembled. -/
  | batched (connTerm begin finish : Nat) (records : List Record)
  /-- The commit position is loaded. -/
  | loaded (connTerm begin finish commit : Nat) (records : List Record)
  | appending (request : AppendRequest)
  /-- Parked until the term moves past `seen`. -/
  | parked (seen : Nat)
  | exited

/-- The request a streaming task waits on. -/
def PeerPc.pending (tailId : String) : PeerPc → Option Message
  | .greeting _ => some (.greeting (some tailId))
  | .voting el => some (.voteRequest el.term)
  | .electing el start => some (.elected el.term start el.history)
  | .appending request => some (.append request)
  | _ => none

/-- Where the re-election supervisor stands. -/
inductive SupervisorPc where
  | idle
  | greeting (old : Election) (maxTerm : Nat) (todo conns : List AcceptorId)
  | voting (old : Election) (maxTerm : Nat) (todo : List AcceptorId)
      (votes : List (AcceptorId × VoteResponse))
  | exited

/-- The request the supervisor waits on. -/
def SupervisorPc.pending (tailId : String) : SupervisorPc → Option (AcceptorId × Message)
  | .greeting _ _ (id :: _) _ => some (id, .greeting (some tailId))
  | .voting _ maxTerm (id :: _) _ => some (id, .voteRequest (maxTerm + 1))
  | _ => none

/-- A pending `wait_commit`. -/
structure Waiter where
  position : Nat
  stalledOnce : Bool

/-- One process with its tasks. Replies are answers that have arrived but were not yet
consumed by their task. -/
structure Proposer where
  opening : Opening
  openReply : Option Message
  shared : Option Shared
  peers : Tri PeerPc
  peerReplies : Tri (Option Message)
  supervisor : SupervisorPc
  failures : Nat
  supervisorReply : Option Message
  waiters : List Waiter
  alive : Bool

namespace Proposer

/-- A process enters `Quorum::open`; its background tasks do not exist yet. -/
def start (minted : String) (recoveryReadChunk : Nat) : Proposer where
  opening := Opening.start minted recoveryReadChunk
  openReply := none
  shared := none
  peers := Tri.replicate .exited
  peerReplies := Tri.replicate none
  supervisor := .exited
  failures := 0
  supervisorReply := none
  waiters := []
  alive := true

def setPeer (proposer : Proposer) (id : AcceptorId) (pc : PeerPc) : Proposer :=
  { proposer with peers := proposer.peers.set id pc }

/-- Spawn the streaming tasks and the supervisor and start waiting for the commit. Acceptors
that answered the elected handshake keep their connection. -/
def spawnTasks (proposer : Proposer) : Proposer :=
  { proposer with
    opening := { proposer.opening with pc := .waiting false }
    shared := proposer.shared.map Shared.recomputeCommit
    peers := proposer.opening.conns.map fun connected =>
      if connected then .resumed proposer.opening.term else .reconnecting
    supervisor := .idle }

/-- Move on to the next acceptor of the elected handshake that voted and is still connected:
compute where to start streaming to it; one that needs records below the recovered base is
dropped. After the last, the tasks are spawned. -/
def electFrom (proposer : Proposer) (shared : Shared) : List AcceptorId → Proposer
  | [] => { proposer with shared := some shared }.spawnTasks
  | id :: rest =>
    let opening := proposer.opening
    match opening.conns.get id, opening.votes.get id with
    | true, some vote =>
        match computeStart shared.election.history vote.history vote.flush opening.term
            opening.truncateLsn with
        | .error why => { proposer with opening := opening.fail why, shared := none }
        | .ok start =>
            if start < opening.truncateLsn then
              { proposer with opening := opening.drop id }.electFrom (shared.setFailed id) rest
            else
              { proposer with
                opening := { opening with pc := .electing (id :: rest) start }
                shared := some shared }
    | _, _ => { proposer with opening := opening.drop id }.electFrom shared rest

/-- When the recovered records are decoded, the proposer takes the term over: the shared
state comes into being and the elected handshakes begin. -/
def takeOver (proposer : Proposer) (opening : Opening) : Proposer :=
  match opening.pc with
  | .electing [] _ =>
      match opening.newHistory with
      | .error why => { proposer with opening := opening.fail why }
      | .ok history =>
          { proposer with opening := opening }.electFrom (opening.seed history) AcceptorId.all
  | _ => { proposer with opening := opening }

/-- The rest of a greeting phase. -/
def greetNext (opening : Opening) (rest : List AcceptorId) : Opening :=
  match rest with
  | [] => opening.settleIdentity
  | _ => { opening with pc := .greeting rest }

/-- The rest of an adoption phase. -/
def adoptNext (opening : Opening) (rest : List AcceptorId) : Opening :=
  match rest with
  | [] => opening.campaign
  | _ => { opening with pc := .adopting rest }

/-- The rest of a vote phase. -/
def voteNext (opening : Opening) (rest : List AcceptorId) : Opening :=
  match rest with
  | [] => opening.chooseDonor
  | _ => { opening with pc := .voting rest }

/-- A vote response in the opening vote phase. -/
def countVote (opening : Opening) (id : AcceptorId) (rest : List AcceptorId)
    (vote : VoteResponse) : Opening :=
  if vote.term > opening.term then
    opening.fail s!"superseded during election: acceptor is already at term {vote.term} (another icegres owns this quorum tail)"
  else if !vote.granted then
    opening.fail s!"acceptor refused the vote for term {opening.term}: another proposer is campaigning concurrently; retry"
  else
    voteNext
      { opening with
        votes := opening.votes.set id (some
          { flush := vote.flushLsn
            lastLogTerm := vote.lastLogTerm
            history := vote.termHistory
            horizon := vote.horizonLsn }) } rest

/-- A chunk of the recovery download. -/
def countChunk (opening : Opening) (fromLsn : Nat) (records : List UInt8) : Opening :=
  let toLsn := min opening.termStartLsn (opening.readPos + max opening.recoveryReadChunk 1)
  let readPos := opening.readPos + records.length
  if fromLsn ≠ opening.readPos then
    opening.fail s!"donor read returned the wrong range start {fromLsn}"
  else if records.isEmpty then
    opening.fail s!"donor returned an empty chunk at {opening.readPos} of [{opening.truncateLsn}, {opening.termStartLsn}) — short read"
  else if readPos > toLsn then
    opening.fail s!"donor overran the requested chunk end {toLsn} (returned bytes up to {readPos})"
  else
    let opening := { opening with readPos := readPos, recBytes := opening.recBytes ++ records }
    if readPos < opening.termStartLsn then opening else opening.decode

/-- `Quorum::open` continues with the outcome of its request. -/
def resumeOpen (proposer : Proposer) (outcome : Outcome) : Proposer :=
  let opening := proposer.opening
  let proposer := { proposer with openReply := none }
  match opening.pc, outcome with
  | .greeting (id :: rest), .response (.greetingResp tailId term flush) =>
      proposer.takeOver (greetNext
        { opening with
          conns := opening.conns.set id true
          greets := opening.greets.set id (some (tailId, term, flush)) } rest)
  | .greeting (_ :: rest), _ => proposer.takeOver (greetNext opening rest)
  | .adopting (_ :: rest), .response (.greetingResp _ _ _) =>
      proposer.takeOver (adoptNext opening rest)
  | .adopting (id :: rest), .timedOut => proposer.takeOver (adoptNext (opening.drop id) rest)
  | .adopting _, _ =>
      proposer.takeOver (opening.fail s!"acceptor refused the tail identity {opening.tailId}")
  | .voting (id :: rest), .response (.voteResponse vote) =>
      proposer.takeOver (countVote opening id rest vote)
  | .voting _, .response _ => proposer.takeOver (opening.fail "unexpected vote response")
  | .voting (id :: rest), _ => proposer.takeOver (voteNext (opening.drop id) rest)
  | .reading, .response (.readResp fromLsn records) =>
      proposer.takeOver (countChunk opening fromLsn records)
  | .reading, _ =>
      proposer.takeOver (opening.fail "the donor did not return the recovery range")
  | .electing (id :: rest) start, .response (.electedResp term ok) =>
      if ok then
        match proposer.shared with
        | some shared =>
            proposer.electFrom ((shared.storeAck id opening.term start).getD shared) rest
        | none => proposer
      else
        { proposer with
          opening := opening.fail s!"superseded right after election: acceptor is at term {term}" }
  | .electing _ _, .response _ =>
      { proposer with opening := opening.fail "unexpected elected response" }
  | .electing (id :: rest) _, _ =>
      match proposer.shared with
      | some shared => { proposer with opening := opening.drop id }.electFrom shared rest
      | none => proposer
  | _, _ => proposer

/-- A higher term was reported: ask for a re-election and park, unless the term has moved. -/
def fenced (proposer : Proposer) (shared : Shared) (id : AcceptorId) (term : Nat) : Proposer :=
  if term > shared.election.term then
    { proposer with shared := some (shared.request (.fenced term)) }.setPeer id
      (.parked shared.election.term)
  else
    proposer.setPeer id .reconnecting

/-- An ack arrived on a connection of `connTerm`. -/
def acked (proposer : Proposer) (shared : Shared) (id : AcceptorId) (connTerm flush : Nat) :
    Proposer :=
  match shared.storeAck id connTerm flush with
  | some shared => { proposer with shared := some shared }.setPeer id (.connected connTerm)
  | none => proposer.setPeer id .reconnecting

/-- The positions a reconnect handshake needs have arrived. -/
def startHandshake (proposer : Proposer) (shared : Shared) (id : AcceptorId) (el : Election)
    (vote : VoteResponse) : Proposer :=
  if vote.term > el.term then
    proposer.fenced shared id vote.term
  else
    match computeStart el.history vote.termHistory vote.flushLsn el.term shared.log.base with
    | .error _ => proposer.setPeer id .reconnecting
    | .ok start =>
        if start < shared.log.base then
          { proposer with shared := some (shared.setFailed id) }.setPeer id .reconnecting
        else
          proposer.setPeer id (.electing el start)

/-- A streaming task continues with the outcome of its request. -/
def resumePeer (proposer : Proposer) (shared : Shared) (id : AcceptorId) (outcome : Outcome) :
    Proposer :=
  let pc := proposer.peers.get id
  let proposer := { proposer with peerReplies := proposer.peerReplies.set id none }
  match pc, outcome with
  | .greeting el, .response (.greetingResp _ term _) =>
      if term > el.term then proposer.fenced shared id term
      else proposer.setPeer id (.voting el)
  | .greeting _, .refused why =>
      -- a wrong-tail-id refusal is permanent for this run
      if (why.splitOn wrongClusterMark).length > 1 then
        { proposer with shared := some (shared.setFailed id) }.setPeer id .reconnecting
      else
        proposer.setPeer id .reconnecting
  | .voting el, .response (.voteResponse vote) => proposer.startHandshake shared id el vote
  | .electing el start, .response (.electedResp term ok) =>
      if ok then proposer.acked shared id el.term start else proposer.fenced shared id term
  | .appending request, .response (.appendResp term ok flush _) =>
      if ok then proposer.acked shared id request.term flush
      else proposer.fenced shared id term
  | _, _ => proposer.setPeer id .reconnecting

/-- A streaming task takes one step that needs no answer. -/
def advancePeer (proposer : Proposer) (shared : Shared) (id : AcceptorId) : Option Proposer :=
  let poisoned := shared.poison.isSome
  let failed := (shared.peers.get id).failed
  match proposer.peers.get id with
  | .reconnecting =>
      some (proposer.setPeer id (
        if poisoned then .exited
        else if failed then .parked shared.election.term
        else .greeting shared.election))
  | .resumed connTerm =>
      some (proposer.setPeer id (
        if poisoned then .exited
        else if failed then .parked shared.election.term
        else .connected connTerm))
  | .connected connTerm =>
      some (proposer.setPeer id (
        if poisoned then .exited
        else if shared.election.term ≠ connTerm then .reconnecting
        else .fetching connTerm))
  | .fetching connTerm =>
      match shared.log.nextBatch (shared.peers.get id).flush with
      | .upToDate => some (proposer.setPeer id (.resumed connTerm))
      | .behind =>
          some ({ proposer with shared := some (shared.setFailed id) }.setPeer id .reconnecting)
      | .data begin finish records =>
          some (proposer.setPeer id (.batched connTerm begin finish records))
  | .batched connTerm begin finish records =>
      some (proposer.setPeer id (.loaded connTerm begin finish shared.commit records))
  | .loaded connTerm begin finish commit records =>
      some (proposer.setPeer id (.appending
        { term := connTerm, beginLsn := begin, endLsn := finish, commitLsn := commit,
          horizonLsn := shared.horizon, records }))
  | .parked seen =>
      if poisoned ∨ shared.election.term > seen then
        some (proposer.setPeer id .reconnecting)
      else
        none
  | _ => none

/-- The re-election did not complete: count the failure, poison on the second in a row. -/
def reelectFailed (proposer : Proposer) (shared : Shared) (why : String) : Proposer :=
  let failures := proposer.failures + 1
  if failures ≥ maxReelectionFailures then
    { proposer with
      shared := some (shared.poisonWith s!"quorum tail POISONED after {failures} consecutive failed internal re-elections ({why}); restart the server once the acceptors are healthy")
      supervisor := .exited
      failures }
  else
    { proposer with supervisor := .idle, failures }

/-- A live competing proposer owns the log. -/
def superseded (proposer : Proposer) (shared : Shared) (term : Nat) : Proposer :=
  { proposer with
    shared := some (shared.poisonWith s!"superseded by a newer server (term {term})")
    supervisor := .exited }

/-- The donor among the votes of a re-election. -/
def reelectionDonor (votes : List (AcceptorId × VoteResponse)) :
    Option (AcceptorId × VoteResponse) :=
  let candidates := votes.map fun (id, vote) => (id, vote.lastLogTerm, vote.flushLsn)
  (pickDonor candidates).bind fun donor => votes.find? fun vote => vote.1 = donor

/-- The vote phase of a re-election is over: check that the donor's log is exactly ours as
far as it goes, then adopt the new term. -/
def finishReelection (proposer : Proposer) (shared : Shared) (old : Election) (maxTerm : Nat)
    (votes : List (AcceptorId × VoteResponse)) : Proposer :=
  if votes.length < quorum then
    proposer.reelectFailed shared s!"won only {votes.length} of 3 re-election votes"
  else
    match reelectionDonor votes with
    | none => proposer.reelectFailed shared "granted >= quorum"
    | some (_, donor) =>
        if donor.termHistory ≠ old.history.upTo donor.flushLsn then
          proposer.superseded shared (max donor.lastLogTerm maxTerm)
        else if donor.flushLsn < shared.log.base ∨ donor.flushLsn > shared.log.head then
          proposer.reelectFailed shared s!"donor flush {donor.flushLsn} is outside the retained log [{shared.log.base}, {shared.log.head}]"
        else
          { proposer with
            shared := some (shared.adoptTerm
              { term := maxTerm + 1
                termStartLsn := donor.flushLsn
                history := old.history ++ [⟨maxTerm + 1, donor.flushLsn⟩] })
            supervisor := .idle
            failures := 0 }

/-- The rest of a re-election's greeting phase. -/
def reelectGreetNext (proposer : Proposer) (shared : Shared) (old : Election) (maxTerm : Nat)
    (todo conns : List AcceptorId) : Proposer :=
  match todo with
  | _ :: _ => { proposer with supervisor := .greeting old maxTerm todo conns }
  | [] =>
      if conns.length < quorum then
        proposer.reelectFailed shared s!"fewer than {quorum} acceptors reachable for the re-election"
      else
        { proposer with supervisor := .voting old maxTerm conns [] }

/-- The rest of a re-election's vote phase. -/
def reelectVoteNext (proposer : Proposer) (shared : Shared) (old : Election) (maxTerm : Nat)
    (todo : List AcceptorId) (votes : List (AcceptorId × VoteResponse)) : Proposer :=
  match todo with
  | _ :: _ => { proposer with supervisor := .voting old maxTerm todo votes }
  | [] => proposer.finishReelection shared old maxTerm votes

/-- The supervisor continues with the outcome of its request. -/
def resumeSupervisor (proposer : Proposer) (shared : Shared) (outcome : Outcome) : Proposer :=
  let pc := proposer.supervisor
  let proposer := { proposer with supervisorReply := none }
  match pc, outcome with
  | .greeting old maxTerm (id :: todo) conns, .response (.greetingResp _ term _) =>
      proposer.reelectGreetNext shared old (max maxTerm term) todo (conns ++ [id])
  | .greeting old maxTerm (_ :: todo) conns, _ =>
      proposer.reelectGreetNext shared old maxTerm todo conns
  | .voting old maxTerm (id :: todo) votes, .response (.voteResponse vote) =>
      if vote.term > maxTerm + 1 ∨ !vote.granted then
        proposer.superseded shared vote.term
      else
        proposer.reelectVoteNext shared old maxTerm todo (votes ++ [(id, vote)])
  | .voting old maxTerm (_ :: todo) votes, _ =>
      proposer.reelectVoteNext shared old maxTerm todo votes
  | _, _ => proposer

/-- The supervisor takes the next request: one already resolved is skipped, any other starts
a re-election. -/
def advanceSupervisor (proposer : Proposer) (shared : Shared) : Option Proposer :=
  match proposer.supervisor, shared.requests with
  | .idle, reason :: requests =>
      let shared := { shared with requests }
      let proposer := { proposer with shared := some shared }
      if shared.poison.isSome then
        some { proposer with supervisor := .exited }
      else if shared.resolved reason then
        some proposer
      else
        some { proposer with
          supervisor := .greeting shared.election shared.election.term AcceptorId.all [] }
  | _, _ => none

/-- `Quorum::open` takes one step of its final wait. -/
def advanceOpen (proposer : Proposer) (shared : Shared) : Option Proposer :=
  match proposer.opening.pc with
  | .waiting _ =>
      match shared.poison with
      | some why => some { proposer with opening := proposer.opening.fail why }
      | none =>
          if shared.commit ≥ proposer.opening.termStartLsn then
            some { proposer with opening := { proposer.opening with pc := .returned } }
          else
            none
  | _ => none

end Proposer

end Icegres.Quorum
