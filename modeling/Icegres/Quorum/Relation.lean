import Icegres.Quorum.Follow
import Icegres.Quorum.Rules

/-!
# How proposers relate to the protocol

What the protocol state says about every program counter of a proposer: the votes it counted
are ballots given to it, what it read is the donor's log, what its tasks stream is its own
log in terms it owns, and every ack it counts is an acknowledgement. All of it stays true
under steps of the other parties.

Two mode flags select what a run is known to satisfy. Under `strict` re-elections never move
a term's start back, and every position that a party may have lost lies at or below `limit`,
the highest horizon a proposer announced.
-/

namespace Icegres.Quorum

open Icegres.TermLog

/-- `next` comes after `abs`. -/
structure After (abs next : Protocol) : Prop where
  before : Formed abs
  formed : Formed next
  grows : Grows abs next

/-- `next` comes after `abs` without a step of the proposer. -/
structure Later (p : ProposerId) (abs next : Protocol) : Prop extends After abs next where
  current : next.current p = abs.current p
  log : next.log p = abs.log p
  owned : ∀ term, next.owner term = some p → abs.owner term = some p

/-- Steps of an acceptor are none of a proposer. -/
theorem Moves.later {id : AcceptorId} {abs next : Protocol} (moves : Moves id abs next)
    (formed : Formed abs) (p : ProposerId) : Later p abs next where
  before := formed
  formed := moves.formed formed
  grows := moves.grows formed
  current := by rw [moves.current]
  log := by rw [moves.log]
  owned term owned := by rwa [moves.owner] at owned

/-- A quorum holds the position in a term of the proposer that began at or below it. -/
def Committed (abs : Protocol) (p : ProposerId) (position : Nat) : Prop :=
  ∃ term front start, abs.owner term = some p ∧ abs.hist term = front ++ [⟨term, start⟩] ∧
    start ≤ position ∧ abs.Chosen majorities term position

/-- The election is of a term of the proposer, with its history. -/
def Elects (abs : Protocol) (p : ProposerId) (election : Election) : Prop :=
  abs.owner election.term = some p ∧ abs.hist election.term = election.history

/-- The acceptor has adopted a term of the proposer. -/
def Streams (abs : Protocol) (p : ProposerId) (id : AcceptorId) (term : Nat) : Prop :=
  abs.owner term = some p ∧ term ≤ abs.adopted id

/-- The records are those of the proposer's log from `begin` on. -/
def Sliced (abs : Protocol) (p : ProposerId) (begin : Nat) (records : List Record) : Prop :=
  ∃ front, front ++ records <+: abs.log p ∧ framesLen front = begin

/-- An append for a log of which the acceptor acknowledged everything below `begin`, except
what may have been lost. -/
def StartsWithin (limit : Nat) (abs : Protocol) (id : AcceptorId) (term begin : Nat) : Prop :=
  begin ≤ limit ∨ ∃ later, term ≤ later ∧ begin ≤ abs.acked id later

/-- What the shared state of an open tail says about the protocol. -/
structure SharedOk (strict : Prop) (limit : Nat) (abs : Protocol) (p : ProposerId)
    (truncateLsn : Nat) (shared : Shared) : Prop where
  elects : Elects abs p shared.election
  current : abs.current p = shared.election.term
  last : ∃ front, shared.election.history =
    front ++ [⟨shared.election.term, shared.election.termStartLsn⟩]
  records : ∃ before, abs.log p = before ++ shared.log.records ∧
    framesLen before = shared.log.base
  head : shared.log.head = framesLen (abs.log p)
  acked : ∀ id, (shared.peers.get id).flush ≤ abs.acked id shared.election.term ∨
    (shared.peers.get id).flush ≤ max shared.horizon abs.ceil
  committed : shared.commit ≤ max truncateLsn abs.ceil ∨ Committed abs p shared.commit
  base_le : shared.log.base ≤ shared.horizon
  truncate_le : truncateLsn ≤ shared.horizon
  horizon_le : shared.horizon ≤ max truncateLsn shared.commit
  within : strict → shared.horizon ≤ limit

/-- What a streaming task's program counter says about the protocol. -/
def PcOk (strict : Prop) (limit : Nat) (abs : Protocol) (p : ProposerId) (id : AcceptorId)
    (horizon : Nat) : PeerPc → Prop
  | .greeting el => Elects abs p el
  | .voting el => Elects abs p el
  | .electing el start => Elects abs p el ∧ (abs.adopted id = 0 → start ≤ horizon)
  | .resumed term => Streams abs p id term
  | .connected term => Streams abs p id term
  | .fetching term => Streams abs p id term
  | .batched term begin _ records => Streams abs p id term ∧ Sliced abs p begin records ∧
      (strict → StartsWithin (max limit abs.ceil) abs id term begin)
  | .loaded term begin _ _ records => Streams abs p id term ∧ Sliced abs p begin records ∧
      (strict → StartsWithin (max limit abs.ceil) abs id term begin)
  | .appending request => Streams abs p id request.term ∧
      Sliced abs p request.beginLsn request.records ∧
      (strict → StartsWithin (max limit abs.ceil) abs id request.term request.beginLsn) ∧
      (strict → request.horizonLsn ≤ limit)
  | .reconnecting => True
  | .parked _ => True
  | .exited => True

/-- An answer a streaming task may find. -/
def PeerReplyOk (abs : Protocol) (p : ProposerId) (id : AcceptorId) (horizon : Nat) :
    PeerPc → Message → Prop
  | .greeting _, _ => True
  | .voting el, answer => ReplyOk abs p id horizon (.voteRequest el.term) answer
  | .electing el start, answer =>
      ReplyOk abs p id horizon (.elected el.term start el.history) answer
  | .appending request, answer => ReplyOk abs p id horizon (.append request) answer
  | _, _ => False

/-- What the re-election supervisor's program counter says about the protocol. -/
def SupervisorOk (abs : Protocol) (p : ProposerId) (shared : Shared) : SupervisorPc → Prop
  | .greeting old maxTerm todo conns =>
      old = shared.election ∧ old.term ≤ maxTerm ∧ (conns ++ todo).Nodup
  | .voting old maxTerm todo votes =>
      old = shared.election ∧ old.term ≤ maxTerm ∧ (votes.map Prod.fst ++ todo).Nodup ∧
        ∀ vote ∈ votes, Reported abs p vote.1 (maxTerm + 1) vote.2.flushLsn vote.2.lastLogTerm
          vote.2.termHistory
  | .idle => True
  | .exited => True

/-- An answer the supervisor may find. -/
def SupervisorReplyOk (abs : Protocol) (p : ProposerId) : SupervisorPc → Message → Prop
  | .greeting _ _ (_ :: _) _, _ => True
  | .voting _ maxTerm (id :: _) _, answer =>
      ReplyOk abs p id 0 (.voteRequest (maxTerm + 1)) answer
  | _, _ => False

/-- A vote counted by `Quorum::open`. -/
structure VoteOk (strict : Prop) (limit : Nat) (abs : Protocol) (p : ProposerId) (term : Nat)
    (id : AcceptorId) (vote : Vote) : Prop where
  reported : Reported abs p id term vote.flush vote.lastLogTerm vote.history
  fresh : abs.adopted id = 0 → vote.history = [] ∧ vote.flush = 0
  within : strict → vote.horizon ≤ limit

/-- The donor's ballot is the most advanced of a quorum given to the proposer. -/
structure Donates (strict : Prop) (limit : Nat) (abs : Protocol) (p : ProposerId)
    (opening : Opening) (ballot : Ballot ProposerId) : Prop where
  given : abs.ballot opening.donor opening.term = some ballot
  candidate : ballot.candidate = p
  flush : ballot.flush = opening.termStartLsn
  history : ((opening.votes.get opening.donor).map Vote.history).getD [] =
    abs.effective ballot.adopted ballot.flush
  most : ∀ id vote, opening.votes.get id = some vote →
    vote.lastLogTerm < (abs.effective ballot.adopted ballot.flush).lastTerm ∨
      vote.lastLogTerm = (abs.effective ballot.adopted ballot.flush).lastTerm ∧
        vote.flush ≤ ballot.flush
  quorum : ∃ a b, a ≠ b ∧ (opening.votes.get a).isSome ∧ (opening.votes.get b).isSome
  voted : (opening.votes.get opening.donor).isSome
  within : strict → opening.truncateLsn ≤ limit

/-- The recovery download from the donor, as far as it has come. -/
structure Reads (strict : Prop) (limit : Nat) (abs : Protocol) (p : ProposerId)
    (opening : Opening) (ballot : Ballot ProposerId) : Prop extends
    Donates strict limit abs p opening ballot where
  truncate_le : opening.truncateLsn ≤ opening.readPos
  readPos_le : opening.readPos ≤ opening.termStartLsn
  bytes : opening.recBytes =
    ((encodeAll (abs.logOf ballot.adopted)).take opening.readPos).drop opening.truncateLsn
  aligned : opening.truncateLsn < opening.readPos →
    Boundary Record.frameLen (abs.logOf ballot.adopted) opening.truncateLsn

/-- A chunk is the donor's log from the read position on. -/
def ChunkOk (abs : Protocol) (opening : Opening) (ballot : Ballot ProposerId) (fromLsn : Nat)
    (bytes : List UInt8) : Prop :=
  fromLsn = opening.readPos ∧
    (bytes ≠ [] → bytes =
      ((encodeAll (abs.logOf ballot.adopted)).drop opening.readPos).take bytes.length ∧
      opening.readPos + bytes.length ≤ framesLen (abs.logOf ballot.adopted) ∧
      (opening.readPos = opening.truncateLsn →
        Boundary Record.frameLen (abs.logOf ballot.adopted) opening.truncateLsn))

/-- The opening proposer has taken its term over with the records it recovered. -/
structure TookOver (strict : Prop) (limit : Nat) (abs : Protocol) (p : ProposerId)
    (opening : Opening) : Prop where
  owner : abs.owner opening.term = some p
  least : ∀ term, abs.owner term = some p → opening.term ≤ term
  hist : ∃ front, abs.hist opening.term = front ++ [⟨opening.term, opening.termStartLsn⟩]
  recovered : ∃ before, before ++ opening.recovered <+: abs.log p ∧
    framesLen before = opening.truncateLsn ∧
    framesLen (before ++ opening.recovered) = opening.termStartLsn
  within : strict → opening.truncateLsn ≤ limit

/-- Before `Quorum::open` returns nothing was submitted, and no term of the proposer starts
above the recovered end. -/
structure Early (abs : Protocol) (p : ProposerId) (opening : Opening) (shared : Shared) :
    Prop where
  head : shared.log.head = opening.termStartLsn
  starts : ∀ term, abs.owner term = some p → ∀ switch ∈ abs.hist term,
    switch.lsn ≤ opening.termStartLsn

namespace Proposer

/-- The background tasks do not exist. -/
def Taskless (proposer : Proposer) : Prop :=
  (∀ id, proposer.peers.get id = .exited) ∧ proposer.supervisor = .exited

def horizon (proposer : Proposer) : Nat :=
  (proposer.shared.map Shared.horizon).getD 0

end Proposer

/-- What the program counter of `Quorum::open` says about the protocol. -/
def OpenOk (strict : Prop) (limit : Nat) (abs : Protocol) (p : ProposerId)
    (proposer : Proposer) : Prop :=
  let opening := proposer.opening
  let votes := ∀ id vote, opening.votes.get id = some vote →
    VoteOk strict limit abs p opening.term id vote
  let unowned := abs.current p = 0 ∧ proposer.shared = none ∧ proposer.Taskless
  match opening.pc with
  | .greeting _ => unowned ∧ ∀ id, opening.votes.get id = none
  | .adopting _ => unowned ∧ ∀ id, opening.votes.get id = none
  | .voting _ => unowned ∧ votes
  | .reading => unowned ∧ votes ∧ ∃ ballot, Reads strict limit abs p opening ballot ∧
      ∀ fromLsn bytes, proposer.openReply = some (.readResp fromLsn bytes) →
        ChunkOk abs opening ballot fromLsn bytes
  | .electing todo start =>
      TookOver strict limit abs p opening ∧ votes ∧ proposer.Taskless ∧
        ∃ shared, proposer.shared = some shared ∧ Early abs p opening shared ∧
          shared.election.term = opening.term ∧
          (∀ id, opening.conns.get id = true → id ∉ todo → opening.term ≤ abs.adopted id) ∧
          ∀ id, todo.head? = some id → abs.adopted id = 0 → start ≤ shared.horizon
  | .waiting _ => TookOver strict limit abs p opening ∧
      ∀ shared, proposer.shared = some shared → Early abs p opening shared
  | .returned => TookOver strict limit abs p opening
  | .failed _ => True

/-- An answer `Quorum::open` may find. -/
def OpenReplyOk (strict : Prop) (limit : Nat) (abs : Protocol) (p : ProposerId)
    (proposer : Proposer) (answer : Message) : Prop :=
  match proposer.opening.pc with
  | .greeting _ => True
  | .adopting _ => True
  | .voting (id :: _) => ReplyOk abs p id 0 (.voteRequest proposer.opening.term) answer ∧
      (strict → ∀ vote, answer = .voteResponse vote → vote.horizonLsn ≤ limit)
  | .reading => True
  | .electing (id :: _) start => ∀ history,
      ReplyOk abs p id proposer.horizon (.elected proposer.opening.term start history) answer
  | _ => False

/-- A proposer as the protocol state knows it. -/
structure ProposerOk (strict : Prop) (limit : Nat) (abs : Protocol) (p : ProposerId)
    (proposer : Proposer) : Prop where
  opening : OpenOk strict limit abs p proposer
  openReply : ∀ answer, proposer.openReply = some answer →
    OpenReplyOk strict limit abs p proposer answer
  shared : ∀ shared, proposer.shared = some shared →
    SharedOk strict limit abs p proposer.opening.truncateLsn shared ∧
      SupervisorOk abs p shared proposer.supervisor
  taskless : proposer.shared = none → proposer.Taskless
  peers : ∀ id, PcOk strict limit abs p id proposer.horizon (proposer.peers.get id)
  peerReplies : ∀ id answer, proposer.peerReplies.get id = some answer →
    PeerReplyOk abs p id proposer.horizon (proposer.peers.get id) answer
  supervisorReply : ∀ answer, proposer.supervisorReply = some answer →
    SupervisorReplyOk abs p proposer.supervisor answer

namespace After

variable {p : ProposerId} {abs next : Protocol} (later : After abs next)

include later

theorem owner {term : Nat} (owned : abs.owner term = some p) : next.owner term = some p :=
  later.grows.owner_stays term p owned

theorem hist {term : Nat} (owned : abs.owner term = some p) : next.hist term = abs.hist term :=
  later.grows.hist_stays term (by rw [owned]; exact Option.some_ne_none p)

/-- The history in effect for a ballot stays. -/
theorem effective {id : AcceptorId} {term : Nat} {ballot : Ballot ProposerId}
    (given : abs.ballot id term = some ballot) (flush : Nat) :
    next.effective ballot.adopted flush = abs.effective ballot.adopted flush := by
  by_cases elected : abs.owner ballot.adopted = none
  · have none : ballot.adopted = 0 := by
      by_contra adopted
      exact later.before.ballot_elected id term ballot given adopted elected
    have unelected : next.owner 0 = Option.none := by
      by_contra someOwner
      have := later.formed.elected_pos someOwner
      omega
    rw [none] at elected ⊢
    simp only [State.effective, later.before.hist_unelected 0 elected,
      later.formed.hist_unelected 0 unelected]
  · simp only [State.effective, later.grows.hist_stays _ elected]

theorem reported {id : AcceptorId} {term flush lastLogTerm : Nat} {history : TermHistory}
    (reported : Reported abs p id term flush lastLogTerm history) :
    Reported next p id term flush lastLogTerm history := by
  obtain ⟨ballot, given, candidate, flushEq, historyEq, termEq⟩ := reported
  refine ⟨ballot, later.grows.ballot_stays id term ballot given, candidate, flushEq, ?_, ?_⟩
  · rw [later.effective given]
    exact historyEq
  · rw [later.effective given]
    exact termEq

theorem unadopted {id : AcceptorId} (none : next.adopted id = 0) : abs.adopted id = 0 := by
  have := later.grows.adopted_le id
  omega

theorem replyOk {id : AcceptorId} {bound bound' : Nat} (bounds : bound ≤ bound')
    {message answer : Message} (reply : ReplyOk abs p id bound message answer) :
    ReplyOk next p id bound' message answer := by
  have ceil := later.grows.ceil_le
  unfold ReplyOk at reply ⊢
  split
  · refine ⟨fun granted => ?_, fun none => reply.2 (later.unadopted none)⟩
    obtain ⟨term, reported⟩ := reply.1 granted
    exact ⟨term, later.reported reported⟩
  · refine ⟨reply.1.trans (later.grows.adopted_le id), ?_⟩
    rcases reply.2 with old | old
    · exact .inl (old.trans (later.grows.acked_le _ _))
    · exact .inr (by omega)
  · exact reply.trans (later.grows.acked_le _ _)
  · trivial

theorem committed {position : Nat} (committed : Committed abs p position) :
    Committed next p position := by
  obtain ⟨term, front, start, owned, hist, starts, chosen⟩ := committed
  exact ⟨term, front, start, later.owner owned, by rw [later.hist owned]; exact hist, starts,
    chosen.grows later.grows⟩

theorem elects {election : Election} (elects : Elects abs p election) : Elects next p election :=
  ⟨later.owner elects.1, by rw [later.hist elects.1]; exact elects.2⟩

theorem streams {id : AcceptorId} {term : Nat} (streams : Streams abs p id term) :
    Streams next p id term :=
  ⟨later.owner streams.1, streams.2.trans (later.grows.adopted_le id)⟩

theorem sliced {term : Nat} (owned : abs.owner term = some p) {begin : Nat}
    {records : List Record} (sliced : Sliced abs p begin records) :
    Sliced next p begin records := by
  obtain ⟨front, isFront, ends⟩ := sliced
  exact ⟨front, isFront.trans (later.grows.log_grows p (later.before.current_ne_zero owned)), ends⟩

variable {strict : Prop} {limit limit' : Nat} (limits : limit ≤ limit')

include limits

theorem startsWithin {id : AcceptorId} {term begin : Nat}
    (starts : StartsWithin (max limit abs.ceil) abs id term begin) :
    StartsWithin (max limit' next.ceil) next id term begin := by
  have ceil := later.grows.ceil_le
  rcases starts with below | ⟨last, newer, acked⟩
  · exact .inl (by omega)
  · exact .inr ⟨last, newer, acked.trans (later.grows.acked_le id last)⟩

theorem pcOk {id : AcceptorId} {horizon horizon' : Nat} (horizons : horizon ≤ horizon')
    {pc : PeerPc} (ok : PcOk strict limit abs p id horizon pc) :
    PcOk strict limit' next p id horizon' pc := by
  cases pc with
  | greeting el => exact later.elects ok
  | voting el => exact later.elects ok
  | electing el start =>
      exact ⟨later.elects ok.1, fun none => (ok.2 (later.unadopted none)).trans horizons⟩
  | resumed term => exact later.streams ok
  | connected term => exact later.streams ok
  | fetching term => exact later.streams ok
  | batched term begin finish records =>
      exact ⟨later.streams ok.1, later.sliced ok.1.1 ok.2.1,
        fun isStrict => later.startsWithin limits (ok.2.2 isStrict)⟩
  | loaded term begin finish commit records =>
      exact ⟨later.streams ok.1, later.sliced ok.1.1 ok.2.1,
        fun isStrict => later.startsWithin limits (ok.2.2 isStrict)⟩
  | appending request =>
      exact ⟨later.streams ok.1, later.sliced ok.1.1 ok.2.1,
        fun isStrict => later.startsWithin limits (ok.2.2.1 isStrict),
        fun isStrict => (ok.2.2.2 isStrict).trans limits⟩
  | reconnecting | parked | exited => trivial

omit limits in
theorem peerReplyOk {id : AcceptorId} {horizon horizon' : Nat} (horizons : horizon ≤ horizon')
    {pc : PeerPc} {answer : Message} (ok : PeerReplyOk abs p id horizon pc answer) :
    PeerReplyOk next p id horizon' pc answer := by
  cases pc with
  | greeting el => trivial
  | voting el => exact later.replyOk horizons ok
  | electing el start => exact later.replyOk horizons ok
  | appending request => exact later.replyOk horizons ok
  | _ => exact ok

omit limits in
theorem supervisorOk {shared : Shared} {pc : SupervisorPc} (ok : SupervisorOk abs p shared pc) :
    SupervisorOk next p shared pc := by
  cases pc with
  | voting old maxTerm todo votes =>
      exact ⟨ok.1, ok.2.1, ok.2.2.1, fun vote mem => later.reported (ok.2.2.2 vote mem)⟩
  | greeting | idle | exited => exact ok

omit limits in
theorem supervisorReplyOk {pc : SupervisorPc} {answer : Message}
    (ok : SupervisorReplyOk abs p pc answer) : SupervisorReplyOk next p pc answer := by
  unfold SupervisorReplyOk at ok ⊢
  split
  · trivial
  · exact later.replyOk (Nat.le_refl _) ok
  · simp only at ok

theorem voteOk {term : Nat} {id : AcceptorId} {vote : Vote}
    (ok : VoteOk strict limit abs p term id vote) : VoteOk strict limit' next p term id vote :=
  ⟨later.reported ok.reported, fun none => ok.fresh (later.unadopted none),
    fun isStrict => (ok.within isStrict).trans limits⟩

omit limits in
/-- What was read of a log is still there when the log has grown. -/
theorem logOf_prefix (term : Nat) : abs.logOf term <+: next.logOf term :=
  later.before.logOf_grows later.grows term

theorem donates {opening : Opening} {ballot : Ballot ProposerId}
    (ok : Donates strict limit abs p opening ballot) :
    Donates strict limit' next p opening ballot := by
  have effective := later.effective ok.given ballot.flush
  refine ⟨later.grows.ballot_stays _ _ _ ok.given, ok.candidate, ok.flush, ?_, ?_, ok.quorum,
    ok.voted, fun isStrict => (ok.within isStrict).trans limits⟩
  · rw [effective]
    exact ok.history
  · rw [effective]
    exact ok.most

theorem reads {opening : Opening} {ballot : Ballot ProposerId}
    (ok : Reads strict limit abs p opening ballot) : Reads strict limit' next p opening ballot := by
  obtain ⟨more, grown⟩ := later.logOf_prefix ballot.adopted
  have bounded : opening.readPos ≤ framesLen (abs.logOf ballot.adopted) := by
    have ends := (later.before.ballot_boundary _ _ _ ok.given).le_end
    rw [endOf_frameLen, ok.flush] at ends
    exact ok.readPos_le.trans ends
  refine ⟨later.donates limits ok.toDonates, ok.truncate_le, ok.readPos_le, ?_, ?_⟩
  · rw [← grown, encodeAll_append, List.take_append_of_le_length (by simpa using bounded)]
    exact ok.bytes
  · exact fun read => (ok.aligned read).extend ⟨more, grown⟩

omit limits in
theorem chunkOk {opening : Opening} {ballot : Ballot ProposerId} {fromLsn : Nat}
    {bytes : List UInt8} (ok : ChunkOk abs opening ballot fromLsn bytes) :
    ChunkOk next opening ballot fromLsn bytes := by
  obtain ⟨more, grown⟩ := later.logOf_prefix ballot.adopted
  refine ⟨ok.1, fun nonempty => ?_⟩
  obtain ⟨slice, bounded, aligned⟩ := ok.2 nonempty
  refine ⟨?_, ?_, fun first => (aligned first).extend ⟨more, grown⟩⟩
  · have length : (encodeAll (abs.logOf ballot.adopted)).length =
        framesLen (abs.logOf ballot.adopted) := encodeAll_length _
    rw [← grown, encodeAll_append, List.drop_append_of_le_length (by omega),
      List.take_append_of_le_length (by rw [List.length_drop]; omega)]
    exact slice
  · rw [← grown, framesLen_append]
    omega

theorem openReplyOk {proposer : Proposer} {answer : Message}
    (ok : OpenReplyOk strict limit abs p proposer answer) :
    OpenReplyOk strict limit' next p proposer answer := by
  unfold OpenReplyOk at ok ⊢
  cases pc : proposer.opening.pc with
  | voting todo =>
      cases todo with
      | nil => simp only [pc] at ok
      | cons id todo =>
          simp only [pc] at ok ⊢
          exact ⟨later.replyOk (Nat.le_refl _) ok.1, fun isStrict vote isVote =>
            (ok.2 isStrict vote isVote).trans limits⟩
  | electing todo start =>
      cases todo with
      | nil => simp only [pc] at ok
      | cons id todo =>
          simp only [pc] at ok ⊢
          exact fun history => later.replyOk (Nat.le_refl _) (ok history)
  | greeting | adopting | reading => simp only
  | waiting | returned | failed => simp only [pc] at ok

end After

namespace Later

variable {p : ProposerId} {abs next : Protocol} (later : Later p abs next)
variable {strict : Prop} {limit limit' : Nat} (limits : limit ≤ limit')

include later limits

theorem sharedOk {truncateLsn : Nat} {shared : Shared}
    (ok : SharedOk strict limit abs p truncateLsn shared) :
    SharedOk strict limit' next p truncateLsn shared := by
  have ceil := later.grows.ceil_le
  refine ⟨later.elects ok.elects, later.current.trans ok.current, ok.last, ?_, ?_, ?_, ?_,
    ok.base_le, ok.truncate_le, ok.horizon_le, fun isStrict => (ok.within isStrict).trans limits⟩
  · rw [later.log]
    exact ok.records
  · rw [later.log]
    exact ok.head
  · intro id
    have acked := later.grows.acked_le id shared.election.term
    rcases ok.acked id with old | old
    · exact .inl (by omega)
    · exact .inr (by omega)
  · rcases ok.committed with old | old
    · exact .inl (by omega)
    · exact .inr (later.committed old)

theorem tookOver {opening : Opening} (ok : TookOver strict limit abs p opening) :
    TookOver strict limit' next p opening where
  owner := later.owner ok.owner
  least term owned := ok.least term (later.owned term owned)
  hist := by
    rw [later.hist ok.owner]
    exact ok.hist
  recovered := by
    rw [later.log]
    exact ok.recovered
  within isStrict := (ok.within isStrict).trans limits

omit limits in
theorem early {opening : Opening} {shared : Shared} (ok : Early abs p opening shared) :
    Early next p opening shared where
  head := ok.head
  starts term owned switch mem := by
    have before := later.owned term owned
    rw [later.hist before] at mem
    exact ok.starts term before switch mem

theorem openOk {proposer : Proposer} (ok : OpenOk strict limit abs p proposer) :
    OpenOk strict limit' next p proposer := by
  have current := later.current
  unfold OpenOk at ok ⊢
  simp only at ok ⊢
  split <;> rename_i pc <;> rw [pc] at ok <;> simp only at ok
  · exact ⟨⟨current.trans ok.1.1, ok.1.2⟩, ok.2⟩
  · exact ⟨⟨current.trans ok.1.1, ok.1.2⟩, ok.2⟩
  · exact ⟨⟨current.trans ok.1.1, ok.1.2⟩, fun id vote given =>
      later.voteOk limits (ok.2 id vote given)⟩
  · obtain ⟨unowned, votes, ballot, reads, chunk⟩ := ok
    exact ⟨⟨current.trans unowned.1, unowned.2⟩, fun id vote given =>
      later.voteOk limits (votes id vote given), ballot, later.reads limits reads,
      fun fromLsn bytes reply => later.chunkOk (chunk fromLsn bytes reply)⟩
  · obtain ⟨tookOver, votes, taskless, shared, sharedEq, early, term, conns, start⟩ := ok
    exact ⟨later.tookOver limits tookOver, fun id vote given =>
      later.voteOk limits (votes id vote given), taskless, shared, sharedEq, later.early early,
      term, fun id connected done => (conns id connected done).trans (later.grows.adopted_le id),
      fun id isHead none => start id isHead (later.unadopted none)⟩
  · exact ⟨later.tookOver limits ok.1, fun shared isShared => later.early (ok.2 shared isShared)⟩
  · exact later.tookOver limits ok
  · trivial

/-- A proposer is unaffected by the steps of the other parties. -/
theorem proposerOk {proposer : Proposer} (ok : ProposerOk strict limit abs p proposer) :
    ProposerOk strict limit' next p proposer where
  opening := later.openOk limits ok.opening
  openReply answer reply := later.openReplyOk limits (ok.openReply answer reply)
  shared shared isShared :=
    ⟨later.sharedOk limits (ok.shared shared isShared).1,
      later.supervisorOk (ok.shared shared isShared).2⟩
  taskless := ok.taskless
  peers id := later.pcOk limits (Nat.le_refl _) (ok.peers id)
  peerReplies id answer reply := later.peerReplyOk (Nat.le_refl _) (ok.peerReplies id answer reply)
  supervisorReply answer reply := later.supervisorReplyOk (ok.supervisorReply answer reply)

end Later

end Icegres.Quorum
