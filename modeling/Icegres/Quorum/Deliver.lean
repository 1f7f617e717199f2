import Icegres.Quorum.Election
import Icegres.Quorum.Simulation

/-!
# Delivering requests

An acceptor that handles a request takes its protocol steps, and the answer it gives says
something true about the state it left. A recovery read says something only while the donor
is still in the term it voted for: nothing in the read names a term.
-/

namespace Icegres.Quorum

open Icegres.TermLog

variable {strict backed : Prop} {limit : Nat} {abs next : Protocol} {p : ProposerId}

/-- The bound on joining acceptors concerns elected messages only. -/
theorem ReplyOk.vote {source : ProposerId} {target : AcceptorId} {bound term : Nat}
    {answer : Message} (reply : ReplyOk abs source target bound (.voteRequest term) answer)
    (other : Nat) : ReplyOk abs source target other (.voteRequest term) answer := by
  unfold ReplyOk at reply ⊢
  cases answer with
  | voteResponse vote => exact reply
  | _ => trivial

namespace ProposerOk

variable {proposer : Proposer} (ok : ProposerOk strict limit abs p proposer)

include ok

/-- A fresh acceptor is asked to join at or below the horizon. -/
theorem joins {task : Task} {target : AcceptorId} {message : Message}
    (pending : proposer.pending task = some (target, message)) {term start : Nat}
    {history : TermHistory} (isElected : message = .elected term start history)
    (fresh : abs.adopted target = 0) : start ≤ proposer.horizon := by
  subst isElected
  cases task with
  | opener =>
      have openOk := ok.opening
      simp only [Proposer.pending, Opening.pending] at pending
      split at pending
      case h_5 pc =>
        simp only [OpenOk, pc] at openOk
        obtain ⟨-, -, -, shared, isShared, -, -, -, starts⟩ := openOk
        rw [isShared] at pending
        cases pending
        simpa [Proposer.horizon, isShared] using starts target rfl fresh
      all_goals cases pending
  | peer id =>
      simp only [Proposer.pending, Option.bind_eq_some_iff, Option.map_eq_some_iff,
        Prod.mk.injEq] at pending
      obtain ⟨shared, isShared, request, isPending, rfl, rfl⟩ := pending
      have pcOk := ok.peers id
      cases pc : proposer.peers.get id with
      | electing el begins =>
          rw [pc] at isPending pcOk
          cases isPending
          exact pcOk.2 fresh
      | _ =>
          rw [pc] at isPending
          cases isPending
  | supervisor =>
      simp only [Proposer.pending, Option.bind_eq_some_iff, SupervisorPc.pending] at pending
      obtain ⟨shared, isShared, isPending⟩ := pending
      split at isPending <;> cases isPending

/-- A task that finds the acceptor's answer. -/
theorem setReply {task : Task} {target : AcceptorId} {message answer : Message}
    (pending : proposer.pending task = some (target, message))
    (reply : ReplyOk abs p target proposer.horizon message answer)
    (within : strict → ∀ vote, answer = .voteResponse vote → vote.horizonLsn ≤ limit)
    (chunk : task = .opener → proposer.opening.pc = .reading →
      ∀ ballot, Reads strict limit abs p proposer.opening ballot →
      ∀ fromLsn bytes, answer = .readResp fromLsn bytes →
        ChunkOk abs proposer.opening ballot fromLsn bytes) :
    ProposerOk strict limit abs p (proposer.setReply answer task) := by
  cases task with
  | opener =>
      refine ⟨?_, ?_, ok.shared, ok.taskless, ok.peers, ok.peerReplies, ok.supervisorReply⟩
      · have openOk := ok.opening
        simp only [OpenOk, Proposer.setReply] at openOk ⊢
        split <;> rename_i pc <;> rw [pc] at openOk <;> try exact openOk
        obtain ⟨unowned, votes, ballot, reads, -⟩ := openOk
        refine ⟨unowned, votes, ballot, reads, ?_⟩
        intro fromLsn bytes isChunk
        exact chunk rfl pc ballot reads fromLsn bytes (by simpa using isChunk)
      · rintro other ⟨⟩
        have openOk := ok.opening
        simp only [Proposer.pending, Opening.pending] at pending
        split at pending
        case h_1 pc => simp only [OpenReplyOk, Proposer.setReply, pc]
        case h_2 pc => simp only [OpenReplyOk, Proposer.setReply, pc]
        case h_3 pc =>
          cases pending
          simp only [OpenReplyOk, Proposer.setReply, pc]
          exact ⟨reply.vote 0, within⟩
        case h_4 pc => simp only [OpenReplyOk, Proposer.setReply, pc]
        case h_5 pc =>
          simp only [Option.map_eq_some_iff, Prod.mk.injEq] at pending
          obtain ⟨shared, isShared, rfl, rfl⟩ := pending
          simp only [OpenReplyOk, Proposer.setReply, pc]
          intro history
          cases answer with
          | electedResp term accepted =>
              cases accepted with
              | true => exact reply
              | false => trivial
          | _ => trivial
        case h_6 => cases pending
  | peer id =>
      refine ⟨ok.opening, ok.openReply, ok.shared, ok.taskless, ok.peers, ?_, ok.supervisorReply⟩
      intro other found isFound
      simp only [Proposer.setReply, Tri.get_set] at isFound
      split at isFound
      · rename_i isId
        subst isId
        cases isFound
        simp only [Proposer.pending, Option.bind_eq_some_iff, Option.map_eq_some_iff,
          Prod.mk.injEq] at pending
        obtain ⟨shared, isShared, request, isPending, rfl, rfl⟩ := pending
        cases pc : proposer.peers.get other with
        | greeting el => simp only [PeerReplyOk, Proposer.setReply, pc]
        | voting el =>
            rw [pc] at isPending
            cases isPending
            simp only [PeerReplyOk, Proposer.setReply, pc]
            exact reply
        | electing el start =>
            rw [pc] at isPending
            cases isPending
            simp only [PeerReplyOk, Proposer.setReply, pc]
            exact reply
        | appending sent =>
            rw [pc] at isPending
            cases isPending
            simp only [PeerReplyOk, Proposer.setReply, pc]
            exact reply
        | _ =>
            rw [pc] at isPending
            cases isPending
      · exact ok.peerReplies other found isFound
  | supervisor =>
      refine ⟨ok.opening, ok.openReply, ok.shared, ok.taskless, ok.peers, ok.peerReplies, ?_⟩
      rintro found ⟨⟩
      simp only [Proposer.pending, Option.bind_eq_some_iff, SupervisorPc.pending] at pending
      obtain ⟨shared, isShared, isPending⟩ := pending
      split at isPending
      case h_1 pc => simp only [SupervisorReplyOk, Proposer.setReply, pc]
      case h_2 pc =>
        cases isPending
        simp only [SupervisorReplyOk, Proposer.setReply, pc]
        exact reply.vote 0
      case h_3 => cases isPending

end ProposerOk

/-- A read is answered with the retained bytes from its start, or with nothing. -/
theorem Acceptor.process_read {acceptor : Acceptor} {lo hi fromLsn : Nat} {bytes : List UInt8}
    (ok : acceptor.wal.Ok)
    (answer : (acceptor.process (.read lo hi)).2 = .readResp fromLsn bytes) :
    fromLsn = lo ∧ (bytes ≠ [] → acceptor.wal.retainedStart ≤ lo ∧
      lo + bytes.length ≤ acceptor.wal.flush ∧ bytes =
        ((encodeAll acceptor.wal.records).drop (lo - acceptor.wal.retainedStart)).take
          bytes.length) := by
  have ends := ok.ends
  simp only [Acceptor.process, Acceptor.handleRead] at answer
  split at answer
  · rename_i after response handled
    simp only [Prod.mk.injEq] at handled
    obtain ⟨-, served⟩ := handled
    simp only at answer
    subst answer
    split at served
    · cases served
      exact ⟨rfl, fun nonempty => absurd rfl nonempty⟩
    · rename_i forward
      split at served
      · cases served
      · rename_i records read
        cases served
        refine ⟨rfl, fun _ => ?_⟩
        obtain ⟨above, slice⟩ := ok.read (Nat.lt_of_not_le forward) (Nat.min_le_right _ _) read
        have length : bytes.length = min hi acceptor.wal.flush - lo := by
          rw [slice, List.length_take, List.length_drop, encodeAll_length]
          omega
        refine ⟨above, by omega, ?_⟩
        rw [length]
        exact slice
  · cases answer

namespace Sim

variable {sys : Sys} (sim : Sim strict backed sys abs) {proposer : Proposer}
variable (isProposer : sys.proposers[p]? = some proposer)

include sim isProposer

/-- A read that the donor serves in the term it voted for returns the bytes of the log its
ballot reported. -/
theorem chunk (reading : proposer.opening.pc = .reading)
    (inTerm : (sys.acceptors.get proposer.opening.donor).state.term = proposer.opening.term)
    (atRecord : proposer.opening.readPos = proposer.opening.truncateLsn →
      ∃ record ∈ (sys.acceptors.get proposer.opening.donor).wal.records,
        record.lsn = proposer.opening.truncateLsn)
    {ballot : Ballot ProposerId}
    (reads : Reads strict (announced sys.journal) abs p proposer.opening ballot)
    {hi fromLsn : Nat} {bytes : List UInt8}
    (answer : ((sys.acceptors.get proposer.opening.donor).process
      (.read proposer.opening.readPos hi)).2 = .readResp fromLsn bytes) :
    ChunkOk abs proposer.opening ballot fromLsn bytes := by
  have openOk := (sim.proposers p proposer isProposer).opening
  simp only [OpenOk, reading] at openOk
  obtain ⟨⟨unowned, -⟩, votes, -⟩ := openOk
  have follows := sim.acceptors proposer.opening.donor
  have unelected := unowned_of_wins sim.formed unowned (reads.toDonates.wins votes)
  have atTerm : abs.term proposer.opening.donor = proposer.opening.term :=
    follows.term.symm.trans inTerm
  -- nobody owns the term, so the donor's copy is the one it reported
  obtain ⟨adopted, -⟩ := sim.fenced.frozen proposer.opening.donor ballot
    (by rw [atTerm]; exact reads.given) (by rw [atTerm]; exact unelected)
  obtain ⟨before, isFront, start, ends⟩ := follows.log.front
  rw [adopted] at isFront
  obtain ⟨rest, log⟩ := isFront
  obtain ⟨rfl, served⟩ := Acceptor.process_read follows.log.layout answer
  refine ⟨rfl, fun nonempty => ?_⟩
  obtain ⟨above, within, slice⟩ := served nonempty
  have layout := follows.log.layout.ends
  have beforeLength : (encodeAll before).length =
      (sys.acceptors.get proposer.opening.donor).wal.retainedStart := by
    rw [encodeAll_length, start]
  refine ⟨?_, ?_, ?_⟩
  · rw [← log, List.append_assoc, encodeAll_append, List.drop_append,
      List.drop_eq_nil_of_le (by omega), List.nil_append, beforeLength, encodeAll_append,
      List.drop_append_of_le_length (by rw [encodeAll_length]; omega),
      List.take_append_of_le_length (by rw [List.length_drop, encodeAll_length]; omega)]
    exact slice
  · rw [← log, framesLen_append, ends]
    omega
  · intro first
    obtain ⟨record, mem, position⟩ := atRecord first
    obtain ⟨front, after, split⟩ := List.append_of_mem mem
    have consecutive := follows.log.layout.consecutive
    rw [split, Consecutive.append] at consecutive
    have recordStart := consecutive.2.1
    refine ⟨before ++ front, ⟨record :: after ++ rest, ?_⟩, ?_⟩
    · rw [← log, split]
      simp
    · rw [endOf_frameLen, framesLen_append, start, ← position]
      omega

/-- An acceptor handles the request a task waits on. -/
theorem deliver {task : Task} {target : AcceptorId} {message : Message}
    (pending : proposer.pending task = some (target, message))
    (inTerm : task = .opener → proposer.opening.pc = .reading →
      (sys.acceptors.get proposer.opening.donor).state.term = proposer.opening.term ∧
        (proposer.opening.readPos = proposer.opening.truncateLsn →
          ∃ record ∈ (sys.acceptors.get proposer.opening.donor).wal.records,
            record.lsn = proposer.opening.truncateLsn))
    (allowed : backed → ¬ (sys.acceptors.get target).Unbacked message) :
    Simulates strict backed abs
      { sys with
        acceptors := sys.acceptors.set target ((sys.acceptors.get target).process message).1
        proposers := sys.proposers.set p
          (proposer.setReply ((sys.acceptors.get target).process message).2 task)
        journal := sys.journal ++
          grants p target ((sys.acceptors.get target).process message).2 } := by
  have ok := sim.proposers p proposer isProposer
  have inFlight := ok.inFlight pending
  have joins : ∀ term start history, message = .elected term start history →
      abs.adopted target = 0 → start ≤ proposer.horizon :=
    fun _ _ _ isElected => ok.joins pending isElected
  obtain ⟨next, handled, reply⟩ :=
    (sim.acceptors target).process sim.formed inFlight.valid joins
  have later := handled.moves.later sim.formed p
  have moved := sim.request inFlight allowed handled
  have nextOk := moved.proposers p proposer isProposer
  suffices answered : ProposerOk strict (announced sys.journal) next p
      (proposer.setReply ((sys.acceptors.get target).process message).2 task) by
    obtain ⟨last, steps, simulates⟩ := moved.update isProposer ⟨next, .quiet answered⟩
      (grants p target ((sys.acceptors.get target).process message).2)
    exact ⟨last, handled.moves.steps.trans steps, simulates⟩
  refine nextOk.setReply pending reply ?_ ?_
  · intro isStrict vote isVote
    rw [Acceptor.horizon_process isVote]
    exact sim.horizons isStrict target
  · rintro rfl reading ballot reads fromLsn bytes isChunk
    have openOk := ok.opening
    simp only [OpenOk, reading] at openOk
    obtain ⟨-, -, given, givenReads, -⟩ := openOk
    -- the ballot of the donor is the one from before the delivery
    have same : ballot = given := by
      have stays := later.grows.ballot_stays _ _ _ givenReads.given
      rw [reads.given] at stays
      simpa using stays
    subst same
    simp only [Proposer.pending, Opening.pending, reading, Option.some.injEq,
      Prod.mk.injEq] at pending
    obtain ⟨rfl, rfl⟩ := pending
    obtain ⟨term, atRecord⟩ := inTerm rfl reading
    exact later.chunkOk (sim.chunk isProposer reading term atRecord givenReads isChunk)

end Sim

end Icegres.Quorum
