import Icegres.Quorum.Relation

/-!
# The streaming tasks

The steps of the streaming tasks and of the clients that take no protocol step: the shared
state moves, and what it says about the protocol stays true. A counted ack is an
acknowledgement of the current term, so a commit position that moves is chosen.
-/

namespace Icegres.Quorum

open Icegres.TermLog

variable {strict : Prop} {limit limit' : Nat} {abs : Protocol} {p : ProposerId}

/-- Nothing happens. -/
theorem Later.refl (formed : Formed abs) (p : ProposerId) : Later p abs abs :=
  ⟨⟨formed, formed, .refl abs⟩, rfl, rfl, fun _ owned => owned⟩

namespace SharedOk

variable {truncateLsn : Nat} {shared : Shared}

/-- The retained records lie where they say. -/
theorem consecutive (ok : SharedOk strict limit abs p truncateLsn shared)
    (log : Consecutive 0 (abs.log p)) : Consecutive shared.log.base shared.log.records := by
  obtain ⟨before, logEq, base⟩ := ok.records
  rw [logEq, Consecutive.append, base, Nat.zero_add] at log
  exact log.2

/-- The commit rule counts acknowledgements of the current term only. -/
theorem recomputeCommit (ok : SharedOk strict limit abs p truncateLsn shared) :
    SharedOk strict limit abs p truncateLsn shared.recomputeCommit := by
  rcases shared.recomputeCommit_spec with same |
    ⟨commit, a, b, moved, newer, starts, different, ackA, ackB⟩
  · rw [same]
    exact ok
  · rw [moved]
    have horizon := ok.horizon_le
    refine ⟨ok.elects, ok.current, ok.last, ok.records, ok.head, ok.acked, ?_, ok.base_le,
      ok.truncate_le, ?_, ok.within⟩
    · by_cases below : commit ≤ max truncateLsn abs.ceil
      · exact .inl below
      · obtain ⟨front, history⟩ := ok.last
        refine .inr ⟨shared.election.term, front, shared.election.termStartLsn, ok.elects.1, ?_,
          starts, {id | commit ≤ abs.acked id shared.election.term}, ?_, fun _ mem => mem⟩
        · rw [ok.elects.2, history]
        · -- an ack above everything that may be lost is an acknowledgement
          have acks : ∀ id, commit ≤ (shared.peers.get id).flush →
              commit ≤ abs.acked id shared.election.term := by
            intro id ack
            rcases ok.acked id with acked | lost <;> omega
          exact ⟨a, b, different, acks a ackA, acks b ackB⟩
    · simp only
      omega

/-- An ack of the current term's connection. -/
theorem storeAck (ok : SharedOk strict limit abs p truncateLsn shared) {id : AcceptorId}
    {connTerm flush : Nat} {stored : Shared}
    (acked : flush ≤ abs.acked id connTerm ∨ flush ≤ max shared.horizon abs.ceil)
    (stores : shared.storeAck id connTerm flush = some stored) :
    SharedOk strict limit abs p truncateLsn stored := by
  simp only [Shared.storeAck] at stores
  split at stores
  · cases stores
  · rename_i sameTerm
    have sameTerm : shared.election.term = connTerm := by simpa using sameTerm
    cases stores
    refine recomputeCommit ⟨ok.elects, ok.current, ok.last, ok.records, ok.head, ?_,
      ok.committed, ok.base_le, ok.truncate_le, ok.horizon_le, ok.within⟩
    intro other
    simp only [Tri.get_set]
    split
    · rename_i isId
      subst isId
      simpa [sameTerm] using acked
    · exact ok.acked other

/-- Changes the protocol does not see. -/
theorem congr (ok : SharedOk strict limit abs p truncateLsn shared) {other : Shared}
    (election : other.election = shared.election) (log : other.log = shared.log)
    (flush : ∀ id, (other.peers.get id).flush = (shared.peers.get id).flush)
    (commit : other.commit = shared.commit) (horizon : other.horizon = shared.horizon) :
    SharedOk strict limit abs p truncateLsn other := by
  refine ⟨?_, ?_, ?_, ?_, ?_, ?_, ?_, ?_, ?_, ?_, ?_⟩ <;>
    simp only [election, log, flush, commit, horizon]
  exacts [ok.elects, ok.current, ok.last, ok.records, ok.head, ok.acked, ok.committed,
    ok.base_le, ok.truncate_le, ok.horizon_le, ok.within]

theorem setFailed (ok : SharedOk strict limit abs p truncateLsn shared) (id : AcceptorId) :
    SharedOk strict limit abs p truncateLsn (shared.setFailed id) := by
  refine ok.congr rfl rfl ?_ rfl rfl
  intro other
  simp only [Shared.setFailed, Tri.get_set]
  split
  · rename_i isId
    rw [isId]
  · rfl

theorem request (ok : SharedOk strict limit abs p truncateLsn shared) (reason : ReelectReason) :
    SharedOk strict limit abs p truncateLsn (shared.request reason) :=
  ok.congr rfl rfl (fun _ => rfl) rfl rfl

theorem poisonWith (ok : SharedOk strict limit abs p truncateLsn shared) (why : String) :
    SharedOk strict limit abs p truncateLsn (shared.poisonWith why) :=
  ok.congr rfl rfl (fun _ => rfl) rfl rfl

/-- An advanced horizon is announced, and trims nothing above it. -/
theorem advances (ok : SharedOk strict limit abs p truncateLsn shared) {after : Shared}
    (advances : shared.Advances after) (announced : strict → after.horizon ≤ limit') :
    SharedOk strict limit' abs p truncateLsn after := by
  have horizonLe := advances.horizon_le
  have horizonBound := advances.horizon_bound
  have baseBound := advances.base_bound
  have before := ok.horizon_le
  have base := ok.base_le
  have truncate := ok.truncate_le
  obtain ⟨gone, records, trimmed⟩ := advances.trimmed
  obtain ⟨front, logEq, frontEnds⟩ := ok.records
  have election := advances.election
  have commit := advances.commit
  refine ⟨?_, ?_, ?_, ⟨front ++ gone, ?_, ?_⟩, ?_, ?_, ?_, ?_, ?_, ?_, announced⟩
  · rw [election]
    exact ok.elects
  · rw [election]
    exact ok.current
  · rw [election]
    exact ok.last
  · rw [List.append_assoc, ← records, logEq]
  · rw [framesLen_append, trimmed, frontEnds]
  · rw [advances.head]
    exact ok.head
  · intro id
    rw [advances.flush, election]
    rcases ok.acked id with acked | lost
    · exact .inl acked
    · exact .inr (by omega)
  · rw [commit]
    exact ok.committed
  · omega
  · omega
  · omega

end SharedOk

/-- `Quorum::open` has made its handshakes, or has given up. -/
def Proposer.PastHandshakes (proposer : Proposer) : Prop :=
  (∃ stalled, proposer.opening.pc = .waiting stalled) ∨ proposer.opening.pc = .returned ∨
    ∃ why, proposer.opening.pc = .failed why

/-- Tasks run only after the handshakes. -/
theorem OpenOk.running {proposer : Proposer} (ok : OpenOk strict limit abs p proposer)
    (running : ¬ proposer.Taskless) : proposer.PastHandshakes := by
  unfold OpenOk at ok
  simp only at ok
  cases pc : proposer.opening.pc with
  | greeting todo =>
      simp only [pc] at ok
      exact absurd ok.1.2.2 running
  | adopting todo =>
      simp only [pc] at ok
      exact absurd ok.1.2.2 running
  | voting todo =>
      simp only [pc] at ok
      exact absurd ok.1.2.2 running
  | reading =>
      simp only [pc] at ok
      exact absurd ok.1.2.2 running
  | electing todo start =>
      simp only [pc] at ok
      exact absurd ok.2.2.1 running
  | waiting stalled => exact .inl ⟨stalled, pc⟩
  | returned => exact .inr (.inl pc)
  | failed why => exact .inr (.inr ⟨why, pc⟩)

/-- The shared state moves without an election, and one streaming task or none. -/
structure TaskStep (strict : Prop) (limit : Nat) (abs : Protocol) (p : ProposerId)
    (before after : Proposer) (shared moved : Shared) : Prop where
  opening : after.opening = before.opening
  openReply : after.openReply = before.openReply
  isShared : before.shared = some shared
  movedShared : after.shared = some moved
  sharedOk : SharedOk strict limit abs p before.opening.truncateLsn moved
  election : moved.election = shared.election
  horizon : shared.horizon ≤ moved.horizon
  head : moved.log.head = shared.log.head
  supervisor : after.supervisor = before.supervisor ∨
    SupervisorOk abs p moved after.supervisor
  supervisorReply : ∀ answer, after.supervisorReply = some answer →
    after.supervisor = before.supervisor ∧ before.supervisorReply = some answer ∨
      SupervisorReplyOk abs p after.supervisor answer
  peers : ∀ id, after.peers.get id = before.peers.get id ∧
      after.peerReplies.get id = before.peerReplies.get id ∨
    PcOk strict limit abs p id moved.horizon (after.peers.get id) ∧
      ∀ answer, after.peerReplies.get id = some answer →
        PeerReplyOk abs p id moved.horizon (after.peers.get id) answer

/-- A task step keeps everything the proposer relies on. -/
theorem ProposerOk.taskStep {before after : Proposer} {shared moved : Shared}
    (ok : ProposerOk strict limit abs p before) (formed : Formed abs) (limits : limit ≤ limit')
    (past : before.PastHandshakes)
    (step : TaskStep strict limit' abs p before after shared moved) :
    ProposerOk strict limit' abs p after := by
  have later := Later.refl formed p
  have wider := later.proposerOk limits ok
  have opening := step.opening
  have afterHorizon : after.horizon = moved.horizon := by simp [Proposer.horizon, step.movedShared]
  have beforeHorizon : before.horizon = shared.horizon := by simp [Proposer.horizon, step.isShared]
  have horizons : before.horizon ≤ after.horizon := by
    rw [afterHorizon, beforeHorizon]
    exact step.horizon
  constructor
  case opening =>
    have openOk := wider.opening
    rcases past with ⟨stalled, pc⟩ | pc | ⟨why, pc⟩
    · unfold OpenOk at openOk ⊢
      simp only [opening, pc, step.movedShared] at openOk ⊢
      refine ⟨openOk.1, ?_⟩
      rintro other ⟨⟩
      have early := openOk.2 shared step.isShared
      exact ⟨step.head.trans early.head, early.starts⟩
    · unfold OpenOk at openOk ⊢
      simp only [opening, pc] at openOk ⊢
      exact openOk
    · unfold OpenOk
      simp only [opening, pc]
  case openReply =>
    intro answer reply
    rw [step.openReply] at reply
    have replyOk := wider.openReply answer reply
    unfold OpenReplyOk at replyOk
    rcases past with ⟨stalled, pc⟩ | pc | ⟨why, pc⟩ <;>
      simp only [pc] at replyOk
  case shared =>
    intro other isOther
    rw [step.movedShared] at isOther
    obtain rfl : moved = other := by simpa using isOther
    refine ⟨by rw [opening]; exact step.sharedOk, ?_⟩
    rcases step.supervisor with same | moved
    · rw [same]
      have supervisorOk := (wider.shared shared step.isShared).2
      cases pc : before.supervisor with
      | greeting old maxTerm todo conns =>
          rw [pc] at supervisorOk
          exact ⟨step.election ▸ supervisorOk.1, supervisorOk.2⟩
      | voting old maxTerm todo votes =>
          rw [pc] at supervisorOk
          exact ⟨step.election ▸ supervisorOk.1, supervisorOk.2⟩
      | idle | exited => trivial
    · exact moved
  case taskless =>
    intro none
    rw [step.movedShared] at none
    cases none
  case peers =>
    intro id
    rcases step.peers id with ⟨same, -⟩ | ⟨pcOk, -⟩
    · rw [same]
      exact later.pcOk (Nat.le_refl _) horizons (wider.peers id)
    · rw [afterHorizon]
      exact pcOk
  case peerReplies =>
    intro id answer reply
    rcases step.peers id with ⟨same, sameReply⟩ | ⟨-, replyOk⟩
    · rw [same]
      rw [sameReply] at reply
      exact later.peerReplyOk horizons (wider.peerReplies id answer reply)
    · rw [afterHorizon]
      exact replyOk answer reply
  case supervisorReply =>
    intro answer reply
    rcases step.supervisorReply answer reply with ⟨same, old⟩ | new
    · rw [same]
      exact wider.supervisorReply answer old
    · exact new

section Peers

variable {before : Proposer} {shared : Shared} {id : AcceptorId}

/-- The task that moves finds no answer afterwards. -/
private theorem peerStep {after : Proposer} {moved : Shared} {pc : PeerPc}
    (isShared : before.shared = some shared) (opening : after.opening = before.opening)
    (openReply : after.openReply = before.openReply)
    (supervisor : after.supervisor = before.supervisor)
    (supervisorReply : after.supervisorReply = before.supervisorReply)
    (movedShared : after.shared = some moved)
    (sharedOk : SharedOk strict limit abs p before.opening.truncateLsn moved)
    (election : moved.election = shared.election) (horizon : moved.horizon = shared.horizon)
    (head : moved.log.head = shared.log.head) (peers : after.peers = before.peers.set id pc)
    (others : ∀ other ≠ id, after.peerReplies.get other = before.peerReplies.get other)
    (unanswered : after.peerReplies.get id = none)
    (pcOk : PcOk strict limit abs p id shared.horizon pc) :
    TaskStep strict limit abs p before after shared moved where
  opening := opening
  openReply := openReply
  isShared := isShared
  movedShared := movedShared
  sharedOk := sharedOk
  election := election
  horizon := Nat.le_of_eq horizon.symm
  head := head
  supervisor := .inl supervisor
  supervisorReply answer reply := .inl ⟨supervisor, supervisorReply ▸ reply⟩
  peers other := by
    by_cases isId : other = id
    · subst isId
      right
      rw [peers, Tri.get_set_self, horizon]
      refine ⟨pcOk, fun answer reply => ?_⟩
      rw [unanswered] at reply
      cases reply
    · left
      rw [peers, Tri.get_set_ne _ _ isId]
      exact ⟨rfl, others other isId⟩

variable (ok : ProposerOk strict limit abs p before) (isShared : before.shared = some shared)

include ok isShared

/-- A streaming task continues with the outcome of its request. -/
theorem resumePeer_taskStep {outcome : Outcome}
    (answered : ∀ message, outcome = .response message →
      PeerReplyOk abs p id before.horizon (before.peers.get id) message) :
    ∃ moved, TaskStep strict limit abs p before (before.resumePeer shared id outcome) shared
      moved := by
  obtain ⟨sharedOk, -⟩ := ok.shared shared isShared
  have pcOk := ok.peers id
  have horizon : before.horizon = shared.horizon := by simp [Proposer.horizon, isShared]
  rw [horizon] at pcOk answered
  -- every branch ends in one of these two moves
  have unmoved : ∀ {pc : PeerPc}, PcOk strict limit abs p id shared.horizon pc →
      TaskStep strict limit abs p before
        ({ before with peerReplies := before.peerReplies.set id none }.setPeer id pc) shared
        shared := by
    intro pc newPc
    exact peerStep isShared rfl rfl rfl rfl isShared sharedOk rfl rfl rfl rfl
      (fun other different => Tri.get_set_ne _ _ different) (Tri.get_set_self _ _ _) newPc
  have moved : ∀ {pc : PeerPc} {moved : Shared},
      SharedOk strict limit abs p before.opening.truncateLsn moved →
      moved.election = shared.election → moved.horizon = shared.horizon →
      moved.log.head = shared.log.head → PcOk strict limit abs p id shared.horizon pc →
      TaskStep strict limit abs p before
        ({ before with
          peerReplies := before.peerReplies.set id none
          shared := some moved }.setPeer id pc) shared moved := by
    intro pc moved movedOk election sameHorizon head newPc
    exact peerStep isShared rfl rfl rfl rfl rfl movedOk election sameHorizon head rfl
      (fun other different => Tri.get_set_ne _ _ different) (Tri.get_set_self _ _ _) newPc
  have fenced : ∀ term, ∃ moved, TaskStep strict limit abs p before
      ({ before with peerReplies := before.peerReplies.set id none }.fenced shared id term) shared
      moved := by
    intro term
    unfold Proposer.fenced
    split
    · exact ⟨_, moved (sharedOk.request (.fenced term)) rfl rfl rfl trivial⟩
    · exact ⟨_, unmoved trivial⟩
  have acked : ∀ connTerm flush, Streams abs p id connTerm →
      (flush ≤ abs.acked id connTerm ∨ flush ≤ max shared.horizon abs.ceil) →
      ∃ moved, TaskStep strict limit abs p before
        ({ before with peerReplies := before.peerReplies.set id none }.acked shared id connTerm
          flush) shared moved := by
    intro connTerm flush streams counts
    unfold Proposer.acked
    split
    · rename_i stored stores
      have kept : stored.election = shared.election ∧ stored.horizon = shared.horizon ∧
          stored.log = shared.log := by
        simp only [Shared.storeAck] at stores
        split at stores
        · cases stores
        · cases stores
          simp only [Shared.recomputeCommit]
          split <;> exact ⟨rfl, rfl, rfl⟩
      exact ⟨_, moved (sharedOk.storeAck counts stores) kept.1 kept.2.1 (by rw [kept.2.2])
        streams⟩
    · exact ⟨_, unmoved trivial⟩
  simp only [Proposer.resumePeer]
  split
  · rename_i el tailId term flush pc
    split
    · exact fenced term
    · rw [pc] at pcOk
      exact ⟨_, unmoved pcOk⟩
  · split
    · exact ⟨_, moved (sharedOk.setFailed id) rfl rfl rfl trivial⟩
    · exact ⟨_, unmoved trivial⟩
  · rename_i el vote pc
    rw [pc] at pcOk
    have reply := answered _ rfl
    rw [pc] at reply
    unfold Proposer.startHandshake
    split
    · exact fenced vote.term
    · split
      · exact ⟨_, unmoved trivial⟩
      · rename_i start computed
        split
        · exact ⟨_, moved (sharedOk.setFailed id) rfl rfl rfl trivial⟩
        · refine ⟨_, unmoved ⟨pcOk, fun none => ?_⟩⟩
          obtain ⟨noHistory, noFlush⟩ := reply.2 none
          rw [noHistory, noFlush] at computed
          rw [computeStart_fresh computed]
          exact sharedOk.base_le
  · rename_i el start term accepted pc
    rw [pc] at pcOk
    have reply := answered _ rfl
    rw [pc] at reply
    cases accepted with
    | true => exact acked el.term start ⟨pcOk.1.1, reply.1⟩ reply.2
    | false => exact fenced term
  · rename_i request term accepted flush commit pc
    rw [pc] at pcOk
    have reply := answered _ rfl
    rw [pc] at reply
    cases accepted with
    | true => exact acked request.term flush pcOk.1 (.inl reply)
    | false => exact fenced term
  · exact ⟨_, unmoved trivial⟩

/-- A streaming task takes a step that needs no answer. -/
theorem advancePeer_taskStep (formed : Formed abs) (log : Consecutive 0 (abs.log p))
    {after : Proposer} (advanced : before.advancePeer shared id = some after) :
    ∃ moved, TaskStep strict limit abs p before after shared moved := by
  obtain ⟨sharedOk, -⟩ := ok.shared shared isShared
  have pcOk := ok.peers id
  have horizon : before.horizon = shared.horizon := by simp [Proposer.horizon, isShared]
  rw [horizon] at pcOk
  have replies := ok.peerReplies id
  -- a task that waits on nothing has found nothing
  have unanswered : (∀ answer, ¬ PeerReplyOk abs p id before.horizon (before.peers.get id) answer) →
      before.peerReplies.get id = none := by
    intro none
    cases reply : before.peerReplies.get id with
    | none => rfl
    | some answer => exact absurd (replies answer reply) (none answer)
  have unmoved : before.peerReplies.get id = none → ∀ {pc : PeerPc},
      PcOk strict limit abs p id shared.horizon pc →
      TaskStep strict limit abs p before (before.setPeer id pc) shared shared := by
    intro none pc newPc
    exact peerStep isShared rfl rfl rfl rfl isShared sharedOk rfl rfl rfl rfl
      (fun other _ => rfl) none newPc
  simp only [Proposer.advancePeer] at advanced
  cases pc : before.peers.get id with
  | reconnecting =>
      rw [pc] at unanswered
      simp only [pc] at advanced
      cases advanced
      refine ⟨shared, unmoved (unanswered fun answer reply => reply) ?_⟩
      split
      · trivial
      · split
        · trivial
        · exact sharedOk.elects
  | resumed term =>
      rw [pc] at unanswered pcOk
      simp only [pc] at advanced
      cases advanced
      refine ⟨shared, unmoved (unanswered fun answer reply => reply) ?_⟩
      split
      · trivial
      · split
        · trivial
        · exact pcOk
  | connected term =>
      rw [pc] at unanswered pcOk
      simp only [pc] at advanced
      cases advanced
      refine ⟨shared, unmoved (unanswered fun answer reply => reply) ?_⟩
      split
      · trivial
      · split
        · trivial
        · exact pcOk
  | fetching term =>
      rw [pc] at unanswered pcOk
      have none := unanswered fun answer reply => reply
      simp only [pc] at advanced
      split at advanced
      · cases advanced
        exact ⟨shared, unmoved none pcOk⟩
      · cases advanced
        exact ⟨_, peerStep isShared rfl rfl rfl rfl rfl (sharedOk.setFailed id) rfl rfl rfl rfl
          (fun other _ => rfl) none trivial⟩
      · rename_i begin finish records next
        cases advanced
        obtain ⟨front, isFront, beginEq, below⟩ :=
          LogBuf.nextBatch_spec (sharedOk.consecutive log) next
        obtain ⟨before, logEq, base⟩ := sharedOk.records
        refine ⟨shared, unmoved none ⟨pcOk, ⟨before ++ front, ?_, ?_⟩, fun isStrict => ?_⟩⟩
        · rw [logEq, List.append_assoc, List.prefix_append_right_inj]
          exact isFront
        · rw [framesLen_append, base, beginEq]
        · -- the batch begins at or below what the peer acked in the current term
          have within := sharedOk.within isStrict
          rcases sharedOk.acked id with acked | lost
          · refine .inr ⟨shared.election.term, ?_, below.trans acked⟩
            rw [← sharedOk.current]
            exact formed.owner_le_current term p pcOk.1
          · exact .inl (by omega)
  | batched term begin finish records =>
      rw [pc] at unanswered pcOk
      simp only [pc] at advanced
      cases advanced
      exact ⟨shared, unmoved (unanswered fun answer reply => reply) pcOk⟩
  | loaded term begin finish commit records =>
      rw [pc] at unanswered pcOk
      simp only [pc] at advanced
      cases advanced
      exact ⟨shared, unmoved (unanswered fun answer reply => reply)
        ⟨pcOk.1, pcOk.2.1, pcOk.2.2, sharedOk.within⟩⟩
  | parked seen =>
      rw [pc] at unanswered
      simp only [pc] at advanced
      split at advanced
      · cases advanced
        exact ⟨shared, unmoved (unanswered fun answer reply => reply) trivial⟩
      · cases advanced
  | greeting | voting | electing | appending | exited =>
      simp only [pc] at advanced
      cases advanced

end Peers

end Icegres.Quorum
