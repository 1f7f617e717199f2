import Icegres.Quorum.Refines

/-!
# Local invariants

A property of every acceptor, every request in flight and every proposer is kept by all
actions when each party keeps its own part. A part may speak of the journal, where a proposer
relies on nothing that later events change and an acceptor on none but its own grants. The
rule takes one condition for each kind of step a party can take, so an invariant that needs no
view of the whole system is proved without the interleavings.
-/

namespace Icegres.Quorum

/-- The horizon moves in every term alike. -/
theorem Shared.advanceHorizon_election (shared : Shared) :
    shared.advanceHorizon.1.election = shared.election := by
  simp only [Shared.advanceHorizon]
  split <;> rfl

namespace Shared

theorem recomputeCommit_election (shared : Shared) :
    shared.recomputeCommit.election = shared.election := by
  rcases shared.recomputeCommit_spec with same | ⟨commit, a, b, moved, -⟩
  · rw [same]
  · rw [moved]

theorem storeAck_election {shared stored : Shared} {id : AcceptorId} {connTerm flush : Nat}
    (stores : shared.storeAck id connTerm flush = some stored) :
    stored.election = shared.election := by
  simp only [storeAck] at stores
  split at stores
  · cases stores
  · cases stores
    rw [recomputeCommit_election]

/-- The commit position is not past `old`, or two acceptors acked it in the current term, which
begins at or below it. -/
def CountsFrom (old : Nat) (shared : Shared) : Prop :=
  shared.commit ≤ old ∨ shared.election.termStartLsn ≤ shared.commit ∧ ∃ a b, a ≠ b ∧
    shared.commit ≤ (shared.peers.get a).flush ∧ shared.commit ≤ (shared.peers.get b).flush

theorem advanceHorizon_commit (shared : Shared) :
    shared.advanceHorizon.1.commit = shared.commit := by
  simp only [advanceHorizon]
  split <;> rfl

theorem noteCovered_commit (shared : Shared) (tableKey : String) (uptoSeq : Nat) :
    (shared.noteCovered tableKey uptoSeq).1.commit = shared.commit :=
  advanceHorizon_commit _

namespace CountsFrom

variable {old : Nat} {shared moved : Shared}

theorem congr (counts : shared.CountsFrom old) (election : moved.election = shared.election)
    (commit : moved.commit = shared.commit)
    (flush : ∀ id, (moved.peers.get id).flush = (shared.peers.get id).flush) :
    moved.CountsFrom old := by
  simpa only [CountsFrom, election, commit, flush] using counts

theorem setFailed (counts : shared.CountsFrom old) (id : AcceptorId) :
    (shared.setFailed id).CountsFrom old := by
  refine counts.congr rfl rfl fun other => ?_
  simp only [Shared.setFailed, Tri.get_set]
  split
  · rename_i isId
    rw [isId]
  · rfl

theorem recomputeCommit (counts : shared.CountsFrom old) :
    shared.recomputeCommit.CountsFrom old := by
  rcases shared.recomputeCommit_spec with same |
    ⟨commit, a, b, moved, -, starts, different, ackA, ackB⟩
  · rw [same]
    exact counts
  · rw [moved]
    exact .inr ⟨starts, a, b, different, ackA, ackB⟩

theorem storeAck (held : shared.commit ≤ old) {id : AcceptorId} {connTerm flush : Nat}
    (stores : shared.storeAck id connTerm flush = some moved) : moved.CountsFrom old := by
  simp only [Shared.storeAck] at stores
  split at stores
  · cases stores
  · cases stores
    refine recomputeCommit (.inl ?_)
    exact held

end CountsFrom

end Shared

/-- The election a streaming task shakes hands for. -/
def PeerPc.election : PeerPc → Option Election
  | .greeting el | .voting el | .electing el _ => some el
  | _ => none

namespace Proposer

/-- A step of a streaming task. It leaves `Quorum::open` and the supervisor alone, moves the
commit position only by counting acks, and shakes hands for the current election or the one it
already did. -/
structure Streamed (before after : Proposer) : Prop where
  opening : after.opening = before.opening
  openReply : after.openReply = before.openReply
  supervisor : after.supervisor = before.supervisor
  supervisorReply : after.supervisorReply = before.supervisorReply
  peerReplies : ∀ id answer, after.peerReplies.get id = some answer →
    before.peerReplies.get id = some answer
  shared : ∀ moved, after.shared = some moved → ∃ shared, before.shared = some shared ∧
    moved.election = shared.election ∧ moved.CountsFrom shared.commit
  peers : ∀ id el, (after.peers.get id).election = some el →
    (∃ shared, before.shared = some shared ∧ el = shared.election) ∨
      (before.peers.get id).election = some el

section Streaming

variable {proposer : Proposer} {shared : Shared} (isShared : proposer.shared = some shared)

include isShared

private theorem streamed_setPeer {id : AcceptorId} {pc : PeerPc}
    (own : ∀ el, pc.election = some el →
      el = shared.election ∨ (proposer.peers.get id).election = some el) :
    proposer.Streamed (proposer.setPeer id pc) := by
  refine ⟨rfl, rfl, rfl, rfl, fun _ _ reply => reply,
    fun moved isMoved => ⟨moved, isMoved, rfl, .inl (Nat.le_refl _)⟩, fun other el isElection => ?_⟩
  simp only [setPeer, Tri.get_set] at isElection
  split at isElection
  · rename_i same
    subst same
    exact (own el isElection).imp_left fun current => ⟨shared, isShared, current⟩
  · exact .inr isElection

/-- A program counter between two handshakes. -/
private theorem streamed_idle {id : AcceptorId} {pc : PeerPc} (idle : pc.election = none) :
    proposer.Streamed (proposer.setPeer id pc) :=
  streamed_setPeer isShared fun el isElection => by rw [idle] at isElection; cases isElection

private theorem streamed_moved {id : AcceptorId} {pc : PeerPc} (idle : pc.election = none)
    {moved : Shared} (election : moved.election = shared.election)
    (counts : moved.CountsFrom shared.commit) :
    proposer.Streamed ({ proposer with shared := some moved }.setPeer id pc) := by
  obtain ⟨opening, openReply, supervisor, supervisorReply, replies, -, peers⟩ :=
    streamed_idle isShared idle
  refine ⟨opening, openReply, supervisor, supervisorReply, replies, ?_, peers⟩
  rintro _ ⟨⟩
  exact ⟨shared, isShared, election, counts⟩

private theorem streamed_fenced (id : AcceptorId) (term : Nat) :
    proposer.Streamed (proposer.fenced shared id term) := by
  unfold fenced
  split
  · exact streamed_moved isShared rfl rfl (.inl (Nat.le_refl _))
  · exact streamed_idle isShared rfl

private theorem streamed_acked (id : AcceptorId) (connTerm flush : Nat) :
    proposer.Streamed (proposer.acked shared id connTerm flush) := by
  unfold acked
  split
  · rename_i stored stores
    exact streamed_moved isShared rfl (Shared.storeAck_election stores)
      (.storeAck (Nat.le_refl _) stores)
  · exact streamed_idle isShared rfl

private theorem streamed_startHandshake {id : AcceptorId} {el : Election} (vote : VoteResponse)
    (own : (proposer.peers.get id).election = some el) :
    proposer.Streamed (proposer.startHandshake shared id el vote) := by
  unfold startHandshake
  split
  · exact streamed_fenced isShared id vote.term
  · split
    · exact streamed_idle isShared rfl
    · split
      · exact streamed_moved isShared rfl rfl (.inl (Nat.le_refl _))
      · exact streamed_setPeer isShared fun other isElection => .inr (own.trans isElection)

/-- A streaming task continues with the outcome of its request. -/
theorem streamed_resumePeer (id : AcceptorId) (outcome : Outcome) :
    proposer.Streamed (proposer.resumePeer shared id outcome) := by
  have waiting : { proposer with peerReplies := proposer.peerReplies.set id none }.shared =
    some shared := isShared
  have from_waiting : ∀ {after : Proposer},
      { proposer with peerReplies := proposer.peerReplies.set id none }.Streamed after →
        proposer.Streamed after := by
    intro after step
    refine ⟨step.opening, step.openReply, step.supervisor, step.supervisorReply,
      fun other answer reply => ?_, step.shared, step.peers⟩
    have reply := step.peerReplies other answer reply
    simp only [Tri.get_set] at reply
    split at reply
    · cases reply
    · exact reply
  simp only [resumePeer]
  split
  · rename_i el tailId term flush pc
    split
    · exact from_waiting (streamed_fenced waiting id term)
    · refine from_waiting (streamed_setPeer waiting fun other isElection => .inr ?_)
      rw [pc]
      exact isElection
  · split
    · exact from_waiting (streamed_moved waiting rfl rfl (.inl (Nat.le_refl _)))
    · exact from_waiting (streamed_idle waiting rfl)
  · rename_i el vote pc
    exact from_waiting (streamed_startHandshake waiting vote (by rw [pc]; rfl))
  · split
    · exact from_waiting (streamed_acked waiting id _ _)
    · exact from_waiting (streamed_fenced waiting id _)
  · split
    · exact from_waiting (streamed_acked waiting id _ _)
    · exact from_waiting (streamed_fenced waiting id _)
  · exact from_waiting (streamed_idle waiting rfl)

/-- A streaming task takes one step that needs no answer. -/
theorem streamed_advancePeer {id : AcceptorId} {after : Proposer}
    (advanced : proposer.advancePeer shared id = some after) : proposer.Streamed after := by
  simp only [advancePeer] at advanced
  split at advanced
  · cases advanced
    refine streamed_setPeer isShared fun el isElection => .inl ?_
    split at isElection
    · cases isElection
    · split at isElection
      · cases isElection
      · exact (Option.some.inj isElection).symm
  case h_4 =>
    split at advanced
    · cases advanced
      exact streamed_idle isShared rfl
    · cases advanced
      exact streamed_moved isShared rfl rfl (.inl (Nat.le_refl _))
    · cases advanced
      exact streamed_idle isShared rfl
  case h_7 =>
    split at advanced
    · cases advanced
      exact streamed_idle isShared rfl
    · cases advanced
  case h_8 => cases advanced
  all_goals
    cases advanced
    refine streamed_idle isShared ?_
    repeat' split
    all_goals rfl

end Streaming

end Proposer

/-- What a client's call lets observers see beside the step itself. -/
inductive Called (p : ProposerId) (after : Proposer) : List Event → Prop where
  | nothing : Called p after []
  | submitted {shared : Shared} {record : Record} (returned : after.opening.pc = .returned)
      (isShared : after.shared = some shared) (mem : record ∈ shared.log.records) :
      Called p after [.submitted p record]
  | acknowledged {shared : Shared} (isShared : after.shared = some shared) (position : Nat)
      (covered : position ≤ shared.commit) :
      Called p after [.acknowledged p shared.election.term position]

/-- A proposer whose shared state moved, with the waits on it. -/
def Proposer.served (proposer : Proposer) (pc : OpenPc) (shared : Shared)
    (waiters : List Waiter) : Proposer :=
  { proposer with
    opening := { proposer.opening with pc := pc }
    shared := some shared
    waiters := waiters }

/-- `Quorum::open` stays where it is, or its last wait goes on or fails. -/
def OpenPc.Waits (before after : OpenPc) : Prop :=
  after = before ∨ (∃ stalled, before = .waiting stalled) ∧
    ((∃ stalled, after = .waiting stalled) ∨ ∃ why, after = .failed why)

/-- What a call of a client, a move of the horizon or a stalled wait does to its proposer. -/
inductive Served (before : Proposer) : Proposer → Prop where
  | intro {shared moved : Shared} {pc : OpenPc} {waiters : List Waiter}
      (isShared : before.shared = some shared) (election : moved.election = shared.election)
      (commit : moved.commit = shared.commit) (waits : before.opening.pc.Waits pc) :
      Served before (before.served pc moved waiters)

/-- The shared state may stay as it is. -/
theorem Served.waiters {before : Proposer} {shared : Shared} (isShared : before.shared = some shared)
    (waiters : List Waiter) : Served before { before with waiters := waiters } := by
  have same : before.served before.opening.pc shared waiters =
      { before with waiters := waiters } := by rw [Proposer.served, ← isShared]
  exact same ▸ .intro isShared rfl rfl (.inl rfl)

/-- The proposer whose client acts or waits, or whose `Quorum::open` waits in vain. -/
def Action.client? : Action → Option ProposerId
  | .openStall id | .submit id _ _ _ _ | .waitCommit id _ | .waiterCheck id _ | .waiterStall id _
  | .noteCovered id _ _ | .nudgeHorizon id => some id
  | _ => none

/-- Such an action moves no acceptor, no task and no other proposer. -/
theorem Sys.step_client {sys next : Sys} {action : Action} {p : ProposerId}
    (isClient : action.client? = some p) (taken : sys.step action = some next) :
    ∃ before after more, sys.live p = some before ∧ Served before after ∧ Called p after more ∧
      next = { sys with
        proposers := sys.proposers.set p after
        journal := sys.journal ++ (observed p before after ++ more) } := by
  have silent : ∀ {before after : Proposer}, sys.live p = some before → Served before after →
      ∃ before' after' more, sys.live p = some before' ∧ Served before' after' ∧
        Called p after' more ∧ sys.update p before after = { sys with
          proposers := sys.proposers.set p after'
          journal := sys.journal ++ (observed p before' after' ++ more) } :=
    fun isLive served =>
      ⟨_, _, [], isLive, served, .nothing, by rw [List.append_nil]; rfl⟩
  cases action with
  | openStall id =>
      cases isClient
      simp only [step, Option.bind_eq_bind, Option.bind_eq_some_iff] at taken
      obtain ⟨proposer, isLive, shared, isShared, stalled⟩ := taken
      split at stalled
      · rename_i waits
        cases stalled
        exact silent isLive (.intro isShared rfl rfl (.inr ⟨⟨_, waits⟩, .inl ⟨_, rfl⟩⟩))
      · rename_i waits
        cases stalled
        exact silent isLive (.intro isShared rfl rfl (.inr ⟨⟨_, waits⟩, .inr ⟨_, rfl⟩⟩))
      · cases stalled
  | submit id kind tableKey seq body =>
      cases isClient
      simp only [step, Option.bind_eq_bind, Option.bind_eq_some_iff] at taken
      obtain ⟨proposer, isLive, shared, isClient, submitted⟩ := taken
      obtain ⟨returned, isShared⟩ := Proposer.client_eq_some isClient
      split at submitted
      · cases submitted
      · rename_i moved record entered
        cases submitted
        obtain ⟨isMoved, -⟩ := Shared.submit_spec entered
        exact ⟨proposer, proposer.served proposer.opening.pc moved proposer.waiters,
          [.submitted p record], isLive, .intro isShared (by rw [isMoved]) (by rw [isMoved]) (.inl rfl),
          .submitted returned rfl (by simp [isMoved, LogBuf.push]),
          by rw [← List.append_assoc]; rfl⟩
  | waitCommit id position =>
      cases isClient
      simp only [step, Option.bind_eq_bind, Option.bind_eq_some_iff] at taken
      obtain ⟨proposer, isLive, shared, isClient, same⟩ := taken
      cases same
      exact silent isLive (.waiters (Proposer.client_eq_some isClient).2 _)
  | waiterCheck id index =>
      cases isClient
      simp only [step, Option.bind_eq_bind, Option.bind_eq_some_iff] at taken
      obtain ⟨proposer, isLive, shared, isClient, waiter, -, checked⟩ := taken
      obtain ⟨-, isShared⟩ := Proposer.client_eq_some isClient
      split at checked
      · cases checked
        exact silent isLive (.waiters isShared _)
      · split at checked
        · rename_i covered
          cases checked
          refine ⟨proposer, _, _, isLive, .waiters isShared _,
            .acknowledged ?_ waiter.position covered, by rw [← List.append_assoc]; rfl⟩
          exact isShared
        · cases checked
  | waiterStall id index =>
      cases isClient
      simp only [step, Option.bind_eq_bind, Option.bind_eq_some_iff] at taken
      obtain ⟨proposer, isLive, shared, isClient, waiter, -, stalled⟩ := taken
      obtain ⟨-, isShared⟩ := Proposer.client_eq_some isClient
      split at stalled <;> cases stalled <;>
        exact silent isLive (.intro isShared rfl rfl (.inl rfl))
  | noteCovered id tableKey uptoSeq =>
      cases isClient
      simp only [step, Option.bind_eq_bind, Option.bind_eq_some_iff] at taken
      obtain ⟨proposer, isLive, shared, isClient, same⟩ := taken
      cases same
      exact silent isLive (.intro (Proposer.client_eq_some isClient).2
        (Shared.advanceHorizon_election _) (Shared.noteCovered_commit _ _ _) (.inl rfl))
  | nudgeHorizon id =>
      cases isClient
      simp only [step, Option.bind_eq_bind, Option.bind_eq_some_iff] at taken
      obtain ⟨proposer, isLive, shared, isClient, same⟩ := taken
      cases same
      exact silent isLive (.intro (Proposer.client_eq_some isClient).2
        (Shared.advanceHorizon_election _) (Shared.advanceHorizon_commit _) (.inl rfl))
  | _ => cases isClient

/-- What every party keeps by itself. With `strict`, re-elections do not move the start of
the proposer's term back. -/
structure Local (strict : Prop) (AcceptorOk : AcceptorId → List Event → Acceptor → Prop)
    (RequestOk : Message → Prop)
    (AnswerOk : ProposerId → AcceptorId → List Event → Message → Message → Prop)
    (ProposerOk : ProposerId → List Event → Proposer → Prop) : Prop where
  acceptorMore : ∀ {id : AcceptorId} {journal more : List Event} {acceptor : Acceptor},
    AcceptorOk id journal acceptor → (∀ p term, Event.granted p id term ∉ more) →
    AcceptorOk id (journal ++ more) acceptor
  proposerMore : ∀ {p : ProposerId} {journal more : List Event} {proposer : Proposer},
    ProposerOk p journal proposer → ProposerOk p (journal ++ more) proposer
  restart : ∀ {id : AcceptorId} {journal : List Event} {acceptor : Acceptor},
    AcceptorOk id journal acceptor → AcceptorOk id journal acceptor.restart
  process : ∀ {id : AcceptorId} {journal : List Event} {acceptor : Acceptor} {message : Message}
    (source : ProposerId), AcceptorOk id journal acceptor → RequestOk message →
    AcceptorOk id (journal ++ grants source id (acceptor.process message).2)
        (acceptor.process message).1 ∧
      AnswerOk source id (journal ++ grants source id (acceptor.process message).2) message
        (acceptor.process message).2
  crashDuring : ∀ {id : AcceptorId} {journal : List Event} {acceptor next : Acceptor}
    {message : Message} {point : Acceptor.CrashPoint}, AcceptorOk id journal acceptor →
    RequestOk message → acceptor.crashDuring message point = some next →
    AcceptorOk id journal next
  start : ∀ p journal minted chunk, ProposerOk p journal (Proposer.start minted chunk)
  pending : ∀ {p : ProposerId} {journal : List Event} {proposer : Proposer} {task : Task}
    {target : AcceptorId} {message : Message}, ProposerOk p journal proposer →
    proposer.pending task = some (target, message) → RequestOk message
  setReply : ∀ {p : ProposerId} {journal : List Event} {proposer : Proposer} {task : Task}
    {target : AcceptorId} {message answer : Message}, ProposerOk p journal proposer →
    proposer.pending task = some (target, message) → AnswerOk p target journal message answer →
    ProposerOk p journal (proposer.setReply answer task)
  kill : ∀ {p : ProposerId} {journal : List Event} {proposer : Proposer},
    ProposerOk p journal proposer → ProposerOk p journal { proposer with alive := false }
  resume : ∀ {p : ProposerId} {journal : List Event} {proposer : Proposer} {task : Task}
    {outcome : Outcome}, ProposerOk p journal proposer →
    (∀ message, outcome = .response message → proposer.reply task = some message) →
    (task = .supervisor → strict → proposer.reelectsAbove outcome = true) →
    ProposerOk p journal (proposer.resume task outcome)
  advance : ∀ {p : ProposerId} {journal : List Event} {proposer after : Proposer} {task : Task},
    ProposerOk p journal proposer → proposer.advance task = some after →
    ProposerOk p journal after
  /-- Clients, horizons and stalled waits leave the tasks and the election alone. -/
  client : ∀ {p : ProposerId} {journal : List Event} {proposer after : Proposer},
    ProposerOk p journal proposer → Served proposer after → ProposerOk p journal after

/-- Every party of the system keeps its part. -/
structure Sys.Keeps (AcceptorOk : AcceptorId → List Event → Acceptor → Prop)
    (RequestOk : Message → Prop) (ProposerOk : ProposerId → List Event → Proposer → Prop)
    (sys : Sys) : Prop where
  acceptors : ∀ id, AcceptorOk id sys.journal (sys.acceptors.get id)
  proposers : ∀ p proposer, sys.proposers[p]? = some proposer →
    ProposerOk p sys.journal proposer
  strays : ∀ stray ∈ sys.strays, RequestOk stray.message

namespace Local

variable {strict : Prop} {AcceptorOk : AcceptorId → List Event → Acceptor → Prop}
variable {RequestOk : Message → Prop}
variable {AnswerOk : ProposerId → AcceptorId → List Event → Message → Message → Prop}
variable {ProposerOk : ProposerId → List Event → Proposer → Prop}
variable {sys next : Sys} (ok : sys.Keeps AcceptorOk RequestOk ProposerOk)

/-- Nothing is asked of a system without proposers but its acceptors' parts. -/
theorem initial (new : ∀ id, AcceptorOk id [] Acceptor.new) :
    Sys.initial.Keeps AcceptorOk RequestOk ProposerOk := by
  refine ⟨fun id => ?_, fun p proposer isProposer => ?_, fun stray mem => ?_⟩
  · rw [Sys.initial, Tri.get_replicate]
    exact new id
  · cases isProposer
  · cases mem

include ok

/-- A live proposer keeps its part. -/
theorem live {id : ProposerId} {proposer : Proposer} (isLive : sys.live id = some proposer) :
    ProposerOk id sys.journal proposer :=
  ok.proposers id proposer (Sys.live_eq_some isLive)

/-- A proposer is replaced by one that keeps its part. -/
theorem set {id : ProposerId} {after : Proposer} (kept : ProposerOk id sys.journal after) :
    Sys.Keeps AcceptorOk RequestOk ProposerOk
      { sys with proposers := sys.proposers.set id after } := by
  refine ⟨ok.acceptors, fun p proposer isProposer => ?_, ok.strays⟩
  simp only [List.getElem?_set] at isProposer
  split at isProposer
  · split at isProposer
    · cases isProposer
      rename_i same _
      exact same ▸ kept
    · cases isProposer
  · exact ok.proposers p proposer isProposer

/-- An acceptor is replaced by one that keeps its part. -/
theorem setAcceptor {id : AcceptorId} {after : Acceptor} (kept : AcceptorOk id sys.journal after) :
    Sys.Keeps AcceptorOk RequestOk ProposerOk
      { sys with acceptors := sys.acceptors.set id after } := by
  refine ⟨fun other => ?_, ok.proposers, ok.strays⟩
  simp only [Tri.get_set]
  split
  · rename_i same
    exact same ▸ kept
  · exact ok.acceptors other

/-- Requests of tasks that gave up join those in flight. -/
theorem withStrays (strays : List Stray)
    (valid : ∀ stray ∈ strays, stray ∈ sys.strays ∨ RequestOk stray.message) :
    Sys.Keeps AcceptorOk RequestOk ProposerOk { sys with strays := strays } :=
  ⟨ok.acceptors, ok.proposers, fun stray mem => (valid stray mem).elim (ok.strays stray) id⟩

variable (rules : Local strict AcceptorOk RequestOk AnswerOk ProposerOk)

include rules

/-- An acceptor handles a request. -/
theorem handled (source : ProposerId) (target : AcceptorId) {message : Message}
    (requestOk : RequestOk message) :
    Sys.Keeps AcceptorOk RequestOk ProposerOk
      { sys with
        acceptors := sys.acceptors.set target ((sys.acceptors.get target).process message).1
        journal := sys.journal ++
          grants source target ((sys.acceptors.get target).process message).2 } := by
  refine ⟨fun other => ?_, fun p proposer isProposer =>
    rules.proposerMore (ok.proposers p proposer isProposer), ok.strays⟩
  simp only [Tri.get_set]
  split
  · rename_i same
    exact same ▸ (rules.process source (ok.acceptors target) requestOk).1
  · rename_i differs
    refine rules.acceptorMore (ok.acceptors other) fun p term mem => ?_
    unfold grants at mem
    split at mem
    · split at mem
      · cases List.mem_singleton.mp mem
        exact differs rfl
      · cases mem
    · cases mem

/-- Observers see events that are no grants. -/
theorem observe {more : List Event} (noGrant : NoGrant more) :
    Sys.Keeps AcceptorOk RequestOk ProposerOk { sys with journal := sys.journal ++ more } :=
  ⟨fun id => rules.acceptorMore (ok.acceptors id) fun p term => noGrant p id term,
    fun p proposer isProposer => rules.proposerMore (ok.proposers p proposer isProposer),
    ok.strays⟩

/-- A proposer moves. -/
theorem update {id : ProposerId} {before after : Proposer}
    (kept : ProposerOk id sys.journal after) :
    (sys.update id before after).Keeps AcceptorOk RequestOk ProposerOk :=
  observe (set ok kept) rules (noGrant_observed id before after)

/-- One action keeps every party's part. -/
theorem step {action : Action} (above : strict → sys.reelectsAbove action = true)
    (taken : sys.step action = some next) : next.Keeps AcceptorOk RequestOk ProposerOk := by
  cases action with
  | spawn minted chunk =>
      cases taken
      refine ⟨ok.acceptors, fun p proposer isProposer => ?_, ok.strays⟩
      rw [List.getElem?_append] at isProposer
      split at isProposer
      · exact ok.proposers p proposer isProposer
      · rw [List.mem_singleton.mp (List.mem_of_getElem? isProposer)]
        exact rules.start p sys.journal minted chunk
  | crash id =>
      simp only [Sys.step, Option.bind_eq_bind, Option.bind_eq_some_iff] at taken
      obtain ⟨proposer, isLive, same⟩ := taken
      cases same
      have proposerOk := live ok isLive
      refine set (withStrays ok (sys.strays ++ Sys.abandoned id proposer) ?_) (rules.kill proposerOk)
      intro stray mem
      rcases List.mem_append.mp mem with old | new
      · exact .inl old
      · simp only [Sys.abandoned, List.mem_filterMap] at new
        obtain ⟨task, -, left⟩ := new
        split at left
        · rename_i target message unanswered pending
          cases left
          exact .inr (rules.pending proposerOk pending)
        · cases left
  | restart id =>
      cases taken
      exact setAcceptor ok (rules.restart (ok.acceptors id))
  | deliver id task =>
      simp only [Sys.step, Option.bind_eq_bind, Option.bind_eq_some_iff] at taken
      obtain ⟨proposer, isLive, ⟨target, message⟩, pending, delivered⟩ := taken
      have proposerOk := live ok isLive
      split at delivered
      · cases delivered
      · simp only [Sys.handle_eq] at delivered
        cases delivered
        have requestOk := rules.pending proposerOk pending
        exact set (handled ok rules id target requestOk) (rules.setReply
          (rules.proposerMore proposerOk) pending
          (rules.process id (ok.acceptors target) requestOk).2)
  | deliverCrash id task point =>
      simp only [Sys.step, Option.bind_eq_bind, Option.bind_eq_some_iff] at taken
      obtain ⟨proposer, isLive, ⟨target, message⟩, pending, delivered⟩ := taken
      have proposerOk := live ok isLive
      split at delivered
      · cases delivered
      · simp only [Option.bind_eq_some_iff] at delivered
        obtain ⟨acceptor, crashed, same⟩ := delivered
        cases same
        refine update (setAcceptor ok (rules.crashDuring (ok.acceptors target)
          (rules.pending proposerOk pending) crashed)) rules (rules.resume proposerOk ?_ ?_)
        · exact fun _ isResponse => by cases isResponse
        · rintro rfl
          exact (not_crashDuring_supervisor pending crashed).elim
  | receive id task =>
      simp only [Sys.step, Option.bind_eq_bind, Option.bind_eq_some_iff] at taken
      obtain ⟨proposer, isLive, answer, reply, same⟩ := taken
      cases same
      refine update ok rules (rules.resume (live ok isLive) ?_ ?_)
      · intro message isResponse
        rw [reply, Outcome.ofMessage_response isResponse]
      · rintro rfl isStrict
        have starts := above isStrict
        have reply : proposer.supervisorReply = some answer := reply
        simpa only [Sys.reelectsAbove, isLive, reply] using starts
  | giveUp id task timedOut =>
      simp only [Sys.step, Option.bind_eq_bind, Option.bind_eq_some_iff] at taken
      obtain ⟨proposer, isLive, ⟨target, message⟩, pending, same⟩ := taken
      cases same
      have proposerOk := live ok isLive
      refine update (withStrays ok _ ?_) rules (rules.resume proposerOk ?_ ?_)
      · intro stray mem
        rcases List.mem_append.mp mem with old | new
        · exact .inl old
        · split at new
          · simp at new
          · rw [List.mem_singleton.mp new]
            exact .inr (rules.pending proposerOk pending)
      · intro response isResponse
        split at isResponse <;> cases isResponse
      · rintro rfl isStrict
        have starts := above isStrict
        simp only [Sys.reelectsAbove, isLive] at starts
        cases timedOut <;> exact starts
  | deliverStray index =>
      simp only [Sys.step, Option.bind_eq_bind, Option.bind_eq_some_iff] at taken
      obtain ⟨stray, isStray, same⟩ := taken
      simp only [Sys.handle_eq] at same
      cases same
      have requestOk := ok.strays stray (List.mem_of_getElem? isStray)
      refine handled (withStrays ok (sys.strays.eraseIdx index) ?_) rules stray.source
        stray.target requestOk
      exact fun other mem => .inl (List.mem_of_mem_eraseIdx mem)
  | strayCrash index point =>
      simp only [Sys.step, Option.bind_eq_bind, Option.bind_eq_some_iff] at taken
      obtain ⟨stray, isStray, acceptor, crashed, same⟩ := taken
      cases same
      have requestOk := ok.strays stray (List.mem_of_getElem? isStray)
      refine setAcceptor (withStrays ok (sys.strays.eraseIdx index) ?_)
        (rules.crashDuring (ok.acceptors stray.target) requestOk crashed)
      exact fun other mem => .inl (List.mem_of_mem_eraseIdx mem)
  | advance id task =>
      simp only [Sys.step, Option.bind_eq_bind, Option.bind_eq_some_iff] at taken
      obtain ⟨proposer, isLive, after, advanced, same⟩ := taken
      cases same
      exact update ok rules (rules.advance (live ok isLive) advanced)
  | _ =>
      obtain ⟨before, after, more, isLive, served, called, rfl⟩ := Sys.step_client rfl taken
      refine observe (set ok (rules.client (live ok isLive) served)) rules ?_
      intro other acceptor term mem
      rcases List.mem_append.mp mem with seen | new
      · exact noGrant_observed _ before after other acceptor term seen
      · cases called <;> simp at new

/-- Along every run every party keeps its part. -/
theorem run (run : Run Sys.step (fun sys action => strict → sys.reelectsAbove action = true)
    sys next) : next.Keeps AcceptorOk RequestOk ProposerOk :=
  run.invariant (fun _ _ _ ok above taken => step ok rules above taken) ok

end Local

end Icegres.Quorum
