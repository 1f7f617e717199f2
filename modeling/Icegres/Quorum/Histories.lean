import Icegres.Quorum.Local

/-!
# Term histories stay ordered

`up_to`, `last_log_term` and the divergence rule read a history as an ordered list.
`Quorum::open` extends the donor's history cut at its flush position, so the new entry is the
highest. A re-election extends the proposer's own history, uncut, by an entry at the donor's
flush position, which may lie below the entry before it.
-/

namespace Icegres.Quorum

open Icegres.TermLog (Switch History)

namespace Acceptor

/-- The histories of an acceptor, in memory and on disk. -/
def Ordered (acceptor : Acceptor) : Prop :=
  acceptor.state.termHistory.Ordered ∧ acceptor.ctrl.termHistory.Ordered

end Acceptor

/-- The history a request carries. -/
def Message.Ordered : Message → Prop
  | .elected _ _ history => history.Ordered
  | _ => True

/-- A vote reports an ordered history that lies at or below the flush position. -/
def Message.ReportsOrdered : Message → Prop
  | .voteResponse vote =>
      vote.termHistory.Ordered ∧ ∀ switch ∈ vote.termHistory, switch.lsn ≤ vote.flushLsn
  | _ => True

namespace Acceptor

variable {acceptor : Acceptor}

theorem Ordered.boot {ctrl : PersistentState} (ordered : ctrl.termHistory.Ordered)
    (files : List Seg) (rotateBytes : Nat) : (boot ctrl files rotateBytes).Ordered :=
  ⟨ordered, ordered⟩

theorem Ordered.bumpTerm (ordered : acceptor.Ordered) (term : Nat) :
    (acceptor.bumpTerm term).Ordered := by
  unfold Acceptor.bumpTerm
  split
  · exact ⟨ordered.1, ordered.1⟩
  · exact ordered

theorem Ordered.handleGreeting (ordered : acceptor.Ordered) (tailId : Option String) :
    (acceptor.handleGreeting tailId).1.Ordered := by
  unfold Acceptor.handleGreeting
  split
  · exact ⟨ordered.1, ordered.1⟩
  · split <;> exact ordered
  · exact ordered

theorem Ordered.handleElected (ordered : acceptor.Ordered) {history : TermHistory}
    (carried : history.Ordered) (term startLsn : Nat) :
    (acceptor.handleElected term startLsn history).1.Ordered := by
  have bumped := ordered.bumpTerm term
  simp only [Acceptor.handleElected]
  split
  · exact bumped
  · split
    · exact bumped
    · exact ⟨carried, carried⟩

theorem Ordered.handleAppend (ordered : acceptor.Ordered) (request : AppendRequest) :
    (acceptor.handleAppend request).1.Ordered := by
  unfold Acceptor.handleAppend
  split
  · exact ordered
  · split
    · exact ordered
    · split
      · exact ordered
      · split
        · exact ordered
        · simp only [applyAppend]
          split
          · exact ⟨ordered.1, ordered.1⟩
          · exact ordered

theorem Ordered.process (ordered : acceptor.Ordered) {message : Message}
    (carried : message.Ordered) :
    (acceptor.process message).1.Ordered ∧ (acceptor.process message).2.ReportsOrdered := by
  constructor
  · rw [process_fst]
    cases message with
    | greeting tailId => exact ordered.handleGreeting tailId
    | voteRequest term =>
        simp only [handleVote_fst]
        exact ordered.bumpTerm term
    | elected term startLsn history => exact ordered.handleElected carried term startLsn
    | append request => exact ordered.handleAppend request
    | _ => exact ordered
  · cases answer : (acceptor.process message).2 with
    | voteResponse vote =>
        obtain ⟨term, rfl⟩ := process_voteResponse answer
        have history : vote.termHistory = acceptor.state.termHistory.upTo vote.flushLsn := by
          simp only [Acceptor.process, handleVote] at answer
          cases answer
          simp only
          split <;> rfl
        rw [Message.ReportsOrdered, history]
        exact ⟨ordered.1.upTo _, fun switch mem => (History.mem_upTo.mp mem).2⟩
    | _ => trivial

theorem Ordered.crashDuring (ordered : acceptor.Ordered) {message : Message}
    {point : CrashPoint} {next : Acceptor}
    (crashed : acceptor.crashDuring message point = some next) : next.Ordered := by
  simp only [Acceptor.crashDuring, Option.map_eq_some_iff] at crashed
  obtain ⟨⟨ctrl, files⟩, left, rfl⟩ := crashed
  apply Ordered.boot
  cases message with
  | elected term startLsn termHistory =>
      rw [(crashElected_cases left).1]
      exact (ordered.bumpTerm term).2
  | append request =>
      obtain ⟨-, -, ⟨written, rfl, -⟩ | ⟨dropped, wal, -, rfl, -⟩⟩ := crashAppend_cases left
      · exact ordered.2
      · exact ordered.1
  | _ => cases left

end Acceptor

/-- No switch of an election's history lies above its own. -/
structure Election.Ordered (el : Election) : Prop where
  history : el.history.Ordered
  below : ∀ switch ∈ el.history, switch.term ≤ el.term ∧ switch.lsn ≤ el.termStartLsn

/-- The history the donor of the recovery reported. -/
def Opening.donorHistory (opening : Opening) : TermHistory :=
  ((opening.votes.get opening.donor).map Vote.history).getD []

/-- Each vote reports an ordered history that lies at or below its flush position. -/
def Opening.VotesOrdered (opening : Opening) : Prop :=
  ∀ id vote, opening.votes.get id = some vote →
    vote.history.Ordered ∧ ∀ switch ∈ vote.history, switch.lsn ≤ vote.flush

/-- The histories `Quorum::open` has collected; the donor's ends at the new term's start. -/
structure Opening.Ordered (opening : Opening) : Prop where
  votes : opening.VotesOrdered
  donor : match opening.pc with
    | .reading | .electing _ _ =>
        ∀ switch ∈ opening.donorHistory, switch.lsn ≤ opening.termStartLsn
    | _ => True

/-- The re-election in progress extends the proposer's history above its last term. -/
def SupervisorPc.Ordered : SupervisorPc → Prop
  | .greeting old maxTerm _ _ | .voting old maxTerm _ _ => old.Ordered ∧ old.term ≤ maxTerm
  | _ => True

/-- Every history of a proposer. -/
structure Proposer.Ordered (proposer : Proposer) : Prop where
  opening : proposer.opening.Ordered
  shared : ∀ shared, proposer.shared = some shared → shared.election.Ordered
  peers : ∀ id el, (proposer.peers.get id).election = some el → el.Ordered
  supervisor : proposer.supervisor.Ordered
  replies : ∀ task answer, proposer.reply task = some answer → answer.ReportsOrdered

namespace Opening

variable {opening : Opening}

/-- Which acceptors are still connected does not matter. -/
theorem Ordered.drop (ordered : opening.Ordered) (id : AcceptorId) : (opening.drop id).Ordered :=
  ⟨ordered.votes, ordered.donor⟩

theorem ordered_fail (votes : opening.VotesOrdered) (why : String) : (opening.fail why).Ordered :=
  ⟨votes, trivial⟩

/-- The donor's history extended by the new term. -/
theorem Ordered.newHistory (ordered : opening.Ordered) {todo : List AcceptorId} {start : Nat}
    (pc : opening.pc = .electing todo start) {history : TermHistory}
    (isNew : opening.newHistory = .ok history) :
    (opening.seed history).election.Ordered := by
  have bounded := ordered.donor
  simp only [pc] at bounded
  have reported : opening.donorHistory.Ordered := by
    unfold Opening.donorHistory
    cases vote : opening.votes.get opening.donor with
    | none => exact .nil
    | some vote' => exact (ordered.votes _ _ vote).1
  simp only [Opening.newHistory] at isNew
  change (if opening.donorHistory.lastTerm ≥ opening.term ∧ opening.donorHistory ≠ [] then
    _ else _) = _ at isNew
  split at isNew
  · cases isNew
  · rename_i newer
    cases isNew
    have above : ∀ switch ∈ opening.donorHistory,
        switch.term < opening.term ∧ switch.lsn ≤ opening.termStartLsn := by
      intro switch mem
      have highest := History.term_le_lastTerm reported.terms mem
      have some : opening.donorHistory ≠ [] := List.ne_nil_of_mem mem
      refine ⟨?_, bounded switch mem⟩
      by_contra later
      exact newer ⟨by omega, some⟩
    refine ⟨reported.concat above, ?_⟩
    intro switch mem
    rcases List.mem_append.mp mem with old | new
    · exact ⟨Nat.le_of_lt (above switch old).1, (above switch old).2⟩
    · rw [List.mem_singleton.mp new]
      exact ⟨Nat.le_refl _, Nat.le_refl _⟩

/-- Decoding leaves the donor as chosen. -/
theorem ordered_decode (votes : opening.VotesOrdered)
    (bounded : ∀ switch ∈ opening.donorHistory, switch.lsn ≤ opening.termStartLsn) :
    opening.decode.Ordered := by
  unfold Opening.decode
  split
  · exact ordered_fail votes _
  · split
    · exact ordered_fail votes _
    · exact ⟨votes, bounded⟩

/-- The new term starts at the donor's flush position. -/
theorem ordered_chooseDonor (votes : opening.VotesOrdered) : opening.chooseDonor.Ordered := by
  simp only [Opening.chooseDonor]
  split
  · exact ordered_fail votes _
  · split
    · exact ordered_fail votes _
    · rename_i donor picked
      have bounded : ∀ switch ∈ ((opening.votes.get donor).map Vote.history).getD [],
          switch.lsn ≤ ((opening.votes.get donor).map Vote.flush).getD 0 := by
        cases vote : opening.votes.get donor with
        | none => simp
        | some vote' => exact (votes _ _ vote).2
      split
      · exact ordered_fail votes _
      · split
        · exact ⟨votes, bounded⟩
        · exact ordered_decode votes bounded

/-- The vote phase goes on or ends. -/
theorem ordered_voteNext (votes : opening.VotesOrdered) (rest : List AcceptorId) :
    (Proposer.voteNext opening rest).Ordered := by
  unfold Proposer.voteNext
  split
  · exact ordered_chooseDonor votes
  · exact ⟨votes, trivial⟩

/-- The greeting phase goes on or ends. -/
theorem ordered_greetNext (votes : opening.VotesOrdered) (rest : List AcceptorId) :
    (Proposer.greetNext opening rest).Ordered := by
  unfold Proposer.greetNext
  split
  · simp only [Opening.settleIdentity]
    split
    · exact ordered_fail votes _
    · split
      · exact ⟨votes, trivial⟩
      · exact ⟨votes, trivial⟩
      · exact ordered_fail votes _
  · exact ⟨votes, trivial⟩

/-- The adoption phase goes on or ends. -/
theorem ordered_adoptNext (votes : opening.VotesOrdered) (rest : List AcceptorId) :
    (Proposer.adoptNext opening rest).Ordered := by
  unfold Proposer.adoptNext
  split <;> exact ⟨votes, trivial⟩

/-- A vote is counted. -/
theorem ordered_countVote (votes : opening.VotesOrdered) (id : AcceptorId)
    (rest : List AcceptorId) {vote : VoteResponse}
    (reports : (Message.voteResponse vote).ReportsOrdered) :
    (Proposer.countVote opening id rest vote).Ordered := by
  unfold Proposer.countVote
  split
  · exact ordered_fail votes _
  · split
    · exact ordered_fail votes _
    · apply ordered_voteNext
      intro other counted isCounted
      simp only [Tri.get_set] at isCounted
      split at isCounted
      · cases isCounted
        exact reports
      · exact votes other counted isCounted

/-- A chunk of the recovery download is counted. -/
theorem Ordered.countChunk (ordered : opening.Ordered) (pc : opening.pc = .reading)
    (fromLsn : Nat) (records : List UInt8) :
    (Proposer.countChunk opening fromLsn records).Ordered := by
  have bounded := ordered.donor
  simp only [pc] at bounded
  simp only [Proposer.countChunk]
  split
  · exact ordered_fail ordered.votes _
  · split
    · exact ordered_fail ordered.votes _
    · split
      · exact ordered_fail ordered.votes _
      · split
        · refine ⟨ordered.votes, ?_⟩
          simp only [pc]
          exact bounded
        · exact ordered_decode ordered.votes bounded

end Opening

namespace Proposer

variable {proposer : Proposer}

theorem Ordered.withShared (ordered : proposer.Ordered) {shared : Option Shared}
    (elected : ∀ moved, shared = some moved → moved.election.Ordered) :
    { proposer with shared := shared }.Ordered :=
  ⟨ordered.opening, elected, ordered.peers, ordered.supervisor, ordered.replies⟩

theorem Ordered.withOpening (ordered : proposer.Ordered) {opening : Opening}
    (openingOrdered : opening.Ordered) : { proposer with opening := opening }.Ordered :=
  ⟨openingOrdered, ordered.shared, ordered.peers, ordered.supervisor, ordered.replies⟩

/-- The elected handshakes of `Quorum::open` send the history it built. -/
theorem Ordered.electFrom {shared : Shared} (elected : shared.election.Ordered)
    (todo : List AcceptorId) (ordered : proposer.Ordered)
    (bounded : ∀ switch ∈ proposer.opening.donorHistory,
      switch.lsn ≤ proposer.opening.termStartLsn) :
    (proposer.electFrom shared todo).Ordered := by
  induction todo generalizing proposer shared with
  | nil =>
      refine ⟨⟨ordered.opening.votes, trivial⟩, ?_, ?_, trivial, ordered.replies⟩
      · rintro moved ⟨⟩
        rw [Shared.recomputeCommit_election]
        exact elected
      · intro id el isElection
        simp only [Proposer.electFrom, spawnTasks, Tri.get_map] at isElection
        split at isElection <;> cases isElection
  | cons id rest ih =>
      simp only [Proposer.electFrom]
      split
      · split
        · refine (ordered.withOpening (Opening.ordered_fail ordered.opening.votes _)).withShared ?_
          intro moved isNone
          cases isNone
        · split
          · exact ih elected (ordered.withOpening (ordered.opening.drop id)) bounded
          · rename_i start _ _
            have electing : ({ proposer.opening with pc := .electing (id :: rest) start } :
                Opening).Ordered := ⟨ordered.opening.votes, bounded⟩
            refine (ordered.withOpening electing).withShared ?_
            rintro moved ⟨⟩
            exact elected
      · exact ih elected (ordered.withOpening (ordered.opening.drop id)) bounded

/-- The decoded recovery is taken over under the extended history. -/
theorem Ordered.takeOver (ordered : proposer.Ordered) {opening : Opening}
    (openingOrdered : opening.Ordered) : (proposer.takeOver opening).Ordered := by
  unfold Proposer.takeOver
  split
  · rename_i start pc
    have bounded := openingOrdered.donor
    simp only [pc] at bounded
    split
    · exact ordered.withOpening (Opening.ordered_fail openingOrdered.votes _)
    · rename_i history isNew
      exact Ordered.electFrom (openingOrdered.newHistory pc isNew) AcceptorId.all
        (ordered.withOpening openingOrdered) bounded
  · exact ordered.withOpening openingOrdered

/-- `Quorum::open` continues with the outcome of its request. -/
theorem Ordered.resumeOpen (ordered : proposer.Ordered) {outcome : Outcome}
    (replied : ∀ message, outcome = .response message → proposer.openReply = some message) :
    (proposer.resumeOpen outcome).Ordered := by
  have openingOrdered := ordered.opening
  have votes := openingOrdered.votes
  have waiting : { proposer with openReply := none }.Ordered := by
    refine ⟨openingOrdered, ordered.shared, ordered.peers, ordered.supervisor, ?_⟩
    intro task answer reply
    cases task with
    | opener => cases reply
    | peer id => exact ordered.replies (.peer id) answer reply
    | supervisor => exact ordered.replies .supervisor answer reply
  have electing : ∀ {shared : Shared} {todo rest : List AcceptorId} {start : Nat}
      {opening : Opening}, proposer.opening.pc = .electing todo start →
      shared.election.Ordered → opening.Ordered →
      opening.donorHistory = proposer.opening.donorHistory →
      opening.termStartLsn = proposer.opening.termStartLsn →
      ({ proposer with openReply := none, opening := opening }.electFrom shared rest).Ordered := by
    intro shared todo rest start opening pc elected ordered donor begins
    have bounded := openingOrdered.donor
    simp only [pc] at bounded
    exact Ordered.electFrom elected rest (waiting.withOpening ordered)
      (by simpa only [donor, begins] using bounded)
  simp only [Proposer.resumeOpen]
  split
  · refine waiting.takeOver (Opening.ordered_greetNext ?_ _)
    exact votes
  · exact waiting.takeOver (Opening.ordered_greetNext votes _)
  · exact waiting.takeOver (Opening.ordered_adoptNext votes _)
  · refine waiting.takeOver (Opening.ordered_adoptNext ?_ _)
    exact votes
  · exact waiting.takeOver (Opening.ordered_fail votes _)
  · rename_i vote pc
    exact waiting.takeOver (Opening.ordered_countVote votes _ _
      (ordered.replies .opener _ (replied _ rfl)))
  · exact waiting.takeOver (Opening.ordered_fail votes _)
  · refine waiting.takeOver (Opening.ordered_voteNext ?_ _)
    exact votes
  · rename_i pc
    exact waiting.takeOver (openingOrdered.countChunk pc _ _)
  · exact waiting.takeOver (Opening.ordered_fail votes _)
  · rename_i id rest start term ok pc
    split
    · split
      · rename_i shared isShared
        refine electing pc ?_ openingOrdered rfl rfl
        cases stores : shared.storeAck id proposer.opening.term start with
        | none => exact ordered.shared shared isShared
        | some stored =>
            rw [Option.getD_some, Shared.storeAck_election stores]
            exact ordered.shared shared isShared
      · exact waiting
    · exact waiting.withOpening (Opening.ordered_fail votes _)
  · exact waiting.withOpening (Opening.ordered_fail votes _)
  · rename_i id rest start pc _ _
    split
    · rename_i shared isShared
      exact electing pc (ordered.shared shared isShared) (openingOrdered.drop id) rfl rfl
    · exact waiting
  · exact waiting

/-- A streaming task shakes hands for ordered elections only. -/
theorem Ordered.streamed (ordered : proposer.Ordered) {after : Proposer}
    (step : proposer.Streamed after) : after.Ordered := by
  refine ⟨step.opening ▸ ordered.opening, fun moved isMoved => ?_, fun id el isElection => ?_,
    step.supervisor ▸ ordered.supervisor, fun task answer reply => ?_⟩
  · obtain ⟨shared, isShared, election, -⟩ := step.shared moved isMoved
    exact election ▸ ordered.shared shared isShared
  · rcases step.peers id el isElection with ⟨shared, isShared, rfl⟩ | old
    · exact ordered.shared shared isShared
    · exact ordered.peers id el old
  · cases task with
    | opener => exact ordered.replies .opener answer (step.openReply.symm.trans reply)
    | peer id => exact ordered.replies (.peer id) answer (step.peerReplies id answer reply)
    | supervisor => exact ordered.replies .supervisor answer (step.supervisorReply.symm.trans reply)

theorem Ordered.withSupervisor (ordered : proposer.Ordered) (pc : SupervisorPc)
    (pcOrdered : pc.Ordered) (failures : Nat) :
    { proposer with supervisor := pc, failures := failures }.Ordered :=
  ⟨ordered.opening, ordered.shared, ordered.peers, pcOrdered, ordered.replies⟩

/-- The supervisor continues with the outcome of its request. A re-election that starts its term
no lower than the one before extends the history. -/
theorem Ordered.resumeSupervisor (ordered : proposer.Ordered) {shared : Shared}
    (isShared : proposer.shared = some shared) {outcome : Outcome}
    (above : proposer.reelectsAbove outcome = true) :
    (proposer.resumeSupervisor shared outcome).Ordered := by
  have elected := ordered.shared shared isShared
  have pcOrdered := ordered.supervisor
  have waiting : { proposer with supervisorReply := none }.Ordered := by
    refine ⟨ordered.opening, ordered.shared, ordered.peers, ordered.supervisor, ?_⟩
    intro task answer reply
    cases task with
    | opener => exact ordered.replies .opener answer reply
    | peer id => exact ordered.replies (.peer id) answer reply
    | supervisor => cases reply
  have moved := supervised isShared outcome
  generalize proposer.resumeSupervisor shared outcome = after at moved
  cases moved with
  | ignores => exact waiting
  | rests isMoved isPc =>
      refine ⟨ordered.opening, ?_, ordered.peers, ?_, waiting.replies⟩
      · rcases isMoved with rfl | ⟨why, rfl⟩ <;> rintro _ ⟨⟩ <;> exact elected
      · rcases isPc with rfl | rfl <;> trivial
  | hears asking newer isHeard isPc =>
      rw [asking] at pcOrdered
      have later := pcOrdered.2.trans newer
      rcases isPc with rfl | ⟨rfl, rfl⟩ <;>
        exact ⟨ordered.opening, ordered.shared, ordered.peers, ⟨pcOrdered.1, later⟩,
          waiting.replies⟩
  | counts asking accepted =>
      rw [asking] at pcOrdered
      exact ⟨ordered.opening, ordered.shared, ordered.peers, pcOrdered, waiting.replies⟩
  | @adopts old maxTerm id votes donor asking accepted enough picked same retained =>
      rw [asking] at pcOrdered
      obtain ⟨oldOrdered, newer⟩ := pcOrdered
      have begins := reelectsAbove_spec above asking accepted picked enough same isShared retained
      have grows : ∀ switch ∈ old.history,
          switch.term < maxTerm + 1 ∧ switch.lsn ≤ donor.2.flushLsn := by
        intro switch mem
        obtain ⟨term, lsn⟩ := oldOrdered.below switch mem
        omega
      refine ⟨ordered.opening, ?_, ordered.peers, trivial, waiting.replies⟩
      rintro moved ⟨⟩
      refine ⟨oldOrdered.history.concat grows, ?_⟩
      intro switch mem
      rcases List.mem_append.mp mem with inOld | isNew
      · exact ⟨Nat.le_of_lt (grows switch inOld).1, (grows switch inOld).2⟩
      · rw [List.mem_singleton.mp isNew]
        exact ⟨Nat.le_refl _, Nat.le_refl _⟩

/-- The supervisor takes the next request. -/
theorem Ordered.advanceSupervisor (ordered : proposer.Ordered) {shared : Shared}
    (isShared : proposer.shared = some shared) {after : Proposer}
    (advanced : proposer.advanceSupervisor shared = some after) : after.Ordered := by
  have elected := ordered.shared shared isShared
  simp only [Proposer.advanceSupervisor] at advanced
  split at advanced
  · rename_i reason requests _ _
    have taken : { proposer with shared := some { shared with requests := requests } }.Ordered := by
      refine ordered.withShared ?_
      rintro moved ⟨⟩
      exact elected
    split at advanced
    · cases advanced
      exact taken.withSupervisor .exited trivial _
    · split at advanced
      · cases advanced
        exact taken
      · cases advanced
        exact taken.withSupervisor (.greeting shared.election shared.election.term _ _)
          ⟨elected, Nat.le_refl _⟩ _
  · cases advanced

/-- `Quorum::open` takes one step of its final wait. -/
theorem Ordered.advanceOpen (ordered : proposer.Ordered) {shared : Shared} {after : Proposer}
    (advanced : proposer.advanceOpen shared = some after) : after.Ordered := by
  unfold Proposer.advanceOpen at advanced
  split at advanced
  · split at advanced
    · cases advanced
      exact ordered.withOpening (Opening.ordered_fail ordered.opening.votes _)
    · split at advanced
      · cases advanced
        exact ordered.withOpening ⟨ordered.opening.votes, trivial⟩
      · cases advanced
  · cases advanced

/-- A request carries the history of an election. -/
theorem Ordered.pending (ordered : proposer.Ordered) {task : Task} {target : AcceptorId}
    {message : Message} (isPending : proposer.pending task = some (target, message)) :
    message.Ordered := by
  cases task with
  | opener =>
      simp only [Proposer.pending, Opening.pending] at isPending
      split at isPending
      case h_5 =>
        simp only [Option.map_eq_some_iff, Prod.mk.injEq] at isPending
        obtain ⟨shared, isShared, rfl, rfl⟩ := isPending
        exact (ordered.shared shared isShared).history
      case h_6 => cases isPending
      all_goals
        cases isPending
        trivial
  | peer id =>
      simp only [Proposer.pending, Option.bind_eq_some_iff, Option.map_eq_some_iff,
        Prod.mk.injEq] at isPending
      obtain ⟨shared, isShared, request, waits, rfl, rfl⟩ := isPending
      have elected := ordered.peers id
      cases pc : proposer.peers.get id with
      | electing el start =>
          rw [pc] at waits elected
          cases waits
          exact (elected el rfl).history
      | greeting | voting | appending =>
          rw [pc] at waits
          cases waits
          trivial
      | _ =>
          rw [pc] at waits
          cases waits
  | supervisor =>
      simp only [Proposer.pending, Option.bind_eq_some_iff, SupervisorPc.pending] at isPending
      obtain ⟨shared, -, waits⟩ := isPending
      split at waits <;> cases waits <;> trivial

end Proposer

/-- Every party keeps its histories ordered, as long as re-elections do not move the start of
the proposer's term back. -/
theorem local_ordered :
    Local True (fun _ _ => Acceptor.Ordered) Message.Ordered
      (fun _ _ _ _ => Message.ReportsOrdered) (fun _ _ => Proposer.Ordered) where
  acceptorMore ordered _ := ordered
  proposerMore ordered := ordered
  restart ordered := Acceptor.Ordered.boot ordered.2 _ _
  process _ ordered carried := ordered.process carried
  crashDuring ordered _ crashed := ordered.crashDuring crashed
  start _ _ minted chunk := by
    refine ⟨⟨?_, trivial⟩, ?_, ?_, trivial, ?_⟩
    · intro id vote isVote
      simp [Proposer.start, Opening.start] at isVote
    · intro shared isShared
      cases isShared
    · intro id el isElection
      simp [Proposer.start, PeerPc.election] at isElection
    · intro task answer reply
      cases task <;> simp [Proposer.start, Proposer.reply] at reply
  pending ordered isPending := ordered.pending isPending
  setReply {_ _ proposer task _ _ answer} ordered _ reports := by
    have replies : ∀ other message, (proposer.setReply answer task).reply other = some message →
        message.ReportsOrdered := by
      intro other message reply
      cases task <;> cases other <;>
        simp only [Proposer.setReply, Proposer.reply, Tri.get_set] at reply
      case peer.peer =>
        split at reply
        · cases reply
          exact reports
        · exact ordered.replies (.peer _) message reply
      case opener.opener | supervisor.supervisor =>
        cases reply
        exact reports
      case opener.peer | supervisor.peer => exact ordered.replies (.peer _) message reply
      case opener.supervisor | peer.supervisor => exact ordered.replies .supervisor message reply
      case peer.opener | supervisor.opener => exact ordered.replies .opener message reply
    cases task <;>
      exact ⟨ordered.opening, ordered.shared, ordered.peers, ordered.supervisor, replies⟩
  kill ordered :=
    ⟨ordered.opening, ordered.shared, ordered.peers, ordered.supervisor, ordered.replies⟩
  resume {_ _ proposer task outcome} ordered replied above := by
    unfold Proposer.resume
    split
    · exact ordered.resumeOpen replied
    · rename_i isShared
      exact ordered.streamed (Proposer.streamed_resumePeer isShared _ outcome)
    · rename_i isShared
      exact ordered.resumeSupervisor isShared (above rfl trivial)
    · exact ordered
  advance {_ _ proposer after task} ordered advanced := by
    unfold Proposer.advance at advanced
    split at advanced
    · exact ordered.advanceOpen advanced
    · rename_i isShared
      exact ordered.streamed (Proposer.streamed_advancePeer isShared advanced)
    · rename_i isShared
      exact ordered.advanceSupervisor isShared advanced
    · cases advanced
  client {_ _ proposer after} ordered served := by
    cases served with
    | @intro shared moved pc waiters isShared election _ waits =>
        refine ⟨⟨ordered.opening.votes, ?_⟩, ?_, ordered.peers, ordered.supervisor,
          ordered.replies⟩
        · rcases waits with rfl | ⟨-, ⟨stalled, rfl⟩ | ⟨why, rfl⟩⟩
          · exact ordered.opening.donor
          · trivial
          · trivial
        · rintro other ⟨⟩
          rw [election]
          exact ordered.shared shared isShared

namespace Sys

/-- The histories the parties built, sent, reported or stored. -/
inductive Carries (sys : Sys) : TermHistory → Prop where
  | stored (id : AcceptorId) : Carries sys (sys.acceptors.get id).state.termHistory
  | persisted (id : AcceptorId) : Carries sys (sys.acceptors.get id).ctrl.termHistory
  /-- Built by `Quorum::open` or a re-election. -/
  | built {proposer : Proposer} {shared : Shared} (mem : proposer ∈ sys.proposers)
      (isShared : proposer.shared = some shared) : Carries sys shared.election.history
  /-- Sent to an acceptor that has not answered yet. -/
  | sent {proposer : Proposer} {task : Task} {target : AcceptorId} {term start : Nat}
      {history : TermHistory} (mem : proposer ∈ sys.proposers)
      (isPending : proposer.pending task = some (target, .elected term start history)) :
      Carries sys history
  /-- Sent by a task that no longer waits. -/
  | stray {source : ProposerId} {target : AcceptorId} {term start : Nat} {history : TermHistory}
      (mem : ⟨source, target, .elected term start history⟩ ∈ sys.strays) : Carries sys history
  /-- Reported with a vote. -/
  | reported {proposer : Proposer} {task : Task} {vote : VoteResponse}
      (mem : proposer ∈ sys.proposers)
      (answered : proposer.reply task = some (.voteResponse vote)) : Carries sys vote.termHistory

/-- Re-elections of a run never move the start of the proposer's term back. -/
def StartsAbove (sys : Sys) (action : Action) : Prop :=
  sys.reelectsAbove action = true

end Sys

/-- In every run whose re-elections start their term at or above the one before, every history
is ordered. -/
theorem ordered_of_startsAbove {sys : Sys} (run : Run Sys.step Sys.StartsAbove Sys.initial sys)
    {history : TermHistory} (carried : sys.Carries history) : history.Ordered := by
  have kept := Local.run (Local.initial fun _ => ⟨.nil, .nil⟩) local_ordered
    (run.weaken fun _ _ above _ => above)
  have ordered : ∀ proposer ∈ sys.proposers, proposer.Ordered := fun proposer mem =>
    (List.getElem?_of_mem mem).elim fun p isProposer => kept.proposers p proposer isProposer
  cases carried with
  | stored id => exact (kept.acceptors id).1
  | persisted id => exact (kept.acceptors id).2
  | built mem isShared => exact ((ordered _ mem).shared _ isShared).history
  | sent mem isPending => exact (ordered _ mem).pending isPending
  | stray mem => exact kept.strays _ mem
  | reported mem answered => exact ((ordered _ mem).replies _ _ answered).1

/-- One record reaches one acceptor. The first wait for its commit stalls, and the
re-election that follows starts its term at that acceptor's end. -/
def stalledTwice : List Action :=
  [.spawn "tail" 64] ++ calls 0 .opener 12 ++
    [.advance 0 .opener, .submit 0 .frame "" 1 (Segment.Bytes.ofList [1])] ++
    streams 0 .first ++
    [.waitCommit 0 30, .waitCommit 0 30, .waiterStall 0 0, .waiterStall 0 1,
      .advance 0 .supervisor] ++
    calls 0 .supervisor 2 ++ [.giveUp 0 .supervisor false] ++ calls 0 .supervisor 2

/-- The history of the re-election, stored by an acceptor. -/
theorem ordered_of_startsAbove_stalledTwice :
    let sys := execute Sys.step Sys.reelectsAbove Sys.initial
      (stalledTwice ++ reconnects 0 .first 3)
    (sys.acceptors.get .first).state.termHistory = [⟨1, 0⟩, ⟨2, 30⟩] ∧
      History.Ordered (sys.acceptors.get .first).state.termHistory := by
  refine ⟨by decide +kernel, ?_⟩
  exact ordered_of_startsAbove (run_execute (fun _ _ above => above) Sys.initial _) (.stored .first)

/-- The second re-election reaches the other two acceptors only, which hold nothing. -/
def reelectedBelow : List Action :=
  stalledTwice ++ [.advance 0 .supervisor, .giveUp 0 .supervisor false] ++ calls 0 .supervisor 4

/-- A reachable state in which the third term starts below the second. -/
theorem not_ordered_reelectedBelow :
    let sys := execute Sys.step (fun _ _ => true) Sys.initial reelectedBelow
    Run Sys.step Unrestricted Sys.initial sys ∧
      ∃ history, sys.Carries history ∧ ¬ history.Ordered := by
  refine ⟨run_execute (fun _ _ _ => trivial) Sys.initial reelectedBelow, ?_⟩
  generalize reached : execute Sys.step (fun _ _ => true) Sys.initial reelectedBelow = sys
  have built : sys.proposers[0]?.bind (fun proposer => proposer.shared.map fun shared =>
      shared.election.history) = some [⟨1, 0⟩, ⟨2, 30⟩, ⟨3, 0⟩] := by
    rw [← reached]
    decide +kernel
  simp only [Option.bind_eq_some_iff, Option.map_eq_some_iff] at built
  obtain ⟨proposer, isProposer, shared, isShared, history⟩ := built
  refine ⟨_, .built (List.mem_of_getElem? isProposer) isShared, ?_⟩
  rw [history]
  decide

end Icegres.Quorum
