import Icegres.Quorum.Recovery

/-!
# Taking the term over

With the recovered records decoded, `Quorum::open` owns its term: this is the protocol's
election step. The elected handshakes follow, and after the last one the tasks are spawned.
-/

namespace Icegres.Quorum

open Icegres.TermLog

variable {strict : Prop} {limit : Nat} {abs : Protocol} {p : ProposerId}

/-- Protocol steps of one proposer. -/
structure OwnSteps (p : ProposerId) (abs next : Protocol) : Prop where
  steps : Steps Record.frameLen majorities abs next
  term : next.term = abs.term
  adopted : next.adopted = abs.adopted
  flush : next.flush = abs.flush
  durable : next.durable = abs.durable
  ceil : next.ceil = abs.ceil
  others : ∀ q ≠ p, next.current q = abs.current q ∧ next.log q = abs.log q ∧
    ∀ term, next.owner term = some q → abs.owner term = some q

namespace OwnSteps

variable {next : Protocol}

theorem refl : OwnSteps p abs abs :=
  ⟨.refl, rfl, rfl, rfl, rfl, rfl, fun _ _ => ⟨rfl, rfl, fun _ owned => owned⟩⟩

theorem after (steps : OwnSteps p abs next) (formed : Formed abs) : After abs next :=
  ⟨formed, (WellFormed.steps Record.frameLen_pos formed steps.steps).1,
    (WellFormed.steps Record.frameLen_pos formed steps.steps).2⟩

theorem later (steps : OwnSteps p abs next) (formed : Formed abs) {q : ProposerId}
    (different : q ≠ p) : Later q abs next :=
  ⟨steps.after formed, (steps.others q different).1, (steps.others q different).2.1,
    (steps.others q different).2.2⟩

/-- Acceptors follow the state after steps of a proposer. -/
theorem follows (steps : OwnSteps p abs next) (formed : Formed abs) {acceptor : Acceptor}
    {id : AcceptorId} (follows : Follows acceptor abs id) : Follows acceptor next id := by
  have after := steps.after formed
  refine ⟨follows.persistedTerm, follows.persistedHistory, follows.persistedHorizon, ?_, ?_, ?_⟩
  · rw [steps.term]
    exact follows.term
  · rw [steps.adopted, follows.history]
    by_cases elected : abs.owner (abs.adopted id) = none
    · have none : abs.adopted id = 0 := by
        by_contra adopted
        exact formed.adopted_elected id adopted elected
      have unelected : next.owner 0 = Option.none := by
        by_contra someOwner
        have := after.formed.elected_pos someOwner
        omega
      rw [none] at elected ⊢
      rw [formed.hist_unelected 0 elected, after.formed.hist_unelected 0 unelected]
    · rw [after.grows.hist_stays _ elected]
  · refine ⟨by rw [steps.flush]; exact follows.log.flush, follows.log.layout, ?_,
      by rw [steps.durable]; exact follows.log.durable⟩
    obtain ⟨before, isFront, start⟩ := follows.log.copy
    rw [steps.adopted]
    exact ⟨before, isFront.trans (formed.logOf_grows after.grows _), start⟩

end OwnSteps

/-- The votes of an opening proposer are a quorum of ballots given to it. -/
theorem Donates.wins {opening : Opening} {ballot : Ballot ProposerId}
    (donates : Donates strict limit abs p opening ballot)
    (votes : ∀ id vote, opening.votes.get id = some vote →
      VoteOk strict limit abs p opening.term id vote) :
    abs.Wins majorities p opening.term {id | (opening.votes.get id).isSome} := by
  obtain ⟨a, b, different, votedA, votedB⟩ := donates.quorum
  refine ⟨⟨a, b, different, votedA, votedB⟩, ?_⟩
  intro id voted
  obtain ⟨vote, given⟩ := Option.isSome_iff_exists.mp voted
  obtain ⟨ballot, ballotEq, candidate, -⟩ := (votes id vote given).reported
  exact ⟨ballot, ballotEq, candidate⟩

/-- Nobody has taken over a term that an ownerless proposer won. -/
theorem unowned_of_wins (formed : Formed abs) (unowned : abs.current p = 0) {term : Nat}
    {voters : Set AcceptorId} (wins : abs.Wins majorities p term voters) :
    abs.owner term = none := by
  cases owned : abs.owner term with
  | none => rfl
  | some other =>
      obtain ⟨others, othersWin⟩ := formed.elected_wins term other owned
      obtain rfl := wins.unique othersWin
      exact absurd unowned (formed.current_ne_zero owned)

section Elect

variable {opening : Opening} {ballot : Ballot ProposerId}

/-- The state in which the opening proposer owns its term and the donor's records. -/
def elected (abs : Protocol) (p : ProposerId) (opening : Opening) (history : TermHistory)
    (log : List Record) : Protocol :=
  { abs with
    owner := Function.update abs.owner opening.term (some p)
    hist := Function.update abs.hist opening.term history
    current := Function.update abs.current p opening.term
    log := Function.update abs.log p log }

variable (formed : Formed abs) (unowned : abs.current p = 0)
variable (votes : ∀ id vote, opening.votes.get id = some vote →
  VoteOk strict limit abs p opening.term id vote)
variable (donates : Donates strict limit abs p opening ballot)
variable {before : List Record}
variable (isFront : before ++ opening.recovered <+: abs.logOf ballot.adopted)
variable (ends : framesLen (before ++ opening.recovered) = opening.termStartLsn)
variable {history : TermHistory} (newHistory : opening.newHistory = .ok history)

include donates newHistory in
private theorem history_eq : history =
    abs.effective ballot.adopted ballot.flush ++ [⟨opening.term, ballot.flush⟩] := by
  simp only [Opening.newHistory, donates.history] at newHistory
  split at newHistory
  · cases newHistory
  · cases newHistory
    rw [donates.flush]

include unowned votes donates isFront ends newHistory in
/-- The election step. -/
theorem ownSteps_elected :
    OwnSteps p abs (elected abs p opening history (before ++ opening.recovered)) := by
  have wins := donates.wins votes
  refine ⟨.single (.elect p opening.term {id | (opening.votes.get id).isSome} opening.donor ballot
    history (before ++ opening.recovered) wins donates.voted donates.given ?_ ?_),
    rfl, rfl, rfl, rfl, rfl, ?_⟩
  · intro id voted other otherEq
    obtain ⟨vote, given⟩ := Option.isSome_iff_exists.mp voted
    obtain ⟨same, sameEq, -, flushEq, -, termEq⟩ := (votes id vote given).reported
    rw [otherEq] at sameEq
    obtain rfl : other = same := by simpa using sameEq
    have most := donates.most id vote given
    rw [termEq, flushEq] at most
    exact most
  · rw [history_eq donates newHistory]
    exact .opened unowned isFront (by rw [endOf_frameLen, ends, donates.flush])
  · intro q different
    refine ⟨by simp [elected, different], by simp [elected, different], ?_⟩
    intro term owned
    by_cases isTerm : term = opening.term
    · subst isTerm
      have : p = q := by simpa [elected] using owned
      exact absurd this.symm different
    · simpa [elected, isTerm] using owned

include formed unowned donates ends newHistory in
/-- The proposer owns its term, and only that. -/
theorem tookOver_elected (beforeEnds : framesLen before = opening.truncateLsn) :
    TookOver strict limit
      (elected abs p opening history (before ++ opening.recovered)) p opening := by
  refine ⟨by simp [elected], ?_, ⟨abs.effective ballot.adopted ballot.flush, ?_⟩,
    ⟨before, ?_, beforeEnds, ends⟩, donates.within⟩
  · intro term owned
    by_cases isTerm : term = opening.term
    · omega
    · have old : abs.owner term = some p := by simpa [elected, isTerm] using owned
      exact absurd unowned (formed.current_ne_zero old)
  · simp [elected, history_eq donates newHistory, donates.flush]
  · simp [elected]

include donates ends newHistory in
/-- The shared state seeded with the recovered suffix. -/
theorem sharedOk_seed (beforeEnds : framesLen before = opening.truncateLsn) :
    SharedOk strict limit (elected abs p opening history (before ++ opening.recovered)) p
      opening.truncateLsn (opening.seed history) := by
  refine ⟨⟨by simp [elected, Opening.seed], by simp [elected, Opening.seed]⟩,
    by simp [elected, Opening.seed], ⟨abs.effective ballot.adopted ballot.flush, ?_⟩,
    ⟨before, by simp [elected, Opening.seed, LogBuf.recovered], beforeEnds⟩, ?_, ?_,
    .inl (Nat.zero_le _), Nat.le_refl _, Nat.le_refl _, Nat.le_max_left _ _, donates.within⟩
  · rw [history_eq donates newHistory, donates.flush]
    rfl
  · simpa [elected, Opening.seed, LogBuf.recovered] using ends.symm
  · intro id
    left
    simp [Opening.seed]

include formed unowned donates newHistory in
/-- No switch of the new history lies above the recovered end. -/
theorem early_seed :
    Early (elected abs p opening history (before ++ opening.recovered)) p opening
      (opening.seed history) := by
  refine ⟨rfl, ?_⟩
  intro term owned switch mem
  by_cases isTerm : term = opening.term
  · subst isTerm
    have inHistory : switch ∈ history := by simpa [elected] using mem
    rw [history_eq donates newHistory, donates.flush] at inHistory
    rcases List.mem_append.mp inHistory with inherited | isLast
    · exact (History.mem_upTo.mp inherited).2
    · simp only [List.mem_singleton] at isLast
      simp [isLast]
  · have old : abs.owner term = some p := by simpa [elected, isTerm] using owned
    exact absurd unowned (formed.current_ne_zero old)

include donates newHistory in
/-- An opened history is ordered when the donor's was. -/
theorem ordered_elected (ordered : abs.Ordered) :
    (elected abs p opening history (before ++ opening.recovered)).Ordered := by
  intro term
  by_cases isTerm : term = opening.term
  · subst isTerm
    have shape : (elected abs p opening history (before ++ opening.recovered)).hist opening.term =
        abs.effective ballot.adopted ballot.flush ++ [⟨opening.term, ballot.flush⟩] := by
      simp [elected, history_eq donates newHistory]
    rw [shape, List.pairwise_append]
    refine ⟨(ordered ballot.adopted).filter _, List.pairwise_singleton _ _, ?_⟩
    intro earlier inherited later isLast
    simp only [List.mem_singleton] at isLast
    rw [isLast]
    exact (History.mem_upTo.mp inherited).2
  · have same : (elected abs p opening history (before ++ opening.recovered)).hist term =
        abs.hist term := by simp [elected, isTerm]
    rw [same]
    exact ordered term

include isFront in
theorem consecutive_elected (logs : ∀ q, Consecutive 0 (abs.log q)) (q : ProposerId) :
    Consecutive 0 ((elected abs p opening history (before ++ opening.recovered)).log q) := by
  by_cases isP : q = p
  · subst isP
    have log : Consecutive 0 (abs.logOf ballot.adopted) := by
      unfold State.logOf
      split
      · exact logs _
      · trivial
    obtain ⟨rest, shape⟩ := isFront
    rw [← shape, Consecutive.append] at log
    simpa [elected] using log.1
  · simpa [elected, isP] using logs q

end Elect

section Handshakes

/-- A proposer that has taken its term over and is about to shake hands. -/
structure Handshaking (strict : Prop) (limit : Nat) (abs : Protocol) (p : ProposerId)
    (proposer : Proposer) (shared : Shared) (todo : List AcceptorId) : Prop where
  tookOver : TookOver strict limit abs p proposer.opening
  votes : ∀ id vote, proposer.opening.votes.get id = some vote →
    VoteOk strict limit abs p proposer.opening.term id vote
  taskless : proposer.Taskless
  sharedOk : SharedOk strict limit abs p proposer.opening.truncateLsn shared
  early : Early abs p proposer.opening shared
  term : shared.election.term = proposer.opening.term
  conns : ∀ id, proposer.opening.conns.get id = true → id ∉ todo →
    proposer.opening.term ≤ abs.adopted id
  openReply : proposer.openReply = none
  peerReplies : ∀ id, proposer.peerReplies.get id = none
  supervisorReply : proposer.supervisorReply = none

/-- A proposer without tasks. -/
theorem proposerOk_taskless {proposer : Proposer}
    (opening : OpenOk strict limit abs p proposer)
    (openReply : ∀ answer, proposer.openReply = some answer →
      OpenReplyOk strict limit abs p proposer answer)
    (shared : ∀ shared, proposer.shared = some shared →
      SharedOk strict limit abs p proposer.opening.truncateLsn shared)
    (taskless : proposer.Taskless) (peerReplies : ∀ id, proposer.peerReplies.get id = none)
    (supervisorReply : proposer.supervisorReply = none) :
    ProposerOk strict limit abs p proposer where
  opening := opening
  openReply := openReply
  shared isShared same := ⟨shared isShared same, by rw [taskless.2]; trivial⟩
  taskless _ := taskless
  peers id := by
    rw [taskless.1 id]
    trivial
  peerReplies id answer reply := by
    rw [peerReplies id] at reply
    cases reply
  supervisorReply answer reply := by
    rw [supervisorReply] at reply
    cases reply

/-- A proposer that gave up before its tasks were spawned. -/
theorem proposerOk_failed {proposer : Proposer} (why : String)
    (pc : proposer.opening.pc = .failed why) (openReply : proposer.openReply = none)
    (shared : ∀ shared, proposer.shared = some shared →
      SharedOk strict limit abs p proposer.opening.truncateLsn shared)
    (taskless : proposer.Taskless) (peerReplies : ∀ id, proposer.peerReplies.get id = none)
    (supervisorReply : proposer.supervisorReply = none) :
    ProposerOk strict limit abs p proposer := by
  refine proposerOk_taskless ?_ ?_ shared taskless peerReplies supervisorReply
  · simp only [OpenOk, pc]
  · intro answer reply
    rw [openReply] at reply
    cases reply

namespace Handshaking

variable {proposer : Proposer} {shared : Shared}

/-- The next acceptor is skipped. -/
theorem skip {id : AcceptorId} {rest : List AcceptorId} {moved : Shared}
    (shaking : Handshaking strict limit abs p proposer shared (id :: rest))
    (sharedOk : SharedOk strict limit abs p proposer.opening.truncateLsn moved)
    (election : moved.election = shared.election) (log : moved.log = shared.log) :
    Handshaking strict limit abs p { proposer with opening := proposer.opening.drop id } moved
      rest where
  tookOver := ⟨shaking.tookOver.owner, shaking.tookOver.least, shaking.tookOver.hist,
    shaking.tookOver.recovered, shaking.tookOver.within⟩
  votes := shaking.votes
  taskless := shaking.taskless
  sharedOk := sharedOk
  early := ⟨by rw [log]; exact shaking.early.head, shaking.early.starts⟩
  term := by
    rw [election]
    exact shaking.term
  conns other connected notIn := by
    simp only [Opening.drop, Tri.get_set] at connected
    split at connected
    · cases connected
    · rename_i different
      exact shaking.conns other connected (by simp [different, notIn])
  openReply := shaking.openReply
  peerReplies := shaking.peerReplies
  supervisorReply := shaking.supervisorReply

/-- After the last handshake the tasks are spawned. -/
theorem spawnTasks (shaking : Handshaking strict limit abs p proposer shared []) :
    ProposerOk strict limit abs p { proposer with shared := some shared }.spawnTasks := by
  have kept : shared.recomputeCommit.election = shared.election ∧
      shared.recomputeCommit.log = shared.log := by
    simp only [Shared.recomputeCommit]
    split <;> exact ⟨rfl, rfl⟩
  constructor
  case opening =>
    simp only [OpenOk, Proposer.spawnTasks]
    refine ⟨⟨shaking.tookOver.owner, shaking.tookOver.least, shaking.tookOver.hist,
      shaking.tookOver.recovered, shaking.tookOver.within⟩, ?_⟩
    rintro other ⟨⟩
    exact ⟨by rw [kept.2]; exact shaking.early.head, shaking.early.starts⟩
  case openReply =>
    intro answer reply
    have none := shaking.openReply
    simp only [Proposer.spawnTasks, none] at reply
    cases reply
  case shared =>
    rintro other ⟨⟩
    exact ⟨shaking.sharedOk.recomputeCommit, trivial⟩
  case taskless =>
    intro none
    simp [Proposer.spawnTasks] at none
  case peers =>
    intro id
    simp only [Proposer.spawnTasks, Tri.get_map]
    split
    · rename_i connected
      exact ⟨shaking.tookOver.owner, shaking.conns id connected (by simp)⟩
    · trivial
  case peerReplies =>
    intro id answer reply
    have none := shaking.peerReplies id
    simp only [Proposer.spawnTasks, none] at reply
    cases reply
  case supervisorReply =>
    intro answer reply
    have none := shaking.supervisorReply
    simp only [Proposer.spawnTasks, none] at reply
    cases reply

/-- The handshakes from any acceptor on. -/
theorem electFrom {todo : List AcceptorId}
    (shaking : Handshaking strict limit abs p proposer shared todo) :
    ProposerOk strict limit abs p (proposer.electFrom shared todo) := by
  induction todo generalizing proposer shared with
  | nil => exact shaking.spawnTasks
  | cons id rest ih =>
      rw [Proposer.electFrom]
      split
      · rename_i vote connected voted
        split
        · rename_i why failed
          exact proposerOk_failed _ rfl shaking.openReply (by simp) shaking.taskless
            shaking.peerReplies shaking.supervisorReply
        · rename_i start computed
          split
          · exact ih (shaking.skip (shaking.sharedOk.setFailed id) rfl rfl)
          · refine proposerOk_taskless ?_ ?_ ?_ shaking.taskless shaking.peerReplies
              shaking.supervisorReply
            · simp only [OpenOk]
              refine ⟨⟨shaking.tookOver.owner, shaking.tookOver.least, shaking.tookOver.hist,
                shaking.tookOver.recovered, shaking.tookOver.within⟩, shaking.votes,
                shaking.taskless, shared, rfl, ⟨shaking.early.head, shaking.early.starts⟩,
                shaking.term, shaking.conns, ?_⟩
              intro target isHead none
              obtain rfl : id = target := by simpa using isHead
              obtain ⟨noHistory, noFlush⟩ := (shaking.votes id vote voted).fresh none
              rw [noHistory, noFlush] at computed
              rw [computeStart_fresh computed]
              exact shaking.sharedOk.truncate_le
            · intro answer reply
              have none := shaking.openReply
              simp only [none] at reply
              cases reply
            · rintro other ⟨⟩
              exact shaking.sharedOk
      · exact ih (shaking.skip shaking.sharedOk rfl rfl)

end Handshaking

end Handshakes

/-- What a step of a proposer's own brings the system to. -/
structure Stepped (strict : Prop) (limit : Nat) (p : ProposerId) (abs next : Protocol)
    (after : Proposer) : Prop where
  steps : OwnSteps p abs next
  proposerOk : ProposerOk strict limit next p after
  ordered : strict → abs.Ordered → next.Ordered
  logs : (∀ q, Consecutive 0 (abs.log q)) → ∀ q, Consecutive 0 (next.log q)

theorem Stepped.quiet {after : Proposer} (ok : ProposerOk strict limit abs p after) :
    Stepped strict limit p abs abs after :=
  ⟨.refl, ok, fun _ ordered => ordered, fun logs => logs⟩

section Open

variable {before : Proposer}

/-- Tasks that do not exist find no answers. -/
theorem ProposerOk.unanswered (ok : ProposerOk strict limit abs p before)
    (taskless : before.Taskless) :
    (∀ id, before.peerReplies.get id = none) ∧ before.supervisorReply = none := by
  constructor
  · intro id
    cases reply : before.peerReplies.get id with
    | none => rfl
    | some answer =>
        have replyOk := ok.peerReplies id answer reply
        rw [taskless.1 id] at replyOk
        exact replyOk.elim
  · cases reply : before.supervisorReply with
    | none => rfl
    | some answer =>
        have replyOk := ok.supervisorReply answer reply
        rw [taskless.2] at replyOk
        exact replyOk.elim

/-- An opening proposer takes its term over as soon as the records are decoded. -/
theorem takeOver_stepped (formed : Formed abs) (proposer : Proposer)
    (unowned : abs.current p = 0) (unshared : proposer.shared = none)
    (taskless : proposer.Taskless) (openReply : proposer.openReply = none)
    (peerReplies : ∀ id, proposer.peerReplies.get id = none)
    (supervisorReply : proposer.supervisorReply = none) {opening : Opening}
    (stage : StageOk strict limit abs p opening) :
    ∃ next, Stepped strict limit p abs next (proposer.takeOver opening) := by
  have waits : OpenOk strict limit abs p { proposer with opening := opening } →
      ∃ next, Stepped strict limit p abs next { proposer with opening := opening } := by
    intro openOk
    refine ⟨abs, .quiet (proposerOk_taskless openOk ?_ ?_ taskless peerReplies
      supervisorReply)⟩
    · intro answer reply
      simp only [openReply] at reply
      cases reply
    · intro shared isShared
      simp only [unshared] at isShared
      cases isShared
  have idle : abs.current p = 0 ∧ proposer.shared = none ∧
      Proposer.Taskless { proposer with opening := opening } := ⟨unowned, unshared, taskless⟩
  unfold StageOk at stage
  unfold Proposer.takeOver
  cases pc : opening.pc with
  | electing todo start =>
      cases todo with
      | cons id rest => simp only [pc] at stage
      | nil =>
          simp only [pc] at stage
          obtain ⟨votes, ballot, donates, front, isFront, frontEnds, ends⟩ := stage
          cases newHistory : opening.newHistory with
          | error why =>
              refine ⟨abs, .quiet (proposerOk_failed why rfl openReply ?_ taskless
                peerReplies supervisorReply)⟩
              intro shared isShared
              simp only [unshared] at isShared
              cases isShared
          | ok history =>
              have steps := ownSteps_elected unowned votes donates isFront ends newHistory
              refine ⟨_, steps, Handshaking.electFrom ?_, fun _ ordered =>
                ordered_elected donates newHistory ordered,
                fun logs => consecutive_elected isFront logs⟩
              refine ⟨tookOver_elected formed unowned donates ends newHistory frontEnds, ?_,
                taskless, sharedOk_seed donates ends newHistory frontEnds,
                early_seed formed unowned donates newHistory, rfl, ?_, openReply, peerReplies,
                supervisorReply⟩
              · exact fun id vote given =>
                  (steps.after formed).voteOk (Nat.le_refl _) (votes id vote given)
              · intro id _ notIn
                cases id <;> simp [AcceptorId.all] at notIn
  | greeting todo =>
      simp only [pc] at stage
      refine waits ?_
      simp only [OpenOk, pc]
      exact ⟨idle, stage⟩
  | adopting todo =>
      simp only [pc] at stage
      refine waits ?_
      simp only [OpenOk, pc]
      exact ⟨idle, stage⟩
  | voting todo =>
      simp only [pc] at stage
      refine waits ?_
      simp only [OpenOk, pc]
      exact ⟨idle, stage⟩
  | reading =>
      simp only [pc] at stage
      obtain ⟨votes, ballot, reads⟩ := stage
      refine waits ?_
      simp only [OpenOk, pc]
      refine ⟨idle, votes, ballot, reads, ?_⟩
      intro fromLsn bytes reply
      rw [openReply] at reply
      cases reply
  | failed why =>
      refine waits ?_
      simp only [OpenOk, pc]
  | waiting | returned => simp only [pc] at stage

/-- The greeting phases collect no votes. -/
private theorem stageOk_unvoted {opening : Opening} (votes : ∀ id, opening.votes.get id = none) :
    StageOk strict limit abs p opening.settleIdentity ∧
      StageOk strict limit abs p opening.campaign := by
  constructor
  · simp only [Opening.settleIdentity]
    split
    · exact stageOk_fail _ _
    · split
      · exact votes
      · exact votes
      · exact stageOk_fail _ _
  · intro id vote given
    simp only [Opening.campaign, votes id] at given
    cases given

private theorem stageOk_greetNext {opening : Opening} (votes : ∀ id, opening.votes.get id = none)
    (rest : List AcceptorId) : StageOk strict limit abs p (Proposer.greetNext opening rest) := by
  unfold Proposer.greetNext
  split
  · exact (stageOk_unvoted votes).1
  · exact votes

private theorem stageOk_adoptNext (opening : Opening) (votes : ∀ id, opening.votes.get id = none)
    (rest : List AcceptorId) : StageOk strict limit abs p (Proposer.adoptNext opening rest) := by
  unfold Proposer.adoptNext
  split
  · exact (stageOk_unvoted votes).2
  · exact votes

/-- An answer that is dropped changes nothing else. -/
theorem ProposerOk.clearOpenReply (ok : ProposerOk strict limit abs p before) :
    ProposerOk strict limit abs p { before with openReply := none } := by
  refine ⟨?_, ?_, ok.shared, ok.taskless, ok.peers, ok.peerReplies, ok.supervisorReply⟩
  · have openOk := ok.opening
    unfold OpenOk at openOk ⊢
    simp only at openOk ⊢
    split <;> rename_i pc <;> rw [pc] at openOk <;> try exact openOk
    obtain ⟨unowned, votes, ballot, reads, -⟩ := openOk
    exact ⟨unowned, votes, ballot, reads, by simp⟩
  · intro answer reply
    cases reply

/-- A proposer gives up during its handshakes. -/
private theorem ProposerOk.failOpen (ok : ProposerOk strict limit abs p before)
    (taskless : before.Taskless) (why : String) :
    ProposerOk strict limit abs p
      { before with openReply := none, opening := before.opening.fail why } :=
  proposerOk_failed why rfl rfl (fun shared isShared => (ok.shared shared isShared).1)
    taskless (ok.unanswered taskless).1 (ok.unanswered taskless).2

/-- The handshakes go on behind an acceptor that answered or was given up. -/
private theorem ProposerOk.handshaking (ok : ProposerOk strict limit abs p before)
    {id : AcceptorId} {rest : List AcceptorId} {start : Nat}
    (pc : before.opening.pc = .electing (id :: rest) start) :
    ∃ shared, before.shared = some shared ∧
      Handshaking strict limit abs p { before with openReply := none } shared (id :: rest) := by
  have openOk := ok.opening
  simp only [OpenOk, pc] at openOk
  obtain ⟨tookOver, votes, taskless, shared, isShared, early, term, conns, -⟩ := openOk
  exact ⟨shared, isShared, tookOver, votes, taskless, (ok.shared shared isShared).1, early, term,
    conns, rfl, (ok.unanswered taskless).1, (ok.unanswered taskless).2⟩

/-- `Quorum::open` continues with the outcome of its request. -/
theorem resumeOpen_stepped (formed : Formed abs) (logs : ∀ q, Consecutive 0 (abs.log q))
    (ok : ProposerOk strict limit abs p before) {outcome : Outcome}
    (replied : ∀ message, outcome = .response message → before.openReply = some message) :
    ∃ next, Stepped strict limit p abs next (before.resumeOpen outcome) := by
  have openOk := ok.opening
  have answered := fun message isMessage => ok.openReply message (replied message isMessage)
  have unanswered := ok.unanswered
  unfold OpenOk at openOk
  simp only at openOk
  unfold OpenReplyOk at answered
  -- before the take-over every branch ends in a stage
  have staged : ∀ {opening : Opening},
      abs.current p = 0 ∧ before.shared = none ∧ before.Taskless →
      StageOk strict limit abs p opening → ∃ next, Stepped strict limit p abs next
        ({ before with openReply := none }.takeOver opening) := by
    rintro opening ⟨unowned, unshared, taskless⟩ stage
    exact takeOver_stepped formed { before with openReply := none } unowned unshared
      taskless rfl (unanswered taskless).1 (unanswered taskless).2 stage
  simp only [Proposer.resumeOpen]
  split
  · rename_i pc
    simp only [pc] at openOk
    refine staged openOk.1 (stageOk_greetNext ?_ _)
    exact openOk.2
  · rename_i pc _
    simp only [pc] at openOk
    exact staged openOk.1 (stageOk_greetNext openOk.2 _)
  · rename_i pc
    simp only [pc] at openOk
    exact staged openOk.1 (stageOk_adoptNext before.opening openOk.2 _)
  · rename_i pc
    simp only [pc] at openOk
    exact staged openOk.1 (stageOk_adoptNext (before.opening.drop _) openOk.2 _)
  · rename_i pc _ _
    simp only [pc] at openOk
    exact staged openOk.1 (stageOk_fail _ _)
  · rename_i id rest vote pc
    simp only [pc] at openOk answered
    obtain ⟨reply, within⟩ := answered _ rfl
    exact staged openOk.1 (stageOk_countVote formed logs openOk.2 reply
      (fun isStrict => within isStrict vote rfl) rest)
  · rename_i _ pc
    simp only [pc] at openOk
    exact staged openOk.1 (stageOk_fail _ _)
  · rename_i id rest pc _ _
    simp only [pc] at openOk
    have votes : ∀ other vote, (before.opening.drop id).votes.get other = some vote →
        VoteOk strict limit abs p (before.opening.drop id).term other vote := openOk.2
    exact staged openOk.1 (stageOk_voteNext formed logs votes rest)
  · rename_i fromLsn records pc
    simp only [pc] at openOk
    obtain ⟨unowned, votes, ballot, reads, chunk⟩ := openOk
    have log : Consecutive 0 (abs.logOf ballot.adopted) := by
      unfold State.logOf
      split
      · exact logs _
      · trivial
    exact staged unowned (reads.stageOk_countChunk formed log pc votes
      (chunk fromLsn records (replied _ rfl)))
  · rename_i pc _
    simp only [pc] at openOk
    exact staged openOk.1 (stageOk_fail _ _)
  · rename_i id rest start term accepted pc
    simp only [pc] at openOk answered
    obtain ⟨-, -, taskless, shared, isShared, -⟩ := openOk
    obtain ⟨same, sameShared, shaking⟩ := ok.handshaking pc
    obtain rfl : shared = same := by
      rw [isShared] at sameShared
      simpa using sameShared
    cases accepted with
    | false =>
        simp only [Bool.false_eq_true, if_false]
        exact ⟨abs, .quiet (ok.failOpen taskless _)⟩
    | true =>
        simp only [if_true, isShared]
        obtain ⟨adopted, acked⟩ := answered _ rfl []
        have horizon : before.horizon = shared.horizon := by simp [Proposer.horizon, isShared]
        rw [horizon] at acked
        refine ⟨abs, .quiet (Handshaking.electFrom ?_)⟩
        have stored : SharedOk strict limit abs p before.opening.truncateLsn
            ((shared.storeAck id before.opening.term start).getD shared) ∧
            ((shared.storeAck id before.opening.term start).getD shared).election =
              shared.election ∧
            ((shared.storeAck id before.opening.term start).getD shared).log = shared.log := by
          cases stores : shared.storeAck id before.opening.term start with
          | none => exact ⟨shaking.sharedOk, rfl, rfl⟩
          | some stored =>
              refine ⟨shaking.sharedOk.storeAck acked stores, ?_⟩
              simp only [Shared.storeAck] at stores
              split at stores
              · cases stores
              · cases stores
                simp only [Option.getD_some, Shared.recomputeCommit]
                split <;> exact ⟨rfl, rfl⟩
        refine ⟨shaking.tookOver, shaking.votes, shaking.taskless, stored.1,
          ⟨by rw [stored.2.2]; exact shaking.early.head, shaking.early.starts⟩,
          by rw [stored.2.1]; exact shaking.term, ?_, rfl, shaking.peerReplies,
          shaking.supervisorReply⟩
        intro other connected notIn
        by_cases isId : other = id
        · subst isId
          exact adopted
        · exact shaking.conns other connected (by simp [isId, notIn])
  · rename_i _ pc
    simp only [pc] at openOk
    exact ⟨abs, .quiet (ok.failOpen openOk.2.2.1 _)⟩
  · rename_i id rest start pc _ _
    obtain ⟨shared, isShared, shaking⟩ := ok.handshaking pc
    split
    · rename_i same sameShared
      obtain rfl : shared = same := by
        rw [isShared] at sameShared
        simpa using sameShared
      exact ⟨abs, .quiet (Handshaking.electFrom (shaking.skip shaking.sharedOk rfl rfl))⟩
    · exact ⟨abs, .quiet ok.clearOpenReply⟩
  · exact ⟨abs, .quiet ok.clearOpenReply⟩

end Open

end Icegres.Quorum
