import Icegres.Quorum.TakeOver

/-!
# Internal re-election

The supervisor campaigns above every term it hears of and keeps its own log, provided the
donor's history is its own as far as the donor goes. This is the protocol's second election
rule. The new term starts at the donor's end, which may lie below the start of the term
before it.
-/

namespace Icegres.Quorum

open Icegres.TermLog

variable {strict : Prop} {limit : Nat} {abs : Protocol} {p : ProposerId}

/-- The donor is a voter that no voter is ahead of. -/
theorem reelectionDonor_spec {votes : List (AcceptorId × VoteResponse)}
    {donor : AcceptorId × VoteResponse} (nodup : (votes.map Prod.fst).Nodup)
    (picked : Proposer.reelectionDonor votes = some donor) :
    donor ∈ votes ∧ ∀ other ∈ votes, other.2.lastLogTerm < donor.2.lastLogTerm ∨
      other.2.lastLogTerm = donor.2.lastLogTerm ∧ other.2.flushLsn ≤ donor.2.flushLsn := by
  simp only [Proposer.reelectionDonor, Option.bind_eq_some_iff] at picked
  obtain ⟨id, isPicked, found⟩ := picked
  obtain ⟨term, flush, member, most⟩ := pickDonor_spec isPicked
  have inVotes := List.mem_of_find?_eq_some found
  have isDonor : donor.1 = id := by simpa using List.find?_some found
  simp only [List.mem_map, Prod.mk.injEq, Prod.exists] at member
  obtain ⟨same, vote, voted, rfl, rfl, rfl⟩ := member
  -- ids are distinct, so the vote that was found is the one that won
  have isVote : donor = (same, vote) :=
    List.inj_on_of_nodup_map nodup inVotes voted isDonor
  subst isVote
  refine ⟨inVotes, fun other otherVoted => ?_⟩
  exact most (other.1, other.2.lastLogTerm, other.2.flushLsn)
    (List.mem_map.mpr ⟨other, otherVoted, rfl⟩)

/-- Two distinct voters. -/
theorem exists_two_of_nodup {ids : List AcceptorId} (nodup : ids.Nodup)
    (enough : ¬ ids.length < quorum) : ∃ a b, a ≠ b ∧ a ∈ ids ∧ b ∈ ids := by
  match ids, nodup, enough with
  | [], _, enough => simp [quorum] at enough
  | [_], _, enough => simp [quorum] at enough
  | a :: b :: _, nodup, _ =>
      refine ⟨a, b, ?_, by simp, by simp⟩
      rintro rfl
      simp at nodup

section Finish

variable {before : Proposer} {shared : Shared} {old : Election} {maxTerm : Nat}
variable {votes : List (AcceptorId × VoteResponse)}

/-- The state in which the proposer owns the new term and its log as before. -/
def reelected (abs : Protocol) (p : ProposerId) (term : Nat) (history : TermHistory) : Protocol :=
  { abs with
    owner := Function.update abs.owner term (some p)
    hist := Function.update abs.hist term history
    current := Function.update abs.current p term
    log := Function.update abs.log p (abs.log p) }

variable (ok : ProposerOk strict limit abs p before) (isShared : before.shared = some shared)
variable (isOld : old = shared.election) (newer : old.term ≤ maxTerm)
variable (nodup : (votes.map Prod.fst).Nodup)
variable (reported : ∀ vote ∈ votes, Reported abs p vote.1 (maxTerm + 1) vote.2.flushLsn
  vote.2.lastLogTerm vote.2.termHistory)
variable {donor : AcceptorId × VoteResponse}
variable (picked : Proposer.reelectionDonor votes = some donor)
variable (same : donor.2.termHistory = old.history.upTo donor.2.flushLsn)

include ok isShared isOld newer nodup reported picked same

/-- The election step. -/
theorem ownSteps_reelected (formed : Formed abs) (enough : ¬ votes.length < quorum) :
    OwnSteps p abs (reelected abs p (maxTerm + 1)
      (old.history ++ [⟨maxTerm + 1, donor.2.flushLsn⟩])) := by
  obtain ⟨sharedOk, -⟩ := ok.shared shared isShared
  obtain ⟨donorIn, most⟩ := reelectionDonor_spec nodup picked
  obtain ⟨ballot, given, candidate, flushEq, historyEq, termEq⟩ := reported donor donorIn
  subst isOld
  have current := sharedOk.current
  have owned : abs.current p ≠ 0 := formed.current_ne_zero sharedOk.elects.1
  have wins : abs.Wins majorities p (maxTerm + 1) {id | id ∈ votes.map Prod.fst} := by
    obtain ⟨a, b, different, aIn, bIn⟩ := exists_two_of_nodup nodup (by simpa using enough)
    refine ⟨⟨a, b, different, aIn, bIn⟩, ?_⟩
    intro id voted
    obtain ⟨vote, voteIn, rfl⟩ := List.mem_map.mp voted
    obtain ⟨other, otherEq, otherCandidate, -⟩ := reported vote voteIn
    exact ⟨other, otherEq, otherCandidate⟩
  refine ⟨.single (.elect p (maxTerm + 1) {id | id ∈ votes.map Prod.fst} donor.1 ballot _
    (abs.log p) wins (List.mem_map_of_mem donorIn) given ?_ ?_), rfl, rfl, rfl, rfl, rfl, ?_⟩
  · intro id voted other otherEq
    obtain ⟨vote, voteIn, rfl⟩ := List.mem_map.mp voted
    obtain ⟨sameBallot, sameEq, -, voteFlush, -, voteTerm⟩ := reported vote voteIn
    rw [otherEq] at sameEq
    obtain rfl : other = sameBallot := by simpa using sameEq
    have behind := most vote voteIn
    rw [voteTerm, voteFlush, termEq, flushEq] at behind
    exact behind
  · have inherits : Inherits Record.frameLen abs p (maxTerm + 1) ballot _ _ :=
      .reelected owned (by omega) (by
        rw [← historyEq, same, State.effective, current, sharedOk.elects.2, flushEq])
    rw [current, sharedOk.elects.2, ← flushEq] at inherits
    exact inherits
  · intro q different
    refine ⟨by simp [reelected, different], by simp [reelected], ?_⟩
    intro term ownedTerm
    by_cases isTerm : term = maxTerm + 1
    · subst isTerm
      have isP : p = q := by simpa [reelected] using ownedTerm
      exact absurd isP.symm different
    · simpa [reelected, isTerm] using ownedTerm

/-- A successful re-election. -/
theorem adoptTerm_stepped (formed : Formed abs) (enough : ¬ votes.length < quorum)
    (past : before.PastHandshakes) (unanswered : before.supervisorReply = none)
    (retained : ¬ (donor.2.flushLsn < shared.log.base ∨ donor.2.flushLsn > shared.log.head))
    (above : strict → old.termStartLsn ≤ donor.2.flushLsn) :
    ∃ next, Stepped strict limit p abs next
      { before with
        shared := some (shared.adoptTerm
          { term := maxTerm + 1
            termStartLsn := donor.2.flushLsn
            history := old.history ++ [⟨maxTerm + 1, donor.2.flushLsn⟩] })
        supervisor := .idle
        failures := 0 } := by
  obtain ⟨sharedOk, -⟩ := ok.shared shared isShared
  have steps := ownSteps_reelected ok isShared isOld newer nodup reported picked same formed enough
  have after := steps.after formed
  subst isOld
  have sameLog : ∀ q, (reelected abs p (maxTerm + 1)
      (shared.election.history ++ [⟨maxTerm + 1, donor.2.flushLsn⟩])).log q = abs.log q := by
    intro q
    simp [reelected]
  have beforeHorizon : before.horizon = shared.horizon := by simp [Proposer.horizon, isShared]
  refine ⟨_, steps, ⟨?_, ?_, ?_, ?_, ?_, ?_, ?_⟩, ?_, fun logs q => by rw [sameLog]; exact logs q⟩
  · -- the opener waits, has returned or has given up
    have openOk := ok.opening
    have tookOver : TookOver strict limit abs p before.opening →
        TookOver strict limit (reelected abs p (maxTerm + 1)
          (shared.election.history ++ [⟨maxTerm + 1, donor.2.flushLsn⟩])) p before.opening := by
      intro took
      refine ⟨after.owner took.owner, ?_, by rw [after.hist took.owner]; exact took.hist,
        by rw [sameLog]; exact took.recovered, took.within⟩
      intro term owned
      by_cases isTerm : term = maxTerm + 1
      · have := formed.owner_le_current _ _ took.owner
        have := sharedOk.current
        omega
      · exact took.least term (by simpa [reelected, isTerm] using owned)
    rcases past with ⟨stalled, pc⟩ | pc | ⟨why, pc⟩
    · simp only [OpenOk, pc] at openOk ⊢
      obtain ⟨took, early⟩ := openOk
      have wasEarly := early shared isShared
      refine ⟨tookOver took, ?_⟩
      rintro other ⟨⟩
      refine ⟨wasEarly.head, ?_⟩
      intro term owned switch mem
      by_cases isTerm : term = maxTerm + 1
      · subst isTerm
        have inHistory : switch ∈ shared.election.history ++
            [⟨maxTerm + 1, donor.2.flushLsn⟩] := by simpa [reelected] using mem
        rcases List.mem_append.mp inHistory with inherited | isLast
        · exact wasEarly.starts shared.election.term sharedOk.elects.1 switch
            (by rw [sharedOk.elects.2]; exact inherited)
        · simp only [List.mem_singleton] at isLast
          have := wasEarly.head
          simp only [isLast]
          omega
      · exact wasEarly.starts term (by simpa [reelected, isTerm] using owned) switch
          (by simpa [reelected, isTerm] using mem)
    · simp only [OpenOk, pc] at openOk ⊢
      exact tookOver openOk
    · simp only [OpenOk, pc]
  · intro answer reply
    have replyOk := ok.openReply answer reply
    rcases past with ⟨stalled, pc⟩ | pc | ⟨why, pc⟩ <;>
      simp only [OpenReplyOk, pc] at replyOk
  · rintro other ⟨⟩
    refine ⟨?_, trivial⟩
    refine ⟨⟨by simp [reelected, Shared.adoptTerm], by simp [reelected, Shared.adoptTerm]⟩,
      by simp [reelected, Shared.adoptTerm], ⟨shared.election.history, rfl⟩, ?_, ?_, ?_, ?_,
      sharedOk.base_le, sharedOk.truncate_le, sharedOk.horizon_le, sharedOk.within⟩
    · rw [sameLog]
      exact sharedOk.records
    · rw [sameLog]
      exact sharedOk.head
    · intro id
      left
      simp [Shared.adoptTerm]
    · rcases sharedOk.committed with low | committed
      · exact .inl low
      · exact .inr (after.committed committed)
  · intro none
    cases none
  · intro id
    have pcOk := ok.peers id
    rw [beforeHorizon] at pcOk
    exact after.pcOk (Nat.le_refl _) (Nat.le_refl _) pcOk
  · intro id answer reply
    have replyOk := ok.peerReplies id answer reply
    rw [beforeHorizon] at replyOk
    exact after.peerReplyOk (Nat.le_refl _) replyOk
  · intro answer reply
    have none : before.supervisorReply = some answer := reply
    rw [unanswered] at none
    cases none
  · -- the new start is at or above the old one, which is the highest of the history
    intro isStrict ordered term
    by_cases isTerm : term = maxTerm + 1
    · subst isTerm
      have shape : (reelected abs p (maxTerm + 1) (shared.election.history ++
          [⟨maxTerm + 1, donor.2.flushLsn⟩])).hist (maxTerm + 1) =
          shared.election.history ++ [⟨maxTerm + 1, donor.2.flushLsn⟩] := by simp [reelected]
      have oldOrdered := ordered shared.election.term
      rw [sharedOk.elects.2] at oldOrdered
      rw [shape, List.pairwise_append]
      refine ⟨oldOrdered, List.pairwise_singleton _ _, ?_⟩
      intro earlier inherited later isLast
      simp only [List.mem_singleton] at isLast
      rw [isLast]
      obtain ⟨front, last⟩ := sharedOk.last
      rw [last, List.pairwise_append] at oldOrdered
      rw [last] at inherited
      have start := above isStrict
      rcases List.mem_append.mp inherited with old | isStart
      · exact (oldOrdered.2.2 earlier old ⟨shared.election.term, shared.election.termStartLsn⟩
          (by simp)).trans start
      · simp only [List.mem_singleton] at isStart
        rw [isStart]
        exact start
    · have unchanged : (reelected abs p (maxTerm + 1) (shared.election.history ++
          [⟨maxTerm + 1, donor.2.flushLsn⟩])).hist term = abs.hist term := by
        simp [reelected, isTerm]
      rw [unchanged]
      exact ordered term

end Finish

/-- The votes once the outcome of the request to `id` is in. -/
def tally (votes : List (AcceptorId × VoteResponse)) (id : AcceptorId) :
    Outcome → List (AcceptorId × VoteResponse)
  | .response (.voteResponse vote) => votes ++ [(id, vote)]
  | _ => votes

/-- An outcome that is no vote leaves the votes as they are. -/
theorem tally_of_noVote {outcome : Outcome}
    (noVote : ∀ vote, outcome = .response (.voteResponse vote) → False)
    (votes : List (AcceptorId × VoteResponse)) (id : AcceptorId) :
    tally votes id outcome = votes := by
  unfold tally
  split
  · exact (noVote _ rfl).elim
  · rfl

/-- The outcome is a vote that ends the re-election. -/
def refusesVote (maxTerm : Nat) : Outcome → Bool
  | .response (.voteResponse vote) => vote.term > maxTerm + 1 || !vote.granted
  | _ => false

theorem refusesVote_of_noVote {outcome : Outcome}
    (noVote : ∀ vote, outcome = .response (.voteResponse vote) → False) (maxTerm : Nat) :
    refusesVote maxTerm outcome = false := by
  unfold refusesVote
  split
  · exact (noVote _ rfl).elim
  · rfl

/-- The donor of a re-election that would succeed ends at or above the start of the term the
proposer holds. -/
def Proposer.reelectsAbove (proposer : Proposer) (outcome : Outcome) : Bool :=
  match proposer.supervisor with
  | .voting old maxTerm [id] votes =>
      let votes := tally votes id outcome
      match Proposer.reelectionDonor votes with
      | some (_, donor) =>
          let trimmed := proposer.shared.any fun shared =>
            donor.flushLsn < shared.log.base || donor.flushLsn > shared.log.head
          refusesVote maxTerm outcome || votes.length < quorum ||
            donor.termHistory ≠ old.history.upTo donor.flushLsn || trimmed ||
            old.termStartLsn ≤ donor.flushLsn
      | none => true
  | _ => true

/-- A re-election that succeeds starts its term at or above the one before. -/
theorem Proposer.reelectsAbove_spec {proposer : Proposer} {outcome : Outcome}
    (above : proposer.reelectsAbove outcome = true) {old : Election} {maxTerm : Nat}
    {id : AcceptorId} {counted : List (AcceptorId × VoteResponse)}
    (pc : proposer.supervisor = .voting old maxTerm [id] counted)
    (accepted : refusesVote maxTerm outcome = false)
    {donor : AcceptorId × VoteResponse}
    (picked : Proposer.reelectionDonor (tally counted id outcome) = some donor)
    (enough : ¬ (tally counted id outcome).length < quorum)
    (same : donor.2.termHistory = old.history.upTo donor.2.flushLsn)
    {shared : Shared} (isShared : proposer.shared = some shared)
    (retained : ¬ (donor.2.flushLsn < shared.log.base ∨ donor.2.flushLsn > shared.log.head)) :
    old.termStartLsn ≤ donor.2.flushLsn := by
  simp only [Proposer.reelectsAbove, pc, picked, isShared, accepted, Option.any_some,
    Bool.or_eq_true, decide_eq_true_eq] at above
  rcases above with (((refused | few) | different) | trimmed) | starts
  · cases refused
  · exact absurd few enough
  · exact absurd same different
  · exact absurd trimmed retained
  · exact starts

/-- What the supervisor makes of the outcome of its request. -/
inductive Supervised (before : Proposer) (shared : Shared) (outcome : Outcome) :
    Proposer → Prop where
  | ignores : Supervised before shared outcome { before with supervisorReply := none }
  /-- The re-election is over without a new term. -/
  | rests {moved : Shared} {pc : SupervisorPc} {failures : Nat}
      (isMoved : moved = shared ∨ ∃ why, moved = shared.poisonWith why)
      (isPc : pc = .idle ∨ pc = .exited) :
      Supervised before shared outcome { before with
        supervisorReply := none, shared := some moved, supervisor := pc, failures := failures }
  | hears {old : Election} {maxTerm next : Nat} {id : AcceptorId} {todo conns heard : List AcceptorId}
      {pc : SupervisorPc} (asking : before.supervisor = .greeting old maxTerm (id :: todo) conns)
      (newer : maxTerm ≤ next) (isHeard : heard = conns ∨ heard = conns ++ [id])
      (isPc : pc = .greeting old next todo heard ∨ todo = [] ∧ pc = .voting old next heard []) :
      Supervised before shared outcome { before with supervisorReply := none, supervisor := pc }
  | counts {old : Election} {maxTerm : Nat} {id : AcceptorId} {todo : List AcceptorId}
      {votes : List (AcceptorId × VoteResponse)}
      (asking : before.supervisor = .voting old maxTerm (id :: todo) votes)
      (accepted : refusesVote maxTerm outcome = false) :
      Supervised before shared outcome { before with
        supervisorReply := none
        supervisor := .voting old maxTerm todo (tally votes id outcome) }
  | adopts {old : Election} {maxTerm : Nat} {id : AcceptorId}
      {votes : List (AcceptorId × VoteResponse)} {donor : AcceptorId × VoteResponse}
      (asking : before.supervisor = .voting old maxTerm [id] votes)
      (accepted : refusesVote maxTerm outcome = false)
      (enough : ¬ (tally votes id outcome).length < quorum)
      (picked : Proposer.reelectionDonor (tally votes id outcome) = some donor)
      (same : donor.2.termHistory = old.history.upTo donor.2.flushLsn)
      (retained : ¬ (donor.2.flushLsn < shared.log.base ∨ donor.2.flushLsn > shared.log.head)) :
      Supervised before shared outcome { before with
        supervisorReply := none
        shared := some (shared.adoptTerm
          { term := maxTerm + 1
            termStartLsn := donor.2.flushLsn
            history := old.history ++ [⟨maxTerm + 1, donor.2.flushLsn⟩] })
        supervisor := .idle
        failures := 0 }

/-- What is true of the votes and of the one that was accepted is true of the tally. -/
theorem forall_tally {P : AcceptorId × VoteResponse → Prop} {maxTerm : Nat} {id : AcceptorId}
    {votes : List (AcceptorId × VoteResponse)} {outcome : Outcome}
    (accepted : refusesVote maxTerm outcome = false) (all : ∀ vote ∈ votes, P vote)
    (last : ∀ vote, outcome = .response (.voteResponse vote) → vote.granted = true →
      P (id, vote)) : ∀ vote ∈ tally votes id outcome, P vote := by
  unfold tally
  split
  · rename_i vote
    have granted : vote.granted = true := by
      simp only [refusesVote, Bool.or_eq_false_iff, Bool.not_eq_false'] at accepted
      exact accepted.2
    intro other mem
    rcases List.mem_append.mp mem with old | new
    · exact all other old
    · rw [List.mem_singleton.mp new]
      exact last vote rfl granted
  · exact all

/-- Each acceptor is asked once. -/
theorem nodup_heard {id : AcceptorId} {todo conns heard : List AcceptorId}
    (isHeard : heard = conns ∨ heard = conns ++ [id]) (nodup : (conns ++ id :: todo).Nodup) :
    (heard ++ todo).Nodup := by
  rcases isHeard with rfl | rfl
  · exact nodup.sublist (by simp)
  · simpa using nodup

theorem nodup_tally {id : AcceptorId} {todo : List AcceptorId}
    {votes : List (AcceptorId × VoteResponse)} (outcome : Outcome)
    (nodup : (votes.map Prod.fst ++ id :: todo).Nodup) :
    ((tally votes id outcome).map Prod.fst ++ todo).Nodup := by
  unfold tally
  split
  · simpa using nodup
  · exact nodup.sublist (by simp)

/-- The supervisor continues with the outcome of its request. -/
theorem Proposer.supervised {before : Proposer} {shared : Shared}
    (isShared : before.shared = some shared) (outcome : Outcome) :
    Supervised before shared outcome (before.resumeSupervisor shared outcome) := by
  have failed : ∀ why, Supervised before shared outcome
      ({ before with supervisorReply := none }.reelectFailed shared why) := by
    intro why
    simp only [reelectFailed]
    split
    · exact .rests (.inr ⟨_, rfl⟩) (.inr rfl)
    · have rests : Supervised before shared outcome { before with
          supervisorReply := none, shared := some shared, supervisor := .idle
          failures := before.failures + 1 } := .rests (.inl rfl) (.inl rfl)
      rw [← isShared] at rests
      exact rests
  have greetNext : ∀ {old : Election} {maxTerm next : Nat} {id : AcceptorId}
      {todo conns heard : List AcceptorId},
      before.supervisor = .greeting old maxTerm (id :: todo) conns → maxTerm ≤ next →
      (heard = conns ∨ heard = conns ++ [id]) → Supervised before shared outcome
        ({ before with supervisorReply := none }.reelectGreetNext shared old next todo heard) := by
    intro old maxTerm next id todo conns heard asking newer isHeard
    unfold reelectGreetNext
    split
    · exact .hears asking newer isHeard (.inl rfl)
    · split
      · exact failed _
      · exact .hears asking newer isHeard (.inr ⟨rfl, rfl⟩)
  have voteNext : ∀ {old : Election} {maxTerm : Nat} {id : AcceptorId} {todo : List AcceptorId}
      {votes : List (AcceptorId × VoteResponse)},
      before.supervisor = .voting old maxTerm (id :: todo) votes →
      refusesVote maxTerm outcome = false → Supervised before shared outcome
        ({ before with supervisorReply := none }.reelectVoteNext shared old maxTerm todo
          (tally votes id outcome)) := by
    intro old maxTerm id todo votes asking accepted
    unfold reelectVoteNext
    split
    · exact .counts asking accepted
    · unfold finishReelection
      split
      · exact failed _
      · rename_i enough
        split
        · exact failed _
        · rename_i donorId donor picked
          split
          · exact .rests (.inr ⟨_, rfl⟩) (.inr rfl)
          · rename_i same
            split
            · exact failed _
            · rename_i retained
              exact .adopts asking accepted enough picked (by simpa using same) retained
  simp only [resumeSupervisor]
  split
  · rename_i pc
    exact greetNext pc (Nat.le_max_left _ _) (.inr rfl)
  · rename_i pc _
    exact greetNext pc (Nat.le_refl _) (.inl rfl)
  · rename_i pc
    split
    · exact .rests (.inr ⟨_, rfl⟩) (.inr rfl)
    · rename_i counts
      exact voteNext pc (by simpa [refusesVote] using counts)
  · rename_i old maxTerm id todo counted pc noVote
    rw [← tally_of_noVote noVote counted id]
    exact voteNext pc (refusesVote_of_noVote noVote maxTerm)
  · exact .ignores

section Supervisor

variable {before : Proposer} {shared : Shared}

/-- The supervisor moves and finds no answer afterwards. -/
private theorem supervisorStep {after : Proposer} {moved : Shared}
    (isShared : before.shared = some shared) (opening : after.opening = before.opening)
    (openReply : after.openReply = before.openReply) (peers : after.peers = before.peers)
    (peerReplies : after.peerReplies = before.peerReplies)
    (unanswered : after.supervisorReply = none) (movedShared : after.shared = some moved)
    (sharedOk : SharedOk strict limit abs p before.opening.truncateLsn moved)
    (election : moved.election = shared.election) (horizon : moved.horizon = shared.horizon)
    (head : moved.log.head = shared.log.head)
    (supervisor : SupervisorOk abs p moved after.supervisor) :
    TaskStep strict limit abs p before after shared moved where
  opening := opening
  openReply := openReply
  isShared := isShared
  movedShared := movedShared
  sharedOk := sharedOk
  election := election
  horizon := Nat.le_of_eq horizon.symm
  head := head
  supervisor := .inr supervisor
  supervisorReply answer reply := by
    rw [unanswered] at reply
    cases reply
  peers id := .inl ⟨by rw [peers], by rw [peerReplies]⟩

variable (formed : Formed abs) (ok : ProposerOk strict limit abs p before)
variable (isShared : before.shared = some shared) (past : before.PastHandshakes)

include formed ok isShared past

/-- The supervisor moves on to the next acceptor. -/
private theorem supervisor_stepped {pc : SupervisorPc} (pcOk : SupervisorOk abs p shared pc) :
    ∃ next, Stepped strict limit p abs next
      { before with supervisorReply := none, supervisor := pc } := by
  obtain ⟨sharedOk, -⟩ := ok.shared shared isShared
  exact ⟨abs, .quiet (ok.taskStep formed (Nat.le_refl _) past (supervisorStep isShared rfl rfl
    rfl rfl rfl isShared sharedOk rfl rfl rfl pcOk))⟩

/-- The supervisor continues with the outcome of its request. -/
theorem resumeSupervisor_stepped {outcome : Outcome}
    (replied : ∀ message, outcome = .response message → before.supervisorReply = some message)
    (above : strict → before.reelectsAbove outcome = true) :
    ∃ next, Stepped strict limit p abs next (before.resumeSupervisor shared outcome) := by
  obtain ⟨sharedOk, supervisorOk⟩ := ok.shared shared isShared
  have reported : ∀ {old : Election} {maxTerm : Nat} {id : AcceptorId} {todo : List AcceptorId}
      {votes : List (AcceptorId × VoteResponse)},
      before.supervisor = .voting old maxTerm (id :: todo) votes →
      refusesVote maxTerm outcome = false → ∀ vote ∈ tally votes id outcome,
        Reported abs p vote.1 (maxTerm + 1) vote.2.flushLsn vote.2.lastLogTerm
          vote.2.termHistory := by
    intro old maxTerm id todo votes asking accepted
    rw [asking] at supervisorOk
    refine forall_tally accepted supervisorOk.2.2.2 ?_
    rintro vote rfl granted
    have replyOk := ok.supervisorReply _ (replied _ rfl)
    rw [asking] at replyOk
    exact (replyOk.1 granted).2
  have cleared : ProposerOk strict limit abs p { before with supervisorReply := none } :=
    ⟨ok.opening, ok.openReply, ok.shared, ok.taskless, ok.peers, ok.peerReplies,
      fun _ reply => by cases reply⟩
  have moved := Proposer.supervised isShared outcome
  generalize before.resumeSupervisor shared outcome = after at moved
  cases moved with
  | ignores => exact supervisor_stepped formed ok isShared past supervisorOk
  | rests isMoved isPc =>
      refine ⟨abs, .quiet ?_⟩
      rcases isMoved with rfl | ⟨why, rfl⟩ <;> rcases isPc with rfl | rfl <;>
        exact ok.taskStep formed (Nat.le_refl _) past (supervisorStep isShared rfl rfl rfl rfl rfl
          rfl (by first | exact sharedOk | exact sharedOk.poisonWith _) rfl rfl rfl trivial)
  | hears asking newer isHeard isPc =>
      rw [asking] at supervisorOk
      obtain ⟨isOld, below, nodup⟩ := supervisorOk
      have nodup := nodup_heard isHeard nodup
      rcases isPc with rfl | ⟨rfl, rfl⟩
      · exact supervisor_stepped formed ok isShared past ⟨isOld, below.trans newer, nodup⟩
      · exact supervisor_stepped formed ok isShared past
          ⟨isOld, below.trans newer, by simpa using nodup, by simp⟩
  | counts asking accepted =>
      have known := reported asking accepted
      rw [asking] at supervisorOk
      exact supervisor_stepped formed ok isShared past
        ⟨supervisorOk.1, supervisorOk.2.1, nodup_tally outcome supervisorOk.2.2.1, known⟩
  | adopts asking accepted enough picked same retained =>
      have known := reported asking accepted
      rw [asking] at supervisorOk
      exact adoptTerm_stepped cleared isShared supervisorOk.1 supervisorOk.2.1
        (by simpa using nodup_tally outcome supervisorOk.2.2.1) known picked same formed enough past
        rfl retained fun isStrict => Proposer.reelectsAbove_spec (above isStrict) asking accepted
          picked enough same isShared retained

/-- The supervisor takes the next request. -/
theorem advanceSupervisor_stepped {after : Proposer}
    (advanced : before.advanceSupervisor shared = some after) :
    ∃ next, Stepped strict limit p abs next after := by
  obtain ⟨sharedOk, -⟩ := ok.shared shared isShared
  unfold Proposer.advanceSupervisor at advanced
  split at advanced
  · rename_i reason requests idle pending
    have unanswered : before.supervisorReply = none := by
      cases reply : before.supervisorReply with
      | none => rfl
      | some answer =>
          have replyOk := ok.supervisorReply answer reply
          rw [idle] at replyOk
          exact replyOk.elim
    have movedOk : SharedOk strict limit abs p before.opening.truncateLsn
        { shared with requests := requests } := sharedOk.congr rfl rfl (fun _ => rfl) rfl rfl
    have moves : ∀ {pc : SupervisorPc},
        SupervisorOk abs p { shared with requests := requests } pc →
        ∃ next, Stepped strict limit p abs next
          { before with shared := some { shared with requests := requests }, supervisor := pc } := by
      intro pc pcOk
      exact ⟨abs, .quiet (ok.taskStep formed (Nat.le_refl _) past (supervisorStep isShared rfl
        rfl rfl rfl unanswered rfl movedOk rfl rfl rfl pcOk))⟩
    simp only at advanced
    split at advanced
    · cases advanced
      exact moves trivial
    · split at advanced
      · cases advanced
        exact moves (by rw [idle]; trivial)
      · cases advanced
        exact moves ⟨rfl, Nat.le_refl _, by decide⟩
  · cases advanced

end Supervisor

end Icegres.Quorum
