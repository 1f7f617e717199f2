import Icegres.Quorum.Copy

/-!
# The acceptor refines a protocol node

Every request an acceptor handles, every failure inside a handler and every restart is a few
protocol steps of one node, provided elected messages and appends come from the owner of
their term. What the acceptor answers is then true of the protocol state: a granted vote
reports the ballot, an accepted handshake or append an acknowledgement.
-/

namespace Icegres.Quorum

open Icegres.TermLog

/-- Protocol steps of one acceptor. -/
structure Moves (id : AcceptorId) (abs next : Protocol) : Prop where
  steps : Steps Record.frameLen majorities abs next
  owner : next.owner = abs.owner
  hist : next.hist = abs.hist
  current : next.current = abs.current
  log : next.log = abs.log
  others : ∀ other ≠ id, next.term other = abs.term other ∧
    next.adopted other = abs.adopted other ∧ next.flush other = abs.flush other ∧
    next.durable other = abs.durable other

namespace Moves

variable {id : AcceptorId} {abs middle next : Protocol}

theorem refl : Moves id abs abs :=
  ⟨.refl, rfl, rfl, rfl, rfl, fun _ _ => ⟨rfl, rfl, rfl, rfl⟩⟩

theorem trans (front : Moves id abs middle) (rest : Moves id middle next) :
    Moves id abs next where
  steps := front.steps.trans rest.steps
  owner := rest.owner.trans front.owner
  hist := rest.hist.trans front.hist
  current := rest.current.trans front.current
  log := rest.log.trans front.log
  others other different := by
    obtain ⟨term, adopted, flush, durable⟩ := front.others other different
    obtain ⟨laterTerm, laterAdopted, laterFlush, laterDurable⟩ := rest.others other different
    exact ⟨laterTerm.trans term, laterAdopted.trans adopted, laterFlush.trans flush,
      laterDurable.trans durable⟩

theorem logOf (moves : Moves id abs next) (term : Nat) : next.logOf term = abs.logOf term := by
  simp only [State.logOf, moves.owner, moves.log]

theorem formed (moves : Moves id abs next) (formed : Formed abs) : Formed next :=
  (WellFormed.steps Record.frameLen_pos formed moves.steps).1

theorem grows (moves : Moves id abs next) (formed : Formed abs) : Grows abs next :=
  (WellFormed.steps Record.frameLen_pos formed moves.steps).2

end Moves

theorem LogMoves.moves {id : AcceptorId} {abs next : Protocol} (moves : LogMoves id abs next) :
    Moves id abs next where
  steps := moves.steps
  owner := moves.owner
  hist := moves.hist
  current := moves.current
  log := moves.log
  others other different := ⟨by rw [moves.term], by rw [moves.adopted],
    (moves.others other different).1, (moves.others other different).2⟩

/-- The acceptor is the protocol's node: its control file is what it has in memory, its
history that of the term it adopted, its log a copy of that term's. -/
structure Follows (acceptor : Acceptor) (abs : Protocol) (id : AcceptorId) : Prop where
  persistedTerm : acceptor.ctrl.term = acceptor.state.term
  persistedHistory : acceptor.ctrl.termHistory = acceptor.state.termHistory
  persistedHorizon : acceptor.ctrl.horizonLsn = acceptor.state.horizonLsn
  term : acceptor.state.term = abs.term id
  history : acceptor.state.termHistory = abs.hist (abs.adopted id)
  log : Copies acceptor.wal abs id

/-- The reported end, last term and history are those of the ballot the acceptor gave the
proposer in the term. -/
def Reported (abs : Protocol) (source : ProposerId) (target : AcceptorId)
    (term flush lastLogTerm : Nat) (history : TermHistory) : Prop :=
  ∃ ballot, abs.ballot target term = some ballot ∧ ballot.candidate = source ∧
    flush = ballot.flush ∧ history = abs.effective ballot.adopted ballot.flush ∧
    lastLogTerm = (abs.effective ballot.adopted ballot.flush).lastTerm

/-- What a proposer may send: elected messages and appends of terms it owns, appends only to
acceptors that adopted the term. -/
def RequestOk (abs : Protocol) (source : ProposerId) (target : AcceptorId) : Message → Prop
  | .elected term _ history => abs.owner term = some source ∧ abs.hist term = history
  | .append request => abs.owner request.term = some source ∧
      request.term ≤ abs.adopted target ∧
      ∃ front, front ++ request.records <+: abs.logOf request.term ∧
        framesLen front = request.beginLsn
  | _ => True

/-- What an acceptor's answer says about the protocol state. A fresh acceptor acknowledges
any start; `bound` limits those the proposer asked one to join at. -/
def ReplyOk (abs : Protocol) (source : ProposerId) (target : AcceptorId) (bound : Nat) :
    Message → Message → Prop
  | .voteRequest term, .voteResponse vote =>
      (vote.granted = true → vote.term = term ∧
        Reported abs source target term vote.flushLsn vote.lastLogTerm vote.termHistory) ∧
        (abs.adopted target = 0 → vote.termHistory = [] ∧ vote.flushLsn = 0)
  | .elected term start _, .electedResp _ true =>
      term ≤ abs.adopted target ∧ (start ≤ abs.acked target term ∨ start ≤ max bound abs.ceil)
  | .append request, .appendResp _ true flush _ => flush ≤ abs.acked target request.term
  | _, _ => True

namespace Acceptor

/-- How far a message can move the acceptor's effective horizon: an append of its term carries
one, and the first one to an empty log sets the local start. -/
def carried (acceptor : Acceptor) : Message → Nat
  | .append request =>
      if acceptor.state.term = request.term then
        max request.horizonLsn (if acceptor.wal.empty then request.beginLsn else 0)
      else
        0
  | _ => 0

/-- An elected message the acceptor would adopt although no record is left under its start. -/
def Unbacked (acceptor : Acceptor) : Message → Prop
  | .elected term start history =>
      (acceptor.bumpTerm term).state.term = term ∧
        (acceptor.bumpTerm term).checkElected start history = .ok () ∧ acceptor.wal.Unbacked start
  | _ => False

/-- An accepted start is the common point of the histories, or any position when the acceptor
is fresh. -/
theorem checkElected_ok {acceptor : Acceptor} {startLsn : Nat} {termHistory : TermHistory}
    (headZero : ∀ head, termHistory.head? = some head → head.lsn = 0)
    (passes : acceptor.checkElected startLsn termHistory = .ok ()) :
    (acceptor.state.termHistory.upTo acceptor.wal.flush = [] ∧ acceptor.wal.empty = true) ∨
      CommonPoint termHistory (acceptor.state.termHistory.upTo acceptor.wal.flush)
        acceptor.wal.flush startLsn := by
  obtain ⟨expected, expectedEq, same⟩ : ∃ expected,
      acceptor.expectedStart startLsn termHistory = .ok expected ∧ expected = startLsn := by
    simp only [checkElected] at passes
    split at passes
    · cases passes
    · rename_i expected expectedEq
      refine ⟨expected, expectedEq, ?_⟩
      by_contra different
      simp [different] at passes
  subst same
  simp only [expectedStart] at expectedEq
  split at expectedEq
  · cases expectedEq
  · rename_i point found
    cases expectedEq
    exact .inr (findHighestCommonPoint_some found)
  · rename_i found
    split at expectedEq
    · rename_i fresh
      exact .inl fresh
    · right
      have common := findHighestCommonPoint_none found
      split at expectedEq
      · rename_i head isHead
        cases expectedEq
        have atStart := headZero head isHead
        cases termHistory with
        | nil => simp at isHead
        | cons first rest =>
            obtain rfl : first = head := by simpa using isHead
            have parted : partingPoint acceptor.wal.flush (first :: rest)
                (acceptor.state.termHistory.upTo acceptor.wal.flush) = first.lsn := by
              cases acceptor.state.termHistory.upTo acceptor.wal.flush <;>
                simp [partingPoint, atStart]
            rw [parted] at common
            exact common
      · cases expectedEq

end Acceptor

/-- An append that passes the checks continues the log at its write position. -/
theorem Acceptor.checkAppend_ok {acceptor : Acceptor} {request : AppendRequest}
    (passes : acceptor.checkAppend request = .ok ()) :
    request.records ≠ [] ∧ Consecutive request.beginLsn request.records ∧
      (acceptor.wal.empty = false → request.beginLsn = acceptor.wal.flush) := by
  simp only [Acceptor.checkAppend] at passes
  generalize posEq : (if acceptor.wal.empty then request.beginLsn else acceptor.wal.flush) = pos
    at passes
  split at passes
  · cases passes
  · rename_i nonempty
    split at passes
    · cases passes
    · rename_i stream
      split at passes
      · cases passes
      · split at passes
        · cases passes
        · rename_i position
          refine ⟨by simpa using nonempty, checkStream_eq_ok.mp stream, ?_⟩
          intro written
          rw [written] at posEq
          rw [show request.beginLsn = pos by simpa using position, ← posEq]
          rfl

/-- The acceptor `after` follows the protocol state that `message`, handled by `before` as far
as a failure let it, led to. -/
structure Handled (id : AcceptorId) (before after : Acceptor) (message : Message)
    (abs next : Protocol) : Prop where
  moves : Moves id abs next
  follows : Follows after next id
  ceil : next.ceil = abs.ceil ∨
    before.Unbacked message ∧ next.ceil ≤ max abs.ceil before.effectiveHorizon
  horizon : after.effectiveHorizon ≤ max before.effectiveHorizon (before.carried message)

namespace Follows

variable {acceptor : Acceptor} {abs next : Protocol} {id other : AcceptorId}

/-- Steps of another acceptor leave this one alone. -/
theorem unmoved (follows : Follows acceptor abs other) (moves : Moves id abs next)
    (different : other ≠ id) : Follows acceptor next other := by
  obtain ⟨term, adopted, flush, durable⟩ := moves.others other different
  refine ⟨follows.persistedTerm, follows.persistedHistory, follows.persistedHorizon,
    follows.term.trans term.symm, ?_, ?_⟩
  · rw [adopted, moves.hist]
    exact follows.history
  · refine ⟨follows.log.flush.trans flush.symm, follows.log.layout, ?_,
      durable.trans follows.log.durable⟩
    rw [adopted, moves.logOf]
    exact follows.log.copy

/-- The history in effect on the acceptor is the one in effect for the node. -/
theorem effective (follows : Follows acceptor abs id) :
    acceptor.state.termHistory.upTo acceptor.wal.flush =
      abs.effective (abs.adopted id) (abs.flush id) := by
  rw [follows.history, follows.log.flush]
  rfl

/-- Without an adopted term there is no copy. -/
theorem unadopted (formed : Formed abs) (follows : Follows acceptor abs id)
    (none : abs.adopted id = 0) :
    acceptor.state.termHistory.upTo acceptor.wal.flush = [] ∧ acceptor.wal.flush = 0 := by
  have unelected : abs.owner 0 = Option.none := by
    by_contra elected
    have := formed.elected_pos elected
    omega
  constructor
  · rw [follows.effective, none, State.effective, formed.hist_unelected 0 unelected]
    rfl
  · have bounded := (formed.flush_boundary id).le_end
    rw [none, State.logOf, unelected] at bounded
    rw [follows.log.flush]
    simpa using bounded

/-- An acceptor whose history is not in effect anywhere has adopted no term. -/
theorem adopted_eq_zero (formed : Formed abs) (follows : Follows acceptor abs id)
    (empty : acceptor.state.termHistory.upTo acceptor.wal.flush = []) : abs.adopted id = 0 := by
  by_contra adopted
  obtain ⟨head, rest, shape, atStart⟩ := formed.hist_cons (formed.adopted_elected id adopted)
  have mem : head ∈ acceptor.state.termHistory.upTo acceptor.wal.flush := by
    rw [follows.history, shape]
    simp [atStart]
  rw [empty] at mem
  simp at mem

/-- A control file with the same term, history and horizon, and a copy that only moved. -/
private theorem of_copies (follows : Follows acceptor abs id) {ctrl : PersistentState}
    {files : List Seg} {rotateBytes : Nat} (term : ctrl.term = acceptor.state.term)
    (history : ctrl.termHistory = acceptor.state.termHistory) (moves : LogMoves id abs next)
    (copies : Copies (SegmentWal.open files rotateBytes) next id) :
    Follows (Acceptor.boot ctrl files rotateBytes) next id where
  persistedTerm := rfl
  persistedHistory := rfl
  persistedHorizon := rfl
  term := by
    rw [moves.term, ← follows.term]
    exact term
  history := by
    rw [moves.adopted, moves.hist, ← follows.history]
    exact history
  log := copies

/-- A restart. -/
theorem restart (follows : Follows acceptor abs id) :
    ∃ next, Moves id abs next ∧ Follows acceptor.restart next id ∧ next.ceil = abs.ceil ∧
      acceptor.restart.effectiveHorizon ≤ acceptor.effectiveHorizon := by
  obtain ⟨next, moves, ceil, copies, start⟩ := follows.log.reopen acceptor.wal.rotateBytes
  refine ⟨next, moves.moves, follows.of_copies follows.persistedTerm follows.persistedHistory
    moves copies, ceil, ?_⟩
  have horizon := follows.persistedHorizon
  simp only [Acceptor.effectiveHorizon, Acceptor.restart, Acceptor.boot]
  omega

/-- Acknowledging a higher term. -/
theorem bumpTerm (follows : Follows acceptor abs id) (term : Nat) :
    ∃ next, Moves id abs next ∧ Follows (acceptor.bumpTerm term) next id ∧
      next.ceil = abs.ceil ∧ next.adopted = abs.adopted ∧
      (acceptor.bumpTerm term).wal = acceptor.wal ∧
      (acceptor.bumpTerm term).effectiveHorizon = acceptor.effectiveHorizon := by
  unfold Acceptor.bumpTerm
  split
  · rename_i newer
    rw [follows.term] at newer
    refine ⟨{ abs with term := Function.update abs.term id term }, ?_, ?_, rfl, rfl, rfl, rfl⟩
    · refine ⟨.single (.bump id term newer), rfl, rfl, rfl, rfl, ?_⟩
      intro other different
      simp [different]
    · exact ⟨rfl, rfl, rfl, by simp [Acceptor.persist], follows.history,
        ⟨follows.log.flush, follows.log.layout, follows.log.copy, follows.log.durable⟩⟩
  · exact ⟨abs, .refl, follows, rfl, rfl, rfl, rfl⟩

/-- A vote request, granted or not. -/
theorem handleVote (formed : Formed abs) (follows : Follows acceptor abs id)
    (source : ProposerId) (bound term : Nat) :
    ∃ next, Handled id acceptor (acceptor.process (.voteRequest term)).1 (.voteRequest term)
        abs next ∧
      ReplyOk next source id bound (.voteRequest term)
        (acceptor.process (.voteRequest term)).2 := by
  have fresh := follows.unadopted formed
  have effective := follows.effective
  simp only [Acceptor.process, Acceptor.handleVote]
  by_cases newer : acceptor.state.term < term
  · have newerThan := follows.term ▸ newer
    simp only [if_pos newer]
    let next : Protocol :=
      { abs with
        term := Function.update abs.term id term
        ballot := Function.update abs.ballot id
          (Function.update (abs.ballot id) term
            (some ⟨source, abs.adopted id, abs.flush id⟩)) }
    refine ⟨next, ⟨⟨.single (.vote id term source newerThan), rfl, rfl, rfl, rfl, ?_⟩, ?_,
      .inl rfl, Nat.le_max_left _ _⟩, ?_, fresh⟩
    · intro other different
      simp [next, different]
    · exact ⟨rfl, rfl, rfl, by simp [next, Acceptor.persist], follows.history,
        ⟨follows.log.flush, follows.log.layout, follows.log.copy, follows.log.durable⟩⟩
    · intro granted
      exact ⟨rfl, ⟨source, abs.adopted id, abs.flush id⟩, by simp [next], rfl, follows.log.flush,
        effective, congrArg History.lastTerm effective⟩
  · simp only [if_neg newer]
    refine ⟨abs, ⟨.refl, follows, .inl rfl, Nat.le_max_left _ _⟩, ?_, fresh⟩
    intro granted
    simp [newer] at granted

/-- The history of the acknowledged term is adopted once the whole copy is that of the
term's owner, and what is durable is acknowledged. -/
private theorem adopt {wal : SegmentWal} (copies : Copies wal abs id)
    (elected : abs.owner (abs.term id) ≠ none)
    (agree : AgreeTo Record.frameLen (abs.logOf (abs.term id)) (abs.logOf (abs.adopted id))
      (abs.flush id)) :
    ∃ next, Moves id abs next ∧ Copies wal next id ∧ next.term id = abs.term id ∧
      next.adopted id = abs.term id ∧ next.ceil = abs.ceil ∧
      abs.durable id ≤ next.acked id (abs.term id) := by
  let adopted : Protocol := { abs with adopted := Function.update abs.adopted id (abs.term id) }
  let next : Protocol :=
    { adopted with
      acked := Function.update adopted.acked id
        (Function.update (adopted.acked id) (adopted.term id)
          (max (adopted.acked id (adopted.term id)) (adopted.durable id))) }
  have steps : Steps Record.frameLen majorities abs next :=
    (Steps.single (.adopt id elected agree)).step (.ack id (by simp))
  refine ⟨next, ⟨steps, rfl, rfl, rfl, rfl, ?_⟩, ?_, rfl, by simp [next, adopted], rfl, ?_⟩
  · intro other different
    simp [next, adopted, different]
  · refine ⟨copies.flush, copies.layout, ?_, copies.durable⟩
    obtain ⟨before, isFront, start, ends⟩ := copies.front
    obtain ⟨common, inTerm, inAdopted, commonEnds⟩ := agree
    have same : before ++ wal.records = common :=
      prefix_unique Record.frameLen_pos isFront inAdopted (by
        rw [commonEnds, endOf_frameLen, ends]
        exact copies.flush)
    refine ⟨before, ?_, start⟩
    have adoptedEq : next.adopted id = abs.term id := by simp [next, adopted]
    rw [adoptedEq, same]
    exact inTerm
  · simp [next, adopted]

/-- An elected message of the acknowledged term that passes the checks: the acceptor joins
fresh, or the start is the common point. -/
private theorem elected_cases (formed : Formed abs) (follows : Follows acceptor abs id)
    {start : Nat}
    (passes : acceptor.checkElected start (abs.hist (abs.term id)) = .ok ()) :
    (abs.adopted id = 0 ∧ acceptor.wal.flush = 0) ∨
      CommonPoint (abs.hist (abs.term id)) (abs.effective (abs.adopted id) (abs.flush id))
        (abs.flush id) start := by
  rcases Acceptor.checkElected_ok (formed.hist_head _) passes with ⟨empty, -⟩ | common
  · have none := follows.adopted_eq_zero formed empty
    exact .inl ⟨none, (follows.unadopted formed none).2⟩
  · right
    rwa [follows.effective, follows.log.flush] at common

/-- The truncation an elected message asks for, and the history it brings. -/
private theorem handleAdopt (formed : Formed abs) (follows : Follows acceptor abs id)
    {start : Nat} (elected : abs.owner (abs.term id) ≠ none)
    (passes : acceptor.checkElected start (abs.hist (abs.term id)) = .ok ()) :
    ∃ next, Moves id abs next ∧
      Follows (acceptor.adopt start (abs.hist (abs.term id))) next id ∧
      next.adopted id = abs.term id ∧
      (abs.adopted id = 0 ∨ start ≤ next.acked id (abs.term id) ∨ start ≤ next.ceil) ∧
      (next.ceil = abs.ceil ∨ acceptor.wal.Unbacked start ∧
        next.ceil ≤ max abs.ceil acceptor.wal.retainedStart) ∧
      (acceptor.wal.truncateFrom start).retainedStart ≤ acceptor.wal.retainedStart := by
  have finish : ∀ {cut : Protocol}, LogMoves id abs cut →
      Copies (acceptor.wal.truncateFrom start) cut id →
      AgreeTo Record.frameLen (cut.logOf (cut.term id)) (cut.logOf (cut.adopted id))
        (cut.flush id) →
      ∃ next, Moves id abs next ∧
        Follows (acceptor.adopt start (abs.hist (abs.term id))) next id ∧
        next.adopted id = abs.term id ∧ next.ceil = cut.ceil ∧
        cut.durable id ≤ next.acked id (abs.term id) := by
    intro cut cuts copies agree
    have sameTerm : cut.term id = abs.term id := by rw [cuts.term]
    obtain ⟨next, moves, nextCopies, term, adopted, ceil, acked⟩ :=
      adopt copies (by rw [cuts.owner, sameTerm]; exact elected) agree
    rw [sameTerm] at term adopted acked
    refine ⟨next, cuts.moves.trans moves, ⟨rfl, rfl, rfl, ?_, ?_, nextCopies⟩, adopted, ceil,
      acked⟩
    · exact follows.term.trans term.symm
    · rw [adopted, moves.hist, cuts.hist]
      rfl
  rcases follows.elected_cases formed passes with ⟨none, empty⟩ | common
  · have same : acceptor.wal.truncateFrom start = acceptor.wal := by
      simp [SegmentWal.truncateFrom, empty]
    obtain ⟨next, moves, nextFollows, adopted, ceil, -⟩ := finish .refl
      (same.symm ▸ follows.log) (by
        rw [← follows.log.flush, empty]
        exact ⟨[], List.nil_prefix, List.nil_prefix, rfl⟩)
    exact ⟨next, moves, nextFollows, adopted, .inl none, .inl ceil, by rw [same]⟩
  · obtain ⟨cut, cuts, copies, flush, reaches, ceil, retained⟩ :=
      follows.log.truncate formed elected common
    have agree := formed.agree_common Record.frameLen_pos elected (formed.adopted_le id)
      (formed.flush_boundary id) common
    obtain ⟨next, moves, nextFollows, adopted, nextCeil, acked⟩ := finish cuts copies (by
      rw [cuts.logOf, cuts.logOf, cuts.term, cuts.adopted, flush]
      exact agree)
    refine ⟨next, moves, nextFollows, adopted, .inr ?_, nextCeil ▸ ceil, retained⟩
    rcases reaches with durable | underCeil
    · exact .inl (durable.trans acked)
    · exact .inr (nextCeil ▸ underCeil)

/-- After acknowledging a term that is not superseded here, the acceptor stands in it. -/
private theorem bumped_term {term : Nat} (current : ¬ (acceptor.bumpTerm term).state.term > term) :
    (acceptor.bumpTerm term).state.term = term := by
  unfold Acceptor.bumpTerm at current ⊢
  split
  · rfl
  · rename_i notNewer
    rw [if_neg notNewer] at current
    omega

/-- An elected message of the owner of its term. -/
theorem handleElected (formed : Formed abs) (follows : Follows acceptor abs id)
    {source : ProposerId} {term start : Nat} {history : TermHistory}
    (owned : abs.owner term = some source) (hist : abs.hist term = history) (bound : Nat)
    (joins : abs.adopted id = 0 → start ≤ bound) :
    ∃ next, Handled id acceptor (acceptor.process (.elected term start history)).1
        (.elected term start history) abs next ∧
      ReplyOk next source id bound (.elected term start history)
        (acceptor.process (.elected term start history)).2 := by
  obtain ⟨bumped, bumps, bumpFollows, bumpCeil, bumpAdopted, bumpWal, bumpHorizon⟩ :=
    follows.bumpTerm term
  simp only [Acceptor.process, Acceptor.handleElected]
  have refused : Handled id acceptor (acceptor.bumpTerm term) (.elected term start history)
      abs bumped :=
    ⟨bumps, bumpFollows, .inl bumpCeil, by rw [bumpHorizon]; exact Nat.le_max_left _ _⟩
  by_cases superseded : (acceptor.bumpTerm term).state.term > term
  · rw [if_pos superseded]
    exact ⟨bumped, refused, trivial⟩
  · rw [if_neg superseded]
    have current := bumped_term superseded
    have atTerm : bumped.term id = term := bumpFollows.term.symm.trans current
    cases passes : (acceptor.bumpTerm term).checkElected start history with
    | error why => exact ⟨bumped, refused, trivial⟩
    | ok _ =>
        have elected : bumped.owner (bumped.term id) ≠ none := by
          rw [bumps.owner, atTerm, owned]
          exact Option.some_ne_none source
        have sameHist : bumped.hist (bumped.term id) = history := by
          rw [bumps.hist, atTerm, hist]
        obtain ⟨next, moves, nextFollows, adopted, reaches, ceil, retained⟩ :=
          bumpFollows.handleAdopt (bumps.formed formed) elected (sameHist ▸ passes)
        rw [sameHist] at nextFollows
        rw [atTerm] at adopted reaches
        rw [bumpWal] at ceil retained
        refine ⟨next, ⟨bumps.trans moves, nextFollows, ?_, ?_⟩, ?_⟩
        · rw [bumpCeil] at ceil
          rcases ceil with same | ⟨unbacked, raised⟩
          · exact .inl same
          · refine .inr ⟨⟨current, passes, unbacked⟩, raised.trans ?_⟩
            simp only [Acceptor.effectiveHorizon]
            omega
        · have horizon : (acceptor.bumpTerm term).state.horizonLsn ≤ acceptor.effectiveHorizon := by
            rw [← bumpHorizon]
            exact Nat.le_max_left _ _
          simp only [Acceptor.effectiveHorizon, Acceptor.adopt, Acceptor.persist, bumpWal] at *
          omega
        · refine ⟨Nat.le_of_eq adopted.symm, ?_⟩
          rcases reaches with none | acked | underCeil
          · have := joins (by rw [← bumpAdopted]; exact none)
            exact .inr (by omega)
          · exact .inl acked
          · exact .inr (by omega)

/-- A failure inside the handling of an elected message. -/
theorem crashElected (formed : Formed abs) (follows : Follows acceptor abs id)
    {source : ProposerId} {term start : Nat} {history : TermHistory}
    (owned : abs.owner term = some source) (hist : abs.hist term = history)
    {point : Acceptor.CrashPoint} {ctrl : PersistentState} {files : List Seg}
    (crashed : acceptor.crashElected term start history point = some (ctrl, files)) :
    ∃ next, Handled id acceptor (Acceptor.boot ctrl files acceptor.wal.rotateBytes)
      (.elected term start history) abs next := by
  obtain ⟨bumped, bumps, bumpFollows, bumpCeil, bumpAdopted, bumpWal, bumpHorizon⟩ :=
    follows.bumpTerm term
  obtain ⟨rfl, untouched | ⟨current, passes, cutFiles⟩⟩ := Acceptor.crashElected_cases crashed
  · obtain ⟨next, moves, nextFollows, ceil, horizon⟩ := bumpFollows.restart
    have same : (acceptor.bumpTerm term).restart =
        Acceptor.boot (acceptor.bumpTerm term).ctrl files acceptor.wal.rotateBytes := by
      rw [Acceptor.restart, untouched, bumpWal]
    rw [same] at nextFollows horizon
    exact ⟨next, bumps.trans moves, nextFollows, .inl (ceil.trans bumpCeil),
      by rw [← bumpHorizon]; exact horizon.trans (Nat.le_max_left _ _)⟩
  · have atTerm : bumped.term id = term := bumpFollows.term.symm.trans current
    have elected : bumped.owner (bumped.term id) ≠ none := by
      rw [bumps.owner, atTerm, owned]
      exact Option.some_ne_none source
    have sameHist : bumped.hist (bumped.term id) = history := by
      rw [bumps.hist, atTerm, hist]
    have bumpedFormed := bumps.formed formed
    -- whatever was deleted, the files are those of a copy that moved
    obtain ⟨next, moves, copies, ceil, retained⟩ : ∃ next, LogMoves id bumped next ∧
        Copies (SegmentWal.open files acceptor.wal.rotateBytes) next id ∧
        (next.ceil = bumped.ceil ∨ acceptor.wal.Unbacked start ∧
          next.ceil ≤ max bumped.ceil acceptor.wal.retainedStart) ∧
        (SegmentWal.open files acceptor.wal.rotateBytes).retainedStart ≤
          acceptor.wal.retainedStart := by
      have log := bumpWal ▸ bumpFollows.log
      rcases bumpFollows.elected_cases bumpedFormed (sameHist ▸ passes) with ⟨-, empty⟩ | common
      · rw [bumpWal] at empty cutFiles
        have untouched : files = acceptor.wal.files := by
          rcases cutFiles with ⟨deleted, rfl⟩ | rfl
          · simp [SegmentWal.truncateCrash, empty]
          · simp [SegmentWal.truncateFrom, empty]
        obtain ⟨next, moves, ceil, copies, start⟩ := log.reopen acceptor.wal.rotateBytes
        rw [untouched]
        exact ⟨next, moves, copies, .inl ceil, start⟩
      · rw [bumpWal] at cutFiles
        rcases cutFiles with ⟨deleted, rfl⟩ | rfl
        · obtain ⟨next, moves, copies, ceil, retained⟩ := log.truncateCrash bumpedFormed elected
            common deleted acceptor.wal.rotateBytes
          exact ⟨next, moves, copies, ceil, retained⟩
        · obtain ⟨cut, cuts, cutCopies, -, -, cutCeil, cutRetained⟩ :=
            log.truncate bumpedFormed elected common
          obtain ⟨next, moves, ceil, copies, retained⟩ :=
            cutCopies.reopen acceptor.wal.rotateBytes
          exact ⟨next, cuts.trans moves, copies, ceil ▸ cutCeil, retained.trans cutRetained⟩
    refine ⟨next, bumps.trans moves.moves, ?_, ?_, ?_⟩
    · exact bumpFollows.of_copies bumpFollows.persistedTerm bumpFollows.persistedHistory moves
        copies
    · rw [bumpCeil] at ceil
      rcases ceil with same | ⟨unbacked, raised⟩
      · exact .inl same
      · refine .inr ⟨⟨current, passes, unbacked⟩, raised.trans ?_⟩
        simp only [Acceptor.effectiveHorizon]
        omega
    · have horizon : (acceptor.bumpTerm term).ctrl.horizonLsn ≤ acceptor.effectiveHorizon := by
        rw [bumpFollows.persistedHorizon, ← bumpHorizon]
        exact Nat.le_max_left _ _
      simp only [Acceptor.effectiveHorizon, Acceptor.boot] at *
      omega

/-- What is durable in the followed term is acknowledged. -/
private theorem acknowledge (follows : abs.adopted id = abs.term id) {wal : SegmentWal}
    (copies : Copies wal abs id) :
    ∃ next, LogMoves id abs next ∧ Copies wal next id ∧ next.ceil = abs.ceil ∧
      abs.durable id ≤ next.acked id (abs.term id) := by
  refine ⟨_, ⟨.single (.ack id follows), rfl, rfl, rfl, rfl, rfl, rfl, fun _ _ => ⟨rfl, rfl⟩⟩,
    ⟨copies.flush, copies.layout, copies.copy, copies.durable⟩, rfl, ?_⟩
  simp

section Append

variable {source : ProposerId} {request : AppendRequest}

/-- What an append of its owner that passes the checks is to the acceptor: it follows the
term, and the batch lies in the log at the write position. -/
private theorem append_request (formed : Formed abs) (follows : Follows acceptor abs id)
    (valid : RequestOk abs source id (.append request))
    (current : acceptor.state.term = request.term) :
    abs.adopted id = abs.term id ∧ abs.term id = request.term ∧
      ∃ front, front ++ request.records <+: abs.logOf (abs.adopted id) ∧
        framesLen front = request.beginLsn := by
  obtain ⟨-, adopted, slice⟩ := valid
  have atTerm := follows.term.symm.trans current
  have bounded := formed.adopted_le id
  have same : abs.adopted id = request.term := by omega
  exact ⟨by omega, atTerm, same ▸ slice⟩

/-- The local start an append leaves lies within what the acceptor reported or the append
carries. -/
private theorem append_start (follows : Follows acceptor abs id)
    (current : acceptor.state.term = request.term)
    (position : acceptor.wal.empty = false → request.beginLsn = acceptor.wal.flush) :
    (if acceptor.wal.records = [] then request.beginLsn else acceptor.wal.retainedStart) ≤
      max acceptor.effectiveHorizon (acceptor.carried (.append request)) := by
  split
  · rename_i none
    cases fresh : acceptor.wal.empty with
    | true =>
        simp only [Acceptor.carried, fresh, current, if_true]
        omega
    | false =>
        have ends := follows.log.layout.ends
        rw [none, framesLen_nil, Nat.add_zero] at ends
        rw [position fresh, ← ends]
        simp only [Acceptor.effectiveHorizon]
        omega
  · simp only [Acceptor.effectiveHorizon]
    omega

private theorem advance_horizon (state : PersistentState) (request : AppendRequest)
    (flush : Nat) :
    state.horizonLsn ≤ (Acceptor.advance state request flush).horizonLsn ∧
      (Acceptor.advance state request flush).horizonLsn ≤
        max state.horizonLsn request.horizonLsn := by
  simp only [Acceptor.advance]
  omega

/-- An append of the owner of its term. -/
theorem handleAppend (formed : Formed abs) (follows : Follows acceptor abs id)
    (valid : RequestOk abs source id (.append request)) (bound : Nat) :
    ∃ next, Handled id acceptor (acceptor.process (.append request)).1 (.append request)
        abs next ∧
      ReplyOk next source id bound (.append request)
        (acceptor.process (.append request)).2 := by
  have unchanged : Handled id acceptor acceptor (.append request) abs abs :=
    ⟨.refl, follows, .inl rfl, Nat.le_max_left _ _⟩
  simp only [Acceptor.process, Acceptor.handleAppend]
  by_cases early : acceptor.state.term < request.term
  · rw [if_pos early]
    exact ⟨abs, unchanged, trivial⟩
  · by_cases superseded : acceptor.state.term > request.term
    · rw [if_neg early, if_pos superseded]
      exact ⟨abs, unchanged, trivial⟩
    · rw [if_neg early, if_neg superseded]
      cases passes : acceptor.checkAppend request with
      | error why => exact ⟨abs, unchanged, trivial⟩
      | ok _ =>
          obtain ⟨nonempty, consecutive, position⟩ := Acceptor.checkAppend_ok passes
          have current : acceptor.state.term = request.term := by omega
          obtain ⟨followsTerm, atTerm, slice⟩ :=
            append_request formed follows valid current
          obtain ⟨appended, extended, appendEq, extends_, copies, ceil, durable, -, -, start⟩ :=
            follows.log.append position slice followsTerm nonempty consecutive
          obtain ⟨next, acks, nextCopies, nextCeil, acked⟩ := acknowledge
            (by rw [extends_.adopted, extends_.term]; exact followsTerm) copies
          have moves := extends_.trans acks
          have term : next.term id = abs.term id := by rw [moves.term]
          have history : abs.hist (abs.adopted id) = next.hist (next.adopted id) := by
            rw [moves.adopted, moves.hist]
          have startBound := append_start follows current position
          rw [← start] at startBound
          obtain ⟨horizonGe, horizonLe⟩ := advance_horizon acceptor.state request appended.flush
          simp only [appendEq]
          refine ⟨next, ⟨moves.moves, ?_, .inl (nextCeil.trans ceil), ?_⟩, ?_⟩
          · simp only [Acceptor.applyAppend]
            split
            · exact ⟨rfl, rfl, rfl, follows.term.trans term.symm, follows.history.trans history,
                (nextCopies.dropBelow _).1⟩
            · refine ⟨follows.persistedTerm, follows.persistedHistory, ?_,
                follows.term.trans term.symm, follows.history.trans history, nextCopies⟩
              have := follows.persistedHorizon
              simp only
              omega
          · have retained := (nextCopies.dropBelow
              (Acceptor.advance acceptor.state request appended.flush).horizonLsn).2
            simp only [Acceptor.applyAppend, Acceptor.effectiveHorizon, Acceptor.carried, current,
              if_true] at *
            split <;> simp only [Acceptor.persist] <;> omega
          · change appended.flush ≤ next.acked id request.term
            rw [← durable, ← atTerm]
            rw [extends_.term] at acked
            exact acked

/-- A failure inside the handling of an append. -/
theorem crashAppend (formed : Formed abs) (follows : Follows acceptor abs id)
    (valid : RequestOk abs source id (.append request))
    {point : Acceptor.CrashPoint} {ctrl : PersistentState} {files : List Seg}
    (crashed : acceptor.crashAppend request point = some (ctrl, files)) :
    ∃ next, Handled id acceptor (Acceptor.boot ctrl files acceptor.wal.rotateBytes)
      (.append request) abs next := by
  obtain ⟨current, passes, cases⟩ := Acceptor.crashAppend_cases crashed
  obtain ⟨nonempty, consecutive, position⟩ := Acceptor.checkAppend_ok passes
  obtain ⟨followsTerm, atTerm, slice⟩ := append_request formed follows valid current
  have startBound := append_start follows current position
  rcases cases with ⟨written, rfl, rfl⟩ | ⟨dropped, wal, appendEq, rfl, -, rfl⟩
  · obtain ⟨next, moves, ceil, copies, start⟩ := follows.log.appendCrash position slice
      followsTerm consecutive written acceptor.wal.rotateBytes
    refine ⟨next, moves.moves, follows.of_copies follows.persistedTerm follows.persistedHistory
      moves copies, .inl ceil, ?_⟩
    have horizon := follows.persistedHorizon
    simp only [Acceptor.boot, Acceptor.effectiveHorizon, start] at *
    omega
  · obtain ⟨appended, next, appendedEq, moves, copies, ceil, -, someRecord, -, start⟩ :=
      follows.log.append position slice followsTerm nonempty consecutive
    obtain rfl : appended = wal := by
      rw [appendedEq] at appendEq
      cases appendEq
      rfl
    obtain ⟨horizonGe, horizonLe⟩ := advance_horizon acceptor.state request appended.flush
    obtain ⟨left, retained⟩ := copies.dropCrash someRecord
      (Acceptor.advance acceptor.state request appended.flush).horizonLsn dropped
      acceptor.wal.rotateBytes
    refine ⟨next, moves.moves, follows.of_copies rfl rfl moves left, .inl ceil, ?_⟩
    simp only [Acceptor.boot, Acceptor.effectiveHorizon, Acceptor.carried, current, if_true,
      start] at *
    omega

end Append

/-- Every request a proposer may send. -/
theorem process (formed : Formed abs) (follows : Follows acceptor abs id) {source : ProposerId}
    {message : Message} (valid : RequestOk abs source id message) {bound : Nat}
    (joins : ∀ term start history, message = .elected term start history →
      abs.adopted id = 0 → start ≤ bound) :
    ∃ next, Handled id acceptor (acceptor.process message).1 message abs next ∧
      ReplyOk next source id bound message (acceptor.process message).2 := by
  have unchanged : ∀ {after : Acceptor}, after.wal = acceptor.wal →
      (after.ctrl.term = after.state.term ∧ after.ctrl.termHistory = after.state.termHistory ∧
        after.ctrl.horizonLsn = after.state.horizonLsn) →
      after.state.term = acceptor.state.term ∧
        after.state.termHistory = acceptor.state.termHistory ∧
        after.state.horizonLsn = acceptor.state.horizonLsn →
      Handled id acceptor after message abs abs := by
    intro after wal persisted same
    refine ⟨.refl, ⟨persisted.1, persisted.2.1, persisted.2.2, same.1.trans follows.term,
      same.2.1.trans follows.history, wal ▸ follows.log⟩, .inl rfl, ?_⟩
    simp only [Acceptor.effectiveHorizon, wal, same.2.2]
    omega
  have persisted : acceptor.ctrl.term = acceptor.state.term ∧
      acceptor.ctrl.termHistory = acceptor.state.termHistory ∧
      acceptor.ctrl.horizonLsn = acceptor.state.horizonLsn :=
    ⟨follows.persistedTerm, follows.persistedHistory, follows.persistedHorizon⟩
  cases message with
  | voteRequest term => exact follows.handleVote formed source bound term
  | elected term start history =>
      exact follows.handleElected formed valid.1 valid.2 bound (joins term start history rfl)
  | append request => exact follows.handleAppend formed valid bound
  | greeting tailId =>
      refine ⟨abs, ?_, trivial⟩
      simp only [Acceptor.process, Acceptor.handleGreeting]
      split
      · rename_i handled
        split at handled
        · cases handled
          exact unchanged rfl ⟨rfl, rfl, rfl⟩ ⟨rfl, rfl, rfl⟩
        · split at handled <;> cases handled
          exact unchanged rfl persisted ⟨rfl, rfl, rfl⟩
        · cases handled
          exact unchanged rfl persisted ⟨rfl, rfl, rfl⟩
      · rename_i handled
        split at handled
        · cases handled
        · split at handled <;> cases handled
          exact unchanged rfl persisted ⟨rfl, rfl, rfl⟩
        · cases handled
  | read fromLsn toLsn =>
      refine ⟨abs, ?_, trivial⟩
      simp only [Acceptor.process]
      split <;> rename_i handled <;> obtain ⟨rfl, -⟩ := Prod.mk.inj handled <;>
        exact unchanged rfl persisted ⟨rfl, rfl, rfl⟩
  | _ => exact ⟨abs, unchanged rfl persisted ⟨rfl, rfl, rfl⟩, trivial⟩

/-- Every failure inside a handler. -/
theorem crashDuring (formed : Formed abs) (follows : Follows acceptor abs id)
    {source : ProposerId} {message : Message} (valid : RequestOk abs source id message)
    {point : Acceptor.CrashPoint} {after : Acceptor}
    (crashed : acceptor.crashDuring message point = some after) :
    ∃ next, Handled id acceptor after message abs next := by
  simp only [Acceptor.crashDuring, Option.map_eq_some_iff] at crashed
  obtain ⟨⟨ctrl, files⟩, disk, rfl⟩ := crashed
  cases message with
  | elected term start history => exact follows.crashElected formed valid.1 valid.2 disk
  | append request => exact follows.crashAppend formed valid disk
  | _ => cases disk

end Follows

end Icegres.Quorum
