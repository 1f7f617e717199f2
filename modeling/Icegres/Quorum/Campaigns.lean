import Icegres.Quorum.Local

/-!
# Election safety

An acceptor grants each term once, since it grants only terms above the one it persisted. A
proposer counts a vote only when it was granted the term it asked for, so whoever holds the
votes of two acceptors for a term, or took the term over, was granted it by both. Two majorities
share an acceptor, so they name one proposer, over every interleaving, loss and restart.
-/

namespace Icegres.Quorum

/-- A majority of the acceptors granted the term to the proposer. -/
def Majority (p : ProposerId) (journal : List Event) (term : Nat) : Prop :=
  ∃ a b, a ≠ b ∧ Event.granted p a term ∈ journal ∧ Event.granted p b term ∈ journal

/-- Two majorities of three share an acceptor. -/
theorem majorities_meet {a b c d : AcceptorId} (left : a ≠ b) (right : c ≠ d) :
    a = c ∨ a = d ∨ b = c ∨ b = d := by
  cases a <;> cases b <;> cases c <;> cases d <;> simp_all

/-- Grants are never taken back. -/
theorem Majority.more {p : ProposerId} {journal : List Event} {term : Nat}
    (majority : Majority p journal term) (more : List Event) : Majority p (journal ++ more) term := by
  obtain ⟨a, b, different, grantedA, grantedB⟩ := majority
  exact ⟨a, b, different, List.mem_append_left _ grantedA, List.mem_append_left _ grantedB⟩

namespace Proposer

/-- The proposer holds a vote of the acceptor for the term: `Quorum::open` counted it, or the
re-election under way did. -/
def HoldsVote (proposer : Proposer) (term : Nat) (id : AcceptorId) : Prop :=
  proposer.opening.term = term ∧ (proposer.opening.votes.get id).isSome ∨
    ∃ old maxTerm todo votes, proposer.supervisor = .voting old maxTerm todo votes ∧
      maxTerm + 1 = term ∧ id ∈ votes.map Prod.fst

/-- The proposer holds the votes of a majority for the term, or has taken it over. -/
def Wins (proposer : Proposer) (term : Nat) : Prop :=
  (∃ a b, a ≠ b ∧ proposer.HoldsVote term a ∧ proposer.HoldsVote term b) ∨
    ∃ shared, proposer.shared = some shared ∧ shared.election.term = term

end Proposer

/-- The proposer won the term, by its own count or by the acceptors'. -/
def Sys.Wins (sys : Sys) (p : ProposerId) (term : Nat) : Prop :=
  Majority p sys.journal term ∨
    ∃ proposer, sys.proposers[p]? = some proposer ∧ proposer.Wins term

/-! ## The acceptors' part -/

/-- What the journal says of an acceptor's grants: none above its persisted term, each term
once, and since `front` only terms above `bound`. -/
structure Votes (bound : AcceptorId → Nat) (front : List Event) (id : AcceptorId)
    (journal : List Event) (acceptor : Acceptor) : Prop where
  synced : acceptor.Synced
  bound_le : bound id ≤ acceptor.ctrl.term
  since : ∃ more, journal = front ++ more ∧
    ∀ p term, Event.granted p id term ∈ more → bound id < term
  persisted : ∀ p term, Event.granted p id term ∈ journal → term ≤ acceptor.ctrl.term
  once : ∀ first second term, Event.granted first id term ∈ journal →
    Event.granted second id term ∈ journal → first = second

namespace Votes

variable {bound : AcceptorId → Nat} {front journal : List Event} {id : AcceptorId}
variable {acceptor next : Acceptor} (votes : Votes bound front id journal acceptor)

include votes

/-- Grants of other acceptors do not matter. -/
theorem more {events : List Event} (noGrant : ∀ p term, Event.granted p id term ∉ events) :
    Votes bound front id (journal ++ events) acceptor := by
  have old : ∀ {p term}, Event.granted p id term ∈ journal ++ events →
      Event.granted p id term ∈ journal := fun mem =>
    (List.mem_append.mp mem).resolve_right (noGrant _ _)
  obtain ⟨since, rfl, newer⟩ := votes.since
  refine ⟨votes.synced, votes.bound_le, ⟨since ++ events, List.append_assoc _ _ _, ?_⟩,
    fun p term mem => votes.persisted p term (old mem),
    fun first second term left right => votes.once first second term (old left) (old right)⟩
  intro p term mem
  exact newer p term ((List.mem_append.mp mem).resolve_right (noGrant p term))

/-- The persisted term does not fall. -/
theorem later (later : acceptor.Later next) : Votes bound front id journal next :=
  ⟨later.synced, votes.bound_le.trans later.term_le, votes.since,
    fun p term mem => (votes.persisted p term mem).trans later.term_le, votes.once⟩

/-- A grant is of a newer term, which the acceptor has persisted by then. -/
theorem grant {p : ProposerId} {term : Nat} (later : acceptor.Later next)
    (newer : acceptor.ctrl.term < term) (kept : next.ctrl.term = term) :
    Votes bound front id (journal ++ [.granted p id term]) next := by
  have below := votes.bound_le
  obtain ⟨since, rfl, above⟩ := votes.since
  refine ⟨later.synced, by omega, ⟨since ++ [.granted p id term], List.append_assoc _ _ _, ?_⟩,
    ?_, ?_⟩
  · intro other term' mem
    rcases List.mem_append.mp mem with old | new
    · exact above other term' old
    · cases List.mem_singleton.mp new
      omega
  · intro other term' mem
    rcases List.mem_append.mp mem with old | new
    · exact (votes.persisted other term' old).trans later.term_le
    · cases List.mem_singleton.mp new
      exact Nat.le_of_eq kept.symm
  · intro first second term' left right
    rcases List.mem_append.mp left with oldLeft | newLeft
    · rcases List.mem_append.mp right with oldRight | newRight
      · exact votes.once first second term' oldLeft oldRight
      · cases List.mem_singleton.mp newRight
        have := votes.persisted first term oldLeft
        omega
    · cases List.mem_singleton.mp newLeft
      rcases List.mem_append.mp right with oldRight | newRight
      · have := votes.persisted second term oldRight
        omega
      · cases List.mem_singleton.mp newRight
        rfl

end Votes

/-- A granted vote answers a request for its term and is in the journal. -/
def GrantKept (p : ProposerId) (id : AcceptorId) (journal : List Event)
    (request answer : Message) : Prop :=
  ∀ vote, answer = .voteResponse vote → vote.granted = true →
    request = .voteRequest vote.term ∧ Event.granted p id vote.term ∈ journal

/-- An acceptor handles a request. -/
theorem Votes.process {bound : AcceptorId → Nat} {front journal : List Event} {id : AcceptorId}
    {acceptor : Acceptor} (votes : Votes bound front id journal acceptor) (source : ProposerId)
    (message : Message) :
    Votes bound front id (journal ++ grants source id (acceptor.process message).2)
        (acceptor.process message).1 ∧
      GrantKept source id (journal ++ grants source id (acceptor.process message).2) message
        (acceptor.process message).2 := by
  have later := Acceptor.later_process votes.synced message
  constructor
  · cases answer : (acceptor.process message).2 with
    | voteResponse vote =>
        cases granted : vote.granted with
        | false => simpa [grants, granted] using votes.later later
        | true =>
            obtain ⟨-, newer, kept⟩ := Acceptor.granted_process votes.synced answer granted
            simpa [grants, granted] using votes.grant later newer kept
    | _ => simpa [grants] using votes.later later
  · intro vote answer granted
    obtain ⟨asked, -⟩ := Acceptor.granted_process votes.synced answer granted
    exact ⟨asked, by simp [answer, grants, granted]⟩

/-! ## The proposers' part -/

/-- The votes `Quorum::open` holds were granted to it. It holds none before it campaigns, and
the votes of a quorum once it has chosen a donor. -/
structure Opening.Backed (p : ProposerId) (journal : List Event) (opening : Opening) : Prop where
  votes : ∀ id, (opening.votes.get id).isSome → Event.granted p id opening.term ∈ journal
  pc : match opening.pc with
    | .greeting _ | .adopting _ => ∀ id, opening.votes.get id = none
    | .reading | .electing _ _ => Majority p journal opening.term
    | _ => True

/-- So were the votes of a re-election, each acceptor asked once. -/
def SupervisorPc.Backed (p : ProposerId) (journal : List Event) : SupervisorPc → Prop
  | .greeting _ _ todo conns => (conns ++ todo).Nodup
  | .voting _ maxTerm todo votes => (votes.map Prod.fst ++ todo).Nodup ∧
      ∀ vote ∈ votes, Event.granted p vote.1 (maxTerm + 1) ∈ journal
  | _ => True

/-- A proposer's votes were granted to it, and so was its term, by a majority. -/
structure Proposer.Backed (p : ProposerId) (journal : List Event) (proposer : Proposer) :
    Prop where
  opening : proposer.opening.Backed p journal
  openReply : ∀ id rest, proposer.opening.pc = .voting (id :: rest) → ∀ answer,
    proposer.openReply = some answer →
    GrantKept p id journal (.voteRequest proposer.opening.term) answer
  shared : ∀ shared, proposer.shared = some shared → Majority p journal shared.election.term
  supervisor : proposer.supervisor.Backed p journal
  supervisorReply : ∀ old maxTerm id todo votes,
    proposer.supervisor = .voting old maxTerm (id :: todo) votes → ∀ answer,
    proposer.supervisorReply = some answer →
    GrantKept p id journal (.voteRequest (maxTerm + 1)) answer

variable {p : ProposerId} {journal : List Event}

namespace Opening

variable {opening : Opening}

theorem backed_fail (votes : ∀ id, (opening.votes.get id).isSome →
    Event.granted p id opening.term ∈ journal) (why : String) :
    (opening.fail why).Backed p journal :=
  ⟨votes, trivial⟩

/-- A proposer that has not campaigned yet goes on greeting. -/
theorem backed_greetNext (none : ∀ id, opening.votes.get id = none) (rest : List AcceptorId) :
    (Proposer.greetNext opening rest).Backed p journal := by
  have votes : ∀ id, (opening.votes.get id).isSome →
      Event.granted p id opening.term ∈ journal := by simp [none]
  unfold Proposer.greetNext
  split
  · simp only [settleIdentity]
    split
    · exact backed_fail votes _
    · split
      · exact ⟨votes, none⟩
      · exact ⟨votes, none⟩
      · exact backed_fail votes _
  · exact ⟨votes, none⟩

/-- It settles the identity and campaigns. -/
theorem backed_adoptNext (none : ∀ id, opening.votes.get id = none) (rest : List AcceptorId) :
    (Proposer.adoptNext opening rest).Backed p journal := by
  unfold Proposer.adoptNext
  split
  · exact ⟨by simp [campaign, none], trivial⟩
  · exact ⟨by simp [none], none⟩

section Voting

variable (votes : ∀ id, (opening.votes.get id).isSome →
  Event.granted p id opening.term ∈ journal)

include votes

theorem backed_decode (majority : Majority p journal opening.term) :
    opening.decode.Backed p journal := by
  unfold decode
  split
  · exact backed_fail votes _
  · split
    · exact backed_fail votes _
    · exact ⟨votes, majority⟩

/-- The votes of a quorum are a majority of grants. -/
theorem backed_chooseDonor : opening.chooseDonor.Backed p journal := by
  simp only [chooseDonor]
  split
  · exact backed_fail votes _
  · rename_i enough
    obtain ⟨a, b, different, votedA, votedB⟩ := granted_quorum enough
    have majority : Majority p journal opening.term :=
      ⟨a, b, different, votes a votedA, votes b votedB⟩
    split
    · exact backed_fail votes _
    · split
      · exact backed_fail votes _
      · split
        · exact ⟨votes, majority⟩
        · exact backed_decode votes majority

theorem backed_voteNext (rest : List AcceptorId) :
    (Proposer.voteNext opening rest).Backed p journal := by
  unfold Proposer.voteNext
  split
  · exact backed_chooseDonor votes
  · exact ⟨votes, trivial⟩

/-- Only a granted vote of the term is counted. -/
theorem backed_countVote (id : AcceptorId) (rest : List AcceptorId) {vote : VoteResponse}
    (kept : GrantKept p id journal (.voteRequest opening.term) (.voteResponse vote)) :
    (Proposer.countVote opening id rest vote).Backed p journal := by
  unfold Proposer.countVote
  split
  · exact backed_fail votes _
  · split
    · exact backed_fail votes _
    · rename_i refuses
      obtain ⟨asked, granted⟩ := kept vote rfl (by simpa using refuses)
      have asked : opening.term = vote.term := by simpa using asked
      refine backed_voteNext ?_ rest
      intro other counted
      simp only [Tri.get_set] at counted
      split at counted
      · rename_i same
        subst same
        exact asked.symm ▸ granted
      · exact votes other counted

theorem backed_countChunk (pc : opening.pc = .reading)
    (majority : Majority p journal opening.term) (fromLsn : Nat) (records : List UInt8) :
    (Proposer.countChunk opening fromLsn records).Backed p journal := by
  simp only [Proposer.countChunk]
  split
  · exact backed_fail votes _
  · split
    · exact backed_fail votes _
    · split
      · exact backed_fail votes _
      · split
        · exact ⟨votes, by simpa only [pc] using majority⟩
        · exact backed_decode votes majority

end Voting

end Opening

namespace Proposer

variable {proposer : Proposer}

/-- `Quorum::open` moves where it awaits no vote. -/
theorem Backed.withOpening (backed : proposer.Backed p journal) {opening : Opening}
    (openingBacked : opening.Backed p journal) (unanswered : proposer.openReply = none)
    {shared : Option Shared}
    (elected : ∀ moved, shared = some moved → Majority p journal moved.election.term) :
    { proposer with opening := opening, shared := shared }.Backed p journal := by
  refine ⟨openingBacked, ?_, elected, backed.supervisor, backed.supervisorReply⟩
  intro id rest _ answer answered
  rw [unanswered] at answered
  cases answered

/-- The elected handshakes are of a term a majority granted. -/
theorem Backed.electFrom {shared : Shared} (backed : proposer.Backed p journal)
    (unanswered : proposer.openReply = none)
    (elected : Majority p journal shared.election.term)
    (majority : Majority p journal proposer.opening.term) (todo : List AcceptorId) :
    (proposer.electFrom shared todo).Backed p journal := by
  induction todo generalizing proposer shared with
  | nil =>
      refine ⟨⟨backed.opening.votes, trivial⟩, ?_, ?_, trivial, ?_⟩
      · intro id rest pc
        cases pc
      · rintro moved ⟨⟩
        rw [Shared.recomputeCommit_election]
        exact elected
      · intro old maxTerm id todo votes pc
        cases pc
  | cons id rest ih =>
      have dropped : (proposer.opening.drop id).Backed p journal :=
        ⟨backed.opening.votes, backed.opening.pc⟩
      simp only [Proposer.electFrom]
      split
      · split
        · refine backed.withOpening (Opening.backed_fail backed.opening.votes _) unanswered ?_
          intro moved isNone
          cases isNone
        · split
          · exact ih (backed.withOpening dropped unanswered backed.shared) unanswered elected
              majority
          · rename_i start _ _
            have electing : ({ proposer.opening with pc := .electing (id :: rest) start } :
                Opening).Backed p journal := ⟨backed.opening.votes, majority⟩
            refine backed.withOpening electing unanswered ?_
            rintro moved ⟨⟩
            exact elected
      · exact ih (backed.withOpening dropped unanswered backed.shared) unanswered elected majority

theorem Backed.takeOver (backed : proposer.Backed p journal)
    (unanswered : proposer.openReply = none) {opening : Opening}
    (openingBacked : opening.Backed p journal) :
    (proposer.takeOver opening).Backed p journal := by
  unfold Proposer.takeOver
  split
  · rename_i start pc
    have majority := openingBacked.pc
    simp only [pc] at majority
    split
    · exact backed.withOpening (Opening.backed_fail openingBacked.votes _) unanswered backed.shared
    · exact Backed.electFrom (backed.withOpening openingBacked unanswered backed.shared) unanswered
        majority majority AcceptorId.all
  · exact backed.withOpening openingBacked unanswered backed.shared

/-- `Quorum::open` continues with the outcome of its request. -/
theorem Backed.resumeOpen (backed : proposer.Backed p journal) {outcome : Outcome}
    (replied : ∀ message, outcome = .response message → proposer.openReply = some message) :
    (proposer.resumeOpen outcome).Backed p journal := by
  have openingBacked := backed.opening
  have votes := openingBacked.votes
  have pcBacked := openingBacked.pc
  have waiting : { proposer with openReply := none }.Backed p journal := by
    refine ⟨openingBacked, ?_, backed.shared, backed.supervisor, backed.supervisorReply⟩
    intro id rest _ answer answered
    cases answered
  have electing : ∀ {shared : Shared} {todo rest : List AcceptorId} {start : Nat}
      {opening : Opening}, proposer.opening.pc = .electing todo start →
      Majority p journal shared.election.term → opening.Backed p journal →
      opening.term = proposer.opening.term →
      ({ proposer with openReply := none, opening := opening }.electFrom shared rest).Backed p
        journal := by
    intro shared todo rest start opening pc elected backed same
    simp only [pc] at pcBacked
    exact Backed.electFrom (waiting.withOpening backed rfl waiting.shared) rfl elected
      (same ▸ pcBacked) rest
  have failing : ∀ why, { proposer with
      openReply := none, opening := proposer.opening.fail why }.Backed p journal := fun why =>
    waiting.withOpening (Opening.backed_fail votes why) rfl waiting.shared
  simp only [Proposer.resumeOpen]
  split
  · rename_i pc
    simp only [pc] at pcBacked
    refine waiting.takeOver rfl (Opening.backed_greetNext ?_ _)
    exact pcBacked
  · rename_i pc _
    simp only [pc] at pcBacked
    exact waiting.takeOver rfl (Opening.backed_greetNext pcBacked _)
  · rename_i pc
    simp only [pc] at pcBacked
    exact waiting.takeOver rfl (Opening.backed_adoptNext pcBacked _)
  · rename_i pc
    simp only [pc] at pcBacked
    refine waiting.takeOver rfl (Opening.backed_adoptNext ?_ _)
    exact pcBacked
  · exact waiting.takeOver rfl (Opening.backed_fail votes _)
  · rename_i id rest vote pc
    exact waiting.takeOver rfl (Opening.backed_countVote votes id rest
      (backed.openReply id rest pc _ (replied _ rfl)))
  · exact waiting.takeOver rfl (Opening.backed_fail votes _)
  · refine waiting.takeOver rfl (Opening.backed_voteNext ?_ _)
    exact votes
  · rename_i pc
    simp only [pc] at pcBacked
    exact waiting.takeOver rfl (Opening.backed_countChunk votes pc pcBacked _ _)
  · exact waiting.takeOver rfl (Opening.backed_fail votes _)
  · rename_i id rest start term ok pc
    split
    · split
      · rename_i shared isShared
        refine electing pc ?_ openingBacked rfl
        cases stores : shared.storeAck id proposer.opening.term start with
        | none => exact backed.shared shared isShared
        | some stored =>
            rw [Option.getD_some, Shared.storeAck_election stores]
            exact backed.shared shared isShared
      · exact waiting
    · exact failing _
  · exact failing _
  · rename_i id rest start pc _ _
    split
    · rename_i shared isShared
      exact electing pc (backed.shared shared isShared) ⟨votes, openingBacked.pc⟩ rfl
    · exact waiting
  · exact waiting

/-- A streaming task counts no vote and takes no term. -/
theorem Backed.streamed {after : Proposer} (backed : proposer.Backed p journal)
    (step : proposer.Streamed after) : after.Backed p journal := by
  refine ⟨step.opening ▸ backed.opening, ?_, fun moved isMoved => ?_,
    step.supervisor ▸ backed.supervisor, ?_⟩
  · rw [step.opening, step.openReply]
    exact backed.openReply
  · obtain ⟨shared, isShared, election, -⟩ := step.shared moved isMoved
    exact election ▸ backed.shared shared isShared
  · rw [step.supervisor, step.supervisorReply]
    exact backed.supervisorReply

section Supervisor

variable (backed : proposer.Backed p journal)

include backed

/-- The supervisor moves where it awaits no vote. -/
private theorem backed_withSupervisor (pc : SupervisorPc) (pcBacked : pc.Backed p journal)
    (unanswered : proposer.supervisorReply = none) {moved : Option Shared}
    (elected : ∀ shared, moved = some shared → Majority p journal shared.election.term)
    (failures : Nat) :
    { proposer with shared := moved, supervisor := pc, failures := failures }.Backed p
      journal := by
  refine ⟨backed.opening, backed.openReply, elected, pcBacked, ?_⟩
  intro old maxTerm id todo votes _ answer answered
  rw [unanswered] at answered
  cases answered

variable {shared : Shared} (isShared : proposer.shared = some shared)

include isShared

/-- The supervisor continues with the outcome of its request. It counts granted votes of
distinct acceptors, so the term it adopts was granted by a majority. -/
theorem Backed.resumeSupervisor {outcome : Outcome}
    (replied : ∀ message, outcome = .response message →
      proposer.supervisorReply = some message) :
    (proposer.resumeSupervisor shared outcome).Backed p journal := by
  have elected := backed.shared shared isShared
  have pcBacked := backed.supervisor
  have waiting : { proposer with supervisorReply := none }.Backed p journal := by
    refine ⟨backed.opening, backed.openReply, backed.shared, backed.supervisor, ?_⟩
    intro old maxTerm id todo votes _ answer answered
    cases answered
  have granted : ∀ {old : Election} {maxTerm : Nat} {id : AcceptorId} {todo : List AcceptorId}
      {votes : List (AcceptorId × VoteResponse)},
      proposer.supervisor = .voting old maxTerm (id :: todo) votes →
      refusesVote maxTerm outcome = false → ∀ vote ∈ tally votes id outcome,
        Event.granted p vote.1 (maxTerm + 1) ∈ journal := by
    intro old maxTerm id todo votes asking accepted
    rw [asking] at pcBacked
    refine forall_tally accepted pcBacked.2 ?_
    rintro vote rfl isGranted
    obtain ⟨asked, kept⟩ := backed.supervisorReply old maxTerm id todo votes asking _
      (replied _ rfl) vote rfl isGranted
    simpa [Message.voteRequest.inj asked] using kept
  have moved := supervised isShared outcome
  generalize proposer.resumeSupervisor shared outcome = after at moved
  cases moved with
  | ignores => exact waiting
  | rests isMoved isPc =>
      refine backed_withSupervisor waiting _ ?_ rfl ?_ _
      · rcases isPc with rfl | rfl <;> trivial
      · rcases isMoved with rfl | ⟨why, rfl⟩ <;> rintro _ ⟨⟩ <;> exact elected
  | hears asking newer isHeard isPc =>
      rw [asking] at pcBacked
      have nodup := nodup_heard isHeard pcBacked
      rcases isPc with rfl | ⟨rfl, rfl⟩
      · exact backed_withSupervisor waiting (.greeting _ _ _ _) nodup rfl backed.shared _
      · exact backed_withSupervisor waiting (.voting _ _ _ [])
          ⟨by simpa using nodup, by simp⟩ rfl backed.shared _
  | counts asking accepted =>
      have known := granted asking accepted
      rw [asking] at pcBacked
      exact backed_withSupervisor waiting (.voting _ _ _ _)
        ⟨nodup_tally outcome pcBacked.1, known⟩ rfl backed.shared _
  | adopts asking accepted enough _ _ _ =>
      have known := granted asking accepted
      rw [asking] at pcBacked
      refine backed_withSupervisor waiting .idle trivial rfl ?_ _
      rintro moved ⟨⟩
      obtain ⟨a, b, different, inA, inB⟩ := exists_two_of_nodup
        (by simpa using nodup_tally outcome pcBacked.1) (by simpa using enough)
      obtain ⟨voteA, memA, rfl⟩ := List.mem_map.mp inA
      obtain ⟨voteB, memB, rfl⟩ := List.mem_map.mp inB
      exact ⟨voteA.1, voteB.1, different, known voteA memA, known voteB memB⟩

/-- The supervisor takes the next request. -/
theorem Backed.advanceSupervisor {after : Proposer}
    (advanced : proposer.advanceSupervisor shared = some after) : after.Backed p journal := by
  simp only [Proposer.advanceSupervisor] at advanced
  split at advanced
  · rename_i reason requests idle _
    have elected : ∀ moved, some { shared with requests := requests } = some moved →
        Majority p journal moved.election.term := by
      rintro moved ⟨⟩
      exact backed.shared shared isShared
    have moves : ∀ pc : SupervisorPc, pc.Backed p journal →
        (∀ old maxTerm todo votes, pc ≠ .voting old maxTerm todo votes) →
        { proposer with
          shared := some { shared with requests := requests }, supervisor := pc }.Backed p
            journal := by
      intro pc pcBacked noVotes
      exact ⟨backed.opening, backed.openReply, elected, pcBacked,
        fun old maxTerm id todo votes isVoting => (noVotes _ _ _ _ isVoting).elim⟩
    split at advanced
    · cases advanced
      exact moves .exited trivial (by simp)
    · split at advanced
      · cases advanced
        exact idle ▸ moves .idle trivial (by simp)
      · cases advanced
        refine moves (.greeting _ _ AcceptorId.all []) ?_ (by simp)
        change ([] ++ AcceptorId.all).Nodup
        decide
  · cases advanced

end Supervisor

/-- Later events take no grant back. -/
theorem Backed.more (backed : proposer.Backed p journal) {more : List Event} :
    proposer.Backed p (journal ++ more) := by
  have kept : ∀ {id request answer}, GrantKept p id journal request answer →
      GrantKept p id (journal ++ more) request answer := fun kept vote isVote granted =>
    (kept vote isVote granted).imp_right (List.mem_append_left more)
  refine ⟨⟨fun id voted => List.mem_append_left _ (backed.opening.votes id voted), ?_⟩,
    fun id rest pc answer answered => kept (backed.openReply id rest pc answer answered),
    fun shared isShared => (backed.shared shared isShared).more more, ?_,
    fun old maxTerm id todo votes pc answer answered =>
      kept (backed.supervisorReply old maxTerm id todo votes pc answer answered)⟩
  · have pcBacked := backed.opening.pc
    cases pc : proposer.opening.pc <;> simp only [pc] at pcBacked ⊢
    case greeting | adopting => exact pcBacked
    case reading | electing => exact pcBacked.more more
  · have pcBacked := backed.supervisor
    cases pc : proposer.supervisor with
    | voting old maxTerm todo votes =>
        rw [pc] at pcBacked
        exact ⟨pcBacked.1, fun vote mem => List.mem_append_left _ (pcBacked.2 vote mem)⟩
    | _ =>
        rw [pc] at pcBacked
        exact pcBacked

/-- An answer arrives at the task that waits for it. -/
theorem Backed.setReply (backed : proposer.Backed p journal) {task : Task} {target : AcceptorId}
    {message answer : Message} (pending : proposer.pending task = some (target, message))
    (kept : GrantKept p target journal message answer) :
    (proposer.setReply answer task).Backed p journal := by
  cases task with
  | opener =>
      refine ⟨backed.opening, ?_, backed.shared, backed.supervisor, backed.supervisorReply⟩
      rintro id rest pc _ ⟨⟩
      have pc : proposer.opening.pc = .voting (id :: rest) := pc
      simp only [Proposer.pending, Opening.pending, pc, Option.some.injEq, Prod.mk.injEq] at pending
      obtain ⟨rfl, rfl⟩ := pending
      exact kept
  | peer id =>
      exact ⟨backed.opening, backed.openReply, backed.shared, backed.supervisor,
        backed.supervisorReply⟩
  | supervisor =>
      refine ⟨backed.opening, backed.openReply, backed.shared, backed.supervisor, ?_⟩
      rintro old maxTerm id todo votes pc _ ⟨⟩
      have pc : proposer.supervisor = .voting old maxTerm (id :: todo) votes := pc
      simp only [Proposer.pending, SupervisorPc.pending, pc, Option.bind_eq_some_iff,
        Option.some.injEq, Prod.mk.injEq] at pending
      obtain ⟨-, -, rfl, rfl⟩ := pending
      exact kept

/-- Whoever wins a term by its own count was granted it by a majority. -/
theorem Backed.majority (backed : proposer.Backed p journal) {term : Nat}
    (wins : proposer.Wins term) : Majority p journal term := by
  have granted : ∀ id, proposer.HoldsVote term id → Event.granted p id term ∈ journal := by
    rintro id (⟨rfl, voted⟩ | ⟨old, maxTerm, todo, votes, pc, rfl, mem⟩)
    · exact backed.opening.votes id voted
    · have pcBacked := backed.supervisor
      rw [pc] at pcBacked
      obtain ⟨vote, voteIn, rfl⟩ := List.mem_map.mp mem
      exact pcBacked.2 vote voteIn
  rcases wins with ⟨a, b, different, holdsA, holdsB⟩ | ⟨shared, isShared, rfl⟩
  · exact ⟨a, b, different, granted a holdsA, granted b holdsB⟩
  · exact backed.shared shared isShared

end Proposer

/-- Every party keeps its part. -/
theorem local_backed (bound : AcceptorId → Nat) (front : List Event) :
    Local False (Votes bound front) (fun _ => True) GrantKept Proposer.Backed where
  acceptorMore votes noGrant := votes.more noGrant
  proposerMore backed := backed.more
  restart votes := votes.later (Acceptor.later_boot _ _ _ (Nat.le_refl _))
  process source votes _ := votes.process source _
  crashDuring votes _ crashed := votes.later (Acceptor.later_crashDuring votes.synced crashed)
  start p journal minted chunk := by
    have none : ∀ id, (Proposer.start minted chunk).opening.votes.get id = none := by
      intro id
      cases id <;> rfl
    refine ⟨⟨by simp [none], none⟩, ?_, ?_, trivial, ?_⟩
    · intro id rest pc
      cases pc
    · intro shared isShared
      cases isShared
    · intro old maxTerm id todo votes pc
      cases pc
  pending _ _ := trivial
  setReply backed pending kept := backed.setReply pending kept
  kill backed :=
    ⟨backed.opening, backed.openReply, backed.shared, backed.supervisor, backed.supervisorReply⟩
  resume {_ _ proposer task outcome} backed replied _ := by
    unfold Proposer.resume
    split
    · exact backed.resumeOpen replied
    · rename_i isShared _
      exact backed.streamed (Proposer.streamed_resumePeer isShared _ outcome)
    · rename_i isShared _
      exact backed.resumeSupervisor isShared replied
    · exact backed
  advance {_ _ proposer after task} backed advanced := by
    unfold Proposer.advance at advanced
    split at advanced
    · unfold Proposer.advanceOpen at advanced
      split at advanced
      · rename_i waits
        split at advanced
        · cases advanced
          refine ⟨Opening.backed_fail backed.opening.votes _, ?_, backed.shared,
            backed.supervisor, backed.supervisorReply⟩
          intro id rest pc
          cases pc
        · split at advanced
          · cases advanced
            refine ⟨⟨backed.opening.votes, trivial⟩, ?_, backed.shared, backed.supervisor,
              backed.supervisorReply⟩
            intro id rest pc
            cases pc
          · cases advanced
      · cases advanced
    · rename_i isShared
      exact backed.streamed (Proposer.streamed_advancePeer isShared advanced)
    · rename_i isShared
      exact backed.advanceSupervisor isShared advanced
    · cases advanced
  client {p journal proposer after} backed served := by
    cases served with
    | @intro shared moved pc waiters isShared election _ waits =>
        have elected : ∀ other, some moved = some other →
            Majority p journal other.election.term := by
          rintro other ⟨⟩
          rw [election]
          exact backed.shared shared isShared
        rcases waits with rfl | ⟨-, ⟨stalled, rfl⟩ | ⟨why, rfl⟩⟩
        · exact ⟨backed.opening, backed.openReply, elected, backed.supervisor,
            backed.supervisorReply⟩
        · exact ⟨⟨backed.opening.votes, trivial⟩, nofun, elected,
            backed.supervisor, backed.supervisorReply⟩
        · exact ⟨⟨backed.opening.votes, trivial⟩, nofun, elected,
            backed.supervisor, backed.supervisorReply⟩

/-- Whoever won a term in a state of a run is its only winner in every later one: no other
proposer holds the votes of a majority for it, takes it over or is granted it by two acceptors.
And after a state of the run no acceptor grants a term at or below the one it had persisted
in that state. -/
theorem at_most_one_majority_per_term {earlier sys : Sys}
    (start : Run Sys.step Unrestricted Sys.initial earlier)
    (rest : Run Sys.step Unrestricted earlier sys) :
    (∀ term first second, earlier.Wins first term → sys.Wins second term → first = second) ∧
      ∃ more, sys.journal = earlier.journal ++ more ∧ ∀ p id term,
        Event.granted p id term ∈ more → (earlier.acceptors.get id).ctrl.term < term := by
  have begun := Local.run (Local.initial fun id => ⟨rfl, Nat.le_refl _, ⟨[], rfl, by simp⟩,
    by simp, by simp⟩) (local_backed (fun _ => 0) []) (start.weaken fun _ _ _ => False.elim)
  have again : earlier.Keeps (Votes (fun id => (earlier.acceptors.get id).ctrl.term)
      earlier.journal) (fun _ => True) Proposer.Backed :=
    ⟨fun id => ⟨(begun.acceptors id).synced, Nat.le_refl _, ⟨[], by simp, by simp⟩,
      (begun.acceptors id).persisted, (begun.acceptors id).once⟩, begun.proposers, begun.strays⟩
  have kept := Local.run again (local_backed _ _) (rest.weaken fun _ _ _ => False.elim)
  have won : ∀ {state : Sys} {bound : AcceptorId → Nat} {front : List Event},
      state.Keeps (Votes bound front) (fun _ => True) Proposer.Backed →
      ∀ {p term}, state.Wins p term → Majority p state.journal term := by
    rintro state bound front kept p term (majority | ⟨proposer, isProposer, wins⟩)
    · exact majority
    · exact (kept.proposers p proposer isProposer).majority wins
  obtain ⟨more, journal, -⟩ := (kept.acceptors .first).since
  refine ⟨fun term first second wonFirst wonSecond => ?_, more, journal, fun p id term mem => ?_⟩
  · obtain ⟨a, b, different, grantedA, grantedB⟩ := journal ▸ (won begun wonFirst).more more
    obtain ⟨c, d, differentToo, grantedC, grantedD⟩ := won kept wonSecond
    rcases majorities_meet different differentToo with rfl | rfl | rfl | rfl
    · exact (kept.acceptors a).once first second term grantedA grantedC
    · exact (kept.acceptors a).once first second term grantedA grantedD
    · exact (kept.acceptors b).once first second term grantedB grantedC
    · exact (kept.acceptors b).once first second term grantedB grantedD
  · obtain ⟨others, same, newer⟩ := (kept.acceptors id).since
    obtain rfl : others = more := List.append_cancel_left (same.symm.trans journal)
    exact newer p term mem

/-- A process opens over three acceptors, one of which restarts after its vote, and takes term
one over. A second process then opens and holds the votes for term two. -/
theorem at_most_one_majority_per_term_opened :
    let first := execute Sys.step (fun _ _ => true) Sys.initial ([.spawn "tail" 1024] ++
      calls 0 .opener 7 ++ [.restart .first] ++ calls 0 .opener 2)
    let second := execute Sys.step (fun _ _ => true) first ([.spawn "other" 1024] ++
      calls 1 .opener 8)
    first.Wins 0 1 ∧ second.Wins 1 2 ∧
      (∀ other, second.Wins other 1 → other = 0) ∧ ∀ other, second.Wins other 2 → other = 1 := by
  intro first second
  have start : Run Sys.step Unrestricted Sys.initial first :=
    run_execute (fun _ _ _ => trivial) Sys.initial _
  have rest : Run Sys.step Unrestricted first second :=
    run_execute (fun _ _ _ => trivial) first _
  have wonFirst : first.Wins 0 1 := by
    have term : first.proposers[0]?.bind (fun proposer => proposer.shared.map fun shared =>
        shared.election.term) = some 1 := by decide +kernel
    simp only [Option.bind_eq_some_iff, Option.map_eq_some_iff] at term
    obtain ⟨proposer, isProposer, shared, isShared, term⟩ := term
    exact .inr ⟨proposer, isProposer, .inr ⟨shared, isShared, term⟩⟩
  have wonSecond : second.Wins 1 2 := by
    have held : second.proposers[1]?.map (fun proposer => (proposer.opening.term,
        (proposer.opening.votes.get .first).isSome,
        (proposer.opening.votes.get .second).isSome)) = some (2, true, true) := by
      decide +kernel
    simp only [Option.map_eq_some_iff, Prod.mk.injEq] at held
    obtain ⟨proposer, isProposer, term, votedFirst, votedSecond⟩ := held
    exact .inr ⟨proposer, isProposer, .inl ⟨.first, .second, by decide, .inl ⟨term, votedFirst⟩,
      .inl ⟨term, votedSecond⟩⟩⟩
  exact ⟨wonFirst, wonSecond,
    fun other won => ((at_most_one_majority_per_term start rest).1 1 0 other wonFirst won).symm,
    fun other won => ((at_most_one_majority_per_term (start.trans rest) .refl).1 2 1 other
      wonSecond won).symm⟩

end Icegres.Quorum
