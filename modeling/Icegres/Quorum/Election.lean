import Icegres.Quorum.System

/-!
# Votes

An acceptor persists a term before it answers the vote request that carries it, and grants
only terms above the persisted one. The journal records the grants.
-/

namespace Icegres.Quorum

namespace Acceptor

/-- The term in memory is the persisted one. -/
def Synced (acceptor : Acceptor) : Prop :=
  acceptor.ctrl.term = acceptor.state.term

/-- What handling a message or failing in it does to the persisted term. -/
structure Later (acceptor next : Acceptor) : Prop where
  synced : next.Synced
  term_le : acceptor.ctrl.term ≤ next.ctrl.term

theorem Later.refl {acceptor : Acceptor} (synced : acceptor.Synced) :
    acceptor.Later acceptor :=
  ⟨synced, Nat.le_refl _⟩

theorem Later.trans {first second third : Acceptor} (front : first.Later second)
    (rest : second.Later third) : first.Later third :=
  ⟨rest.synced, front.term_le.trans rest.term_le⟩

variable {acceptor : Acceptor}

theorem later_boot (ctrl : PersistentState) (files : List Seg) (rotateBytes : Nat)
    (newer : acceptor.ctrl.term ≤ ctrl.term) : acceptor.Later (boot ctrl files rotateBytes) :=
  ⟨rfl, newer⟩

theorem later_bumpTerm (synced : acceptor.Synced) (term : Nat) :
    acceptor.Later (acceptor.bumpTerm term) := by
  unfold bumpTerm
  split
  · rename_i newer
    exact ⟨rfl, by simp only [persist, synced.symm ▸ Nat.le_of_lt newer]⟩
  · exact .refl synced

theorem later_persist (synced : acceptor.Synced) {next : PersistentState} (wal : SegmentWal)
    (same : acceptor.state.term ≤ next.term) :
    acceptor.Later ({ acceptor with wal := wal }.persist next) :=
  ⟨rfl, synced.symm ▸ same⟩

theorem later_handleGreeting (synced : acceptor.Synced) (tailId : Option String) :
    acceptor.Later (acceptor.handleGreeting tailId).1 := by
  unfold handleGreeting
  split
  · exact later_persist synced acceptor.wal (Nat.le_refl _)
  · split <;> exact .refl synced
  · exact .refl synced

theorem handleVote_fst (term : Nat) :
    (acceptor.handleVote term).1 = acceptor.bumpTerm term := by
  simp only [handleVote, bumpTerm]

theorem later_handleVote (synced : acceptor.Synced) (term : Nat) :
    acceptor.Later (acceptor.handleVote term).1 := by
  rw [handleVote_fst]
  exact later_bumpTerm synced term

theorem later_handleElected (synced : acceptor.Synced) (term startLsn : Nat)
    (termHistory : TermHistory) :
    acceptor.Later (acceptor.handleElected term startLsn termHistory).1 := by
  have bumped := later_bumpTerm synced term
  simp only [handleElected]
  split
  · exact bumped
  · split
    · exact bumped
    · exact bumped.trans (later_persist bumped.synced _ (Nat.le_refl _))

theorem later_applyAppend (synced : acceptor.Synced) (request : AppendRequest)
    (wal : SegmentWal) : acceptor.Later (acceptor.applyAppend request wal) := by
  simp only [applyAppend]
  split
  · exact later_persist synced _ (Nat.le_refl _)
  · exact ⟨synced, Nat.le_refl _⟩

theorem later_handleAppend (synced : acceptor.Synced) (request : AppendRequest) :
    acceptor.Later (acceptor.handleAppend request).1 := by
  unfold handleAppend
  split
  · exact .refl synced
  · split
    · exact .refl synced
    · split
      · exact .refl synced
      · split
        · exact .refl synced
        · exact later_applyAppend synced request _

/-- The handler of each request. -/
theorem process_fst (message : Message) :
    (acceptor.process message).1 =
      match message with
      | .greeting tailId => (acceptor.handleGreeting tailId).1
      | .voteRequest term => (acceptor.handleVote term).1
      | .elected term startLsn termHistory =>
          (acceptor.handleElected term startLsn termHistory).1
      | .append request => (acceptor.handleAppend request).1
      | _ => acceptor := by
  unfold process
  cases message <;> simp only <;> split <;> simp_all

/-- No message lowers the persisted term. -/
theorem later_process (synced : acceptor.Synced) (message : Message) :
    acceptor.Later (acceptor.process message).1 := by
  rw [process_fst]
  cases message with
  | greeting tailId => exact later_handleGreeting synced tailId
  | voteRequest term => exact later_handleVote synced term
  | elected term startLsn termHistory =>
      exact later_handleElected synced term startLsn termHistory
  | append request => exact later_handleAppend synced request
  | _ => exact .refl synced

theorem later_crashDuring (synced : acceptor.Synced) {message : Message} {point : CrashPoint}
    {next : Acceptor} (crashed : acceptor.crashDuring message point = some next) :
    acceptor.Later next := by
  simp only [crashDuring, Option.map_eq_some_iff] at crashed
  obtain ⟨⟨ctrl, files⟩, disk, rfl⟩ := crashed
  refine later_boot ctrl files _ ?_
  cases message with
  | elected term startLsn termHistory =>
      obtain ⟨rfl, -⟩ := crashElected_cases disk
      exact (later_bumpTerm synced term).term_le
  | append request =>
      obtain ⟨-, -, ⟨written, rfl, -⟩ | ⟨dropped, wal, -, rfl, -⟩⟩ := crashAppend_cases disk
      · exact Nat.le_refl _
      · exact Nat.le_of_eq synced
  | _ => cases disk

/-- Only a vote request is answered by a vote. -/
theorem process_voteResponse {message : Message} {vote : VoteResponse}
    (answer : (acceptor.process message).2 = .voteResponse vote) :
    ∃ term, message = .voteRequest term := by
  cases message with
  | voteRequest term => exact ⟨term, rfl⟩
  | greeting tailId =>
      simp only [process, handleGreeting] at answer
      split at answer
      · rename_i handled
        split at handled <;> (try split at handled) <;> simp_all
      · cases answer
  | elected term startLsn termHistory =>
      simp only [process, handleElected] at answer
      split at answer
      · rename_i handled
        split at handled <;> (try split at handled) <;> simp_all
      · cases answer
  | append request =>
      simp only [process, handleAppend] at answer
      split at answer
      · rename_i handled
        split at handled <;> (try split at handled) <;> (try split at handled) <;>
          (try split at handled) <;> simp_all
      · cases answer
  | read fromLsn toLsn =>
      simp only [process, handleRead] at answer
      split at answer
      · rename_i handled
        split at handled <;> (try split at handled) <;> simp_all
      · cases answer
  | _ => cases answer

/-- A granted vote is for the newer term it was asked for, which is persisted with the
answer. -/
theorem granted_process (synced : acceptor.Synced) {message : Message} {vote : VoteResponse}
    (answer : (acceptor.process message).2 = .voteResponse vote) (granted : vote.granted = true) :
    message = .voteRequest vote.term ∧ acceptor.ctrl.term < vote.term ∧
      (acceptor.process message).1.ctrl.term = vote.term := by
  obtain ⟨term, rfl⟩ := process_voteResponse answer
  simp only [process, handleVote] at answer ⊢
  cases answer
  have newer : acceptor.state.term < term := by simpa using granted
  simp only [if_pos newer, persist, synced.symm ▸ newer, and_self]

/-- A vote reports the horizon in effect. -/
theorem horizon_process {message : Message} {vote : VoteResponse}
    (answer : (acceptor.process message).2 = .voteResponse vote) :
    vote.horizonLsn = acceptor.effectiveHorizon := by
  obtain ⟨term, rfl⟩ := process_voteResponse answer
  simp only [process, handleVote] at answer
  cases answer
  simp only [effectiveHorizon]
  split <;> rfl

end Acceptor

/-- The grant an answer announces. -/
def grants (source : ProposerId) (target : AcceptorId) : Message → List Event
  | .voteResponse vote => if vote.granted then [.granted source target vote.term] else []
  | _ => []

/-- No acceptor's grant is among the events. -/
def NoGrant (events : List Event) : Prop :=
  ∀ proposer acceptor term, Event.granted proposer acceptor term ∉ events

theorem noGrant_observed (id : ProposerId) (before after : Proposer) :
    NoGrant (observed id before after) := by
  intro proposer acceptor term mem
  simp only [observed] at mem
  split at mem <;> split at mem <;> simp at mem <;> grind

namespace Sys

/-- What handling a message does to the system. -/
theorem handle_eq (sys : Sys) (source : ProposerId) (target : AcceptorId) (message : Message) :
    sys.handle source target message =
      ({ sys with
          acceptors := sys.acceptors.set target ((sys.acceptors.get target).process message).1
          journal := sys.journal ++
            grants source target ((sys.acceptors.get target).process message).2 },
        ((sys.acceptors.get target).process message).2) := by
  simp only [handle]
  split
  · rename_i vote answer
    rw [answer]
    cases granted : vote.granted <;> simp [grants, granted, record]
  · rename_i other
    generalize ((sys.acceptors.get target).process message).2 = answer at other ⊢
    cases answer with
    | voteResponse vote => exact absurd rfl (other vote)
    | _ => simp [grants]

end Sys

end Icegres.Quorum
