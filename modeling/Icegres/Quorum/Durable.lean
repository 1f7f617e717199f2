import Icegres.Quorum.Counted
import Icegres.Quorum.Histories
import Icegres.Quorum.Lag
import Icegres.Quorum.LogMatching

/-!
# Durability of acknowledged records

A record whose commit was awaited is in what every later `Quorum::open` recovers, and no
acceptor whose ack moved the commit loses it, until a proposer's horizon has passed it. It
holds in runs whose recovery reads are fenced, whose re-elections never start below the
proposer's term, and in which no `Quorum::open` returns after a rival of a later term has
committed.
-/

namespace Icegres.Quorum

open Icegres.TermLog

namespace Sys

/-- A proposer advanced its horizon past the start of the record. -/
def Passed (sys : Sys) (record : Record) : Prop :=
  ∃ p horizon, .advanced p horizon ∈ sys.journal ∧ record.lsn < horizon

/-- A record that a wait covered: what later opens recover, and who keeps it. -/
def Durable (sys : Sys) : Prop :=
  ∀ earlier later p term position record,
    sys.journal = earlier ++ .acknowledged p term position :: later →
    .submitted p record ∈ earlier → record.endLsn ≤ position →
    (∀ q opened recovered, .opened q opened recovered ∈ later →
      record ∈ recovered ∨ sys.Passed record) ∧
    ∃ counting commit counted, .committed p counting commit counted ∈ earlier ∧
      position ≤ commit ∧ (∃ a b, a ≠ b ∧ a ∈ counted ∧ b ∈ counted) ∧
      ∀ id ∈ counted, record ∈ (sys.acceptors.get id).wal.records ∨ sys.Passed record

/-- `Quorum::open` returns only while no commit was counted in a term above its own. -/
def returnsInTime (sys : Sys) : Action → Bool
  | .advance id .opener =>
      match sys.live id with
      | none => true
      | some proposer => sys.journal.all fun event =>
          match event with
          | .committed _ term _ _ => term ≤ proposer.opening.term
          | _ => true
  | _ => true

/-- What the actions of a durable run meet. -/
def keepsCommitted (sys : Sys) (action : Action) : Bool :=
  sys.recoveryFenced action && sys.reelectsAbove action && sys.returnsInTime action

/-- The actions of a durable run. -/
def KeepsCommitted (sys : Sys) (action : Action) : Prop :=
  sys.keepsCommitted action = true

end Sys

/-- A position below the highest announced horizon was passed by one. -/
theorem exists_advanced {journal : List Event} {position : Nat}
    (below : position < announced journal) :
    ∃ p horizon, .advanced p horizon ∈ journal ∧ position < horizon := by
  induction journal with
  | nil => exact absurd below (Nat.not_lt_zero _)
  | cons event journal ih =>
      have later : position < announced journal →
          ∃ p horizon, .advanced p horizon ∈ event :: journal ∧ position < horizon := by
        intro belowLater
        obtain ⟨p, horizon, mem, passed⟩ := ih belowLater
        exact ⟨p, horizon, List.mem_cons_of_mem _ mem, passed⟩
      cases event with
      | advanced p horizon =>
          rcases Nat.lt_or_ge position horizon with passed | notPassed
          · exact ⟨p, horizon, List.mem_cons_self, passed⟩
          · refine later ?_
            simp only [announced] at below
            omega
      | _ => exact later below

/-- A record that ends at or below the end of a front of its log is in the front. -/
theorem Consecutive.mem_front {log front : List Record} (consecutive : Consecutive 0 log)
    (isFront : front <+: log) {record : Record} (mem : record ∈ log)
    (low : record.endLsn ≤ framesLen front) : record ∈ front := by
  obtain ⟨more, rfl⟩ := isFront
  rcases List.mem_append.mp mem with inFront | inMore
  · exact inFront
  · rw [Consecutive.append] at consecutive
    have := consecutive.2.start_le inMore
    have := record.frameLen_pos
    simp only [Record.endLsn] at low
    omega

/-- What the protocol knows of an observed event; below `limit` everything may be lost. -/
def Told (limit : Nat) (abs : Protocol) : Event → Prop
  | .submitted p record => abs.current p ≠ 0 ∧ record ∈ abs.log p
  | .committed p term commit counted =>
      (∃ a b, a ≠ b ∧ a ∈ counted ∧ b ∈ counted) ∧
        (commit ≤ limit ∨ abs.owner term = some p ∧
          (∃ front start, abs.hist term = front ++ [⟨term, start⟩] ∧ start ≤ commit) ∧
          ∀ id ∈ counted, commit ≤ abs.acked id term)
  | .opened p term recovered => abs.owner term = some p ∧
      ∃ front start before, abs.hist term = front ++ [⟨term, start⟩] ∧
        before ++ recovered <+: abs.log p ∧ framesLen before ≤ limit ∧
        framesLen (before ++ recovered) = start
  | _ => True

/-- What was known stays so. -/
theorem Told.later {limit limit' : Nat} {abs next : Protocol} {event : Event}
    (told : Told limit abs event) (after : After abs next) (limits : limit ≤ limit') :
    Told limit' next event := by
  cases event with
  | submitted p record =>
      obtain ⟨owned, mem⟩ := told
      have current := after.grows.current_le p
      exact ⟨by omega, (after.grows.log_grows p owned).subset mem⟩
  | committed p term commit counted =>
      obtain ⟨two, low | ⟨owned, ⟨front, start, shape, starts⟩, acks⟩⟩ := told
      · exact ⟨two, .inl (low.trans limits)⟩
      · refine ⟨two, .inr ⟨after.owner owned, ⟨front, start, ?_, starts⟩, fun id mem => ?_⟩⟩
        · exact (after.hist owned).trans shape
        · exact (acks id mem).trans (after.grows.acked_le id term)
  | opened p term recovered =>
      obtain ⟨owned, front, start, before, shape, isFront, base, ends⟩ := told
      refine ⟨after.owner owned, front, start, before, (after.hist owned).trans shape, ?_,
        base.trans limits, ends⟩
      exact isFront.trans (after.grows.log_grows p (after.before.current_ne_zero owned))
  | _ => trivial

/-- What an event says about those after it. -/
def Precedes : Event → Event → Prop
  | .submitted p _, .opened q _ _ => p ≠ q
  | .committed _ term _ _, .opened _ opened _ => term ≤ opened
  | _, _ => True

theorem precedes_of_not_opened (event : Event) {later : Event}
    (notOpened : ∀ q term recovered, later ≠ .opened q term recovered) : Precedes event later := by
  cases later with
  | opened q term recovered => exact absurd rfl (notOpened q term recovered)
  | _ => cases event <;> trivial

/-- An event of an extended list is in the list or in what extends it. -/
theorem split_append {α : Type} {front more earlier later : List α} {event : α}
    (shape : front ++ more = earlier ++ event :: later) :
    (∃ rest, front = earlier ++ event :: rest) ∨
      ∃ between, earlier = front ++ between ∧ more = between ++ event :: later := by
  rcases List.append_eq_append_iff.mp shape with ⟨between, isEarlier, isMore⟩ | ⟨rest, isFront, isEvent⟩
  · exact .inr ⟨between, isEarlier, isMore⟩
  · cases rest with
    | nil => exact .inr ⟨[], by simpa using isFront.symm, by simpa using isEvent.symm⟩
    | cons first rest =>
        rw [List.cons_append, List.cons.injEq] at isEvent
        exact .inl ⟨rest, isEvent.1 ▸ isFront⟩

/-- The journal, beside the relation of the system to the protocol. -/
structure Journaled (sys : Sys) (abs : Protocol) : Prop where
  told : ∀ event ∈ sys.journal, Told (announced sys.journal) abs event
  commits : ∀ (p : ProposerId) (proposer : Proposer) (shared : Shared),
    sys.proposers[p]? = some proposer → proposer.shared = some shared →
    shared.commit = 0 ∨ ∃ term commit counted, .committed p term commit counted ∈ sys.journal ∧
      shared.commit ≤ commit
  acknowledged : ∀ earlier later p term position,
    sys.journal = earlier ++ .acknowledged p term position :: later →
    position = 0 ∨ ∃ counting commit counted,
      .committed p counting commit counted ∈ earlier ∧ position ≤ commit
  submitted : ∀ p record, .submitted p record ∈ sys.journal →
    ∃ proposer, sys.proposers[p]? = some proposer ∧ proposer.opening.pc = .returned
  inOrder : sys.journal.Pairwise Precedes

namespace Journaled

variable {sys after : Sys} {abs next : Protocol} (journaled : Journaled sys abs)

include journaled

/-- What was known of the journal is known of a longer one. -/
private theorem told_old (grown : After abs next) {more : List Event}
    (journal : after.journal = sys.journal ++ more) {event : Event} (mem : event ∈ sys.journal) :
    Told (announced after.journal) next event := by
  refine (journaled.told event mem).later grown ?_
  rw [journal, announced_append]
  exact Nat.le_max_left _ _

/-- Votes are granted, and requests come and go. -/
private theorem silent (grown : After abs next) (silent : sys.Silent after) :
    Journaled after next := by
  obtain ⟨more, journal, granted⟩ := silent.journal
  have old : ∀ {event : Event}, event ∈ after.journal →
      (∀ p id term, event ≠ .granted p id term) → event ∈ sys.journal := by
    intro event mem notGranted
    rw [journal] at mem
    rcases List.mem_append.mp mem with inOld | inMore
    · exact inOld
    · obtain ⟨p, id, term, isGranted⟩ := granted event inMore
      exact absurd isGranted (notGranted p id term)
  have stays : ∀ {event : Event}, event ∈ sys.journal → event ∈ after.journal := by
    intro event mem
    rw [journal]
    exact List.mem_append_left _ mem
  refine ⟨fun event mem => ?_, fun p proposer shared isProposer isShared => ?_,
    fun earlier later p term position shape => ?_, fun p record mem => ?_, ?_⟩
  · rw [journal] at mem
    rcases List.mem_append.mp mem with inOld | inMore
    · exact journaled.told_old grown journal inOld
    · obtain ⟨p, id, term, rfl⟩ := granted event inMore
      trivial
  · obtain ⟨before, isBefore, wasShared⟩ := silent.shared p proposer shared isProposer isShared
    rcases journaled.commits p before shared isBefore wasShared with none | ⟨term, commit, counted, mem, low⟩
    · exact .inl none
    · exact .inr ⟨term, commit, counted, stays mem, low⟩
  · rw [journal] at shape
    rcases split_append shape with ⟨rest, isOld⟩ | ⟨between, -, isMore⟩
    · exact journaled.acknowledged earlier rest p term position isOld
    · obtain ⟨other, id, granting, isGranted⟩ := granted (.acknowledged p term position) (by simp [isMore])
      cases isGranted
  · obtain ⟨proposer, isProposer, returned⟩ := journaled.submitted p record (old mem (by simp))
    obtain ⟨kept, isKept, same⟩ := silent.opening p proposer isProposer
    exact ⟨kept, isKept, same ▸ returned⟩
  · rw [journal]
    refine List.pairwise_append.mpr ⟨journaled.inOrder, ?_, fun earlier _ event mem => ?_⟩
    · refine List.pairwise_of_forall_mem_list fun earlier _ event mem => ?_
      obtain ⟨p, id, term, rfl⟩ := granted event mem
      exact precedes_of_not_opened earlier (by simp)
    · obtain ⟨p, id, term, rfl⟩ := granted event mem
      exact precedes_of_not_opened earlier (by simp)

variable {p : ProposerId} {before moved : Proposer} {action : Action}

omit journaled in
/-- What observers see of a proposer's step is true of the state it leaves. -/
private theorem told_observed
    (ok : ProposerOk True (announced after.journal) next p moved)
    (ceil : next.ceil ≤ announced after.journal)
    (how : before.Steps moved ∨ sys.Returns action p before moved) {event : Event}
    (mem : event ∈ observed p before moved) : Told (announced after.journal) next event := by
  rcases mem_observed mem with ⟨shared, isShared, moves, rfl⟩ | ⟨horizon, rfl⟩ | ⟨term, rfl⟩ |
    ⟨-, returned, rfl⟩
  · obtain ⟨sharedOk, -⟩ := ok.shared shared isShared
    have counts : shared.election.termStartLsn ≤ shared.commit ∧ ∃ a b, a ≠ b ∧
        shared.commit ≤ (shared.peers.get a).flush ∧
        shared.commit ≤ (shared.peers.get b).flush := by
      rcases how with steps | ⟨-, -, rfl, -⟩
      · exact (steps.counts shared isShared).resolve_left (Nat.not_le_of_lt moves)
      · have wasShared : before.shared = some shared := isShared
        rw [wasShared] at moves
        exact absurd moves (Nat.lt_irrefl _)
    obtain ⟨starts, a, b, different, ackA, ackB⟩ := counts
    have counted : ∀ {id : AcceptorId}, id ∈ AcceptorId.all.filter (fun acceptor =>
        (shared.peers.get acceptor).flush ≥ shared.commit) ↔
        shared.commit ≤ (shared.peers.get id).flush := by
      intro id
      cases id <;> simp [AcceptorId.all]
    refine ⟨⟨a, b, different, counted.mpr ackA, counted.mpr ackB⟩, ?_⟩
    by_cases low : shared.commit ≤ announced after.journal
    · exact .inl low
    · obtain ⟨front, history⟩ := sharedOk.last
      have horizon := sharedOk.within trivial
      refine .inr ⟨sharedOk.elects.1, ⟨front, _, sharedOk.elects.2.trans history, starts⟩, ?_⟩
      intro id mem
      rcases sharedOk.acked id with acked | lost
      · exact (counted.mp mem).trans acked
      · have := counted.mp mem
        omega
  · trivial
  · trivial
  · have openOk := ok.opening
    simp only [OpenOk, returned] at openOk
    obtain ⟨front, shape⟩ := openOk.hist
    obtain ⟨records, isFront, base, ends⟩ := openOk.recovered
    refine ⟨openOk.owner, front, _, records, shape, isFront, ?_, ends⟩
    rw [base]
    exact openOk.within trivial

omit journaled in
/-- So is what a client's call adds. -/
private theorem told_called (formed : Formed next)
    (ok : ProposerOk True (announced after.journal) next p moved) {more : List Event}
    (called : Called p moved more) {event : Event} (mem : event ∈ more) :
    Told (announced after.journal) next event := by
  cases called with
  | nothing => cases mem
  | submitted returned isShared inLog =>
      obtain ⟨sharedOk, -⟩ := ok.shared _ isShared
      obtain ⟨front, log, -⟩ := sharedOk.records
      cases List.mem_singleton.mp mem
      refine ⟨formed.current_ne_zero sharedOk.elects.1, ?_⟩
      rw [log]
      exact List.mem_append_right _ inLog
  | acknowledged isShared position covered =>
      cases List.mem_singleton.mp mem
      trivial

omit journaled in
/-- `Quorum::open` returns by a step of its own only. -/
private theorem returns_of_opened (how : before.Steps moved ∨ sys.Returns action p before moved)
    {q : ProposerId} {term : Nat} {recovered : List Record}
    (mem : .opened q term recovered ∈ observed p before moved) :
    sys.Returns action p before moved ∧ q = p ∧ term = moved.opening.term := by
  rcases mem_observed mem with ⟨shared, -, -, isEvent⟩ | ⟨horizon, isEvent⟩ | ⟨other, isEvent⟩ |
    ⟨⟨stalled, waits⟩, returned, isEvent⟩
  · cases isEvent
  · cases isEvent
  · cases isEvent
  · cases isEvent
    rcases how with steps | returns
    · exact absurd returned (steps.waits stalled waits)
    · exact ⟨returns, rfl, rfl⟩

omit journaled in
/-- A client's call comes after everything. -/
private theorem precedes_called {more : List Event} (called : Called p moved more)
    (earlier : Event) {event : Event} (mem : event ∈ more) : Precedes earlier event := by
  cases called with
  | nothing => cases mem
  | submitted | acknowledged =>
      cases List.mem_singleton.mp mem
      exact precedes_of_not_opened earlier (by simp)

/-- An open that returns comes after commits of no later term and before its own clients. -/
private theorem precedes_observed (isBefore : sys.proposers[p]? = some before)
    (how : before.Steps moved ∨ sys.Returns action p before moved)
    (inTime : sys.returnsInTime action = true) {earlier event : Event}
    (known : earlier ∈ sys.journal) (mem : event ∈ observed p before moved) :
    Precedes earlier event := by
  cases event with
  | opened q term recovered =>
      obtain ⟨⟨rfl, isLive, isMoved, stalled, waits⟩, rfl, rfl⟩ := returns_of_opened how mem
      cases earlier with
      | submitted other record =>
          rintro rfl
          obtain ⟨proposer, isProposer, returned⟩ := journaled.submitted _ record known
          rw [isBefore] at isProposer
          cases isProposer
          rw [waits] at returned
          cases returned
      | committed other term commit counted =>
          simp only [Sys.returnsInTime, isLive, List.all_eq_true] at inTime
          have within : term ≤ before.opening.term := of_decide_eq_true (inTime _ known)
          rw [isMoved]
          exact within
      | _ => trivial
  | _ => exact precedes_of_not_opened earlier (by simp)

omit journaled in
/-- The events of one step are in order. -/
private theorem inOrder_observed (how : before.Steps moved ∨ sys.Returns action p before moved) :
    (observed p before moved).Pairwise Precedes := by
  refine List.pairwise_of_forall_mem_list fun earlier known event mem => ?_
  cases event with
  | opened q term recovered =>
      -- an open that returns leaves the shared state alone, so nothing was committed
      obtain ⟨⟨-, -, isMoved, -⟩, rfl, rfl⟩ := returns_of_opened how mem
      have wasShared : moved.shared = before.shared := by rw [isMoved]
      rcases mem_observed known with ⟨shared, isShared, moves, -⟩ | ⟨horizon, rfl⟩ | ⟨other, rfl⟩ |
        ⟨-, -, rfl⟩
      · rw [← wasShared, isShared] at moves
        exact absurd moves (Nat.lt_irrefl _)
      · trivial
      · trivial
      · trivial
  | _ => exact precedes_of_not_opened earlier (by simp)

/-- A proposer moves. -/
private theorem stepped (sim : Sim True False after next) (grown : After abs next)
    (stepped : sys.Stepped after p before moved)
    (how : before.Steps moved ∨ sys.Returns action p before moved)
    (inTime : sys.returnsInTime action = true) : Journaled after next := by
  obtain ⟨more, journal, called⟩ := stepped.journal
  have bounded := (List.getElem?_eq_some_iff.mp stepped.isBefore).1
  have isMoved : after.proposers[p]? = some moved := by simp [stepped.proposers, bounded]
  have ok := sim.proposers p moved isMoved
  have stays : ∀ {event : Event}, event ∈ sys.journal → event ∈ after.journal := by
    intro event mem
    rw [journal]
    exact List.mem_append_left _ mem
  have seen : ∀ {event : Event}, event ∈ after.journal → event ∈ sys.journal ∨
      event ∈ observed p before moved ∨ event ∈ more := by
    intro event mem
    rw [journal] at mem
    simpa only [List.mem_append] using mem
  have commits : ∀ (q : ProposerId) (proposer : Proposer) (shared : Shared),
      after.proposers[q]? = some proposer → proposer.shared = some shared →
      shared.commit = 0 ∨ ∃ term commit counted,
        .committed q term commit counted ∈ sys.journal ++ observed p before moved ∧
          shared.commit ≤ commit := by
    intro q proposer shared isProposer isShared
    have old : ∀ {other : Proposer} {was : Shared}, sys.proposers[q]? = some other →
        other.shared = some was → shared.commit ≤ was.commit →
        shared.commit = 0 ∨ ∃ term commit counted,
          .committed q term commit counted ∈ sys.journal ++ observed p before moved ∧
            shared.commit ≤ commit := by
      intro other was isOther wasShared low
      rcases journaled.commits q other was isOther wasShared with
        none | ⟨term, commit, counted, mem, covers⟩
      · exact .inl (by omega)
      · exact .inr ⟨term, commit, counted, List.mem_append_left _ mem, low.trans covers⟩
    by_cases isP : q = p
    · subst isP
      rw [isMoved] at isProposer
      cases isProposer
      rcases Nat.lt_or_ge ((before.shared.map Shared.commit).getD 0) shared.commit with moves | low
      · exact .inr ⟨_, _, _, List.mem_append_right _ (committed_mem_observed q isShared moves),
          Nat.le_refl _⟩
      · cases wasShared : before.shared with
        | none =>
            simp only [wasShared, Option.map_none, Option.getD_none] at low
            exact .inl (Nat.le_zero.mp low)
        | some was =>
            simp only [wasShared, Option.map_some, Option.getD_some] at low
            exact old stepped.isBefore wasShared low
    · rw [stepped.proposers, List.getElem?_set_ne (Ne.symm isP)] at isProposer
      exact old isProposer isShared (Nat.le_refl _)
  refine ⟨fun event mem => ?_, fun q proposer shared isProposer isShared => ?_,
    fun earlier later q term position shape => ?_, fun q record mem => ?_, ?_⟩
  · rcases seen mem with inOld | isObserved | isCalled
    · exact journaled.told_old grown journal inOld
    · exact told_observed ok (sim.ceil trivial) how isObserved
    · exact told_called sim.formed ok called isCalled
  · rcases commits q proposer shared isProposer isShared with
      none | ⟨term, commit, counted, mem, covers⟩
    · exact .inl none
    · refine .inr ⟨term, commit, counted, ?_, covers⟩
      rw [journal, ← List.append_assoc]
      exact List.mem_append_left _ mem
  · rw [journal, ← List.append_assoc] at shape
    rcases split_append shape with ⟨rest, isOld⟩ | ⟨between, rfl, isMore⟩
    · rcases split_append isOld with ⟨older, isOld⟩ | ⟨between, -, isObserved⟩
      · exact journaled.acknowledged earlier older q term position isOld
      · have mem : .acknowledged q term position ∈ observed p before moved := by simp [isObserved]
        rcases mem_observed mem with ⟨shared, -, -, isEvent⟩ | ⟨horizon, isEvent⟩ |
          ⟨other, isEvent⟩ | ⟨-, -, isEvent⟩ <;> cases isEvent
    · have isCalled : .acknowledged q term position ∈ more := by simp [isMore]
      cases called with
      | nothing => cases isCalled
      | submitted => cases List.mem_singleton.mp isCalled
      | acknowledged isShared position covered =>
          cases List.mem_singleton.mp isCalled
          rcases commits p moved _ isMoved isShared with none | ⟨counting, commit, counted, mem, low⟩
          · exact .inl (by omega)
          · exact .inr ⟨counting, commit, counted, List.mem_append_left _ mem, covered.trans low⟩
  · rcases seen mem with inOld | isObserved | isCalled
    · obtain ⟨proposer, isProposer, returned⟩ := journaled.submitted q record inOld
      by_cases isP : q = p
      · subst isP
        rw [stepped.isBefore] at isProposer
        cases isProposer
        refine ⟨moved, isMoved, ?_⟩
        rcases how with steps | ⟨-, -, isMoved, -⟩
        · exact steps.stays returned
        · rw [isMoved]
      · refine ⟨proposer, ?_, returned⟩
        rw [stepped.proposers, List.getElem?_set_ne (Ne.symm isP)]
        exact isProposer
    · rcases mem_observed isObserved with ⟨shared, -, -, isEvent⟩ | ⟨horizon, isEvent⟩ |
        ⟨other, isEvent⟩ | ⟨-, -, isEvent⟩ <;> cases isEvent
    · cases called with
      | nothing => cases isCalled
      | submitted returned isShared inLog =>
          cases List.mem_singleton.mp isCalled
          exact ⟨moved, isMoved, returned⟩
      | acknowledged => cases List.mem_singleton.mp isCalled
  · rw [journal]
    refine List.pairwise_append.mpr ⟨journaled.inOrder, List.pairwise_append.mpr
      ⟨inOrder_observed how, ?_, ?_⟩, fun earlier known event mem => ?_⟩
    · exact List.pairwise_of_forall_mem_list fun earlier _ event => precedes_called called earlier
    · exact fun earlier _ event => precedes_called called earlier
    · rcases List.mem_append.mp mem with isObserved | isCalled
      · exact journaled.precedes_observed stepped.isBefore how inTime known isObserved
      · exact precedes_called called earlier isCalled

/-- So does every step of a durable run. -/
theorem step (sim : Sim True False after next) (grown : After abs next)
    (taken : sys.step action = some after) (inTime : sys.returnsInTime action = true) :
    Journaled after next := by
  rcases Sys.step_seen taken with silent | ⟨p, before, moved, stepped, how⟩
  · exact journaled.silent grown silent
  · exact journaled.stepped sim grown stepped how inTime

end Journaled

/-- Every durable run is related to the protocol, and so is its journal. -/
theorem journaled_of_keepsCommitted {sys : Sys}
    (run : Run Sys.step Sys.KeepsCommitted Sys.initial sys) :
    ∃ abs, Sim True False sys abs ∧ Journaled sys abs := by
  induction run with
  | refl =>
      refine ⟨State.initial, Sim.initial True False, ?_, ?_, ?_, ?_, .nil⟩
      · simp [Sys.initial]
      · simp [Sys.initial]
      · simp [Sys.initial]
      · simp [Sys.initial]
  | step _ allowed taken ih =>
      obtain ⟨abs, sim, journaled⟩ := ih
      simp only [Sys.KeepsCommitted, Sys.keepsCommitted, Bool.and_eq_true] at allowed
      obtain ⟨⟨fenced, above⟩, inTime⟩ := allowed
      obtain ⟨next, steps, nextSim⟩ := sim.step taken fenced (fun _ => above) False.elim
      have grown := WellFormed.steps Record.frameLen_pos sim.formed steps
      exact ⟨next, nextSim, journaled.step nextSim ⟨sim.formed, grown.1, grown.2⟩ taken inTime⟩

section Committed

variable {sys : Sys} {abs : Protocol} (sim : Sim True False sys abs)
variable {p : ProposerId} {term commit : Nat} {counted : List AcceptorId} {record : Record}

include sim

/-- A counted commit above every horizon is protected. -/
private theorem protected_of_told
    (told : Told (announced sys.journal) abs (.committed p term commit counted))
    (above : announced sys.journal < commit) :
    abs.owner term = some p ∧ abs.Protected majorities term commit ∧
      ∀ id ∈ counted, commit ≤ abs.acked id term := by
  obtain ⟨⟨a, b, different, inA, inB⟩, low | ⟨owned, ⟨front, start, shape, starts⟩, acks⟩⟩ := told
  · omega
  · refine ⟨owned, ⟨by rw [owned]; exact Option.some_ne_none p, ?_, ?_, ?_⟩, acks⟩
    · exact ⟨{id | id ∈ counted}, ⟨a, b, different, inA, inB⟩, fun id mem => .inl (acks id mem)⟩
    · exact Nat.lt_of_le_of_lt (sim.ceil trivial) above
    · -- in an ordered history no switch lies above the last
      have ordered := sim.ordered trivial term
      rw [shape] at ordered ⊢
      intro switch mem
      rcases List.mem_append.mp mem with inFront | isLast
      · have below := (List.pairwise_append.mp ordered).2.2 switch inFront ⟨term, start⟩ (by simp)
        exact below.trans starts
      · rw [List.mem_singleton.mp isLast]
        exact starts

variable (isProtected : abs.Protected majorities term commit) (owned : abs.owner term = some p)
variable (mem : record ∈ abs.log p) (within : record.endLsn ≤ commit)

include isProtected owned mem within

/-- The log of every later term has the committed record. -/
private theorem mem_logOf_later {later : Nat} (elected : abs.owner later ≠ none)
    (newer : term ≤ later) : record ∈ abs.logOf later := by
  have consecutive := sim.logs p
  obtain ⟨front, back, shape⟩ := List.append_of_mem mem
  have ownLog : abs.logOf term = abs.log p := by simp only [State.logOf, owned]
  have isFront : front ++ [record] <+: abs.logOf term := by
    rw [ownLog, shape]
    exact ⟨back, by simp⟩
  have ends : framesLen (front ++ [record]) = record.endLsn := by
    rw [shape, Consecutive.append] at consecutive
    have position : record.lsn = 0 + framesLen front := consecutive.2.1
    simp only [framesLen_append, framesLen_cons, framesLen_nil, Record.endLsn]
    omega
  have carried := sim.safe.carries sim.formed Record.frameLen_pos isProtected elected newer isFront
    (by rw [endOf_frameLen, ends]; exact within)
  exact carried.subset (by simp)

/-- Every open of a later term recovers it, unless it lies below the recovered base. -/
private theorem recovered_of_told {q : ProposerId} {opened : Nat} {recovered : List Record}
    (told : Told (announced sys.journal) abs (.opened q opened recovered)) (newer : term < opened) :
    record ∈ recovered ∨ record.lsn < announced sys.journal := by
  obtain ⟨opens, front, start, before, shape, isFront, base, ends⟩ := told
  have elected : abs.owner opened ≠ none := by
    rw [opens]
    exact Option.some_ne_none q
  have inLog := mem_logOf_later sim isProtected owned mem within elected (Nat.le_of_lt newer)
  have start_ge := sim.safe.start_ge sim.formed isProtected newer shape
  simp only [State.logOf, opens] at inLog
  have inFront := (sim.logs q).mem_front isFront inLog (by omega)
  rcases List.mem_append.mp inFront with inBefore | inRecovered
  · right
    have low := Consecutive.endLsn_le (Consecutive.append.mp (show Consecutive 0 (before ++ recovered) from by
      obtain ⟨more, log⟩ := isFront
      have consecutive := sim.logs q
      rw [← log, Consecutive.append] at consecutive
      exact consecutive.1)).1 inBefore
    have := record.frameLen_pos
    simp only [Record.endLsn] at low
    omega
  · exact .inl inRecovered

/-- An acceptor whose ack was counted has it, unless it let it go below the horizon. -/
private theorem mem_records_of_acked {id : AcceptorId} (acked : commit ≤ abs.acked id term) :
    record ∈ (sys.acceptors.get id).wal.records ∨ record.lsn < announced sys.journal := by
  have follows := sim.acceptors id
  have frameLen := record.frameLen_pos
  have held := sim.safe.held term commit id isProtected acked
  have positive : 0 < commit := by
    simp only [Record.endLsn] at within
    omega
  have adopted := sim.formed.acked_adopted id term (by omega)
  have elected := sim.formed.adopted_elected id (by
    have := sim.formed.elected_pos isProtected.elected
    omega)
  have inLog := mem_logOf_later sim isProtected owned mem within elected adopted
  have durable := follows.log.durable
  split at durable
  · omega
  · obtain ⟨before, isFront, start, ends⟩ := follows.log.front
    have consecutive : Consecutive 0 (abs.logOf (abs.adopted id)) := by
      obtain ⟨owner, isOwner⟩ := Option.ne_none_iff_exists'.mp elected
      simp only [State.logOf, isOwner]
      exact sim.logs owner
    have inFront := consecutive.mem_front isFront inLog (by omega)
    rcases List.mem_append.mp inFront with inBefore | inRecords
    · right
      obtain ⟨more, log⟩ := isFront
      rw [← log, List.append_assoc, Consecutive.append] at consecutive
      have low := consecutive.1.endLsn_le inBefore
      have horizon := sim.horizons trivial id
      simp only [Record.endLsn] at low
      simp only [Acceptor.effectiveHorizon] at horizon
      omega
    · exact .inl inRecords

end Committed

/-- What `wait_commit` promised holds along every durable run. -/
theorem durable_of_keepsCommitted {sys : Sys}
    (run : Run Sys.step Sys.KeepsCommitted Sys.initial sys) : sys.Durable := by
  obtain ⟨abs, sim, journaled⟩ := journaled_of_keepsCommitted run
  intro earlier later p term position record journal submitted covered
  have frameLen := record.frameLen_pos
  have inJournal : ∀ {event : Event}, event ∈ earlier ∨ event ∈ later → event ∈ sys.journal := by
    intro event mem
    rw [journal]
    rcases mem with inEarlier | inLater
    · exact List.mem_append_left _ inEarlier
    · exact List.mem_append_right _ (List.mem_cons_of_mem _ inLater)
  obtain ⟨counting, commit, counted, isCommitted, low⟩ :=
    (journaled.acknowledged earlier later p term position journal).resolve_left (by
      simp only [Record.endLsn] at covered
      omega)
  have within : record.endLsn ≤ commit := covered.trans low
  obtain ⟨-, mem⟩ := journaled.told _ (inJournal (.inl submitted))
  have told := journaled.told _ (inJournal (.inl isCommitted))
  have passes : record.lsn < announced sys.journal → sys.Passed record := exists_advanced
  rcases Nat.lt_or_ge record.lsn (announced sys.journal) with passed | notPassed
  · exact ⟨fun _ _ _ _ => .inr (passes passed), counting, commit, counted, isCommitted, low, told.1,
      fun _ _ => .inr (passes passed)⟩
  · obtain ⟨owned, isProtected, acks⟩ := protected_of_told sim told (by
      simp only [Record.endLsn] at within
      omega)
    refine ⟨fun q opened recovered isOpened => ?_, counting, commit, counted, isCommitted, low,
      told.1, fun id isCounted => ?_⟩
    · -- the open came after the commit, by another proposer, so its term is a later one
      have order := journaled.inOrder
      rw [journal, List.pairwise_append] at order
      have other : p ≠ q := order.2.2 _ submitted _ (List.mem_cons_of_mem _ isOpened)
      have notBelow : counting ≤ opened :=
        order.2.2 _ isCommitted _ (List.mem_cons_of_mem _ isOpened)
      have toldOpened := journaled.told _ (inJournal (.inr isOpened))
      have newer : counting < opened := by
        refine Nat.lt_of_le_of_ne notBelow ?_
        rintro rfl
        have same := toldOpened.1
        rw [owned] at same
        cases same
        exact other rfl
      exact (recovered_of_told sim isProtected owned mem within toldOpened newer).imp_right passes
    · exact (mem_records_of_acked sim isProtected owned mem within (acks id isCounted)).imp_right
        passes

/-- A record is acknowledged, and the next process recovers it from the acceptors. -/
def acknowledgedThenOpened : List Action :=
  [.spawn "tail" 64] ++ calls 0 .opener 12 ++
    [.advance 0 .opener, .submit 0 .frame "t" 1 (Segment.Bytes.ofList [1])] ++
    streams 0 .first ++ streams 0 .second ++ [.waitCommit 0 31, .waiterCheck 0 0, .crash 0] ++
    [.spawn "tail" 64] ++ calls 1 .opener 13 ++ [.advance 1 .opener]

theorem durable_of_keepsCommitted_reopened :
    let sys := execute Sys.step Sys.keepsCommitted Sys.initial acknowledgedThenOpened
    (sys.journal.any fun event =>
      match event with
      | .opened 1 2 recovered => recovered.map Record.endLsn = [31]
      | _ => false) ∧ sys.Durable := by
  refine ⟨by decide +kernel, ?_⟩
  exact durable_of_keepsCommitted (run_execute (fun _ _ keeps => keeps) Sys.initial _)

/-- Proposer 0 has a term that starts at its second record and, two re-elections later, one that
starts at zero. Only the first acceptor holds records. -/
def startsBelow : List Action :=
  [.spawn "tail" 64] ++ calls 0 .opener 12 ++
    [.advance 0 .opener, .submit 0 .frame "t" 1 (zeros 1048576),
      .submit 0 .frame "t" 2 (Segment.Bytes.ofList [2])] ++
    streams 0 .first ++ streams 0 .first ++
    [.waitCommit 0 1048606, .waitCommit 0 1048637, .waiterStall 0 0, .waiterStall 0 1,
      .advance 0 .supervisor] ++
    calls 0 .supervisor 2 ++ [.giveUp 0 .supervisor false] ++ calls 0 .supervisor 2 ++
    [.advance 0 .supervisor, .giveUp 0 .supervisor false] ++ calls 0 .supervisor 4

/-- The first record is committed by the other two acceptors. Then the connection to the second
one breaks, and the handshake that follows cuts its log at zero: its history and the
proposer's part before the record. The next process recovers nothing from it. -/
def cutAfterCommit : List Action :=
  startsBelow ++ reconnects 0 .third 3 ++ streams 0 .third ++ reconnects 0 .second 3 ++
    streams 0 .second ++ [.waiterCheck 0 0] ++
    advances 0 (.peer .second) 4 ++ [.giveUp 0 (.peer .second) false] ++ reconnects 0 .second 1 ++
    [.crash 0, .spawn "tail" 64] ++ calls 1 .opener 8 ++ [.giveUp 1 .opener false] ++
    calls 1 .opener 2 ++ [.advance 1 .opener]

/-- The submission of a record that ends at or below `position`. -/
def Event.submits (p : ProposerId) (position : Nat) : Event → Bool
  | .submitted q record => q = p && record.endLsn ≤ position
  | _ => false

def Event.advances : Event → Bool
  | .advanced _ _ => true
  | _ => false

/-- A reachable state in which an open of a later term has returned without an acknowledged
record. -/
theorem not_durable_cutAfterCommit :
    let sys := execute Sys.step (fun _ _ => true) Sys.initial cutAfterCommit
    Run Sys.step Unrestricted Sys.initial sys ∧ ¬ sys.Durable := by
  refine ⟨run_execute (fun _ _ _ => trivial) Sys.initial cutAfterCommit, ?_⟩
  generalize reached : execute Sys.step (fun _ _ => true) Sys.initial cutAfterCommit = sys
  have seen : sys.journal.drop 13 = [.acknowledged 0 3 1048606, .granted 1 .first 4,
        .granted 1 .second 4, .opened 1 4 []] ∧
      (sys.journal.take 13).any (Event.submits 0 1048606) = true ∧
      sys.journal.any Event.advances = false := by
    rw [← reached]
    decide +kernel
  obtain ⟨rest, submits, notAdvanced⟩ := seen
  have journal : sys.journal = sys.journal.take 13 ++ .acknowledged 0 3 1048606 ::
      [.granted 1 .first 4, .granted 1 .second 4, .opened 1 4 []] := by
    rw [← rest, List.take_append_drop]
  obtain ⟨event, mem, isSubmission⟩ := List.any_eq_true.mp submits
  intro durable
  cases event with
  | submitted p record =>
      simp only [Event.submits, Bool.and_eq_true, decide_eq_true_eq] at isSubmission
      obtain ⟨rfl, covered⟩ := isSubmission
      have kept := (durable _ _ 0 3 1048606 record journal mem covered).1 1 4 [] (by simp)
      rcases kept with inNone | ⟨p, horizon, isAdvanced, -⟩
      · cases inNone
      · have advances := List.any_eq_false.mp notAdvanced _ isAdvanced
        exact advances rfl
  | _ => cases isSubmission

end Icegres.Quorum
