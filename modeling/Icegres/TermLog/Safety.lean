import Icegres.TermLog.Preservation

/-!
# Leader completeness

A position a quorum durably held while it followed one term is never rewritten: the history
of every later elected term continues the history of that term above the position, and no
node of the quorum falls back below it.

The invariant is stated for positions that can still be chosen: some quorum has either
acknowledged the position in the term or not yet left the term. That condition only ever
turns from true to false, so it can be assumed at every earlier state of a run. It also
covers positions at or below a term's own switches badly, which is why a position must lie
at or above every switch of the history of its term.
-/

namespace Icegres.TermLog

variable {Node Owner Entry : Type}
variable {size : Entry → Nat} {quorums : QuorumSystem Node}
variable {state next : State Node Owner Entry}

/-- A quorum durably held the log of `term` up to `position` while it followed the term. -/
def State.Chosen (quorums : QuorumSystem Node) (state : State Node Owner Entry)
    (term position : Nat) : Prop :=
  ∃ members, quorums.IsQuorum members ∧ ∀ node ∈ members, position ≤ state.acked node term

/-- Every node of a quorum has acknowledged the position in the term or may still do so. -/
def State.Choosable (quorums : QuorumSystem Node) (state : State Node Owner Entry)
    (term position : Nat) : Prop :=
  ∃ members, quorums.IsQuorum members ∧
    ∀ node ∈ members, position ≤ state.acked node term ∨ state.term node ≤ term

/-- The positions the protocol protects. -/
structure State.Protected (quorums : QuorumSystem Node) (state : State Node Owner Entry)
    (term position : Nat) : Prop where
  elected : state.owner term ≠ none
  choosable : state.Choosable quorums term position
  aboveCeil : state.ceil < position
  covers : ∀ switch ∈ state.hist term, switch.lsn ≤ position

/-- The history of `later` is that of `term` followed by switches at or above `position`. -/
def State.Continues (state : State Node Owner Entry) (term position later : Nat) : Prop :=
  ∃ more, state.hist later = state.hist term ++ more ∧ ∀ switch ∈ more, position ≤ switch.lsn

theorem State.Chosen.grows {term position : Nat} (chosen : state.Chosen quorums term position)
    (grows : Grows state next) : next.Chosen quorums term position := by
  obtain ⟨members, isQuorum, acks⟩ := chosen
  exact ⟨members, isQuorum, fun node member => (acks node member).trans (grows.acked_le node term)⟩

/-- What is protected in a term that was already elected was protected before. -/
theorem State.Protected.back {term position : Nat}
    (isProtected : next.Protected quorums term position) (grows : Grows state next)
    (elected : state.owner term ≠ none) : state.Protected quorums term position where
  elected := elected
  choosable := by
    obtain ⟨members, isQuorum, acks⟩ := isProtected.choosable
    refine ⟨members, isQuorum, fun node member => ?_⟩
    by_cases left : term < state.term node
    · have later := grows.term_le node
      rcases acks node member with acked | stays
      · exact .inl (grows.acked_left node term left ▸ acked)
      · omega
    · exact .inr (by omega)
  aboveCeil := Nat.lt_of_le_of_lt grows.ceil_le isProtected.aboveCeil
  covers := by
    intro switch mem
    exact isProtected.covers switch (by rw [grows.hist_stays term elected]; exact mem)

theorem State.Continues.grows {term position later : Nat}
    (continues : state.Continues term position later) (grows : Grows state next)
    (elected : state.owner term ≠ none) (laterElected : state.owner later ≠ none) :
    next.Continues term position later := by
  obtain ⟨more, shape, above⟩ := continues
  refine ⟨more, ?_, above⟩
  rw [grows.hist_stays later laterElected, grows.hist_stays term elected, shape]

/-- A copy that reaches the position keeps the whole history of the term in effect. -/
theorem State.Continues.effective {term position later flush : Nat}
    (continues : state.Continues term position later)
    (isProtected : state.Protected quorums term position) (reaches : position ≤ flush) :
    ∃ more, state.effective later flush = state.hist term ++ more ∧
      ∀ switch ∈ more, position ≤ switch.lsn := by
  obtain ⟨more, shape, above⟩ := continues
  refine ⟨more.upTo flush, ?_, fun switch mem => above switch (History.mem_upTo.mp mem).1⟩
  have whole : (state.hist term).upTo flush = state.hist term :=
    History.upTo_eq_self fun switch mem => (isProtected.covers switch mem).trans reaches
  rw [State.effective, shape, History.upTo_append, whole]

/-- The safety invariant. -/
structure Safe (quorums : QuorumSystem Node) (state : State Node Owner Entry) : Prop where
  continues : ∀ term position later, state.Protected quorums term position →
    state.owner later ≠ none → term ≤ later → state.Continues term position later
  held : ∀ term position node, state.Protected quorums term position →
    position ≤ state.acked node term → position ≤ state.durable node
  voted : ∀ term position node later ballot, state.Protected quorums term position →
    state.ballot node later = some ballot → term < later →
    position ≤ state.acked node term → term ≤ ballot.adopted ∧ position ≤ ballot.flush

namespace Safe

theorem initial : Safe quorums (State.initial : State Node Owner Entry) where
  continues _ _ _ isProtected := absurd rfl isProtected.elected
  held _ _ _ isProtected := absurd rfl isProtected.elected
  voted _ _ _ _ _ isProtected := absurd rfl isProtected.elected

variable (wellFormed : WellFormed size quorums state) (safe : Safe quorums state)

section

include wellFormed

/-- A protected position is positive, and so are its acknowledgements. -/
private theorem acked_adopted {term position : Nat} {node : Node}
    (isProtected : state.Protected quorums term position)
    (acked : position ≤ state.acked node term) : term ≤ state.adopted node := by
  have above := isProtected.aboveCeil
  exact wellFormed.acked_adopted node term (by omega)

/-- The last term of a copy that carries the history of a term is at least that term. -/
private theorem lastTerm_ge {term later flush : Nat} {more : History}
    (elected : state.owner term ≠ none)
    (shape : state.effective later flush = state.hist term ++ more) :
    term ≤ (state.effective later flush).lastTerm := by
  obtain ⟨front, start, last⟩ := wellFormed.hist_last term elected
  have sorted : (state.effective later flush).Pairwise
      fun earlier after => earlier.term < after.term :=
    (wellFormed.hist_sorted later).filter _
  have mem : (⟨term, start⟩ : Switch) ∈ state.effective later flush := by simp [shape, last]
  exact History.term_le_lastTerm sorted mem

include safe

/-- A node that voted after it acknowledged a protected position reported a copy that
carries the history of the position's term. -/
private theorem voter_effective {term position later : Nat} {node : Node} {ballot : Ballot Owner}
    (isProtected : state.Protected quorums term position)
    (ballotEq : state.ballot node later = some ballot) (newer : term < later)
    (acked : position ≤ state.acked node term) :
    position ≤ ballot.flush ∧ ∃ more, state.effective ballot.adopted ballot.flush =
      state.hist term ++ more ∧ ∀ switch ∈ more, position ≤ switch.lsn := by
  obtain ⟨adoptedGe, reaches⟩ :=
    safe.voted term position node later ballot isProtected ballotEq newer acked
  have termPos := wellFormed.elected_pos isProtected.elected
  have adoptedElected := wellFormed.ballot_elected node later ballot ballotEq (by omega)
  have continues := safe.continues term position ballot.adopted isProtected adoptedElected adoptedGe
  exact ⟨reaches, continues.effective isProtected reaches⟩

/-- The donor of a later election carries the history of every protected term and reaches
the protected position. -/
private theorem donor_effective {term position later : Nat} {owner : Owner} {voters : Set Node}
    {donorBallot : Ballot Owner}
    (isProtected : state.Protected quorums term position) (newer : term < later)
    (wins : state.Wins quorums owner later voters)
    (mostAdvanced : ∀ node ∈ voters, ∀ ballot, state.ballot node later = some ballot →
      state.BallotLe ballot donorBallot) :
    position ≤ donorBallot.flush ∧ ∃ more,
      state.effective donorBallot.adopted donorBallot.flush = state.hist term ++ more ∧
      ∀ switch ∈ more, position ≤ switch.lsn := by
  -- some voter acknowledged the position before it voted
  obtain ⟨members, isQuorum, acks⟩ := isProtected.choosable
  obtain ⟨node, inVoters, inMembers⟩ := quorums.meet wins.1 isQuorum
  obtain ⟨ballot, ballotEq, -⟩ := wins.2 node inVoters
  have termLe := (wellFormed.ballot_le node later ballot ballotEq).1
  have acked : position ≤ state.acked node term := by
    rcases acks node inMembers with acked | stays
    · exact acked
    · omega
  obtain ⟨reaches, more, shape, -⟩ :=
    voter_effective wellFormed safe isProtected ballotEq newer acked
  have voterTerm := lastTerm_ge wellFormed isProtected.elected shape
  have ordered := mostAdvanced node inVoters ballot ballotEq
  -- so the donor's last record is of the term or a later one
  have termPos := wellFormed.elected_pos isProtected.elected
  have donorTerm : term ≤ (state.effective donorBallot.adopted donorBallot.flush).lastTerm := by
    rcases ordered with lower | ⟨same, -⟩ <;> omega
  have nonempty : state.effective donorBallot.adopted donorBallot.flush ≠ [] := by
    intro empty
    rw [empty, History.lastTerm_nil] at donorTerm
    omega
  obtain ⟨last, lastMem, lastTerm⟩ := History.exists_lastTerm nonempty
  obtain ⟨inHist, within⟩ := History.mem_upTo.mp lastMem
  have adoptedGe : term ≤ donorBallot.adopted := by
    have := wellFormed.term_le_of_mem inHist
    omega
  have continues := safe.continues term position donorBallot.adopted isProtected
    (wellFormed.elected_of_mem inHist) adoptedGe
  have donorReaches : position ≤ donorBallot.flush := by
    rcases ordered with lower | ⟨-, longer⟩
    · -- the donor's last record is of a later term, whose switch lies above the position
      obtain ⟨later', shape', above⟩ := continues
      rw [shape'] at inHist
      rcases List.mem_append.mp inHist with old | new
      · have := wellFormed.term_le_of_mem old
        omega
      · exact (above last new).trans within
    · exact reaches.trans longer
  exact ⟨donorReaches, continues.effective isProtected donorReaches⟩

/-- The history of a newly elected term continues that of every protected term below it. -/
private theorem continues_elect {term position later : Nat} {owner : Owner} {voters : Set Node}
    {donorBallot : Ballot Owner} {history : History} {log : List Entry}
    (isProtected : state.Protected quorums term position) (newer : term < later)
    (wins : state.Wins quorums owner later voters)
    (mostAdvanced : ∀ node ∈ voters, ∀ ballot, state.ballot node later = some ballot →
      state.BallotLe ballot donorBallot)
    (inherits : Inherits size state owner later donorBallot history log) :
    ∃ more, history = state.hist term ++ more ∧ ∀ switch ∈ more, position ≤ switch.lsn := by
  obtain ⟨reaches, more, shape, above⟩ :=
    donor_effective wellFormed safe isProtected newer wins mostAdvanced
  have aboveNew : ∀ (older : History), (∀ switch ∈ older, position ≤ switch.lsn) →
      ∀ switch ∈ older ++ [⟨later, donorBallot.flush⟩], position ≤ switch.lsn := by
    intro older aboveOld switch mem
    rcases List.mem_append.mp mem with old | isLast
    · exact aboveOld switch old
    · simp only [List.mem_singleton] at isLast
      rw [isLast]
      exact reaches
  cases inherits with
  | opened unowned isFront ends =>
      exact ⟨more ++ [⟨later, donorBallot.flush⟩], by simp [shape], aboveNew more above⟩
  | reelected owned newerOwn same =>
      -- the term's own switch is in the donor's history, hence in the owner's
      obtain ⟨front, start, last⟩ := wellFormed.hist_last term isProtected.elected
      have mem : (⟨term, start⟩ : Switch) ∈ state.effective (state.current owner)
          donorBallot.flush := by
        rw [same, shape, last]
        simp
      have inOwn := (History.mem_upTo.mp mem).1
      obtain ⟨own, ownShape, ownAbove⟩ := safe.continues term position (state.current owner)
        isProtected (wellFormed.elected_of_mem inOwn) (wellFormed.term_le_of_mem inOwn)
      exact ⟨own ++ [⟨later, donorBallot.flush⟩], by simp [ownShape], aboveNew own ownAbove⟩

/-- A cut keeps every protected position the node acknowledged. -/
private theorem cut_ge {term position point : Nat} {node : Node}
    (isProtected : state.Protected quorums term position)
    (acked : position ≤ state.acked node term)
    (elected : state.owner (state.term node) ≠ none)
    (common : CommonPoint (state.hist (state.term node))
      (state.effective (state.adopted node) (state.flush node)) (state.flush node) point) :
    position ≤ point := by
  have termPos := wellFormed.elected_pos isProtected.elected
  have adoptedGe := acked_adopted wellFormed isProtected acked
  have adoptedLe := wellFormed.adopted_le node
  have reaches : position ≤ state.flush node :=
    (safe.held term position node isProtected acked).trans (wellFormed.durable_le node)
  obtain ⟨leaderMore, leaderEq, leaderAbove⟩ := safe.continues term position (state.term node)
    isProtected elected (by omega)
  have continues := safe.continues term position (state.adopted node) isProtected
    (wellFormed.adopted_elected node (by omega)) adoptedGe
  obtain ⟨followerMore, followerEq, followerAbove⟩ := continues.effective isProtected reaches
  exact common.ge_of_front leaderEq followerEq leaderAbove followerAbove reaches

end

section Transitions

include safe in
/-- A step that elects nobody keeps what holds of histories. -/
private theorem continues_same (grows : Grows state next) (owners : next.owner = state.owner)
    (term position later : Nat) (isProtected : next.Protected quorums term position)
    (elected : next.owner later ≠ none) (ordered : term ≤ later) :
    next.Continues term position later := by
  have termElected : state.owner term ≠ none := owners ▸ isProtected.elected
  have laterElected : state.owner later ≠ none := owners ▸ elected
  exact (safe.continues term position later (isProtected.back grows termElected) laterElected
    ordered).grows grows termElected laterElected

variable [DecidableEq Node] [DecidableEq Owner]
variable (positive : ∀ entry, 0 < size entry)

include positive wellFormed safe

private theorem step_elect {owner : Owner} {term : Nat} {voters : Set Node} {donor : Node}
    {donorBallot : Ballot Owner} {history : History} {log : List Entry}
    (wins : state.Wins quorums owner term voters)
    (donorVoted : donor ∈ voters) (donorEq : state.ballot donor term = some donorBallot)
    (mostAdvanced : ∀ node ∈ voters, ∀ ballot, state.ballot node term = some ballot →
      state.BallotLe ballot donorBallot)
    (inherits : Inherits size state owner term donorBallot history log) :
    Safe quorums
      { state with
        owner := Function.update state.owner term (some owner)
        hist := Function.update state.hist term history
        current := Function.update state.current owner term
        log := Function.update state.log owner log } := by
  have grows := wellFormed.grows_step positive (Step.elect owner term voters donor donorBallot
    history log wins donorVoted donorEq mostAdvanced inherits)
  have unelected := wellFormed.unelected_of_wins wins inherits
  -- nobody has acknowledged anything in the new term
  have unacked : ∀ node, state.acked node term = 0 := by
    intro node
    by_contra acked
    exact wellFormed.acked_elected node term (by omega) unelected
  have old : ∀ {other : Nat}, other ≠ term →
      Function.update state.owner term (some owner) other ≠ none → state.owner other ≠ none := by
    intro other different elected
    simpa [different] using elected
  constructor
  case continues =>
    intro first position later isProtected elected ordered
    by_cases isFirst : first = term
    · subst isFirst
      by_cases isLater : later = first
      · subst isLater
        exact ⟨[], by simp, by simp⟩
      · -- a quorum has moved past the new term, and nobody has acknowledged in it
        exfalso
        obtain ⟨laterOwner, owned⟩ := Option.ne_none_iff_exists'.mp (old isLater elected)
        obtain ⟨others, othersWin⟩ := wellFormed.elected_wins later laterOwner owned
        obtain ⟨members, isQuorum, acks⟩ := isProtected.choosable
        obtain ⟨node, inOthers, inMembers⟩ := quorums.meet othersWin.1 isQuorum
        obtain ⟨ballot, voted, -⟩ := othersWin.2 node inOthers
        have reached := (wellFormed.ballot_le node later ballot voted).1
        have above := isProtected.aboveCeil
        rcases acks node inMembers with acked | stays
        · have none := unacked node
          simp only at acked
          omega
        · simp only at stays
          omega
    · have firstElected : state.owner first ≠ none := old isFirst isProtected.elected
      have before := isProtected.back grows firstElected
      by_cases isLater : later = term
      · subst isLater
        have newer : first < later := by omega
        obtain ⟨more, shape, above⟩ :=
          continues_elect wellFormed safe before newer wins mostAdvanced inherits
        exact ⟨more, by simpa [isFirst] using shape, above⟩
      · have laterElected : state.owner later ≠ none := old isLater elected
        exact (safe.continues first position later before laterElected ordered).grows grows
          firstElected laterElected
  case held =>
    intro first position node isProtected acked
    by_cases isFirst : first = term
    · subst isFirst
      have above := isProtected.aboveCeil
      have none := unacked node
      simp only at acked
      omega
    · exact safe.held first position node
        (isProtected.back grows (old isFirst isProtected.elected)) acked
  case voted =>
    intro first position node later ballot isProtected ballotEq newer acked
    by_cases isFirst : first = term
    · subst isFirst
      have above := isProtected.aboveCeil
      have none := unacked node
      simp only at acked
      omega
    · exact safe.voted first position node later ballot
        (isProtected.back grows (old isFirst isProtected.elected)) ballotEq newer acked

/-- Every step keeps the safety invariant. -/
theorem step (transition : Step size quorums state next) : Safe quorums next := by
  have grows := wellFormed.grows_step positive transition
  have same := continues_same safe grows
  cases transition with
  | vote node term candidate newer =>
      refine ⟨same rfl, ?_, ?_⟩
      · intro first position other isProtected acked
        exact safe.held first position other (isProtected.back grows isProtected.elected) acked
      · intro first position other later ballot isProtected ballotEq newerTerm acked
        have before := isProtected.back grows isProtected.elected
        by_cases isNew : other = node ∧ later = term
        · obtain ⟨rfl, rfl⟩ := isNew
          have given : ballot = ⟨candidate, state.adopted other, state.flush other⟩ := by
            simpa [eq_comm] using ballotEq
          rw [given]
          exact ⟨acked_adopted wellFormed before acked,
            (safe.held first position other before acked).trans (wellFormed.durable_le other)⟩
        · have old : state.ballot other later = some ballot := by
            by_cases isNode : other = node
            · subst isNode
              have different : later ≠ term := fun isTerm => isNew ⟨rfl, isTerm⟩
              simpa [different] using ballotEq
            · simpa [isNode] using ballotEq
          exact safe.voted first position other later ballot before old newerTerm acked
  | elect owner term voters donor donorBallot history log wins donorVoted donorEq mostAdvanced
      inherits =>
      exact step_elect wellFormed safe positive wins donorVoted donorEq mostAdvanced inherits
  | cut node point upto kept elected common above boundary keptLe keeps =>
      refine ⟨same rfl, ?_, ?_⟩
      · intro first position other isProtected acked
        have before := isProtected.back grows isProtected.elected
        have held := safe.held first position other before acked
        by_cases isNode : other = node
        · subst isNode
          have cutAbove := cut_ge wellFormed safe before acked elected common
          have aboveCeil := before.aboveCeil
          simp only [Function.update_self]
          rcases keeps with kept | lost <;> omega
        · simpa [isNode] using held
      · intro first position other later ballot isProtected ballotEq newerTerm acked
        exact safe.voted first position other later ballot
          (isProtected.back grows isProtected.elected) ballotEq newerTerm acked
  | extend node upto kept follows forward boundary keptGe keptLe =>
      refine ⟨same rfl, ?_, ?_⟩
      · intro first position other isProtected acked
        have held := safe.held first position other
          (isProtected.back grows isProtected.elected) acked
        by_cases isNode : other = node
        · subst isNode
          simpa using held.trans keptGe
        · simpa [isNode] using held
      · intro first position other later ballot isProtected ballotEq newerTerm acked
        exact safe.voted first position other later ballot
          (isProtected.back grows isProtected.elected) ballotEq newerTerm acked
  | ack node follows =>
      refine ⟨same rfl, ?_, ?_⟩
      · intro first position other isProtected acked
        have before := isProtected.back grows isProtected.elected
        by_cases isNew : other = node ∧ first = state.term node
        · obtain ⟨rfl, rfl⟩ := isNew
          have either : position ≤ state.acked other (state.term other) ∨
              position ≤ state.durable other := by
            simp only [Function.update_self] at acked
            omega
          rcases either with old | new
          · exact safe.held _ position other before old
          · exact new
        · have old : position ≤ state.acked other first := by
            by_cases isNode : other = node
            · subst isNode
              have different : first ≠ state.term other := fun isTerm => isNew ⟨rfl, isTerm⟩
              simpa [different] using acked
            · simpa [isNode] using acked
          exact safe.held first position other before old
      · intro first position other later ballot isProtected ballotEq newerTerm acked
        have reached := (wellFormed.ballot_le other later ballot ballotEq).1
        have left : first < state.term other := by omega
        have old := grows.acked_left other first left
        exact safe.voted first position other later ballot
          (isProtected.back grows isProtected.elected) ballotEq newerTerm (old ▸ acked)
  | submit | bump | adopt | lose | raise =>
      refine ⟨same rfl, ?_, ?_⟩
      · intro first position other isProtected acked
        exact safe.held first position other (isProtected.back grows isProtected.elected) acked
      · intro first position other later ballot isProtected ballotEq newerTerm acked
        exact safe.voted first position other later ballot
          (isProtected.back grows isProtected.elected) ballotEq newerTerm acked

end Transitions

end Safe

section Runs

variable [DecidableEq Node] [DecidableEq Owner]

/-- Both invariants hold in every state a run from the initial one reaches. -/
theorem invariants_of_steps (positive : ∀ entry, 0 < size entry)
    (run : Steps size quorums State.initial state) :
    WellFormed size quorums state ∧ Safe quorums state := by
  generalize start : (State.initial : State Node Owner Entry) = first at run
  induction run with
  | refl =>
      subst start
      exact ⟨WellFormed.initial, Safe.initial⟩
  | step _ transition ih =>
      obtain ⟨wellFormed, safe⟩ := ih
      exact ⟨wellFormed.step positive transition, safe.step wellFormed positive transition⟩

end Runs

section Entries

variable (wellFormed : WellFormed size quorums state) (safe : Safe quorums state)

include wellFormed safe

/-- A later term starts at or above every position protected before it. -/
theorem Safe.start_ge {term position later start : Nat} {front : History}
    (isProtected : state.Protected quorums term position) (newer : term < later)
    (shape : state.hist later = front ++ [⟨later, start⟩]) : position ≤ start := by
  have elected : state.owner later ≠ none :=
    wellFormed.elected_of_mem (show (⟨later, start⟩ : Switch) ∈ state.hist later by simp [shape])
  obtain ⟨more, continued, above⟩ :=
    safe.continues term position later isProtected elected (Nat.le_of_lt newer)
  rcases List.eq_nil_or_concat more with rfl | ⟨more, last, rfl⟩
  · -- the history of an earlier term does not end in the later one
    obtain ⟨own, begins, ownShape⟩ := wellFormed.hist_last term isProtected.elected
    rw [List.append_nil, ownShape, shape] at continued
    have same := (List.append_inj' continued rfl).2
    simp only [List.cons.injEq, Switch.mk.injEq, and_true] at same
    omega
  · rw [List.concat_eq_append, ← List.append_assoc, shape] at continued
    have same := (List.append_inj' continued rfl).2
    rw [List.cons.injEq, and_iff_left rfl] at same
    have reaches := above last (by simp)
    rwa [← same] at reaches

/-- The log of a later term begins with what the protected one held. -/
theorem Safe.carries (positive : ∀ entry, 0 < size entry) {term position later : Nat}
    (isProtected : state.Protected quorums term position) (elected : state.owner later ≠ none)
    (newer : term ≤ later) {front : List Entry} (isFront : front <+: state.logOf term)
    (within : endOf size front ≤ position) : front <+: state.logOf later := by
  rcases Nat.eq_or_lt_of_le newer with rfl | newer
  · exact isFront
  · obtain ⟨more, continued, above⟩ :=
      safe.continues term position later isProtected elected (Nat.le_of_lt newer)
    obtain ⟨own, begins, ownShape⟩ := wellFormed.hist_last term isProtected.elected
    obtain ⟨laterFront, start, laterShape⟩ := wellFormed.hist_last later elected
    cases more with
    | nil =>
        rw [List.append_nil, ownShape, laterShape] at continued
        have same := (List.append_inj' continued rfl).2
        simp only [List.cons.injEq, Switch.mk.injEq, and_true] at same
        omega
    | cons after more =>
        rw [ownShape, List.append_assoc, List.singleton_append] at continued
        obtain ⟨common, inLater, inOwn, ends⟩ := wellFormed.matching later own _ after more continued
        have reaches := above after List.mem_cons_self
        exact (prefix_of_endOf_le positive isFront inOwn (by omega)).trans inLater

end Entries

end Icegres.TermLog
