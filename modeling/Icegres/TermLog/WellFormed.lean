import Icegres.TermLog.Protocol

/-!
# What every protocol state satisfies

The bookkeeping part of the safety argument: terms only move up, a term has one owner, a
history ends with its own term and names only elected ones, and what was once recorded
(ballots, elected terms with their histories, logs, acknowledgements of left terms) stays.
-/

namespace Icegres.TermLog

variable {Node Owner Entry : Type}
variable {size : Entry → Nat} {quorums : QuorumSystem Node}
variable {state next : State Node Owner Entry}

/-- The structural invariant. -/
structure WellFormed (size : Entry → Nat) (quorums : QuorumSystem Node)
    (state : State Node Owner Entry) : Prop where
  adopted_le : ∀ node, state.adopted node ≤ state.term node
  adopted_elected : ∀ node, state.adopted node ≠ 0 → state.owner (state.adopted node) ≠ none
  ballot_le : ∀ node term ballot, state.ballot node term = some ballot →
    term ≤ state.term node ∧ ballot.adopted < term
  ballot_elected : ∀ node term ballot, state.ballot node term = some ballot →
    ballot.adopted ≠ 0 → state.owner ballot.adopted ≠ none
  elected_wins : ∀ term owner, state.owner term = some owner →
    ∃ voters, state.Wins quorums owner term voters
  owner_le_current : ∀ term owner, state.owner term = some owner → term ≤ state.current owner
  current_owned : ∀ owner, state.current owner ≠ 0 →
    state.owner (state.current owner) = some owner
  hist_unelected : ∀ term, state.owner term = none → state.hist term = []
  hist_last : ∀ term, state.owner term ≠ none →
    ∃ front start, state.hist term = front ++ [⟨term, start⟩]
  hist_sorted : ∀ term, (state.hist term).Pairwise fun earlier later => earlier.term < later.term
  hist_elected : ∀ term, ∀ switch ∈ state.hist term, state.owner switch.term ≠ none
  hist_head : ∀ term switch, (state.hist term).head? = some switch → switch.lsn = 0
  /-- Two consecutive switches: up to the second, the log is that of the first one's term. -/
  matching : ∀ term front switch after rest,
    state.hist term = front ++ switch :: after :: rest →
    AgreeTo size (state.logOf term) (state.logOf switch.term) after.lsn
  durable_le : ∀ node, state.durable node ≤ state.flush node
  flush_boundary : ∀ node, Boundary size (state.logOf (state.adopted node)) (state.flush node)
  ballot_boundary : ∀ node term ballot, state.ballot node term = some ballot →
    Boundary size (state.logOf ballot.adopted) ballot.flush
  acked_adopted : ∀ node term, 0 < state.acked node term → term ≤ state.adopted node
  acked_elected : ∀ node term, 0 < state.acked node term → state.owner term ≠ none
  acked_le_end : ∀ node term, state.acked node term ≤ endOf size (state.logOf term)

/-- Everything recorded stays recorded. -/
structure Grows (state next : State Node Owner Entry) : Prop where
  term_le : ∀ node, state.term node ≤ next.term node
  adopted_le : ∀ node, state.adopted node ≤ next.adopted node
  ballot_stays : ∀ node term ballot, state.ballot node term = some ballot →
    next.ballot node term = some ballot
  owner_stays : ∀ term owner, state.owner term = some owner → next.owner term = some owner
  hist_stays : ∀ term, state.owner term ≠ none → next.hist term = state.hist term
  log_grows : ∀ owner, state.current owner ≠ 0 → state.log owner <+: next.log owner
  current_le : ∀ owner, state.current owner ≤ next.current owner
  acked_le : ∀ node term, state.acked node term ≤ next.acked node term
  acked_left : ∀ node term, term < state.term node →
    next.acked node term = state.acked node term
  ceil_le : state.ceil ≤ next.ceil

/-- A term that was elected stays so. -/
theorem Grows.elected (grows : Grows state next) {term : Nat}
    (elected : state.owner term ≠ none) : next.owner term ≠ none := by
  obtain ⟨owner, owned⟩ := Option.ne_none_iff_exists'.mp elected
  rw [grows.owner_stays term owner owned]
  exact Option.some_ne_none owner

theorem Grows.refl (state : State Node Owner Entry) : Grows state state where
  term_le _ := Nat.le_refl _
  adopted_le _ := Nat.le_refl _
  ballot_stays _ _ _ same := same
  owner_stays _ _ same := same
  hist_stays _ _ := rfl
  log_grows _ _ := List.prefix_refl _
  current_le _ := Nat.le_refl _
  acked_le _ _ := Nat.le_refl _
  acked_left _ _ _ := rfl
  ceil_le := Nat.le_refl _

theorem Grows.trans {last : State Node Owner Entry} (first : Grows state next)
    (second : Grows next last) : Grows state last where
  term_le node := (first.term_le node).trans (second.term_le node)
  adopted_le node := (first.adopted_le node).trans (second.adopted_le node)
  ballot_stays node term ballot same :=
    second.ballot_stays node term ballot (first.ballot_stays node term ballot same)
  owner_stays term owner same :=
    second.owner_stays term owner (first.owner_stays term owner same)
  hist_stays term elected := by
    rw [second.hist_stays term (first.elected elected), first.hist_stays term elected]
  log_grows owner owned := by
    have current := first.current_le owner
    exact (first.log_grows owner owned).trans (second.log_grows owner (by omega))
  current_le owner := (first.current_le owner).trans (second.current_le owner)
  acked_le node term := (first.acked_le node term).trans (second.acked_le node term)
  acked_left node term left := by
    have later := first.term_le node
    rw [second.acked_left node term (by omega), first.acked_left node term left]
  ceil_le := first.ceil_le.trans second.ceil_le

/-- Two quorums of ballots for one term name one candidate. -/
theorem State.Wins.unique {first second : Owner} {term : Nat} {voters others : Set Node}
    (wins : state.Wins quorums first term voters)
    (othersWin : state.Wins quorums second term others) : first = second := by
  obtain ⟨node, inFirst, inSecond⟩ := quorums.meet wins.1 othersWin.1
  obtain ⟨ballot, voted, isFirst⟩ := wins.2 node inFirst
  obtain ⟨other, votedOther, isSecond⟩ := othersWin.2 node inSecond
  rw [voted] at votedOther
  cases votedOther
  rw [← isFirst, ← isSecond]

namespace WellFormed

/-- Nothing has happened yet. -/
theorem initial : WellFormed size quorums (State.initial : State Node Owner Entry) := by
  constructor <;> simp [State.initial, Boundary.zero]

variable (wellFormed : WellFormed size quorums state)

include wellFormed

/-- Ballots are of positive terms. -/
theorem ballot_pos {node : Node} {term : Nat} {ballot : Ballot Owner}
    (voted : state.ballot node term = some ballot) : 0 < term := by
  have := (wellFormed.ballot_le node term ballot voted).2
  omega

/-- A won term is positive. -/
theorem wins_pos {owner : Owner} {term : Nat} {voters : Set Node}
    (wins : state.Wins quorums owner term voters) : 0 < term := by
  obtain ⟨node, member, -⟩ := quorums.meet wins.1 wins.1
  obtain ⟨ballot, voted, -⟩ := wins.2 node member
  exact wellFormed.ballot_pos voted

/-- An elected term is positive. -/
theorem elected_pos {term : Nat} (elected : state.owner term ≠ none) : 0 < term := by
  obtain ⟨owner, owned⟩ := Option.ne_none_iff_exists'.mp elected
  obtain ⟨voters, wins⟩ := wellFormed.elected_wins term owner owned
  exact wellFormed.wins_pos wins

/-- A term about to be taken over has no owner yet. -/
theorem unelected_of_wins {owner : Owner} {term : Nat} {voters : Set Node}
    {donor : Ballot Owner} {history : History} {log : List Entry}
    (wins : state.Wins quorums owner term voters)
    (inherits : Inherits size state owner term donor history log) :
    state.owner term = none := by
  cases owned : state.owner term with
  | none => rfl
  | some other =>
      obtain ⟨others, othersWin⟩ := wellFormed.elected_wins term other owned
      have same := wins.unique othersWin
      subst same
      have bounded := wellFormed.owner_le_current term owner owned
      have positive := wellFormed.wins_pos wins
      cases inherits with
      | opened unowned => omega
      | reelected _ newer => omega

/-- A history that is not empty belongs to an elected term. -/
theorem elected_of_mem {term : Nat} {switch : Switch} (mem : switch ∈ state.hist term) :
    state.owner term ≠ none := by
  intro unelected
  rw [wellFormed.hist_unelected term unelected] at mem
  simp at mem

/-- A history names no term above its own. -/
theorem term_le_of_mem {term : Nat} {switch : Switch} (mem : switch ∈ state.hist term) :
    switch.term ≤ term := by
  obtain ⟨front, start, shape⟩ := wellFormed.hist_last term (wellFormed.elected_of_mem mem)
  have bounded := History.term_le_lastTerm (wellFormed.hist_sorted term) mem
  rw [shape, History.lastTerm_concat] at bounded
  exact bounded

/-- The history of an elected term begins at the start of the log. -/
theorem hist_cons {term : Nat} (elected : state.owner term ≠ none) :
    ∃ first rest, state.hist term = first :: rest ∧ first.lsn = 0 := by
  obtain ⟨front, start, shape⟩ := wellFormed.hist_last term elected
  cases equal : state.hist term with
  | nil => simp [equal] at shape
  | cons first rest =>
      exact ⟨first, rest, rfl, wellFormed.hist_head term first (by simp [equal])⟩

/-- The ballot a node gave in a term it has not reached does not exist yet. -/
theorem ballot_none {node : Node} {term : Nat} (newer : state.term node < term) :
    state.ballot node term = none := by
  cases voted : state.ballot node term with
  | none => rfl
  | some ballot =>
      have := (wellFormed.ballot_le node term ballot voted).1
      omega

/-- The owner of an elected term holds a term. -/
theorem current_ne_zero {term : Nat} {owner : Owner} (owned : state.owner term = some owner) :
    state.current owner ≠ 0 := by
  have bounded := wellFormed.owner_le_current term owner owned
  have positive := wellFormed.elected_pos (by rw [owned]; exact Option.some_ne_none owner)
  omega

/-- The log of a term only grows. -/
theorem logOf_grows (grows : Grows state next) (term : Nat) :
    state.logOf term <+: next.logOf term := by
  unfold State.logOf
  cases owned : state.owner term with
  | none => exact List.nil_prefix
  | some owner =>
      rw [grows.owner_stays term owner owned]
      exact grows.log_grows owner (wellFormed.current_ne_zero owned)

end WellFormed

end Icegres.TermLog
