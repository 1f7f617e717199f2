import Icegres.TermLog.Safety

/-!
# What an election freezes

Three facts beside the safety invariant. Until its term is taken over, a voter's copy is the
one it reported. The history an owner accumulates over its re-elections adds only terms of
its own. And when every history is ordered by position as well as by term, a node never
falls back below what it acknowledged in the term it follows.
-/

namespace Icegres.TermLog

variable {Node Owner Entry : Type}
variable {size : Entry → Nat} {quorums : QuorumSystem Node}
variable {state next : State Node Owner Entry}

/-- What the voters of a term nobody has taken over yet hold, and whose terms a history
names. -/
structure Fenced (state : State Node Owner Entry) : Prop where
  frozen : ∀ node ballot, state.ballot node (state.term node) = some ballot →
    state.owner (state.term node) = none →
    state.adopted node = ballot.adopted ∧ state.flush node ≤ ballot.flush
  own : ∀ term owner, state.owner term = some owner → ∀ switch ∈ state.hist term,
    state.owner switch.term = some owner ∨
      ∀ other, state.owner other = some owner → switch.term < other

/-- Every history is ordered by position. -/
def State.Ordered (state : State Node Owner Entry) : Prop :=
  ∀ term, (state.hist term).Pairwise fun earlier later => earlier.lsn ≤ later.lsn

/-- No node has fallen below what it acknowledged in the term it follows. -/
def State.Settled (state : State Node Owner Entry) : Prop :=
  ∀ node, state.adopted node = state.term node →
    state.acked node (state.term node) ≤ max (state.durable node) state.ceil

theorem State.Ordered.back (ordered : next.Ordered) (wellFormed : WellFormed size quorums state)
    (grows : Grows state next) : state.Ordered := by
  intro term
  by_cases elected : state.owner term = none
  · rw [wellFormed.hist_unelected term elected]
    exact List.Pairwise.nil
  · rw [← grows.hist_stays term elected]
    exact ordered term

/-- In an ordered history, the part above a position comes after the part at or below it. -/
theorem History.upTo_prefix {history : History}
    (ordered : history.Pairwise fun earlier later => earlier.lsn ≤ later.lsn) (lsn : Nat) :
    ∃ rest, history = history.upTo lsn ++ rest ∧ ∀ switch ∈ rest, lsn < switch.lsn := by
  induction history with
  | nil => exact ⟨[], rfl, by simp⟩
  | cons first history ih =>
      rw [List.pairwise_cons] at ordered
      obtain ⟨rest, shape, above⟩ := ih ordered.2
      by_cases within : first.lsn ≤ lsn
      · refine ⟨rest, ?_, above⟩
        have kept : History.upTo (first :: history) lsn = first :: History.upTo history lsn := by
          simp [History.upTo, within]
        rw [kept, List.cons_append, ← shape]
      · refine ⟨first :: history, ?_, ?_⟩
        · have none : History.upTo (first :: history) lsn = [] := by
            rw [History.upTo, List.filter_eq_nil_iff]
            intro switch mem
            rcases List.mem_cons.mp mem with rfl | later
            · simpa using within
            · have := ordered.1 switch later
              simp only [decide_eq_true_eq]
              omega
          simp [none]
        · intro switch mem
          rcases List.mem_cons.mp mem with rfl | later
          · omega
          · have := ordered.1 switch later
            omega

/-- A node that already follows an ordered history is not cut by it. -/
theorem CommonPoint.of_ordered {history : History} {flush point : Nat}
    (ordered : history.Pairwise fun earlier later => earlier.lsn ≤ later.lsn)
    (common : CommonPoint history (history.upTo flush) flush point) : point = flush := by
  have within : ∀ switch ∈ history.upTo flush, switch.lsn ≤ flush :=
    fun switch mem => (History.mem_upTo.mp mem).2
  obtain ⟨rest, shape, above⟩ := History.upTo_prefix ordered flush
  refine Nat.le_antisymm (common.le_bound within) ?_
  exact common.ge_of_front shape (List.append_nil (history.upTo flush)).symm
    (fun switch mem => Nat.le_of_lt (above switch mem)) (by simp) (Nat.le_refl _)

namespace Fenced

theorem initial : Fenced (State.initial : State Node Owner Entry) := by
  constructor <;> simp [State.initial]

/-- A step that changes neither ballots, terms nor owners keeps the frozen copies of the other
nodes; the one it is about must still follow the ballot. -/
private theorem frozen_of_node (node : Node) (fenced : Fenced state)
    (term : next.term = state.term) (ballot : next.ballot = state.ballot)
    (owner : next.owner = state.owner)
    (others : ∀ other ≠ node, next.adopted other = state.adopted other ∧
      next.flush other = state.flush other)
    (own : state.owner (state.term node) ≠ none ∨
      next.adopted node = state.adopted node ∧ next.flush node ≤ state.flush node) :
    ∀ other given, next.ballot other (next.term other) = some given →
      next.owner (next.term other) = none →
      next.adopted other = given.adopted ∧ next.flush other ≤ given.flush := by
  rw [term, ballot, owner]
  intro other given voted unowned
  obtain ⟨adopted, flush⟩ := fenced.frozen other given voted unowned
  by_cases same : other = node
  · subst same
    rcases own with elected | ⟨sameAdopted, lower⟩
    · exact absurd unowned elected
    · exact ⟨sameAdopted.trans adopted, lower.trans flush⟩
  · obtain ⟨sameAdopted, sameFlush⟩ := others other same
    exact ⟨sameAdopted.trans adopted, sameFlush.symm ▸ flush⟩

/-- The history of a new term names the owner's own terms and terms below its first. -/
private theorem own_elect (wellFormed : WellFormed size quorums state) (fenced : Fenced state)
    {owner : Owner} {term : Nat} {donor : Ballot Owner} {history : History} {log : List Entry}
    (donorBelow : donor.adopted < term)
    (inherits : Inherits size state owner term donor history log) :
    ∀ switch ∈ history,
      Function.update state.owner term (some owner) switch.term = some owner ∨
        ∀ other, Function.update state.owner term (some owner) other = some owner →
          switch.term < other := by
  intro switch mem
  have isNew : ∀ {start : Nat}, switch ∈ [(⟨term, start⟩ : Switch)] →
      Function.update state.owner term (some owner) switch.term = some owner := by
    intro start last
    simp only [List.mem_singleton] at last
    simp [last]
  cases inherits with
  | opened unowned isFront ends =>
      rcases List.mem_append.mp mem with inherited | last
      · right
        have bounded := wellFormed.term_le_of_mem (History.mem_upTo.mp inherited).1
        intro other owned
        by_cases isTerm : other = term
        · omega
        · rw [Function.update_of_ne isTerm] at owned
          exact absurd unowned (wellFormed.current_ne_zero owned)
      · exact .inl (isNew last)
  | reelected owned newer same =>
      rcases List.mem_append.mp mem with inherited | last
      · have bounded := wellFormed.term_le_of_mem inherited
        have different : switch.term ≠ term := by omega
        rw [Function.update_of_ne different]
        rcases fenced.own _ owner (wellFormed.current_owned owner owned) switch inherited with
          isOwn | below
        · exact .inl isOwn
        · right
          intro other ownedOther
          by_cases isTerm : other = term
          · omega
          · rw [Function.update_of_ne isTerm] at ownedOther
            exact below other ownedOther
      · exact .inl (isNew last)

variable [DecidableEq Node] [DecidableEq Owner]

theorem step (wellFormed : WellFormed size quorums state) (fenced : Fenced state)
    (transition : Step size quorums state next) : Fenced next := by
  cases transition with
  | vote node term candidate newer =>
      refine ⟨?_, fenced.own⟩
      intro other ballot voted unowned
      by_cases same : other = node
      · subst same
        have given : ballot = ⟨candidate, state.adopted other, state.flush other⟩ := by
          simpa [eq_comm] using voted
        simp [given]
      · exact fenced.frozen other ballot (by simpa [same] using voted)
          (by simpa [same] using unowned)
  | bump node term newer =>
      refine ⟨?_, fenced.own⟩
      intro other ballot voted unowned
      by_cases same : other = node
      · subst same
        have none := wellFormed.ballot_none newer
        simp [none] at voted
      · exact fenced.frozen other ballot (by simpa [same] using voted)
          (by simpa [same] using unowned)
  | elect owner term voters donor donorBallot history log wins donorVoted donorEq mostAdvanced
      inherits =>
      have unelected := wellFormed.unelected_of_wins wins inherits
      have donorBelow := (wellFormed.ballot_le donor term donorBallot donorEq).2
      constructor
      · intro other ballot voted unowned
        refine fenced.frozen other ballot voted ?_
        by_cases isTerm : state.term other = term
        · simp [isTerm] at unowned
        · simpa [isTerm] using unowned
      · intro other otherOwner owned switch mem
        by_cases isTerm : other = term
        · subst isTerm
          obtain rfl : owner = otherOwner := by simpa using owned
          exact own_elect wellFormed fenced donorBelow inherits switch (by simpa using mem)
        · simp only [Function.update_of_ne isTerm] at owned mem
          have bounded := wellFormed.term_le_of_mem mem
          have elected := wellFormed.hist_elected other switch mem
          have different : switch.term ≠ term := fun isNew => elected (isNew ▸ unelected)
          rcases fenced.own other otherOwner owned switch mem with isOwn | below
          · left
            simpa [different] using isOwn
          · right
            intro another ownedAnother
            by_cases isNew : another = term
            · subst isNew
              obtain rfl : owner = otherOwner := by simpa using ownedAnother
              have current := wellFormed.owner_le_current other owner owned
              cases inherits with
              | opened unowned => exact absurd unowned (wellFormed.current_ne_zero owned)
              | reelected _ newer => omega
            · simp only [Function.update_of_ne isNew] at ownedAnother
              exact below another ownedAnother
  | submit owner entry owned => exact ⟨fenced.frozen, fenced.own⟩
  | cut node point upto kept elected common above boundary keptLe keeps =>
      refine ⟨frozen_of_node node fenced rfl rfl rfl ?_ (.inl elected), fenced.own⟩
      intro other different
      simp [different]
  | adopt node elected agree =>
      refine ⟨frozen_of_node node fenced rfl rfl rfl ?_ (.inl elected), fenced.own⟩
      intro other different
      simp [different]
  | extend node upto kept follows forward boundary keptGe keptLe =>
      by_cases unfollowed : state.adopted node = 0
      · -- nothing is followed yet, so the log is empty and so is the copy
        have unelected : state.owner (state.term node) = none := by
          by_contra elected
          have := wellFormed.elected_pos elected
          omega
        have empty : upto = 0 := by
          have ends := boundary.le_end
          simpa [State.logOf, unelected] using ends
        refine ⟨frozen_of_node node fenced rfl rfl rfl ?_ (.inr ⟨rfl, ?_⟩), fenced.own⟩
        · intro other different
          simp [different]
        · simp [empty]
      · have elected := follows ▸ wellFormed.adopted_elected node unfollowed
        refine ⟨frozen_of_node node fenced rfl rfl rfl ?_ (.inl elected), fenced.own⟩
        intro other different
        simp [different]
  | ack node follows => exact ⟨fenced.frozen, fenced.own⟩
  | lose node upto durable backward boundary =>
      refine ⟨frozen_of_node node fenced rfl rfl rfl ?_ (.inr ⟨rfl, ?_⟩), fenced.own⟩
      · intro other different
        simp [different]
      · simpa using backward
  | raise ceil => exact ⟨fenced.frozen, fenced.own⟩

end Fenced

section Runs

variable [DecidableEq Node] [DecidableEq Owner]

/-- While histories stay ordered, acknowledgements of the followed term are kept. -/
theorem State.Settled.step (wellFormed : WellFormed size quorums state)
    (ordered : state.Ordered) (settled : state.Settled)
    (transition : Step size quorums state next) : next.Settled := by
  have unacked : ∀ {node : Node} {term : Nat}, state.adopted node < term →
      state.acked node term = 0 := by
    intro node term newer
    by_contra acked
    have := wellFormed.acked_adopted node term (by omega)
    omega
  cases transition with
  | vote node term candidate newer | bump node term newer =>
      intro other follows
      by_cases same : other = node
      · subst same
        simp only [Function.update_self] at follows ⊢
        have := wellFormed.adopted_le other
        rw [unacked (by omega)]
        exact Nat.zero_le _
      · simp only [Function.update_of_ne same] at follows ⊢
        exact settled other follows
  | elect | submit => exact settled
  | cut node point upto kept elected common above boundary keptLe keeps =>
      intro other follows
      have before := settled other follows
      by_cases same : other = node
      · subst same
        have follows : state.adopted other = state.term other := follows
        have whole : point = state.flush other := by
          rw [← follows] at common
          exact common.of_ordered (ordered _)
        have durable := wellFormed.durable_le other
        simp only [Function.update_self]
        rcases keeps with kept | lost
        · omega
        · omega
      · simpa [same] using before
  | adopt node elected agree =>
      intro other follows
      by_cases same : other = node
      · subst same
        by_cases followed : state.adopted other = state.term other
        · exact settled other followed
        · have := wellFormed.adopted_le other
          change state.acked other (state.term other) ≤ _
          rw [unacked (by omega)]
          exact Nat.zero_le _
      · exact settled other (by simpa [same] using follows)
  | extend node upto kept follows forward boundary keptGe keptLe =>
      intro other followed
      have before := settled other followed
      by_cases same : other = node
      · subst same
        simp only [Function.update_self]
        omega
      · simpa [same] using before
  | ack node follows =>
      intro other followed
      have before := settled other followed
      by_cases same : other = node
      · subst same
        simp only [Function.update_self]
        omega
      · simpa [same] using before
  | lose node upto durable backward boundary => exact settled
  | raise ceil =>
      intro other followed
      have before := settled other followed
      simp only
      omega

/-- The facts about every run from the initial state. -/
theorem fenced_of_steps (positive : ∀ entry, 0 < size entry)
    (run : Steps size quorums State.initial state) :
    Fenced state ∧ (state.Ordered → state.Settled) := by
  generalize start : (State.initial : State Node Owner Entry) = first at run
  induction run with
  | refl =>
      subst start
      exact ⟨Fenced.initial, fun _ => by simp [State.Settled, State.initial]⟩
  | step prior transition ih =>
      obtain ⟨fenced, settled⟩ := ih
      subst start
      have wellFormed := (invariants_of_steps positive prior).1
      refine ⟨fenced.step wellFormed transition, fun ordered => ?_⟩
      have before := ordered.back wellFormed (wellFormed.grows_step positive transition)
      exact (settled before).step wellFormed before transition

end Runs

end Icegres.TermLog
