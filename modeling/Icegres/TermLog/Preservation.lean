import Icegres.TermLog.Matching

/-!
# Steps keep the structural invariant

One lemma for what a step can change in the recorded history, one for each transition that
the structural invariant depends on, and the run lemmas built from them.
-/

namespace Icegres.TermLog

variable {Node Owner Entry : Type} [DecidableEq Node] [DecidableEq Owner]
variable {size : Entry → Nat} {quorums : QuorumSystem Node}
variable {state next : State Node Owner Entry}

/-- An elected owner's new history and log, whichever way it came by them. -/
structure Inherited (size : Entry → Nat) (state : State Node Owner Entry) (owner : Owner)
    (term : Nat) (donor : Ballot Owner) (history : History) (log : List Entry) : Prop where
  current_lt : state.current owner < term
  log_grows : state.current owner ≠ 0 → state.log owner <+: log
  last : ∃ front, history = front ++ [⟨term, donor.flush⟩]
  sorted : history.Pairwise fun earlier later => earlier.term < later.term
  elected : ∀ switch ∈ history, switch.term = term ∨ state.owner switch.term ≠ none
  head : ∀ switch, history.head? = some switch → switch.lsn = 0
  boundary : Boundary size log donor.flush
  matching : ∀ front switch after rest, history = front ++ switch :: after :: rest →
    (state.owner switch.term = some owner ∧ Boundary size log after.lsn) ∨
      AgreeTo size log (state.logOf switch.term) after.lsn

namespace WellFormed

variable (positive : ∀ entry, 0 < size entry)
variable (wellFormed : WellFormed size quorums state)

section Elections

omit [DecidableEq Node] [DecidableEq Owner]

include positive wellFormed

private theorem inherited_opened {owner : Owner} {term : Nat} {donor : Ballot Owner}
    {front : List Entry} (newer : donor.adopted < term)
    (electedDonor : donor.adopted ≠ 0 → state.owner donor.adopted ≠ none)
    (boundary : Boundary size (state.logOf donor.adopted) donor.flush)
    (unowned : state.current owner = 0) (isFront : front <+: state.logOf donor.adopted)
    (ends : endOf size front = donor.flush) :
    Inherited size state owner term donor
      (state.effective donor.adopted donor.flush ++ [⟨term, donor.flush⟩]) front where
  current_lt := by omega
  log_grows owned := absurd unowned owned
  last := ⟨_, rfl⟩
  sorted := by
    rw [List.pairwise_append]
    refine ⟨(wellFormed.hist_sorted donor.adopted).filter _, by simp, ?_⟩
    intro earlier mem later isLast
    simp only [List.mem_singleton] at isLast
    have bounded := wellFormed.term_le_of_mem (History.mem_upTo.mp mem).1
    rw [isLast]
    exact Nat.lt_of_le_of_lt bounded newer
  elected := by
    intro switch mem
    rcases List.mem_append.mp mem with inDonor | isLast
    · exact .inr (wellFormed.hist_elected _ switch (History.mem_upTo.mp inDonor).1)
    · simp only [List.mem_singleton] at isLast
      exact .inl (by rw [isLast])
  head := by
    intro switch isHead
    by_cases adopted : donor.adopted = 0
    · -- a donor without a history has an empty log, so the first term starts at zero
      have unelected : state.owner donor.adopted = none := by
        cases owned : state.owner donor.adopted with
        | none => rfl
        | some other =>
            have := wellFormed.elected_pos (by rw [owned]; exact Option.some_ne_none other)
            omega
      have emptyLog : state.logOf donor.adopted = [] := by simp [State.logOf, unelected]
      have atStart : donor.flush = 0 := by
        have := boundary.le_end
        simpa [emptyLog] using this
      simp only [State.effective, wellFormed.hist_unelected _ unelected, History.upTo_nil,
        List.nil_append, List.head?_cons, Option.some.injEq] at isHead
      rw [← isHead]
      exact atStart
    · obtain ⟨first, rest, cons, atStart⟩ := wellFormed.hist_cons (electedDonor adopted)
      have same : switch = first := by
        simpa [State.effective, cons, History.upTo, atStart] using isHead.symm
      rw [same]
      exact atStart
  boundary := ⟨front, List.prefix_refl _, ends⟩
  matching := by
    intro before switch after rest shape
    right
    have agreeFront : AgreeTo size front (state.logOf donor.adopted) donor.flush :=
      ⟨front, List.prefix_refl _, isFront, ends⟩
    rcases List.eq_nil_or_concat rest with rfl | ⟨rest, last, rfl⟩
    · -- the second switch is the new term itself
      have split : state.effective donor.adopted donor.flush = before ++ [switch] ∧
          (⟨term, donor.flush⟩ : Switch) = after := by
        have reassociated : state.effective donor.adopted donor.flush ++ [⟨term, donor.flush⟩] =
            (before ++ [switch]) ++ [after] := by simpa using shape
        have parts := List.append_inj' reassociated rfl
        exact ⟨parts.1, by simpa using parts.2⟩
      have agree := wellFormed.agree_effective positive boundary split.1
      have both := agreeFront.trans positive agree
      simpa [← split.2] using both
    · have split : state.effective donor.adopted donor.flush =
          before ++ switch :: after :: rest := by
        have reassociated : state.effective donor.adopted donor.flush ++ [⟨term, donor.flush⟩] =
            (before ++ switch :: after :: rest) ++ [last] := by simpa using shape
        exact (List.append_inj' reassociated rfl).1
      have agree := wellFormed.agree_effective positive boundary split
      have within : after.lsn ≤ donor.flush := by
        have mem : after ∈ state.effective donor.adopted donor.flush := by simp [split]
        exact (History.mem_upTo.mp mem).2
      have both := agreeFront.trans positive agree
      simpa [Nat.min_eq_right within] using both

private theorem inherited_reelected {owner : Owner} {term : Nat} {donor : Ballot Owner}
    (boundary : Boundary size (state.logOf donor.adopted) donor.flush)
    (owned : state.current owner ≠ 0) (newer : state.current owner < term)
    (same : state.effective (state.current owner) donor.flush =
      state.effective donor.adopted donor.flush) :
    Inherited size state owner term donor
      (state.hist (state.current owner) ++ [⟨term, donor.flush⟩]) (state.log owner) := by
  have own := wellFormed.current_owned owner owned
  have ownLog : state.logOf (state.current owner) = state.log owner := by
    simp [State.logOf, own]
  have elected : state.owner (state.current owner) ≠ none := by
    rw [own]
    exact Option.some_ne_none owner
  have ownBoundary : Boundary size (state.log owner) donor.flush := by
    rw [← ownLog]
    exact wellFormed.boundary_of_same positive elected boundary same
  constructor
  case current_lt => exact newer
  case log_grows => exact fun _ => List.prefix_refl _
  case last => exact ⟨_, rfl⟩
  case sorted =>
    rw [List.pairwise_append]
    refine ⟨wellFormed.hist_sorted _, by simp, ?_⟩
    intro earlier mem later isLast
    simp only [List.mem_singleton] at isLast
    have bounded := wellFormed.term_le_of_mem mem
    rw [isLast]
    exact Nat.lt_of_le_of_lt bounded newer
  case elected =>
    intro switch mem
    rcases List.mem_append.mp mem with inOwn | isLast
    · exact .inr (wellFormed.hist_elected _ switch inOwn)
    · simp only [List.mem_singleton] at isLast
      exact .inl (by rw [isLast])
  case head =>
    intro switch isHead
    obtain ⟨first, rest, cons, atStart⟩ := wellFormed.hist_cons elected
    have isFirst : switch = first := by simpa [cons] using isHead.symm
    rw [isFirst]
    exact atStart
  case boundary => exact ownBoundary
  case matching =>
    intro before switch after rest shape
    rcases List.eq_nil_or_concat rest with rfl | ⟨rest, last, rfl⟩
    · left
      have reassociated : state.hist (state.current owner) ++ [⟨term, donor.flush⟩] =
          (before ++ [switch]) ++ [after] := by simpa using shape
      have parts := List.append_inj' reassociated rfl
      have isOwn := wellFormed.term_of_last parts.1
      have isLast : (⟨term, donor.flush⟩ : Switch) = after := by simpa using parts.2
      refine ⟨by rw [isOwn]; exact own, ?_⟩
      rw [← isLast]
      exact ownBoundary
    · right
      have reassociated : state.hist (state.current owner) ++ [⟨term, donor.flush⟩] =
          (before ++ switch :: after :: rest) ++ [last] := by simpa using shape
      rw [← ownLog]
      exact wellFormed.matching _ before switch after rest
        (List.append_inj' reassociated rfl).1

/-- What the new owner of a term takes over. -/
theorem inherited {owner : Owner} {term : Nat} {node : Node} {donor : Ballot Owner}
    {history : History} {log : List Entry} (voted : state.ballot node term = some donor)
    (inherits : Inherits size state owner term donor history log) :
    Inherited size state owner term donor history log := by
  have boundary := wellFormed.ballot_boundary node term donor voted
  cases inherits with
  | opened unowned isFront ends =>
      exact wellFormed.inherited_opened positive (wellFormed.ballot_le node term donor voted).2
        (wellFormed.ballot_elected node term donor voted) boundary unowned isFront ends
  | reelected owned newer same =>
      exact wellFormed.inherited_reelected positive boundary owned newer same

end Elections

section Transitions

include positive wellFormed

/-- A step adds to the recorded history and changes none of it. -/
theorem grows_step (transition : Step size quorums state next) : Grows state next := by
  cases transition with
  | vote node term candidate newer =>
      refine { Grows.refl state with term_le := ?_, ballot_stays := ?_, acked_left := ?_ }
      · intro other
        by_cases same : other = node
        · subst same
          simpa using Nat.le_of_lt newer
        · simp [same]
      · intro other otherTerm ballot voted
        have unvoted := wellFormed.ballot_none newer
        by_cases same : other = node
        · subst same
          have different : otherTerm ≠ term := by
            rintro rfl
            simp [unvoted] at voted
          simpa [different] using voted
        · simpa [same] using voted
      · intros
        rfl
  | bump node term newer =>
      refine { Grows.refl state with term_le := ?_, acked_left := fun _ _ _ => rfl }
      intro other
      by_cases same : other = node
      · subst same
        simpa using Nat.le_of_lt newer
      · simp [same]
  | elect owner term voters donor donorBallot history log wins donorVoted donorEq mostAdvanced
      inherits =>
      have unelected := wellFormed.unelected_of_wins wins inherits
      have inherited := wellFormed.inherited positive donorEq inherits
      refine { Grows.refl state with
        owner_stays := ?_, hist_stays := ?_, log_grows := ?_, current_le := ?_ }
      · intro otherTerm other owned
        have different : otherTerm ≠ term := by
          rintro rfl
          simp [unelected] at owned
        simpa [different] using owned
      · intro otherTerm elected
        have different : otherTerm ≠ term := by
          rintro rfl
          exact elected unelected
        simp [different]
      · intro other owned
        by_cases same : other = owner
        · subst same
          simpa using inherited.log_grows owned
        · simp [same]
      · intro other
        by_cases same : other = owner
        · subst same
          simpa using Nat.le_of_lt inherited.current_lt
        · simp [same]
  | submit owner entry owned =>
      refine { Grows.refl state with log_grows := ?_ }
      intro other _
      by_cases same : other = owner
      · subst same
        simp
      · simp [same]
  | cut => exact { Grows.refl state with }
  | adopt node =>
      refine { Grows.refl state with adopted_le := ?_ }
      intro other
      by_cases same : other = node
      · subst same
        simpa using wellFormed.adopted_le other
      · simp [same]
  | extend => exact { Grows.refl state with }
  | ack node follows =>
      refine { Grows.refl state with acked_le := ?_, acked_left := ?_ }
      · intro other term
        by_cases same : other = node
        · subst same
          by_cases own : term = state.term other
          · subst own
            simp
          · simp [own]
        · simp [same]
      · intro other term left
        by_cases same : other = node
        · subst same
          have own : term ≠ state.term other := by omega
          simp [own]
        · simp [same]
  | lose => exact { Grows.refl state with }
  | raise ceil => exact { Grows.refl state with ceil_le := Nat.le_max_left _ _ }

private theorem step_vote {node : Node} {term : Nat} {candidate : Owner}
    (newer : state.term node < term) :
    WellFormed size quorums
      { state with
        term := Function.update state.term node term
        ballot := Function.update state.ballot node
          (Function.update (state.ballot node) term
            (some ⟨candidate, state.adopted node, state.flush node⟩)) } := by
  have adoptedLe := wellFormed.adopted_le node
  -- the ballots of the next state are the old ones and the one just given
  have ballots : ∀ other otherTerm ballot,
      Function.update state.ballot node (Function.update (state.ballot node) term
        (some ⟨candidate, state.adopted node, state.flush node⟩)) other otherTerm = some ballot →
      (other = node ∧ otherTerm = term ∧
        ballot = ⟨candidate, state.adopted node, state.flush node⟩) ∨
      (otherTerm ≤ state.term other ∧ state.ballot other otherTerm = some ballot) := by
    intro other otherTerm ballot voted
    by_cases same : other = node
    · subst same
      by_cases isTerm : otherTerm = term
      · subst isTerm
        left
        simpa [eq_comm] using voted
      · right
        have old : state.ballot other otherTerm = some ballot := by simpa [isTerm] using voted
        exact ⟨(wellFormed.ballot_le other otherTerm ballot old).1, old⟩
    · right
      have old : state.ballot other otherTerm = some ballot := by simpa [same] using voted
      exact ⟨(wellFormed.ballot_le other otherTerm ballot old).1, old⟩
  have termLe : ∀ other, state.term other ≤ Function.update state.term node term other := by
    intro other
    by_cases same : other = node
    · subst same
      simpa using Nat.le_of_lt newer
    · simp [same]
  refine { wellFormed with
    adopted_le := ?_, ballot_le := ?_, ballot_elected := ?_, elected_wins := ?_,
    ballot_boundary := ?_ }
  · intro other
    exact (wellFormed.adopted_le other).trans (termLe other)
  · intro other otherTerm ballot voted
    rcases ballots other otherTerm ballot voted with ⟨rfl, rfl, rfl⟩ | ⟨bounded, old⟩
    · simp only [Function.update_self]
      exact ⟨Nat.le_refl _, by omega⟩
    · exact ⟨bounded.trans (termLe other), (wellFormed.ballot_le other otherTerm ballot old).2⟩
  · intro other otherTerm ballot voted
    rcases ballots other otherTerm ballot voted with ⟨rfl, rfl, rfl⟩ | ⟨-, old⟩
    · exact wellFormed.adopted_elected other
    · exact wellFormed.ballot_elected other otherTerm ballot old
  · intro otherTerm owner owned
    obtain ⟨voters, isQuorum, votes⟩ := wellFormed.elected_wins otherTerm owner owned
    refine ⟨voters, isQuorum, fun other member => ?_⟩
    obtain ⟨ballot, voted, isCandidate⟩ := votes other member
    refine ⟨ballot, ?_, isCandidate⟩
    have voting : Step size quorums state _ := .vote node term candidate newer
    have grows := wellFormed.grows_step positive voting
    exact grows.ballot_stays other otherTerm ballot voted
  · intro other otherTerm ballot voted
    rcases ballots other otherTerm ballot voted with ⟨rfl, rfl, rfl⟩ | ⟨-, old⟩
    · exact wellFormed.flush_boundary other
    · exact wellFormed.ballot_boundary other otherTerm ballot old

omit positive [DecidableEq Owner] in
private theorem step_ack {node : Node} (follows : state.adopted node = state.term node) :
    WellFormed size quorums
      { state with
        acked := Function.update state.acked node
          (Function.update (state.acked node) (state.term node)
            (max (state.acked node (state.term node)) (state.durable node))) } := by
  have durableLe := wellFormed.durable_le node
  have flushBoundary := wellFormed.flush_boundary node
  -- the acknowledgements of the next state are the old ones and the one just given
  have acks : ∀ other term, Function.update state.acked node
      (Function.update (state.acked node) (state.term node)
        (max (state.acked node (state.term node)) (state.durable node))) other term =
        state.acked other term ∨
      (other = node ∧ term = state.adopted node ∧ Function.update state.acked node
        (Function.update (state.acked node) (state.term node)
          (max (state.acked node (state.term node)) (state.durable node))) other term =
            state.durable node) := by
    intro other term
    by_cases same : other = node
    · subst same
      by_cases own : term = state.term other
      · subst own
        rcases Nat.le_total (state.durable other) (state.acked other (state.term other)) with
          old | new
        · left
          simp [old]
        · right
          simp [new, follows]
      · left
        simp [own]
    · left
      simp [same]
  refine { wellFormed with acked_adopted := ?_, acked_elected := ?_, acked_le_end := ?_ }
  · intro other term acked
    rcases acks other term with old | ⟨rfl, rfl, new⟩
    · exact wellFormed.acked_adopted other term (by simpa only [old] using acked)
    · exact Nat.le_refl _
  · intro other term acked
    rcases acks other term with old | ⟨rfl, rfl, new⟩
    · exact wellFormed.acked_elected other term (by simpa only [old] using acked)
    · intro unowned
      have unelected : state.owner (state.adopted other) = none := unowned
      have atStart : state.flush other ≤ 0 := by
        simpa [State.logOf, unelected] using flushBoundary.le_end
      simp only [new] at acked
      omega
  · intro other term
    change _ ≤ endOf size (state.logOf term)
    rcases acks other term with old | ⟨rfl, rfl, new⟩
    · simpa only [old] using wellFormed.acked_le_end other term
    · simp only [new]
      exact durableLe.trans flushBoundary.le_end

omit [DecidableEq Node] in
private theorem step_elect {owner : Owner} {term : Nat} {voters : Set Node} {donor : Node}
    {donorBallot : Ballot Owner} {history : History} {log : List Entry}
    (wins : state.Wins quorums owner term voters)
    (donorEq : state.ballot donor term = some donorBallot)
    (inherits : Inherits size state owner term donorBallot history log)
    (isNext : next = { state with
      owner := Function.update state.owner term (some owner)
      hist := Function.update state.hist term history
      current := Function.update state.current owner term
      log := Function.update state.log owner log })
    (grows : Grows state next) : WellFormed size quorums next := by
  have unelected := wellFormed.unelected_of_wins wins inherits
  have inherited := wellFormed.inherited positive donorEq inherits
  have logGrows := wellFormed.logOf_grows grows
  have newLog {other : Nat} (owned : next.owner other = some owner) : next.logOf other = log := by
    rw [State.logOf, owned, isNext]
    simp
  subst isNext
  constructor
  case adopted_le => exact wellFormed.adopted_le
  case adopted_elected =>
    exact fun node adopted => grows.elected (wellFormed.adopted_elected node adopted)
  case ballot_le => exact wellFormed.ballot_le
  case ballot_elected =>
    exact fun node other ballot voted adopted =>
      grows.elected (wellFormed.ballot_elected node other ballot voted adopted)
  case elected_wins =>
    intro otherTerm other owned
    by_cases same : otherTerm = term
    · subst same
      have isOwner : owner = other := by simpa using owned
      exact isOwner ▸ ⟨voters, wins⟩
    · exact wellFormed.elected_wins otherTerm other (by simpa [same] using owned)
  case owner_le_current =>
    intro otherTerm other owned
    by_cases same : otherTerm = term
    · subst same
      have isOwner : owner = other := by simpa using owned
      simp [isOwner]
    · have old : state.owner otherTerm = some other := by simpa [same] using owned
      have bounded := wellFormed.owner_le_current otherTerm other old
      exact bounded.trans (grows.current_le other)
  case current_owned =>
    intro other owned
    by_cases same : other = owner
    · subst same
      simp
    · have old : state.current other ≠ 0 := by simpa [same] using owned
      have own := wellFormed.current_owned other old
      simpa [same] using grows.owner_stays _ other own
  case hist_unelected =>
    intro otherTerm unowned
    by_cases same : otherTerm = term
    · subst same
      simp at unowned
    · simpa [same] using wellFormed.hist_unelected otherTerm (by simpa [same] using unowned)
  case hist_last =>
    intro otherTerm elected
    by_cases same : otherTerm = term
    · subst same
      obtain ⟨front, shape⟩ := inherited.last
      exact ⟨front, donorBallot.flush, by simpa using shape⟩
    · simpa [same] using wellFormed.hist_last otherTerm (by simpa [same] using elected)
  case hist_sorted =>
    intro otherTerm
    by_cases same : otherTerm = term
    · subst same
      simpa using inherited.sorted
    · simpa [same] using wellFormed.hist_sorted otherTerm
  case hist_elected =>
    intro otherTerm switch mem
    by_cases same : otherTerm = term
    · subst same
      rcases inherited.elected switch (by simpa using mem) with isTerm | elected
      · simp [isTerm]
      · exact grows.elected elected
    · exact grows.elected
        (wellFormed.hist_elected otherTerm switch (by simpa [same] using mem))
  case hist_head =>
    intro otherTerm switch isHead
    by_cases same : otherTerm = term
    · subst same
      exact inherited.head switch (by simpa using isHead)
    · exact wellFormed.hist_head otherTerm switch (by simpa [same] using isHead)
  case matching =>
    intro otherTerm front switch after rest shape
    by_cases same : otherTerm = term
    · subst same
      rw [newLog (by simp)]
      rcases inherited.matching front switch after rest (by simpa using shape) with
        ⟨own, boundary⟩ | agree
      · rw [newLog (grows.owner_stays _ owner own)]
        exact AgreeTo.refl boundary
      · exact agree.extend (List.prefix_refl _) (logGrows _)
    · have old := wellFormed.matching otherTerm front switch after rest
        (by simpa [same] using shape)
      exact old.extend (logGrows _) (logGrows _)
  case durable_le => exact wellFormed.durable_le
  case flush_boundary => exact fun node => (wellFormed.flush_boundary node).extend (logGrows _)
  case ballot_boundary =>
    exact fun node other ballot voted =>
      (wellFormed.ballot_boundary node other ballot voted).extend (logGrows _)
  case acked_adopted => exact wellFormed.acked_adopted
  case acked_elected =>
    exact fun node other acked => grows.elected (wellFormed.acked_elected node other acked)
  case acked_le_end =>
    exact fun node other => (wellFormed.acked_le_end node other).trans
      (endOf_le_of_front (logGrows other))

omit positive [DecidableEq Owner] in
/-- The copy of a node may end at any entry boundary behind what is durable of it. -/
private theorem step_copy {node : Node} {upto kept : Nat} (durable : kept ≤ upto)
    (boundary : Boundary size (state.logOf (state.adopted node)) upto) :
    WellFormed size quorums
      { state with
        flush := Function.update state.flush node upto
        durable := Function.update state.durable node kept } := by
  refine { wellFormed with durable_le := ?_, flush_boundary := ?_ }
  · intro other
    by_cases same : other = node
    · subst same
      simpa using durable
    · simpa [same] using wellFormed.durable_le other
  · intro other
    change Boundary size (state.logOf (state.adopted other))
      (Function.update state.flush node upto other)
    by_cases same : other = node
    · subst same
      simpa using boundary
    · simpa [same] using wellFormed.flush_boundary other

/-- Every step keeps the structural invariant. -/
theorem step (transition : Step size quorums state next) : WellFormed size quorums next := by
  have grows := wellFormed.grows_step positive transition
  have logGrows := wellFormed.logOf_grows grows
  cases transition with
  | vote node term candidate newer => exact wellFormed.step_vote positive newer
  | bump node term newer =>
      refine { wellFormed with adopted_le := ?_, ballot_le := ?_ }
      · exact fun other => (wellFormed.adopted_le other).trans (grows.term_le other)
      · intro other otherTerm ballot voted
        obtain ⟨bounded, adopted⟩ := wellFormed.ballot_le other otherTerm ballot voted
        exact ⟨bounded.trans (grows.term_le other), adopted⟩
  | elect owner term voters donor donorBallot history log wins donorVoted donorEq mostAdvanced
      inherits => exact wellFormed.step_elect positive wins donorEq inherits rfl grows
  | submit owner entry owned =>
      refine { wellFormed with
        matching := ?_, flush_boundary := ?_, ballot_boundary := ?_, acked_le_end := ?_ }
      · exact fun term front switch after rest shape =>
          (wellFormed.matching term front switch after rest shape).extend (logGrows _) (logGrows _)
      · exact fun node => (wellFormed.flush_boundary node).extend (logGrows _)
      · exact fun node other ballot voted =>
          (wellFormed.ballot_boundary node other ballot voted).extend (logGrows _)
      · exact fun node other => (wellFormed.acked_le_end node other).trans
          (endOf_le_of_front (logGrows other))
  | cut node point upto kept elected common above boundary keptLe keeps =>
      exact wellFormed.step_copy (by omega) boundary
  | adopt node elected agree =>
      refine { wellFormed with
        adopted_le := ?_, adopted_elected := ?_, flush_boundary := ?_, acked_adopted := ?_ }
      · intro other
        by_cases same : other = node
        · subst same
          simp
        · simpa [same] using wellFormed.adopted_le other
      · intro other adopted
        by_cases same : other = node
        · subst same
          simpa using elected
        · simpa [same] using wellFormed.adopted_elected other (by simpa [same] using adopted)
      · intro other
        change Boundary size
          (state.logOf (Function.update state.adopted node (state.term node) other))
          (state.flush other)
        by_cases same : other = node
        · subst same
          simpa using agree.boundary
        · simpa [same] using wellFormed.flush_boundary other
      · intro other term acked
        have bounded := wellFormed.acked_adopted other term acked
        by_cases same : other = node
        · subst same
          simpa using bounded.trans (wellFormed.adopted_le other)
        · simpa [same] using bounded
  | extend node upto kept follows forward boundary keptGe keptLe =>
      exact wellFormed.step_copy keptLe (follows ▸ boundary)
  | ack node follows => exact wellFormed.step_ack follows
  | lose node upto durable backward boundary =>
      simpa only [Function.update_eq_self] using wellFormed.step_copy durable boundary
  | raise ceil => exact { wellFormed with }

/-- Every run keeps the structural invariant and what was recorded. -/
theorem steps (run : Steps size quorums state next) :
    WellFormed size quorums next ∧ Grows state next := by
  induction run with
  | refl => exact ⟨wellFormed, Grows.refl _⟩
  | step _ transition ih =>
      obtain ⟨middleFormed, grows⟩ := ih
      exact ⟨middleFormed.step positive transition,
        grows.trans (middleFormed.grows_step positive transition)⟩

end Transitions

end WellFormed

end Icegres.TermLog
