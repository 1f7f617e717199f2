import Icegres.Quorum.WalSpec
import Icegres.Quorum.Tasks
import Mathlib.Data.List.TakeWhile

/-!
# What the proposer's rules guarantee

One lemma per rule: the donor is the most advanced voter, a commit position is backed by two
acks, a batch is a slice of the retained log that begins at or below the peer's position, and
a horizon moves only over committed records and trims only what lies below it.
-/

namespace Icegres.Quorum

/-- The donor is a voter that no voter is ahead of. -/
theorem pickDonor_spec {candidates : List (AcceptorId × Nat × Nat)} {donor : AcceptorId}
    (picked : pickDonor candidates = some donor) :
    ∃ term flush, (donor, term, flush) ∈ candidates ∧
      ∀ other ∈ candidates, other.2.1 < term ∨ other.2.1 = term ∧ other.2.2 ≤ flush := by
  have fold : ∀ (rest : List (AcceptorId × Nat × Nat)) (best : AcceptorId × Nat × Nat),
      let winner := rest.foldl (fun best next =>
        if best.2.1 < next.2.1 ∨ best.2.1 = next.2.1 ∧ best.2.2 ≤ next.2.2 then next else best)
        best
      winner ∈ best :: rest ∧ ∀ other ∈ best :: rest,
        other.2.1 < winner.2.1 ∨ other.2.1 = winner.2.1 ∧ other.2.2 ≤ winner.2.2 := by
    intro rest
    induction rest with
    | nil =>
        intro best
        simp
    | cons next rest ih =>
        intro best
        simp only [List.foldl_cons]
        split
        · rename_i ahead
          obtain ⟨mem, most⟩ := ih next
          refine ⟨List.mem_cons_of_mem _ mem, ?_⟩
          intro other otherMem
          rcases List.mem_cons.mp otherMem with rfl | later
          · have := most next (by simp)
            omega
          · exact most other later
        · rename_i behind
          obtain ⟨mem, most⟩ := ih best
          constructor
          · rcases List.mem_cons.mp mem with same | later
            · rw [same]
              exact List.mem_cons_self
            · exact List.mem_cons_of_mem _ (List.mem_cons_of_mem _ later)
          · intro other otherMem
            rcases List.mem_cons.mp otherMem with rfl | later
            · exact most other (by simp)
            · rcases List.mem_cons.mp later with rfl | last
              · have := most best (by simp)
                omega
              · exact most other (List.mem_cons_of_mem _ last)
  cases candidates with
  | nil => simp [pickDonor] at picked
  | cons candidate rest =>
      obtain ⟨mem, most⟩ := fold rest candidate
      simp only [pickDonor, Option.some.injEq] at picked
      refine ⟨_, _, ?_, most⟩
      rw [← picked]
      exact mem

/-- A positive quorum-acked position is at or below two of the three acks. -/
theorem quorumCommit_spec (a b c start : Nat) (positive : 0 < quorumCommit [a, b, c] start) :
    let commit := quorumCommit [a, b, c] start
    commit ≤ a ∧ commit ≤ b ∨ commit ≤ a ∧ commit ≤ c ∨ commit ≤ b ∧ commit ≤ c := by
  have counted : ∀ flush : Nat, (if flush < start then 0 else flush) ≤ flush := by
    intro flush
    split <;> omega
  have countedA := counted a
  have countedB := counted b
  have countedC := counted c
  simp only [quorumCommit, List.map_cons, List.map_nil] at positive ⊢
  generalize (if a < start then 0 else a) = x at *
  generalize (if b < start then 0 else b) = y at *
  generalize (if c < start then 0 else c) = z at *
  simp only [List.insertionSort_cons, List.insertionSort_nil, List.orderedInsert_cons,
    List.orderedInsert_nil, quorum] at positive ⊢
  grind

namespace LogBuf

/-- Records that end above a position are the tail of a consecutive list. -/
private theorem filter_above {start : Nat} {records : List Record}
    (consecutive : Consecutive start records) (position : Nat) :
    ∃ front, records = front ++ records.filter (fun record => position < record.endLsn) ∧
      ∀ record ∈ front, record.endLsn ≤ position := by
  induction records generalizing start with
  | nil => exact ⟨[], by simp, by simp⟩
  | cons record records ih =>
      obtain ⟨rfl, more⟩ := consecutive
      by_cases above : position < record.endLsn
      · refine ⟨[], ?_, by simp⟩
        have all : records.filter (fun record => position < record.endLsn) = records := by
          rw [List.filter_eq_self]
          intro later mem
          have laterStart := more.start_le mem
          have := later.frameLen_pos
          rw [decide_eq_true_eq]
          simp only [Record.endLsn] at above laterStart ⊢
          omega
        simp [above, all]
      · obtain ⟨front, shape, below⟩ := ih more
        refine ⟨record :: front, ?_, ?_⟩
        · simp only [List.filter_cons, above, decide_false, Bool.false_eq_true, if_false,
            List.cons_append]
          rw [← shape]
        · intro other mem
          rcases List.mem_cons.mp mem with rfl | later
          · omega
          · exact below other later

theorem takeBatch_prefix (len : Nat) (records : List Record) :
    takeBatch len records <+: records := by
  induction records generalizing len with
  | nil => exact List.nil_prefix
  | cons record records ih =>
      rw [takeBatch]
      split
      · exact List.nil_prefix
      · exact List.cons_prefix_cons.mpr ⟨rfl, ih _⟩

/-- A batch is a slice of the retained log and begins at or below the peer's position. -/
theorem nextBatch_spec {log : LogBuf} (consecutive : Consecutive log.base log.records)
    {pos begin finish : Nat} {records : List Record}
    (next : log.nextBatch pos = .data begin finish records) :
    ∃ front, front ++ records <+: log.records ∧ log.base + framesLen front = begin ∧
      begin ≤ pos := by
  simp only [nextBatch] at next
  split at next
  · cases next
  · split at next
    · cases next
    · rename_i covered
      obtain ⟨front, shape, below⟩ := filter_above consecutive pos
      split at next
      · cases next
      · rename_i record rest filtered
        cases next
        rw [filtered] at shape
        refine ⟨front, ?_, ?_, ?_⟩
        · rw [shape, List.prefix_append_right_inj, List.cons_prefix_cons]
          exact ⟨rfl, takeBatch_prefix _ _⟩
        · rw [shape, Consecutive.append] at consecutive
          exact consecutive.2.1.symm
        · rw [shape, Consecutive.append] at consecutive
          rw [consecutive.2.1]
          rcases List.eq_nil_or_concat front with rfl | ⟨others, last, rfl⟩
          · simp only [framesLen_nil]
            omega
          · have lastBelow := below last (by simp)
            rw [List.concat_eq_append, Consecutive.append] at consecutive
            have lastStart := consecutive.1.2.1
            simp only [List.concat_eq_append, Record.endLsn, framesLen_append, framesLen_cons,
              framesLen_nil] at *
            omega

/-- Trimming drops leading records that end at or below the position. -/
theorem dropTo_spec {log : LogBuf} (consecutive : Consecutive log.base log.records) (upto : Nat) :
    ∃ gone, log.records = gone ++ (log.dropTo upto).records ∧
      (log.dropTo upto).base = log.base + framesLen gone ∧
      (log.dropTo upto).base ≤ max log.base upto ∧
      (log.dropTo upto).head = log.head ∧ (log.dropTo upto).covered = log.covered ∧
      (log.dropTo upto).lastWm = log.lastWm := by
  let gone := log.records.takeWhile fun record => record.endLsn ≤ upto
  have isFront : gone <+: log.records := List.takeWhile_prefix _
  obtain ⟨rest, shape⟩ := isFront
  have dropped : (log.dropTo upto).records = rest := by
    simp only [dropTo]
    change log.records.drop gone.length = rest
    rw [← shape, List.drop_left]
  have base : (log.dropTo upto).base = log.base + framesLen gone ∧
      (log.dropTo upto).base ≤ max log.base upto := by
    simp only [dropTo]
    change ((gone.getLast?.map Record.endLsn).getD log.base) = _ ∧
      ((gone.getLast?.map Record.endLsn).getD log.base) ≤ _
    rcases List.eq_nil_or_concat gone with none | ⟨others, last, concat⟩
    · simp [none]
    · have lastBelow : last.endLsn ≤ upto := by
        have mem : last ∈ gone := by simp [concat]
        simpa using List.mem_takeWhile_imp mem
      rw [← shape, concat, List.concat_eq_append, Consecutive.append, Consecutive.append]
        at consecutive
      have lastStart := consecutive.1.2.1
      rw [concat, List.concat_eq_append]
      simp only [List.getLast?_append, List.getLast?_singleton, Option.some_or, Option.map_some,
        Option.getD_some, framesLen_append, framesLen_cons, framesLen_nil, Record.endLsn] at *
      omega
  exact ⟨gone, by rw [dropped, shape], base.1, base.2, rfl, rfl, rfl⟩

end LogBuf

/-- A fresh acceptor joins at the base. -/
theorem computeStart_fresh {propTh : TermHistory} {propTerm base start : Nat}
    (computed : computeStart propTh [] 0 propTerm base = .ok start) : start = base := by
  have none : ∀ disagree, commonSwitches disagree propTh [] = .ok 0 := by
    intro disagree
    cases propTh <;> rfl
  simpa [computeStart, none, eq_comm] using computed

namespace Shared

/-- The commit position moves only to a position at or above the term's start that two peers
have acked. -/
theorem recomputeCommit_spec (shared : Shared) :
    shared.recomputeCommit = shared ∨ ∃ commit a b,
      shared.recomputeCommit = { shared with commit := commit } ∧ shared.commit < commit ∧
      shared.election.termStartLsn ≤ commit ∧ a ≠ b ∧
      commit ≤ (shared.peers.get a).flush ∧ commit ≤ (shared.peers.get b).flush := by
  simp only [recomputeCommit]
  split
  · rename_i moves
    right
    generalize candidate : quorumCommit (shared.peers.map Peer.flush).toList
      shared.election.termStartLsn = commit at moves ⊢
    have two := quorumCommit_spec shared.peers.first.flush shared.peers.second.flush
      shared.peers.third.flush shared.election.termStartLsn (by
        change 0 < quorumCommit (shared.peers.map Peer.flush).toList _
        omega)
    change quorumCommit (shared.peers.map Peer.flush).toList _ ≤ _ ∧
      quorumCommit (shared.peers.map Peer.flush).toList _ ≤ _ ∨ _ at two
    rcases two with ⟨left, right⟩ | ⟨left, right⟩ | ⟨left, right⟩
    · exact ⟨commit, .first, .second, rfl, moves.2, moves.1, by decide, candidate ▸ left,
        candidate ▸ right⟩
    · exact ⟨commit, .first, .third, rfl, moves.2, moves.1, by decide, candidate ▸ left,
        candidate ▸ right⟩
    · exact ⟨commit, .second, .third, rfl, moves.2, moves.1, by decide, candidate ▸ left,
        candidate ▸ right⟩
  · exact .inl rfl

/-- The retention floor is at or below the horizon, and no ack moves. -/
theorem retain_spec (horizon rounds : Nat) (peers : Tri Peer) :
    (retain horizon rounds peers).2 ≤ horizon ∧
      ∀ id, ((retain horizon rounds peers).1.get id).flush = (peers.get id).flush := by
  induction rounds generalizing peers with
  | zero => exact ⟨Nat.le_refl _, fun _ => rfl⟩
  | succ rounds ih =>
      rw [retain]
      split
      · exact ⟨Nat.le_refl _, fun _ => rfl⟩
      · rename_i slow isSlowest
        simp only
        split
        · obtain ⟨below, same⟩ := ih (peers.set slow { peers.get slow with failed := true })
          refine ⟨below, fun id => (same id).trans ?_⟩
          rw [Tri.get_set]
          split
          · rename_i isSlow
            rw [isSlow]
          · rfl
        · exact ⟨Nat.min_le_left _ _, fun _ => rfl⟩

/-- What advancing the horizon leaves alone and how far it and the trimming go. -/
structure Advances (before after : Shared) : Prop where
  tailId : after.tailId = before.tailId
  election : after.election = before.election
  commit : after.commit = before.commit
  poison : after.poison = before.poison
  requests : after.requests = before.requests
  head : after.log.head = before.log.head
  flush : ∀ id, (after.peers.get id).flush = (before.peers.get id).flush
  horizon_le : before.horizon ≤ after.horizon
  horizon_bound : after.horizon ≤ max before.horizon before.commit
  trimmed : ∃ gone, before.log.records = gone ++ after.log.records ∧
    after.log.base = before.log.base + framesLen gone
  base_bound : after.log.base ≤ max before.log.base after.horizon

theorem advances_advanceHorizon (shared : Shared)
    (consecutive : Consecutive shared.log.base shared.log.records) :
    shared.Advances shared.advanceHorizon.1 := by
  simp only [advanceHorizon]
  split
  · rename_i moves
    generalize movedEq : max (min (shared.log.coverablePrefix shared.commit).1 shared.commit)
      shared.horizon = moved at moves ⊢
    obtain ⟨floor, flush⟩ := retain_spec moved 4 shared.peers
    obtain ⟨gone, records, base, bound, head, -, -⟩ :=
      LogBuf.dropTo_spec consecutive (retain moved 4 shared.peers).2
    refine ⟨rfl, rfl, rfl, rfl, rfl, head, flush, ?_, ?_, ⟨gone, records, base⟩, ?_⟩
    all_goals
      simp only
      omega
  · exact ⟨rfl, rfl, rfl, rfl, rfl, rfl, fun _ => rfl, Nat.le_refl _, Nat.le_max_left _ _,
      ⟨[], rfl, rfl⟩, Nat.le_max_left _ _⟩

theorem advances_noteCovered (shared : Shared)
    (consecutive : Consecutive shared.log.base shared.log.records) (tableKey : String)
    (uptoSeq : Nat) : shared.Advances (shared.noteCovered tableKey uptoSeq).1 := by
  simp only [noteCovered]
  generalize covered : ({ shared with log := { shared.log with
    covered := fun key => if key = tableKey then max (shared.log.covered key) uptoSeq
      else shared.log.covered key } } : Shared) = noted
  have same := covered
  obtain ⟨tailId, election, commit, poison, requests, head, flush, horizonLe, horizonBound,
    trimmed, baseBound⟩ := advances_advanceHorizon noted (by rw [← same]; exact consecutive)
  subst same
  exact ⟨tailId, election, commit, poison, requests, head, flush, horizonLe, horizonBound,
    trimmed, baseBound⟩

end Shared

end Icegres.Quorum
