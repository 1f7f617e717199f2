import Icegres.Quorum.Streaming

/-!
# Recovery

`Quorum::open` up to the point where it takes its term over. Votes are ballots, the donor is
the most advanced of them, and a read that the donor serves before anyone else has moved it
past the vote's term returns the bytes of the log its ballot reported. The decoded records
are then the part of that log above the voters' horizons.
-/

namespace Icegres.Quorum

open Icegres.TermLog

variable {strict : Prop} {limit : Nat} {abs : Protocol} {p : ProposerId}

/-- The recovered records are the donor's log from the voters' horizon to the donor's end. -/
def Recovered (abs : Protocol) (opening : Opening) (ballot : Ballot ProposerId) : Prop :=
  ∃ before, before ++ opening.recovered <+: abs.logOf ballot.adopted ∧
    framesLen before = opening.truncateLsn ∧
    framesLen (before ++ opening.recovered) = opening.termStartLsn

/-- Where `Quorum::open` can stand before it has taken its term over. -/
def StageOk (strict : Prop) (limit : Nat) (abs : Protocol) (p : ProposerId)
    (opening : Opening) : Prop :=
  let votes := ∀ id vote, opening.votes.get id = some vote →
    VoteOk strict limit abs p opening.term id vote
  match opening.pc with
  | .greeting _ => ∀ id, opening.votes.get id = none
  | .adopting _ => ∀ id, opening.votes.get id = none
  | .voting _ => votes
  | .reading => votes ∧ ∃ ballot, Reads strict limit abs p opening ballot
  | .electing [] _ => votes ∧ ∃ ballot, Donates strict limit abs p opening ballot ∧
      Recovered abs opening ballot
  | .failed _ => True
  | _ => False

theorem stageOk_fail (opening : Opening) (why : String) :
    StageOk strict limit abs p (opening.fail why) :=
  trivial

theorem stageOk_reading (opening : Opening) (isReading : opening.pc = .reading)
    (votes : ∀ id vote, opening.votes.get id = some vote →
      VoteOk strict limit abs p opening.term id vote)
    {ballot : Ballot ProposerId} (reads : Reads strict limit abs p opening ballot) :
    StageOk strict limit abs p opening := by
  unfold StageOk
  rw [isReading]
  exact ⟨votes, ballot, reads⟩

section Decode

variable {opening : Opening} {ballot : Ballot ProposerId}

/-- A complete download decodes to the records of the donor's log. -/
theorem Reads.decoded (formed : Formed abs) (log : Consecutive 0 (abs.logOf ballot.adopted))
    (reads : Reads strict limit abs p opening ballot)
    (complete : opening.truncateLsn + opening.recBytes.length = opening.termStartLsn) :
    ∃ records, decodeRecords opening.recBytes opening.truncateLsn = .ok records ∧
      Recovered abs { opening with recovered := records } ballot := by
  obtain ⟨front, isFront, frontEnds⟩ := formed.ballot_boundary _ _ _ reads.given
  rw [endOf_frameLen, reads.flush] at frontEnds
  obtain ⟨rest, logEq⟩ := isFront
  have truncate := reads.truncate_le
  have readPos := reads.readPos_le
  have length : opening.recBytes.length = opening.readPos - opening.truncateLsn := by
    rw [reads.bytes, List.length_drop, List.length_take, encodeAll_length, ← logEq,
      framesLen_append, frontEnds]
    omega
  have whole : opening.readPos = opening.termStartLsn := by omega
  -- the horizon splits the donor's copy at a record boundary
  obtain ⟨before, records, split, beforeEnds⟩ : ∃ before records, front = before ++ records ∧
      framesLen before = opening.truncateLsn := by
    by_cases none : opening.truncateLsn = opening.termStartLsn
    · exact ⟨front, [], by simp, frontEnds.trans none.symm⟩
    · obtain ⟨before, beforeFront, beforeEnds⟩ := reads.aligned (by omega)
      rw [endOf_frameLen] at beforeEnds
      have inside : before <+: front :=
        prefix_of_endOf_le Record.frameLen_pos beforeFront ⟨rest, logEq⟩ (by
          rw [endOf_frameLen, endOf_frameLen, beforeEnds, frontEnds]
          omega)
      obtain ⟨records, split⟩ := inside
      exact ⟨before, records, split.symm, beforeEnds⟩
  have bytes : opening.recBytes = encodeAll records := by
    have frontLength : (encodeAll front).length = opening.readPos := by
      rw [encodeAll_length, frontEnds, whole]
    have beforeLength : (encodeAll before).length = opening.truncateLsn := by
      rw [encodeAll_length, beforeEnds]
    rw [reads.bytes, ← logEq, encodeAll_append, ← frontLength, List.take_left, split,
      encodeAll_append, ← beforeLength, List.drop_left]
  have consecutive : Consecutive opening.truncateLsn records := by
    rw [← logEq, split, Consecutive.append, Consecutive.append, beforeEnds, Nat.zero_add] at log
    exact log.1.2
  refine ⟨records, by rw [bytes]; exact decodeRecords_encodeAll consecutive, before, ?_,
    beforeEnds, ?_⟩
  · exact ⟨rest, by rw [← logEq, split]⟩
  · change framesLen (before ++ records) = _
    rw [← split]
    exact frontEnds

/-- The decoder takes the download over, or refuses it. -/
theorem Reads.stageOk_decode (formed : Formed abs)
    (log : Consecutive 0 (abs.logOf ballot.adopted))
    (votes : ∀ id vote, opening.votes.get id = some vote →
      VoteOk strict limit abs p opening.term id vote)
    (reads : Reads strict limit abs p opening ballot) :
    StageOk strict limit abs p opening.decode := by
  unfold Opening.decode
  split
  · exact stageOk_fail _ _
  · rename_i complete
    obtain ⟨records, decoded, recovered⟩ := reads.decoded formed log (by simpa using complete)
    rw [decoded]
    exact ⟨votes, ballot, ⟨reads.given, reads.candidate, reads.flush, reads.history, reads.most,
      reads.quorum, reads.voted, reads.within⟩, recovered⟩

/-- A chunk the donor served continues the download. -/
theorem Reads.stageOk_countChunk (formed : Formed abs)
    (log : Consecutive 0 (abs.logOf ballot.adopted)) (isReading : opening.pc = .reading)
    (votes : ∀ id vote, opening.votes.get id = some vote →
      VoteOk strict limit abs p opening.term id vote)
    (reads : Reads strict limit abs p opening ballot) {fromLsn : Nat} {bytes : List UInt8}
    (chunk : ChunkOk abs opening ballot fromLsn bytes) :
    StageOk strict limit abs p (Proposer.countChunk opening fromLsn bytes) := by
  simp only [Proposer.countChunk]
  split
  · exact stageOk_fail _ _
  · split
    · exact stageOk_fail _ _
    · rename_i nonempty
      split
      · exact stageOk_fail _ _
      · rename_i inRange
        obtain ⟨slice, bounded, aligned⟩ := chunk.2 (by simpa using nonempty)
        have truncate := reads.truncate_le
        have more : 0 < bytes.length := List.length_pos_iff.mpr (by simpa using nonempty)
        let counted : Opening :=
          { opening with
            readPos := opening.readPos + bytes.length
            recBytes := opening.recBytes ++ bytes }
        have countedReads : Reads strict limit abs p counted ballot := by
          refine ⟨⟨reads.given, reads.candidate, reads.flush, reads.history, reads.most,
            reads.quorum, reads.voted, reads.within⟩, ?_, ?_, ?_, ?_⟩
          · simp only [counted]
            omega
          · simp only [counted]
            omega
          · have length : (encodeAll (abs.logOf ballot.adopted)).length =
                framesLen (abs.logOf ballot.adopted) := encodeAll_length _
            have grown : (encodeAll (abs.logOf ballot.adopted)).take
                (opening.readPos + bytes.length) =
                (encodeAll (abs.logOf ballot.adopted)).take opening.readPos ++ bytes := by
              rw [List.take_add]
              congr 1
              exact slice.symm
            simp only [counted]
            rw [grown, List.drop_append_of_le_length (by rw [List.length_take]; omega),
              ← reads.bytes]
          · intro _
            by_cases first : opening.readPos = opening.truncateLsn
            · exact aligned first
            · exact reads.aligned (by omega)
        split
        · exact stageOk_reading counted isReading votes countedReads
        · exact countedReads.stageOk_decode formed log votes

end Decode

section Votes

variable {opening : Opening}

/-- Two granted votes are a quorum of voters. -/
theorem granted_quorum (enough : ¬ opening.granted.length < quorum) :
    ∃ a b, a ≠ b ∧ (opening.votes.get a).isSome ∧ (opening.votes.get b).isSome := by
  simp only [Opening.granted, AcceptorId.all, quorum] at enough
  cases votedFirst : opening.votes.get .first with
  | none =>
      cases votedSecond : opening.votes.get .second with
      | none =>
          cases votedThird : opening.votes.get .third <;>
            simp [votedFirst, votedSecond, votedThird] at enough
      | some vote =>
          cases votedThird : opening.votes.get .third with
          | none => simp [votedFirst, votedSecond, votedThird] at enough
          | some other =>
              exact ⟨.second, .third, by decide, by simp [votedSecond], by simp [votedThird]⟩
  | some vote =>
      cases votedSecond : opening.votes.get .second with
      | none =>
          cases votedThird : opening.votes.get .third with
          | none => simp [votedFirst, votedSecond, votedThird] at enough
          | some other =>
              exact ⟨.first, .third, by decide, by simp [votedFirst], by simp [votedThird]⟩
      | some other =>
          exact ⟨.first, .second, by decide, by simp [votedFirst], by simp [votedSecond]⟩

theorem mem_granted {id : AcceptorId} {vote : Vote} :
    (id, vote) ∈ opening.granted ↔ opening.votes.get id = some vote := by
  have all : id ∈ AcceptorId.all := by cases id <;> decide
  simp only [Opening.granted, List.mem_filterMap, Option.map_eq_some_iff, Prod.mk.injEq]
  constructor
  · rintro ⟨other, -, value, voted, rfl, rfl⟩
    exact voted
  · intro voted
    exact ⟨id, all, vote, voted, rfl, rfl⟩

theorem foldl_max_le {values : List Nat} {start bound : Nat} (starts : start ≤ bound)
    (each : ∀ value ∈ values, value ≤ bound) : values.foldl max start ≤ bound := by
  induction values generalizing start with
  | nil => exact starts
  | cons value values ih =>
      refine ih ?_ fun other mem => each other (List.mem_cons_of_mem _ mem)
      have := each value (by simp)
      omega

/-- The end of the vote phase: the donor is fixed, and so is the recovery range. -/
theorem stageOk_chooseDonor (formed : Formed abs) (logs : ∀ q, Consecutive 0 (abs.log q))
    (votes : ∀ id vote, opening.votes.get id = some vote →
      VoteOk strict limit abs p opening.term id vote) :
    StageOk strict limit abs p opening.chooseDonor := by
  simp only [Opening.chooseDonor]
  split
  · exact stageOk_fail _ _
  · rename_i enough
    split
    · exact stageOk_fail _ _
    · rename_i donor picked
      split
      · exact stageOk_fail _ _
      · rename_i ordered
        obtain ⟨term, flush, member, most⟩ := pickDonor_spec picked
        simp only [List.mem_map, Prod.mk.injEq, Prod.exists] at member
        obtain ⟨id, vote, voted, rfl, rfl, rfl⟩ := member
        rw [mem_granted] at voted
        obtain ⟨ballot, given, candidate, flushEq, historyEq, termEq⟩ :=
          (votes id vote voted).reported
        have startEq : ((opening.votes.get id).map Vote.flush).getD 0 = vote.flush := by
          simp [voted]
        rw [startEq] at ordered ⊢
        generalize truncateEq : (opening.granted.map fun pair => pair.2.horizon).foldl max 0 =
          truncateLsn at ordered ⊢
        let chosen : Opening :=
          { opening with
            donor := id
            truncateLsn := truncateLsn
            termStartLsn := vote.flush
            readPos := truncateLsn
            recBytes := [] }
        have reads : ∀ pc : OpenPc,
            Reads strict limit abs p { chosen with pc := pc } ballot := by
          intro pc
          refine ⟨⟨given, candidate, flushEq.symm, ?_, ?_, granted_quorum enough, ?_, ?_⟩,
            Nat.le_refl _, by simp only [chosen]; omega, ?_, ?_⟩
          · simp only [chosen, voted, Option.map_some, Option.getD_some]
            exact historyEq
          · intro other otherVote otherVoted
            have behind := most (other, otherVote.lastLogTerm, otherVote.flush) (by
              simp only [List.mem_map, Prod.mk.injEq, Prod.exists]
              exact ⟨other, otherVote, mem_granted.mpr otherVoted, rfl, rfl, rfl⟩)
            rw [← termEq, ← flushEq]
            exact behind
          · simp only [chosen, voted, Option.isSome_some]
          · intro isStrict
            simp only [chosen, ← truncateEq]
            refine foldl_max_le (Nat.zero_le _) ?_
            intro horizon mem
            simp only [List.mem_map, Prod.exists] at mem
            obtain ⟨other, otherVote, otherVoted, rfl⟩ := mem
            exact (votes other otherVote (mem_granted.mp otherVoted)).within isStrict
          · have cut : ∀ bytes : List UInt8, (bytes.take truncateLsn).drop truncateLsn = [] := by
              intro bytes
              rw [List.drop_eq_nil_iff, List.length_take]
              exact Nat.min_le_left _ _
            simp only [chosen, cut]
          · intro some
            simp only [chosen, Nat.lt_irrefl] at some
        have log : Consecutive 0 (abs.logOf ballot.adopted) := by
          unfold State.logOf
          split
          · exact logs _
          · trivial
        split
        · exact stageOk_reading { chosen with pc := .reading } rfl votes (reads _)
        · exact (reads opening.pc).stageOk_decode formed log votes

theorem stageOk_voteNext (formed : Formed abs) (logs : ∀ q, Consecutive 0 (abs.log q))
    (votes : ∀ id vote, opening.votes.get id = some vote →
      VoteOk strict limit abs p opening.term id vote) (rest : List AcceptorId) :
    StageOk strict limit abs p (Proposer.voteNext opening rest) := by
  unfold Proposer.voteNext
  split
  · exact stageOk_chooseDonor formed logs votes
  · exact votes

/-- A vote response in the opening vote phase. -/
theorem stageOk_countVote (formed : Formed abs) (logs : ∀ q, Consecutive 0 (abs.log q))
    (votes : ∀ id vote, opening.votes.get id = some vote →
      VoteOk strict limit abs p opening.term id vote) {id : AcceptorId} {vote : VoteResponse}
    (reply : ReplyOk abs p id 0 (.voteRequest opening.term) (.voteResponse vote))
    (within : strict → vote.horizonLsn ≤ limit) (rest : List AcceptorId) :
    StageOk strict limit abs p (Proposer.countVote opening id rest vote) := by
  unfold Proposer.countVote
  split
  · exact stageOk_fail _ _
  · split
    · exact stageOk_fail _ _
    · rename_i granted
      refine stageOk_voteNext formed logs ?_ rest
      intro other otherVote voted
      simp only [Tri.get_set] at voted
      split at voted
      · rename_i isId
        subst isId
        cases voted
        exact ⟨(reply.1 (by simpa using granted)).2, reply.2, within⟩
      · exact votes other otherVote voted

end Votes

end Icegres.Quorum
