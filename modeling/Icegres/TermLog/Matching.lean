import Icegres.TermLog.WellFormed

/-!
# Log matching

Two logs whose histories share a term are the same up to where the histories part. The
argument goes through the owner of the shared term: up to its next switch, a log is that
owner's log. From it follows that cutting a copy back to the common point with a history
makes it a copy of that history's log, which is what keeps the structural invariant.
-/

namespace Icegres.TermLog

variable {Node Owner Entry : Type}
variable {size : Entry → Nat} {quorums : QuorumSystem Node}
variable {state next : State Node Owner Entry}

namespace WellFormed

variable (positive : ∀ entry, 0 < size entry)
variable (wellFormed : WellFormed size quorums state)

include wellFormed

/-- A switch that no other follows is the history's own term. -/
theorem term_of_last {term : Nat} {front : History} {last : Switch}
    (shape : state.hist term = front ++ [last]) : last.term = term := by
  have mem : last ∈ state.hist term := by simp [shape]
  have elected := wellFormed.elected_of_mem mem
  obtain ⟨other, start, own⟩ := wellFormed.hist_last term elected
  rw [shape] at own
  have same := (List.append_inj' own rfl).2
  simp only [List.cons.injEq, and_true] at same
  rw [same]

/-- Every switch of a history lies on a boundary of the log. -/
theorem hist_boundary {term : Nat} {switch : Switch} (mem : switch ∈ state.hist term) :
    Boundary size (state.logOf term) switch.lsn := by
  obtain ⟨front, rest, shape⟩ := List.append_of_mem mem
  rcases List.eq_nil_or_concat front with rfl | ⟨before, last, rfl⟩
  · have atStart := wellFormed.hist_head term switch (by simp [shape])
    rw [atStart]
    exact Boundary.zero _
  · exact (wellFormed.matching term before last switch rest (by simpa using shape)).boundary

/-- A switch of an effective history: it is the history's own term, or the log agrees with
the log of its term up to the next switch, which is the next effective one or lies above. -/
theorem effective_next {term flush : Nat} {front rest : History} {last : Switch}
    (shape : state.effective term flush = front ++ last :: rest) :
    (last.term = term ∧ rest = []) ∨
      ∃ after : Switch, AgreeTo size (state.logOf term) (state.logOf last.term) after.lsn ∧
        (rest.head? = some after ∨ flush < after.lsn) := by
  obtain ⟨whole, more, split, -, keptMore⟩ := List.filter_eq_append_iff.mp shape
  obtain ⟨skipped, tail, rfl, -, -, keptTail⟩ := List.filter_eq_cons_iff.mp keptMore
  cases tail with
  | nil =>
      left
      have whole : state.hist term = (whole ++ skipped) ++ [last] := by simpa using split
      refine ⟨wellFormed.term_of_last whole, ?_⟩
      simpa using keptTail.symm
  | cons after tail =>
      right
      refine ⟨after, wellFormed.matching term (whole ++ skipped) last after tail
        (by simpa using split), ?_⟩
      by_cases within : after.lsn ≤ flush
      · left
        rw [← keptTail]
        simp [within]
      · right
        omega

include positive

/-- A copy that ends at `flush` agrees with the log of each of its terms up to the next
effective switch, and with the log of the last up to its end. -/
theorem agree_effective {term flush : Nat} {front rest : History} {last : Switch}
    (boundary : Boundary size (state.logOf term) flush)
    (shape : state.effective term flush = front ++ last :: rest) :
    AgreeTo size (state.logOf term) (state.logOf last.term)
      ((rest.head?.map Switch.lsn).getD flush) := by
  have restMem : ∀ switch ∈ rest, switch ∈ state.hist term ∧ switch.lsn ≤ flush := by
    intro switch mem
    have inEffective : switch ∈ state.effective term flush := by simp [shape, mem]
    exact History.mem_upTo.mp inEffective
  rcases wellFormed.effective_next shape with ⟨own, rfl⟩ | ⟨after, agree, isNext | above⟩
  · rw [own]
    exact AgreeTo.refl boundary
  · simpa [isNext] using agree
  · cases rest with
    | nil => exact agree.mono positive (Nat.le_of_lt above) boundary
    | cons other rest =>
        obtain ⟨mem, within⟩ := restMem other (by simp)
        simp only [List.head?_cons, Option.map_some, Option.getD_some]
        exact agree.mono positive (by omega) (wellFormed.hist_boundary mem)

/-- A copy agrees with the log of a term it may adopt up to their common point. -/
theorem agree_common {leader follower flush point : Nat}
    (elected : state.owner leader ≠ none) (bounded : follower ≤ leader)
    (boundary : Boundary size (state.logOf follower) flush)
    (common : CommonPoint (state.hist leader) (state.effective follower flush) flush point) :
    AgreeTo size (state.logOf leader) (state.logOf follower) point := by
  obtain ⟨shared, leaderRest, followerRest, leaderEq, followerEq, -, rfl⟩ := common
  rcases List.eq_nil_or_concat shared with rfl | ⟨front, last, rfl⟩
  · -- no common switch: the leader's history starts at zero, and so does the parting
    obtain ⟨first, rest, cons, atStart⟩ := wellFormed.hist_cons elected
    rw [List.nil_append, cons] at leaderEq
    have parted : partingPoint flush leaderRest followerRest = 0 := by
      rw [← leaderEq]
      cases followerRest <;> simp [partingPoint, atStart]
    rw [parted]
    exact ⟨[], List.nil_prefix, List.nil_prefix, rfl⟩
  · have followerShape : state.effective follower flush = front ++ last :: followerRest := by
      simpa using followerEq
    have followerAgree := wellFormed.agree_effective positive boundary followerShape
    cases leaderRest with
    | nil =>
        have own : last.term = leader := wellFormed.term_of_last (by simpa using leaderEq)
        have mem : last ∈ state.hist follower := by
          have inEffective : last ∈ state.effective follower flush := by simp [followerEq]
          exact (History.mem_upTo.mp inEffective).1
        have same : follower = leader := by
          have := wellFormed.term_le_of_mem mem
          omega
        rw [same] at boundary ⊢
        exact AgreeTo.refl boundary
    | cons after leaderRest =>
        have leaderAgree := wellFormed.matching leader front last after leaderRest
          (by simpa using leaderEq)
        have both := leaderAgree.trans positive followerAgree.symm
        cases followerRest with
        | nil => simpa [partingPoint] using both
        | cons other followerRest => simpa [partingPoint] using both

/-- An owner that finds its own history in its donor's, as far as the donor goes, has the
donor's end as a boundary of its own log. -/
theorem boundary_of_same {term donor flush : Nat} (elected : state.owner term ≠ none)
    (boundary : Boundary size (state.logOf donor) flush)
    (same : state.effective term flush = state.effective donor flush) :
    Boundary size (state.logOf term) flush := by
  obtain ⟨first, rest, cons, atStart⟩ := wellFormed.hist_cons elected
  have nonempty : state.effective term flush ≠ [] := by
    have mem : first ∈ state.effective term flush := by
      simp [State.effective, cons, atStart]
    exact List.ne_nil_of_mem mem
  obtain ⟨front, last, shape⟩ := List.eq_nil_or_concat (state.effective term flush)
    |>.resolve_left nonempty
  have ownShape : state.effective term flush = front ++ [last] := by simpa using shape
  have donorAgree := wellFormed.agree_effective positive boundary (same ▸ ownShape)
  simp only [List.head?_nil, Option.map_none, Option.getD_none] at donorAgree
  rcases wellFormed.effective_next ownShape with ⟨own, -⟩ | ⟨after, agree, isNext | above⟩
  · rw [← own]
    exact donorAgree.symm.boundary
  · simp at isNext
  · exact (agree.symm.mono positive (Nat.le_of_lt above) donorAgree.symm.boundary).symm.boundary

end WellFormed

end Icegres.TermLog
