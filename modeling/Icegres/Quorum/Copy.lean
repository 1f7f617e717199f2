import Icegres.Quorum.System
import Icegres.Quorum.WalCrash
import Icegres.TermLog.Fencing

/-!
# The acceptor's log as a protocol copy

The replicated-log protocol instantiated at three acceptors, proposers and records. An
acceptor's segmented log is a copy of the log of the term it adopted, without the records
its horizon let go; each operation on the files, and each failure inside one, is a few
protocol steps of the acceptor.
-/

namespace Icegres.Quorum

open Icegres.TermLog

/-- Any two of the three acceptors are a quorum. -/
def majorities : QuorumSystem AcceptorId where
  IsQuorum members := ∃ a b, a ≠ b ∧ a ∈ members ∧ b ∈ members
  meet := by
    rintro left right ⟨a, b, different, aIn, bIn⟩ ⟨c, d, differentToo, cIn, dIn⟩
    have meets : a = c ∨ a = d ∨ b = c ∨ b = d := by
      cases a <;> cases b <;> cases c <;> cases d <;> simp_all
    rcases meets with rfl | rfl | rfl | rfl
    exacts [⟨a, aIn, cIn⟩, ⟨a, aIn, dIn⟩, ⟨b, bIn, cIn⟩, ⟨b, bIn, dIn⟩]

/-- The protocol state of the quorum tail. -/
abbrev Protocol := State AcceptorId ProposerId Record

/-- The structural invariant at the tail's types. -/
abbrev Formed (abs : Protocol) : Prop := WellFormed Record.frameLen majorities abs

@[simp] theorem endOf_frameLen (records : List Record) :
    endOf Record.frameLen records = framesLen records := rfl

/-- Protocol steps that move only the copy of one acceptor. -/
structure LogMoves (id : AcceptorId) (abs next : Protocol) : Prop where
  steps : Steps Record.frameLen majorities abs next
  owner : next.owner = abs.owner
  hist : next.hist = abs.hist
  current : next.current = abs.current
  log : next.log = abs.log
  term : next.term = abs.term
  adopted : next.adopted = abs.adopted
  others : ∀ other ≠ id, next.flush other = abs.flush other ∧
    next.durable other = abs.durable other

namespace LogMoves

variable {id : AcceptorId} {abs middle next : Protocol}

theorem refl : LogMoves id abs abs :=
  ⟨.refl, rfl, rfl, rfl, rfl, rfl, rfl, fun _ _ => ⟨rfl, rfl⟩⟩

theorem trans (front : LogMoves id abs middle) (rest : LogMoves id middle next) :
    LogMoves id abs next where
  steps := front.steps.trans rest.steps
  owner := rest.owner.trans front.owner
  hist := rest.hist.trans front.hist
  current := rest.current.trans front.current
  log := rest.log.trans front.log
  term := rest.term.trans front.term
  adopted := rest.adopted.trans front.adopted
  others other different :=
    ⟨(rest.others other different).1.trans (front.others other different).1,
      (rest.others other different).2.trans (front.others other different).2⟩

theorem logOf (moves : LogMoves id abs next) (term : Nat) : next.logOf term = abs.logOf term := by
  simp only [State.logOf, moves.owner, moves.log]

end LogMoves

/-- The files hold the acceptor's copy of the log of the term it adopted, from the first
retained record on. Without a record nothing of the position survives a restart. -/
structure Copies (wal : SegmentWal) (abs : Protocol) (id : AcceptorId) : Prop where
  flush : wal.flush = abs.flush id
  layout : wal.Ok
  copy : ∃ before, before ++ wal.records <+: abs.logOf (abs.adopted id) ∧
    framesLen before = wal.retainedStart
  durable : abs.durable id = if wal.records = [] then 0 else wal.flush

namespace Copies

variable {wal : SegmentWal} {abs next : Protocol} {id other : AcceptorId}

/-- The copy ends at a boundary of the adopted log. -/
theorem front (copies : Copies wal abs id) : ∃ before,
    before ++ wal.records <+: abs.logOf (abs.adopted id) ∧ framesLen before = wal.retainedStart ∧
      framesLen (before ++ wal.records) = wal.flush := by
  obtain ⟨before, isFront, start⟩ := copies.copy
  refine ⟨before, isFront, start, ?_⟩
  rw [framesLen_append, start]
  exact copies.layout.ends

/-- The records below a boundary of the adopted log, and the copy they are. -/
theorem kept_at (copies : Copies wal abs id) {position : Nat}
    (boundary : Boundary Record.frameLen (abs.logOf (abs.adopted id)) position)
    (within : position ≤ wal.flush) :
    ∃ kept, wal.CutPoint position kept ∧
      ∃ before, before ++ kept <+: abs.logOf (abs.adopted id) ∧
        framesLen before = if kept = [] then position else wal.retainedStart := by
  obtain ⟨before, isFront, start, ends⟩ := copies.front
  obtain ⟨front, frontPrefix, frontEnds⟩ := boundary
  rw [endOf_frameLen] at frontEnds
  have inside : front <+: before ++ wal.records :=
    prefix_of_endOf_le Record.frameLen_pos frontPrefix isFront (by
      rw [endOf_frameLen, endOf_frameLen, ends, frontEnds]
      exact within)
  have beforePrefix : before <+: before ++ wal.records := List.prefix_append _ _
  rcases Nat.le_total wal.retainedStart position with above | below
  · have beforeFirst : before <+: front :=
      prefix_of_endOf_le Record.frameLen_pos beforePrefix inside (by
        rw [endOf_frameLen, endOf_frameLen, start, frontEnds]
        exact above)
    obtain ⟨kept, rfl⟩ := beforeFirst
    have keptPrefix := (List.prefix_append_right_inj before).mp inside
    rw [framesLen_append, start] at frontEnds
    refine ⟨kept, ⟨keptPrefix, .inl frontEnds⟩, before, frontPrefix, ?_⟩
    split
    · rename_i none
      rw [start, ← frontEnds, none, framesLen_nil, Nat.add_zero]
    · exact start
  · refine ⟨[], ⟨List.nil_prefix, .inr ⟨rfl, below⟩⟩, front, ?_, ?_⟩
    · simpa using frontPrefix
    · simpa using frontEnds

/-- A restart keeps the copy when there is a record, and loses the position otherwise. -/
theorem reopen (copies : Copies wal abs id) (rotateBytes : Nat) :
    ∃ next, LogMoves id abs next ∧ next.ceil = abs.ceil ∧
      Copies (SegmentWal.open wal.files rotateBytes) next id ∧
      (SegmentWal.open wal.files rotateBytes).retainedStart ≤ wal.retainedStart := by
  obtain ⟨openOk, openRecords, someFile, noFile⟩ :=
    SegmentWal.open_chained copies.layout.chained rotateBytes
  have sameRecords : (SegmentWal.open wal.files rotateBytes).records = wal.records := openRecords
  by_cases empty : wal.records = []
  · obtain ⟨flush, start⟩ := noFile (copies.layout.records_eq_nil.mp empty)
    have durable : abs.durable id = 0 := by simpa [empty] using copies.durable
    refine ⟨{ abs with flush := Function.update abs.flush id 0 }, ?_, rfl, ?_, by omega⟩
    · refine ⟨.single (.lose id 0 (by omega) (Nat.zero_le _) (Boundary.zero _)), rfl, rfl, rfl,
        rfl, rfl, rfl, fun other different => ⟨?_, rfl⟩⟩
      simp [different]
    · refine ⟨by simp [flush], openOk, ⟨[], ?_, by simp [start]⟩, ?_⟩
      · rw [sameRecords, empty]
        exact List.nil_prefix
      · rw [sameRecords, if_pos empty]
        exact durable
  · obtain ⟨start, flush⟩ := someFile (copies.layout.records_eq_nil.not.mp empty)
    have sameFlush : (SegmentWal.open wal.files rotateBytes).flush = wal.flush := by
      rw [flush, ← copies.layout.ends]
      rfl
    refine ⟨abs, .refl, rfl, ⟨sameFlush.trans copies.flush, openOk, ?_, ?_⟩, Nat.le_of_eq start⟩
    · rw [sameRecords, start]
      exact copies.copy
    · rw [sameRecords, sameFlush]
      exact copies.durable

/-- Nothing is retained at or below a position that no retained record ends by. -/
private theorem unbacked_of_le (copies : Copies wal abs id) {position : Nat}
    (positive : 0 < position) (within : position ≤ wal.flush)
    (below : position ≤ wal.retainedStart) : wal.Unbacked position := by
  refine ⟨positive, ?_, ?_⟩
  · cases fresh : wal.empty with
    | false => rfl
    | true =>
        have := (copies.layout.fresh fresh).2
        omega
  · intro record mem
    have := copies.layout.consecutive.start_le mem
    have := record.frameLen_pos
    simp only [Record.endLsn]
    omega

section Cut

variable (formed : Formed abs) (copies : Copies wal abs id) {point : Nat}
variable (elected : abs.owner (abs.term id) ≠ none)
variable (common : CommonPoint (abs.hist (abs.term id))
  (abs.effective (abs.adopted id) (abs.flush id)) (abs.flush id) point)

include copies common in
private theorem point_le : point ≤ wal.flush := by
  rw [copies.flush]
  exact common.le_bound fun switch mem => (History.mem_upTo.mp mem).2

include formed elected common

private theorem point_boundary : Boundary Record.frameLen (abs.logOf (abs.adopted id)) point :=
  (formed.agree_common Record.frameLen_pos elected (formed.adopted_le id)
    (formed.flush_boundary id) common).symm.boundary

include copies

/-- A cut below everything retained leaves a position that is not durable: the ceiling rises
to it unless it is zero. -/
private theorem cut_all (below : point ≤ wal.retainedStart) :
    ∃ next, LogMoves id abs next ∧ next.flush id = point ∧ next.durable id = 0 ∧
      point ≤ next.ceil ∧ (next.ceil = abs.ceil ∨
        wal.Unbacked point ∧ next.ceil ≤ max abs.ceil wal.retainedStart) := by
  let raised : Protocol :=
    { abs with ceil := if point = 0 then abs.ceil else max abs.ceil point }
  have raises : LogMoves id abs raised := by
    by_cases zero : point = 0
    · simp only [raised, if_pos zero]
      exact .refl
    · simp only [raised, if_neg zero]
      exact ⟨.single (.raise point), rfl, rfl, rfl, rfl, rfl, rfl, fun _ _ => ⟨rfl, rfl⟩⟩
  have underCeil : point ≤ raised.ceil := by
    simp only [raised]
    split <;> omega
  let cut : Protocol :=
    { raised with
      flush := Function.update raised.flush id point
      durable := Function.update raised.durable id 0 }
  have cuts : LogMoves id raised cut := by
    refine ⟨.single (.cut id point point 0 elected common (Nat.le_refl _)
      (point_boundary formed elected common) (Nat.zero_le _) (.inr underCeil)),
      rfl, rfl, rfl, rfl, rfl, rfl, ?_⟩
    intro other different
    simp [cut, different]
  refine ⟨cut, raises.trans cuts, by simp [cut], by simp [cut], underCeil, ?_⟩
  by_cases zero : point = 0
  · left
    simp [cut, raised, zero]
  · right
    refine ⟨copies.unbacked_of_le (by omega) (point_le copies common) below, ?_⟩
    simp only [cut, raised, if_neg zero]
    omega

omit formed in
/-- A cut to a boundary at or above the point moves the copy there, when a record stays. -/
private theorem cut_some (upto : Nat) (someRecord : wal.records ≠ []) (above : point ≤ upto)
    (within : upto ≤ wal.flush)
    (boundary : Boundary Record.frameLen (abs.logOf (abs.adopted id)) upto) :
    ∃ next, LogMoves id abs next ∧ next.flush id = upto ∧ next.durable id = upto ∧
      next.ceil = abs.ceil := by
  have durable : abs.durable id = wal.flush := by simpa [someRecord] using copies.durable
  let cut : Protocol :=
    { abs with
      flush := Function.update abs.flush id upto
      durable := Function.update abs.durable id upto }
  refine ⟨cut, ⟨.single (.cut id point upto upto elected common above boundary (by omega)
    (.inl (by omega))), rfl, rfl, rfl, rfl, rfl, rfl, ?_⟩, by simp [cut], by simp [cut], rfl⟩
  intro other different
  simp [cut, different]

/-- A truncation at the common point with the acknowledged term cuts the copy there. When no
record is left under the position, a restart loses it, and the ceiling rises to it. -/
theorem truncate :
    ∃ next, LogMoves id abs next ∧ Copies (wal.truncateFrom point) next id ∧
      next.flush id = point ∧ (point ≤ next.durable id ∨ point ≤ next.ceil) ∧
      (next.ceil = abs.ceil ∨
        wal.Unbacked point ∧ next.ceil ≤ max abs.ceil wal.retainedStart) ∧
      (wal.truncateFrom point).retainedStart ≤ wal.retainedStart := by
  have bound := point_le copies common
  have boundary := point_boundary formed elected common
  rcases Nat.lt_or_eq_of_le bound with below | whole
  · obtain ⟨kept, cutPoint, before, isFront, start⟩ := copies.kept_at boundary bound
    obtain ⟨cutOk, cutRecords, cutFlush, cutStart, -⟩ := copies.layout.truncateFrom below cutPoint
    have copied : ∀ {next : Protocol}, LogMoves id abs next → next.flush id = point →
        next.durable id = (if kept = [] then 0 else point) →
        Copies (wal.truncateFrom point) next id := by
      intro next moves flush durable
      refine ⟨cutFlush.trans flush.symm, cutOk, ⟨before, ?_, ?_⟩, ?_⟩
      · rw [moves.adopted, moves.logOf, cutRecords]
        exact isFront
      · rw [start, cutStart]
      · rw [durable, cutRecords, cutFlush]
    by_cases none : kept = []
    · have startLe : point ≤ wal.retainedStart := by
        rcases cutPoint.position with atStart | ⟨-, lower⟩
        · rw [none, framesLen_nil, Nat.add_zero] at atStart
          exact Nat.le_of_eq atStart.symm
        · exact lower
      obtain ⟨next, moves, flush, durable, underCeil, ceil⟩ :=
        cut_all formed copies elected common startLe
      refine ⟨next, moves, copied moves flush (by simp [durable, none]), flush, .inr underCeil,
        ceil, ?_⟩
      rw [cutStart, if_pos none]
      exact startLe
    · have someRecord : wal.records ≠ [] := by
        intro empty
        have isFront := cutPoint.isFront
        rw [empty, List.prefix_nil] at isFront
        exact none isFront
      obtain ⟨next, moves, flush, durable, ceil⟩ := cut_some copies elected common
        _ someRecord (Nat.le_refl _) bound boundary
      refine ⟨next, moves, copied moves flush (by simp [durable, none]), flush,
        .inl (Nat.le_of_eq durable.symm), .inl ceil, ?_⟩
      rw [cutStart, if_neg none]
  · -- the whole copy is common: nothing is cut
    have same : wal.truncateFrom point = wal := by
      simp [SegmentWal.truncateFrom, whole]
    have flush : abs.flush id = point := copies.flush.symm.trans whole.symm
    rw [same]
    by_cases unbacked : wal.records = [] ∧ 0 < point
    · have ends := copies.layout.ends
      rw [unbacked.1, framesLen_nil, Nat.add_zero] at ends
      refine ⟨{ abs with ceil := max abs.ceil point }, ?_,
        ⟨copies.flush, copies.layout, copies.copy, copies.durable⟩, flush,
        .inr (Nat.le_max_right _ _), .inr ⟨?_, ?_⟩, Nat.le_refl _⟩
      · exact ⟨.single (.raise point), rfl, rfl, rfl, rfl, rfl, rfl, fun _ _ => ⟨rfl, rfl⟩⟩
      · exact copies.unbacked_of_le unbacked.2 bound (by omega)
      · simp only
        omega
    · refine ⟨abs, .refl, copies, flush, .inl ?_, .inl rfl, Nat.le_refl _⟩
      rw [copies.durable]
      split
      · rename_i none
        by_contra positive
        exact unbacked ⟨none, by omega⟩
      · exact bound

/-- A failure inside the truncation leaves a longer copy, or none at all. -/
theorem truncateCrash (deleted rotateBytes : Nat) :
    ∃ next, LogMoves id abs next ∧
      Copies (SegmentWal.open (wal.truncateCrash point deleted) rotateBytes) next id ∧
      (next.ceil = abs.ceil ∨
        wal.Unbacked point ∧ next.ceil ≤ max abs.ceil wal.retainedStart) ∧
      (SegmentWal.open (wal.truncateCrash point deleted) rotateBytes).retainedStart ≤
        wal.retainedStart := by
  have bound := point_le copies common
  obtain ⟨crashOk, kept, keptPrefix, crashRecords, someKept, noneKept⟩ :=
    copies.layout.truncateCrash point deleted rotateBytes
  by_cases none : kept = []
  · obtain ⟨crashFlush, crashStart, below⟩ := noneKept none
    obtain ⟨cut, cuts, flush, durable, -, ceil⟩ :=
      cut_all formed copies elected common (by omega)
    let lost : Protocol := { cut with flush := Function.update cut.flush id 0 }
    have loses : LogMoves id cut lost := by
      refine ⟨.single (.lose id 0 (by omega) (Nat.zero_le _) (Boundary.zero _)), rfl, rfl, rfl,
        rfl, rfl, rfl, fun other different => ⟨?_, rfl⟩⟩
      simp [lost, different]
    refine ⟨lost, cuts.trans loses, ⟨by simp [lost, crashFlush], crashOk, ⟨[], ?_, ?_⟩, ?_⟩, ceil,
      by omega⟩
    · rw [crashRecords, none]
      exact List.nil_prefix
    · rw [crashStart, framesLen_nil]
    · rw [crashRecords, if_pos none]
      exact durable
  · obtain ⟨crashStart, crashFlush, reaches⟩ := someKept none
    have someRecord : wal.records ≠ [] := by
      intro empty
      rw [empty, List.prefix_nil] at keptPrefix
      exact none keptPrefix
    obtain ⟨before, isFront, start, ends⟩ := copies.front
    have keptFront : before ++ kept <+: abs.logOf (abs.adopted id) :=
      ((List.prefix_append_right_inj before).mpr keptPrefix).trans isFront
    have within : wal.retainedStart + framesLen kept ≤ wal.flush := by
      have fits : endOf Record.frameLen kept ≤ endOf Record.frameLen wal.records :=
        endOf_le_of_front keptPrefix
      have := copies.layout.ends
      simp only [endOf_frameLen] at *
      omega
    obtain ⟨next, moves, flush, durable, ceil⟩ := cut_some copies elected common
      (wal.retainedStart + framesLen kept) someRecord (by omega) within
      ⟨before ++ kept, keptFront, by rw [endOf_frameLen, framesLen_append, start]⟩
    refine ⟨next, moves, ⟨crashFlush.trans flush.symm, crashOk, ⟨before, ?_, ?_⟩, ?_⟩, .inl ceil,
      Nat.le_of_eq crashStart⟩
    · rw [crashRecords, moves.adopted, moves.logOf]
      exact keptFront
    · rw [crashStart, start]
    · rw [crashRecords, if_neg none, durable, crashFlush]

end Cut

section Append

variable (copies : Copies wal abs id) {begin : Nat} {batch : List Record}
variable (position : wal.empty = false → begin = wal.flush)
variable (slice : ∃ front, front ++ batch <+: abs.logOf (abs.adopted id) ∧
  framesLen front = begin)

include copies position slice

/-- A batch of the adopted log at the write position continues the copy. -/
private theorem continued {reached : List Record} (isFront : reached <+: batch) :
    ∃ before, before ++ (wal.records ++ reached) <+: abs.logOf (abs.adopted id) ∧
      framesLen before = if wal.records = [] then begin else wal.retainedStart := by
  obtain ⟨front, batchFront, frontEnds⟩ := slice
  have reachedFront : front ++ reached <+: abs.logOf (abs.adopted id) :=
    ((List.prefix_append_right_inj front).mpr isFront).trans batchFront
  by_cases empty : wal.records = []
  · exact ⟨front, by simpa [empty] using reachedFront, by simpa [empty] using frontEnds⟩
  · obtain ⟨before, copyFront, start, ends⟩ := copies.front
    have written : wal.empty = false := by
      by_contra fresh
      exact empty (copies.layout.records_eq_nil.mpr (copies.layout.fresh (by simpa using fresh)).1)
    -- the copy and the records before the batch end at the same position of one log
    have same : before ++ wal.records = front :=
      prefix_unique Record.frameLen_pos copyFront ((List.prefix_append _ _).trans reachedFront)
        (by rw [endOf_frameLen, endOf_frameLen, ends, frontEnds, position written])
    refine ⟨before, ?_, by simpa [empty] using start⟩
    rw [← List.append_assoc, same]
    exact reachedFront

/-- The copy extended by what reached the disk. -/
private theorem extends_by (follows : abs.adopted id = abs.term id) {reached : List Record}
    (isFront : reached <+: batch) :
    ∃ next, LogMoves id abs next ∧ next.ceil = abs.ceil ∧
      next.flush id = begin + framesLen reached ∧
      next.durable id =
        if wal.records ++ reached = [] then 0 else begin + framesLen reached := by
  obtain ⟨before, continues, -⟩ := continued copies position slice isFront
  obtain ⟨front, batchFront, frontEnds⟩ := slice
  have boundary : Boundary Record.frameLen (abs.logOf (abs.adopted id))
      (begin + framesLen reached) := by
    refine ⟨front ++ reached, ?_, by rw [endOf_frameLen, framesLen_append, frontEnds]⟩
    exact ((List.prefix_append_right_inj front).mpr isFront).trans batchFront
  have forward : wal.flush ≤ begin := by
    cases fresh : wal.empty with
    | false => exact Nat.le_of_eq (position fresh).symm
    | true =>
        have := (copies.layout.fresh fresh).2
        omega
  have flush := copies.flush
  have durable := copies.durable
  generalize keptEq : (if wal.records ++ reached = [] then 0 else begin + framesLen reached) = kept
  refine ⟨{ abs with
    flush := Function.update abs.flush id (begin + framesLen reached)
    durable := Function.update abs.durable id kept }, ?_, rfl, by simp, by simp⟩
  refine ⟨.single (.extend id (begin + framesLen reached) kept follows (by omega)
    (follows ▸ boundary) ?_ ?_), rfl, rfl, rfl, rfl, rfl, rfl, ?_⟩
  · rw [durable, ← keptEq]
    by_cases empty : wal.records = []
    · simp [empty]
    · simp only [List.append_eq_nil_iff, empty, false_and, if_false]
      omega
  · rw [← keptEq]
    split <;> omega
  · intro other different
    simp [different]

/-- An append at the write position extends the copy durably. -/
theorem append (follows : abs.adopted id = abs.term id) (nonempty : batch ≠ [])
    (consecutive : Consecutive begin batch) :
    ∃ appended next, wal.append begin batch = .ok appended ∧ LogMoves id abs next ∧
      Copies appended next id ∧ next.ceil = abs.ceil ∧ next.durable id = appended.flush ∧
      appended.records ≠ [] ∧ appended.flush = begin + framesLen batch ∧
      appended.retainedStart = if wal.records = [] then begin else wal.retainedStart := by
  obtain ⟨appended, appendEq, appendedOk, records, flushEq, start, -⟩ :=
    copies.layout.append nonempty consecutive position
  obtain ⟨before, continues, beforeEnds⟩ :=
    continued copies position slice (List.prefix_refl batch)
  obtain ⟨next, moves, ceil, flush, durable⟩ :=
    extends_by copies position slice follows (List.prefix_refl batch)
  have someRecord : wal.records ++ batch ≠ [] := by simp [nonempty]
  rw [if_neg someRecord] at durable
  refine ⟨appended, next, appendEq, moves, ⟨flushEq.trans flush.symm, appendedOk, ⟨before, ?_, ?_⟩,
    ?_⟩, ceil, durable.trans flushEq.symm, records ▸ someRecord, flushEq, start⟩
  · rw [records, moves.adopted, moves.logOf]
    exact continues
  · rw [beforeEnds, start]
  · rw [records, if_neg someRecord, durable, flushEq]

/-- A failure inside an append leaves the copy extended by a front of the batch. -/
theorem appendCrash (follows : abs.adopted id = abs.term id)
    (consecutive : Consecutive begin batch) (written rotateBytes : Nat) :
    ∃ next, LogMoves id abs next ∧ next.ceil = abs.ceil ∧
      Copies (SegmentWal.open (wal.appendCrash begin batch written) rotateBytes) next id ∧
      (SegmentWal.open (wal.appendCrash begin batch written) rotateBytes).retainedStart =
        if wal.records = [] then begin else wal.retainedStart := by
  obtain ⟨reached, isFront, crashOk, records, flushEq, start⟩ :=
    copies.layout.appendCrash consecutive position written rotateBytes
  obtain ⟨before, continues, beforeEnds⟩ := continued copies position slice isFront
  obtain ⟨next, moves, ceil, flush, durable⟩ :=
    extends_by copies position slice follows isFront
  refine ⟨next, moves, ceil, ⟨flushEq.trans flush.symm, crashOk, ⟨before, ?_, ?_⟩, ?_⟩, start⟩
  · rw [records, moves.adopted, moves.logOf]
    exact continues
  · rw [beforeEnds, start]
  · rw [records, durable, flushEq]

end Append

/-- Losing leading records is no protocol step. -/
private theorem dropped (copies : Copies wal abs id) {left : SegmentWal} (layout : left.Ok)
    (flush : left.flush = wal.flush) {gone : List Record}
    (records : wal.records = gone ++ left.records)
    (start : left.retainedStart = wal.retainedStart + framesLen gone)
    (stays : wal.records ≠ [] → left.records ≠ []) : Copies left abs id := by
  obtain ⟨before, isFront, beforeEnds⟩ := copies.copy
  refine ⟨flush.trans copies.flush, layout, ⟨before ++ gone, ?_, ?_⟩, ?_⟩
  · rw [List.append_assoc, ← records]
    exact isFront
  · rw [framesLen_append, start, beforeEnds]
  · rw [copies.durable, flush]
    by_cases empty : wal.records = []
    · have none : left.records = [] := by
        rw [empty] at records
        exact (List.append_eq_nil_iff.mp records.symm).2
      rw [if_pos empty, if_pos none]
    · rw [if_neg empty, if_neg (stays empty)]

theorem dropBelow (copies : Copies wal abs id) (horizon : Nat) :
    Copies (wal.dropBelow horizon) abs id ∧
      (wal.dropBelow horizon).retainedStart ≤ max wal.retainedStart horizon := by
  obtain ⟨layout, flush, -, gone, records, start, bound, stays⟩ :=
    copies.layout.dropBelow horizon
  refine ⟨copies.dropped layout flush records start stays, ?_⟩
  by_cases none : gone = []
  · simp [start, none]
  · have := bound none
    omega

theorem dropCrash (copies : Copies wal abs id) (someRecord : wal.records ≠ [])
    (horizon deleted rotateBytes : Nat) :
    Copies (SegmentWal.open (wal.dropCrash horizon deleted) rotateBytes) abs id ∧
      (SegmentWal.open (wal.dropCrash horizon deleted) rotateBytes).retainedStart ≤
        max wal.retainedStart horizon := by
  obtain ⟨layout, flush, stays, gone, records, start, bound⟩ :=
    copies.layout.dropCrash someRecord horizon deleted rotateBytes
  refine ⟨copies.dropped layout flush records start fun _ => stays, ?_⟩
  by_cases none : gone = []
  · simp [start, none]
  · have := bound none
    omega

end Copies

end Icegres.Quorum
