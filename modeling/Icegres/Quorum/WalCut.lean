import Icegres.Quorum.WalSpec
import Icegres.TermLog.SizedLog

/-!
# Truncation and horizon GC of the segmented log

A truncation at a record boundary keeps exactly the records below it, one below everything
retained leaves nothing but the position. A horizon advance drops leading records at or
below the horizon and never the last one.
-/

namespace Icegres.Quorum

namespace SegmentWal

/-- Deletion takes files off the end, all of which start at or above the position; with room
for all of them it stops only at a file that starts below. -/
theorem deleteFrom_spec (lsn count : Nat) (files : List Seg) :
    ∃ deleted, files = deleteFrom lsn count files ++ deleted ∧
      (∀ seg ∈ deleted, lsn ≤ seg.start) ∧
      (files.length ≤ count →
        ∀ last, (deleteFrom lsn count files).getLast? = some last → last.start < lsn) := by
  induction count generalizing files with
  | zero =>
      refine ⟨[], by simp [deleteFrom], by simp, ?_⟩
      intro short last isLast
      have none : files = [] := by simpa using short
      simp [deleteFrom, none] at isLast
  | succ count ih =>
      rcases List.eq_nil_or_concat files with rfl | ⟨front, last, rfl⟩
      · exact ⟨[], by simp [deleteFrom], by simp, by simp [deleteFrom]⟩
      · by_cases below : last.start < lsn
        · refine ⟨[], by simp [deleteFrom, below], by simp, ?_⟩
          intro _ other isLast
          have same : last = other := by simpa [deleteFrom, below] using isLast
          rw [← same]
          exact below
        · obtain ⟨deleted, shape, above, stops⟩ := ih front
          have unfolds : deleteFrom lsn (count + 1) (front ++ [last]) =
              deleteFrom lsn count front := by
            simp [deleteFrom, below]
          simp only [List.concat_eq_append]
          refine ⟨deleted ++ [last], ?_, ?_, ?_⟩
          · rw [unfolds, ← List.append_assoc, ← shape]
          · intro seg mem
            rcases List.mem_append.mp mem with inDeleted | isLast
            · exact above seg inDeleted
            · simp only [List.mem_singleton] at isLast
              rw [isLast]
              omega
          · intro short other isLast
            rw [unfolds] at isLast
            exact stops (by simpa using short) other isLast

end SegmentWal

/-- Cutting a stream of frames at a record boundary keeps whole records. -/
theorem cutFrames_boundary (kept more : List Record) :
    cutFrames (framesLen kept) (kept ++ more) = (kept, []) := by
  induction kept with
  | nil =>
      cases more with
      | nil => rfl
      | cons record more =>
          have := record.frameLen_pos
          simp [cutFrames, Nat.not_le.mpr this]
  | cons record kept ih => simp [cutFrames, ih]

/-- Cutting a file at a record boundary keeps the records below it. -/
theorem Seg.cutAt_boundary {seg : Seg} {kept more : List Record} (whole : seg.torn = [])
    (shape : seg.records = kept ++ more) :
    seg.cutAt (seg.start + framesLen kept) = { seg with records := kept } := by
  cases seg with
  | mk start records torn =>
      simp only at whole shape
      subst whole shape
      simp only [Seg.cutAt, Nat.add_sub_cancel_left, framesLen_append, List.take_nil,
        cutFrames_boundary]
      by_cases all : framesLen more ≤ 0
      · have none : more = [] := by
          by_contra some
          have := framesLen_pos some
          omega
        simp [none]
      · rw [if_neg (by omega)]

/-- Every file of a chain starts at or above the chain's start. -/
theorem Chained.le_start {pos : Nat} {files : List Seg} (chained : Chained pos files)
    {seg : Seg} (mem : seg ∈ files) : pos ≤ seg.start := by
  obtain ⟨before, after, rfl⟩ := List.append_of_mem mem
  rw [Chained.append] at chained
  have start : seg.start = _ := chained.2.1
  omega

namespace SegmentWal

/-- Where `Ok` logs may be truncated: at a boundary of the retained records, or below all of
them. `kept` are the records that stay. -/
structure CutPoint (wal : SegmentWal) (lsn : Nat) (kept : List Record) : Prop where
  isFront : kept <+: wal.records
  position : wal.retainedStart + framesLen kept = lsn ∨ kept = [] ∧ lsn ≤ wal.retainedStart

/-- A truncation at `lsn` would leave no record under a position above zero, although
something was written here. -/
def Unbacked (wal : SegmentWal) (lsn : Nat) : Prop :=
  0 < lsn ∧ wal.empty = false ∧ ∀ record ∈ wal.records, lsn < record.endLsn

/-- The files a truncation leaves. -/
private theorem truncated_files {files : List Seg} {pos lsn flush : Nat} {kept : List Record}
    (chained : Chained pos files) (ends : pos + framesLen (recordsOf files) = flush)
    (below : lsn < flush) (isFront : kept <+: recordsOf files)
    (position : pos + framesLen kept = lsn ∨ kept = [] ∧ lsn ≤ pos) :
    Chained pos (cutBoundary lsn (deleteFrom lsn files.length files)) ∧
      recordsOf (cutBoundary lsn (deleteFrom lsn files.length files)) = kept := by
  obtain ⟨deleted, shape, above, stops⟩ := deleteFrom_spec lsn files.length files
  generalize deleteFrom lsn files.length files = left at shape stops
  rcases List.eq_nil_or_concat left with rfl | ⟨front, last, rfl⟩
  · -- every file starts at or above the position
    refine ⟨trivial, ?_⟩
    simp only [cutBoundary, List.getLast?_nil, recordsOf_nil]
    rcases position with atBoundary | ⟨none, -⟩
    · by_contra some
      have long := framesLen_pos (Ne.symm some)
      cases files with
      | nil =>
          obtain rfl : kept = [] := by simpa using isFront
          simp at some
      | cons seg files =>
          have start := chained.1
          have := above seg (by
            rw [List.nil_append] at shape
            rw [← shape]
            exact List.mem_cons_self)
          omega
    · exact none.symm
  · have lastBelow : last.start < lsn := stops (Nat.le_refl _) last (by simp)
    rw [List.concat_eq_append] at shape
    have inFiles : last ∈ files := by
      rw [shape]
      simp
    have startLe := chained.le_start inFiles
    have atBoundary : pos + framesLen kept = lsn := by
      rcases position with atBoundary | ⟨-, low⟩ <;> omega
    rw [shape, List.append_assoc, Chained.append] at chained
    obtain ⟨frontChained, start, inLast, whole, lastNonempty, restChained⟩ := chained
    -- the kept records are those of the earlier files and a front of the last one's
    have frontOf : recordsOf front <+: kept := by
      refine TermLog.prefix_of_endOf_le Record.frameLen_pos ?_ isFront ?_
      rotate_left
      · change framesLen (recordsOf front) ≤ framesLen kept
        omega
      · rw [shape]
        simp
    obtain ⟨part, rfl⟩ := frontOf
    rw [framesLen_append] at atBoundary
    have partFront : part <+: last.records ++ recordsOf deleted := by
      rw [shape] at isFront
      simpa using isFront
    have lastEnd : lsn ≤ last.endLsn := by
      rw [Seg.endLsn_whole whole]
      cases deleted with
      | nil =>
          simp only [List.append_nil] at shape
          rw [shape] at ends
          simp only [recordsOf_append, recordsOf_cons, recordsOf_nil, framesLen_append,
            framesLen_nil] at ends
          omega
      | cons seg deleted =>
          have next : seg.start = last.endLsn := restChained.1
          have := above seg (by simp)
          rw [Seg.endLsn_whole whole] at next
          omega
    have partOfLast : part <+: last.records := by
      refine TermLog.prefix_of_endOf_le Record.frameLen_pos partFront ?_ ?_
      · simp
      · change framesLen part ≤ framesLen last.records
        rw [Seg.endLsn_whole whole] at lastEnd
        omega
    obtain ⟨more, partEq⟩ := partOfLast
    have partNonempty : part ≠ [] := by
      rintro rfl
      simp only [framesLen_nil] at atBoundary
      omega
    have partConsecutive : Consecutive last.start part := by
      rw [← partEq, Consecutive.append] at inLast
      exact inLast.1
    have position : last.start + framesLen part = lsn := by omega
    simp only [cutBoundary, List.concat_eq_append, List.getLast?_append, List.getLast?_singleton,
      Option.some_or, List.dropLast_concat]
    by_cases longer : last.endLsn > lsn
    · rw [if_pos longer, ← position, Seg.cutAt_boundary whole partEq.symm]
      refine ⟨?_, by simp⟩
      rw [Chained.append]
      exact ⟨frontChained, start, partConsecutive, whole, partNonempty, trivial⟩
    · rw [if_neg longer]
      have exactEnd : framesLen last.records = framesLen part := by
        rw [Seg.endLsn_whole whole] at longer
        have : framesLen part ≤ framesLen last.records := by
          rw [← partEq, framesLen_append]
          omega
        omega
      have allOfLast : part = last.records := by
        exact TermLog.eq_of_prefix_of_endOf_le Record.frameLen_pos ⟨more, partEq⟩
          (Nat.le_of_eq exactEnd)
      refine ⟨?_, by simp [allOfLast]⟩
      rw [Chained.append]
      exact ⟨frontChained, start, inLast, whole, lastNonempty, trivial⟩

/-- A truncation at a cut point keeps the records below it. -/
theorem Ok.truncateFrom {wal : SegmentWal} (ok : wal.Ok) {lsn : Nat} {kept : List Record}
    (below : lsn < wal.flush) (cut : wal.CutPoint lsn kept) :
    (wal.truncateFrom lsn).Ok ∧ (wal.truncateFrom lsn).records = kept ∧
      (wal.truncateFrom lsn).flush = lsn ∧
      (wal.truncateFrom lsn).retainedStart =
        (if kept = [] then lsn else wal.retainedStart) ∧
      (wal.truncateFrom lsn).empty = wal.empty := by
  obtain ⟨sealedOk, sealedRecords, sealedStart⟩ := ok.sealActive
  have sealedFiles : wal.sealActive.sealed = wal.sealActive.files := by simp [files]
  have layout : wal.truncateFrom lsn =
      { wal.sealActive with
        sealed := cutBoundary lsn
          (deleteFrom lsn wal.sealActive.sealed.length wal.sealActive.sealed)
        flush := lsn } := by
    simp [SegmentWal.truncateFrom, Nat.not_le.mpr below]
  have sealedEnds := sealedOk.ends
  rw [sealedStart, sealActive_flush] at sealedEnds
  have front := cut.isFront
  rw [← sealedRecords] at front
  obtain ⟨chained, recordsEq⟩ := truncated_files (sealedStart ▸ sealedOk.chained) sealedEnds below
    front cut.position
  have filesEq : (wal.truncateFrom lsn).files = cutBoundary lsn
      (deleteFrom lsn wal.sealActive.files.length wal.sealActive.files) := by
    rw [layout]
    simp [files]
  have written : wal.empty = false := by
    by_contra isFresh
    have := (ok.fresh (by simpa using isFresh)).2
    omega
  have recordsKept : (wal.truncateFrom lsn).records = kept := by
    rw [← recordsEq, records, filesEq, recordsOf]
  have emptyKept : (wal.truncateFrom lsn).empty = wal.empty := by
    rw [layout]
    exact sealActive_empty wal
  have flushEq : (wal.truncateFrom lsn).flush = lsn := by rw [layout]
  by_cases none : kept = []
  · have noFile : (wal.truncateFrom lsn).files = [] := by
      rw [filesEq]
      exact (chained.recordsOf_eq_nil).mp (recordsEq.trans none)
    have start : (wal.truncateFrom lsn).retainedStart = lsn := by
      simp [retainedStart, noFile, flushEq]
    refine ⟨⟨?_, ?_, ?_⟩, recordsKept, flushEq, by simp [start, none], emptyKept⟩
    · rw [noFile]
      exact trivial
    · rw [start, recordsKept, none, flushEq]
      rfl
    · rw [emptyKept, written]
      simp
  · have atBoundary : wal.retainedStart + framesLen kept = lsn := by
      rcases cut.position with atBoundary | ⟨isNone, -⟩
      · exact atBoundary
      · exact absurd isNone none
    obtain ⟨nextOk, start⟩ := ok_of_files (wal.truncateFrom lsn) (filesEq ▸ chained)
      (by
        rw [filesEq]
        intro noFile
        exact none (recordsEq.symm.trans (by rw [noFile]; rfl)))
      (by rw [recordsKept, flushEq, atBoundary]) (emptyKept.trans written)
    exact ⟨nextOk, recordsKept, flushEq, by simp [start, none], emptyKept⟩

/-- The files a horizon advance may delete are leading ones below the horizon, and one file
always stays. -/
theorem droppable_spec (wal : SegmentWal) (horizon count : Nat)
    (bounded : count ≤ (wal.droppable horizon).length) :
    (wal.sealed.drop count ++ wal.active.toList = wal.files.drop count) ∧
      (∀ seg ∈ wal.files.take count, seg.endLsn ≤ horizon) ∧
      (wal.files ≠ [] → wal.files.drop count ≠ []) := by
  have fewer : (wal.droppable horizon).length ≤
      if wal.active.isSome then wal.sealed.length else wal.sealed.length - 1 := by
    exact Nat.le_trans (List.takeWhile_prefix _).length_le (List.length_take_le _ _)
  have within : count ≤ wal.sealed.length := by
    split at fewer <;> omega
  have dropEq : wal.files.drop count = wal.sealed.drop count ++ wal.active.toList := by
    rw [files, List.drop_append_of_le_length within]
  refine ⟨dropEq.symm, ?_, ?_⟩
  · intro seg mem
    rw [files, List.take_append_of_le_length within] at mem
    have front : wal.sealed.take count <+: wal.droppable horizon := by
      have whole : wal.droppable horizon <+: wal.sealed :=
        (List.takeWhile_prefix _).trans (List.take_prefix _ _)
      exact List.prefix_of_prefix_length_le (List.take_prefix _ _) whole
        (Nat.le_trans (List.length_take_le _ _) bounded)
    have inDroppable := front.subset mem
    simpa using List.all_eq_true.mp List.all_takeWhile seg inDroppable
  · intro nonempty none
    rw [dropEq] at none
    simp only [List.append_eq_nil_iff, List.drop_eq_nil_iff] at none
    cases active : wal.active with
    | some seg => simp [active] at none
    | none =>
        simp only [active, Option.isSome_none, Bool.false_eq_true, if_false] at fewer
        apply nonempty
        have : wal.sealed.length = 0 := by omega
        simp [files, active, List.length_eq_zero_iff.mp this]

/-- Dropping leading files of a log drops leading records that end at or below the horizon. -/
theorem dropped_records {files : List Seg} {pos horizon count : Nat}
    (chained : Chained pos files)
    (below : ∀ seg ∈ files.take count, seg.endLsn ≤ horizon) :
    ∃ dropped, recordsOf files = dropped ++ recordsOf (files.drop count) ∧
      Chained (pos + framesLen dropped) (files.drop count) ∧
      (dropped ≠ [] → pos + framesLen dropped ≤ horizon) := by
  have split := List.take_append_drop count files
  have both := chained
  rw [← split, Chained.append] at both
  obtain ⟨front, rest⟩ := both
  refine ⟨recordsOf (files.take count), by rw [← recordsOf_append, split], rest, ?_⟩
  intro some
  rcases List.eq_nil_or_concat (files.take count) with none | ⟨before, last, shape⟩
  · simp [none] at some
  · rw [List.concat_eq_append] at shape
    have lastBelow := below last (by simp [shape])
    rw [shape, Chained.append] at front
    obtain ⟨-, start, -, whole, -⟩ := front
    rw [Seg.endLsn_whole whole] at lastBelow
    rw [shape]
    simp only [recordsOf_append, recordsOf_cons, recordsOf_nil, framesLen_append,
      List.append_nil]
    omega

/-- A horizon advance drops leading records at or below the horizon; the position and, if
there was one, a record stay. -/
theorem Ok.dropBelow {wal : SegmentWal} (ok : wal.Ok) (horizon : Nat) :
    (wal.dropBelow horizon).Ok ∧ (wal.dropBelow horizon).flush = wal.flush ∧
      (wal.dropBelow horizon).empty = wal.empty ∧
      ∃ dropped, wal.records = dropped ++ (wal.dropBelow horizon).records ∧
        (wal.dropBelow horizon).retainedStart = wal.retainedStart + framesLen dropped ∧
        (dropped ≠ [] → wal.retainedStart + framesLen dropped ≤ horizon) ∧
        (wal.records ≠ [] → (wal.dropBelow horizon).records ≠ []) := by
  obtain ⟨dropEq, below, stays⟩ := wal.droppable_spec horizon _ (Nat.le_refl _)
  obtain ⟨dropped, recordsEq, chained, bound⟩ := dropped_records ok.chained below
  have filesEq : (wal.dropBelow horizon).files = wal.files.drop (wal.droppable horizon).length :=
    dropEq
  have ends := ok.ends
  have recordsDef : wal.records = recordsOf wal.files := rfl
  rw [recordsDef, recordsEq, framesLen_append] at ends
  have nextRecords : (wal.dropBelow horizon).records =
      recordsOf (wal.files.drop (wal.droppable horizon).length) := by
    rw [records, filesEq, recordsOf]
  by_cases none : wal.files = []
  · have noneLeft : (wal.dropBelow horizon).files = [] := by simp [filesEq, none]
    have noDropped : dropped = [] := by
      rw [none] at recordsEq
      simpa using recordsEq
    have start : (wal.dropBelow horizon).retainedStart = wal.retainedStart := by
      simp only [retainedStart, noneLeft, none]
      rfl
    refine ⟨⟨?_, ?_, fun fresh => ⟨noneLeft, (ok.fresh fresh).2⟩⟩, rfl, rfl, dropped, ?_, ?_,
      bound, ?_⟩
    · rw [noneLeft]
      exact trivial
    · rw [start, nextRecords, none]
      simp only [List.drop_nil, recordsOf_nil, framesLen_nil]
      simp only [none, List.drop_nil, recordsOf_nil, framesLen_nil, noDropped] at ends
      exact ends
    · rw [recordsDef, recordsEq, nextRecords]
    · rw [start, noDropped]
      rfl
    · intro some
      exact absurd (ok.records_eq_nil.mpr none) some
  · have written : wal.empty = false := by
      by_contra isFresh
      exact none (ok.fresh (by simpa using isFresh)).1
    obtain ⟨nextOk, start⟩ := ok_of_files (wal.dropBelow horizon) (filesEq ▸ chained)
      (by
        rw [filesEq]
        exact stays none)
      (by
        rw [nextRecords]
        change _ = wal.flush
        omega) written
    refine ⟨nextOk, rfl, rfl, dropped, ?_, start, bound, ?_⟩
    · rw [recordsDef, recordsEq, nextRecords]
    · intro _ noRecord
      rw [nextOk.records_eq_nil, filesEq] at noRecord
      exact stays none noRecord

end SegmentWal

end Icegres.Quorum
