import Icegres.Quorum.WalCut

/-!
# Reads, and failures inside a write

Reads of the segmented log return the frame bytes of the retained records. A failure inside
an append, a truncation or a horizon advance leaves files from which the next process
recovers the records that were there, a front of the batch, or those below the deleted files.
-/

namespace Icegres.Quorum

open Icegres.Segment

theorem encodeAll_append (left right : List Record) :
    encodeAll (left ++ right) = encodeAll left ++ encodeAll right := by
  simp [encodeAll]

namespace SegmentWal

/-- One whole file contributes its bytes inside the range. -/
theorem readSeg_whole {seg : Seg} (whole : seg.torn = []) (lo hi : Nat) :
    readSeg lo hi seg =
      ((encodeAll seg.records).take (hi - seg.start)).drop (lo - seg.start) := by
  have data : seg.data = encodeAll seg.records := by simp [Seg.data, whole]
  have length : (encodeAll seg.records).length = seg.endLsn - seg.start := by
    rw [encodeAll_length, Seg.endLsn_whole whole]
    omega
  rw [readSeg, data]
  split
  · rename_i outside
    symm
    rw [List.drop_eq_nil_iff, List.length_take, length]
    omega
  · have fewer : (encodeAll seg.records).take (min hi seg.endLsn - seg.start) =
        (encodeAll seg.records).take (hi - seg.start) := by
      rw [List.take_eq_take_iff, length]
      omega
    have from' : max lo seg.start - seg.start = lo - seg.start := by omega
    rw [fewer, from']

/-- A chain of files contributes the bytes of its records inside the range. -/
theorem readSegs_chained {pos : Nat} {files : List Seg} (chained : Chained pos files)
    (lo hi : Nat) :
    files.flatMap (readSeg lo hi) =
      ((encodeAll (recordsOf files)).take (hi - pos)).drop (lo - pos) := by
  induction files generalizing pos with
  | nil => simp [encodeAll]
  | cons seg files ih =>
      obtain ⟨rfl, -, whole, -, rest⟩ := chained
      have length : (encodeAll seg.records).length = seg.endLsn - seg.start := by
        rw [encodeAll_length, Seg.endLsn_whole whole]
        omega
      have ends : seg.start ≤ seg.endLsn := by simp [Seg.endLsn]
      rw [List.flatMap_cons, readSeg_whole whole, ih rest, recordsOf_cons, encodeAll_append,
        List.take_append, List.drop_append, length, List.length_take, length]
      congr 1
      by_cases inside : hi ≤ seg.endLsn
      · have none : hi - seg.start - (seg.endLsn - seg.start) = 0 := by omega
        have none' : hi - seg.endLsn = 0 := by omega
        simp [none, none']
      · have count : hi - seg.start - (seg.endLsn - seg.start) = hi - seg.endLsn := by omega
        have skip : lo - seg.start - min (hi - seg.start) (seg.endLsn - seg.start) =
            lo - seg.endLsn := by omega
        rw [count, skip]

/-- A read that succeeds lies inside the retained range and returns its bytes. -/
theorem Ok.read {wal : SegmentWal} (ok : wal.Ok) {lo hi : Nat} {bytes : List UInt8}
    (ordered : lo < hi) (within : hi ≤ wal.flush) (served : wal.read lo hi = .ok bytes) :
    wal.retainedStart ≤ lo ∧
      bytes = ((encodeAll wal.records).drop (lo - wal.retainedStart)).take (hi - lo) := by
  have out := readSegs_chained ok.chained lo hi
  have ends := ok.ends
  have recordsDef : recordsOf wal.files = wal.records := rfl
  rw [recordsDef] at out
  simp only [SegmentWal.read, out] at served
  split at served
  · cases served
  · rename_i complete
    cases served
    rw [List.length_drop, List.length_take, encodeAll_length] at complete
    have above : wal.retainedStart ≤ lo := by omega
    refine ⟨above, ?_⟩
    rw [List.drop_take]
    congr 1
    omega

/-- What the boot scan makes of a chain of files followed by one that was being written. -/
theorem scanSegments_writing {pos : Nat} {files : List Seg} (last : Seg)
    (chained : Chained pos files)
    (start : last.start = pos + framesLen (recordsOf files))
    (consecutive : Consecutive last.start last.records) {before : Option Nat}
    (agrees : ∀ position, before = some position → position = pos) :
    scanSegments (files ++ [last]) before =
      (files ++ (if last.records = [] then [] else [{ last with torn := [] }]),
        some (last.start + framesLen last.records)) := by
  induction files generalizing pos before with
  | nil =>
      have notBefore : before.any (fun position => decide (position ≠ last.start)) = false := by
        cases before with
        | none => rfl
        | some position => simpa [start] using agrees position rfl
      have scan : scanWalSegment last = ({ last with torn := [] }, !last.torn.isEmpty) := by
        simp [scanWalSegment, scanRecords_consecutive consecutive]
      have ends : ({ last with torn := [] } : Seg).endLsn =
          last.start + framesLen last.records := by
        simp [Seg.endLsn]
      simp only [List.nil_append, scanSegments, notBefore, scan, ends, Bool.false_eq_true,
        if_false, List.append_nil, ite_self]
      by_cases none : last.records = []
      · simp [none]
      · have := framesLen_pos none
        have long : last.start + framesLen last.records ≠ last.start := by omega
        simp only [none, if_false, if_neg long]
  | cons seg files ih =>
      obtain ⟨rfl, inSeg, whole, nonempty, rest⟩ := chained
      have here : ∀ position, some seg.endLsn = some position → position = seg.endLsn := by simp
      have inner := ih rest
        (by
          rw [start, recordsOf_cons, framesLen_append, Seg.endLsn_whole whole]
          omega)
        here
      rw [List.cons_append, scanSegments_cons inSeg whole nonempty _ agrees, inner,
        List.cons_append]

/-- A front of a batch that reached the disk before a failure. -/
theorem cutFrames_prefix (room : Nat) (batch : List Record) : (cutFrames room batch).1 <+: batch := by
  induction batch generalizing room with
  | nil => simp [cutFrames]
  | cons record batch ih =>
      rw [cutFrames]
      split
      · exact List.cons_prefix_cons.mpr ⟨rfl, ih _⟩
      · exact List.nil_prefix

/-- A log over a chain of sealed files that stands at the chain's end. -/
private theorem ok_sealed {files : List Seg} {pos flush : Nat} (rotateBytes : Nat)
    (chained : Chained pos files) (ends : pos + framesLen (recordsOf files) = flush) :
    let wal : SegmentWal :=
      { sealed := files, active := none, flush := flush,
        empty := files.isEmpty && flush == 0, rotateBytes := rotateBytes }
    wal.Ok ∧ wal.records = recordsOf files ∧ wal.retainedStart = pos := by
  intro wal
  have filesEq : wal.files = files := by simp [wal, SegmentWal.files]
  have recordsEq : wal.records = recordsOf files := by rw [records, filesEq, recordsOf]
  have start : wal.retainedStart = pos := by
    cases files with
    | nil =>
        simp only [recordsOf_nil, framesLen_nil, Nat.add_zero] at ends
        rw [retainedStart, filesEq]
        exact ends.symm
    | cons seg files => simpa [retainedStart, filesEq] using chained.1
  refine ⟨⟨?_, ?_, ?_⟩, recordsEq, start⟩
  · rw [start, filesEq]
    exact chained
  · rw [start, recordsEq]
    exact ends
  · intro fresh
    simpa [wal, SegmentWal.files] using fresh

/-- After a failure inside an append the log holds what it held and a front of the batch,
and stands at its end. -/
theorem Ok.appendCrash {wal : SegmentWal} (ok : wal.Ok) {begin : Nat}
    {batch : List Record} (consecutive : Consecutive begin batch)
    (position : wal.empty = false → begin = wal.flush) (written rotateBytes : Nat) :
    ∃ reached, reached <+: batch ∧
      (SegmentWal.open (wal.appendCrash begin batch written) rotateBytes).Ok ∧
      (SegmentWal.open (wal.appendCrash begin batch written) rotateBytes).records =
        wal.records ++ reached ∧
      (SegmentWal.open (wal.appendCrash begin batch written) rotateBytes).flush =
        begin + framesLen reached ∧
      (SegmentWal.open (wal.appendCrash begin batch written) rotateBytes).retainedStart =
        (if wal.records = [] then begin else wal.retainedStart) := by
  obtain ⟨front, start, inActive, whole, recordsEq, atEnd⟩ := ok.activeAt position
  have reachedPrefix := cutFrames_prefix written batch
  generalize reachedEq : (cutFrames written batch).1 = reached at reachedPrefix
  refine ⟨reached, reachedPrefix, ?_⟩
  let last : Seg :=
    { wal.activeAt begin with
      records := (wal.activeAt begin).records ++ reached
      torn := (cutFrames written batch).2 }
  have crashEq : wal.appendCrash begin batch written = wal.sealed ++ [last] := by
    simp [SegmentWal.appendCrash, last, reachedEq]
  have inLast : Consecutive last.start last.records := by
    obtain ⟨more, batchEq⟩ := reachedPrefix
    rw [← batchEq, Consecutive.append] at consecutive
    rw [Consecutive.append]
    exact ⟨inActive, atEnd.symm ▸ consecutive.1⟩
  have nowhere : ∀ position, none = some position →
      position = if wal.records = [] then begin else wal.retainedStart := by simp
  have scan := scanSegments_writing last front start inLast nowhere
  have flushEq : last.start + framesLen last.records = begin + framesLen reached := by
    simp only [last, framesLen_append]
    omega
  let kept := wal.sealed ++ (if last.records = [] then [] else [{ last with torn := [] }])
  have keptChained :
      Chained (if wal.records = [] then begin else wal.retainedStart) kept := by
    rw [Chained.append]
    refine ⟨front, ?_⟩
    by_cases none : last.records = []
    · rw [if_pos none]
      exact trivial
    · rw [if_neg none]
      exact ⟨start, inLast, rfl, none, trivial⟩
  have keptRecords : recordsOf kept = wal.records ++ reached := by
    have lastRecords : recordsOf (if last.records = [] then [] else [{ last with torn := [] }]) =
        last.records := by
      by_cases none : last.records = []
      · rw [if_pos none, none]
        rfl
      · rw [if_neg none]
        simp
    rw [recordsOf_append, lastRecords, recordsEq, List.append_assoc]
  have layout : SegmentWal.open (wal.appendCrash begin batch written) rotateBytes =
      { sealed := kept, active := none, flush := begin + framesLen reached,
        empty := kept.isEmpty && begin + framesLen reached == 0,
        rotateBytes := rotateBytes } := by
    rw [crashEq, SegmentWal.open, scan, flushEq]
    rfl
  have total : framesLen wal.records =
      framesLen (recordsOf wal.sealed) + framesLen (wal.activeAt begin).records := by
    rw [← framesLen_append, ← recordsEq]
  have keptEnds : (if wal.records = [] then begin else wal.retainedStart) +
      framesLen (recordsOf kept) = begin + framesLen reached := by
    rw [keptRecords, framesLen_append, total]
    omega
  obtain ⟨crashOk, crashRecords, crashStart⟩ := ok_sealed rotateBytes keptChained keptEnds
  rw [layout]
  exact ⟨crashOk, crashRecords.trans keptRecords, rfl, crashStart⟩

/-- After a failure inside a truncation the log holds a front of its records that reaches the
cut position, unless every file was deleted, which takes a cut below everything retained. -/
theorem Ok.truncateCrash {wal : SegmentWal} (ok : wal.Ok) (lsn deleted rotateBytes : Nat) :
    (SegmentWal.open (wal.truncateCrash lsn deleted) rotateBytes).Ok ∧
      ∃ kept, kept <+: wal.records ∧
        (SegmentWal.open (wal.truncateCrash lsn deleted) rotateBytes).records = kept ∧
        (kept ≠ [] →
          (SegmentWal.open (wal.truncateCrash lsn deleted) rotateBytes).retainedStart =
            wal.retainedStart ∧
          (SegmentWal.open (wal.truncateCrash lsn deleted) rotateBytes).flush =
            wal.retainedStart + framesLen kept ∧
          min lsn wal.flush ≤ wal.retainedStart + framesLen kept) ∧
        (kept = [] →
          (SegmentWal.open (wal.truncateCrash lsn deleted) rotateBytes).flush = 0 ∧
          (SegmentWal.open (wal.truncateCrash lsn deleted) rotateBytes).retainedStart = 0 ∧
          min lsn wal.flush ≤ wal.retainedStart) := by
  have sealedFiles : wal.sealActive.sealed = wal.files := by
    have same := sealActive_files ok.chained
    simpa [files] using same
  -- the files that are left are leading ones, and the deleted ones start at or above the cut
  obtain ⟨gone, shape, above⟩ : ∃ gone, wal.files = wal.truncateCrash lsn deleted ++ gone ∧
      ∀ seg ∈ gone, min lsn wal.flush ≤ seg.start := by
    rw [SegmentWal.truncateCrash]
    split
    · exact ⟨[], by simp, by simp⟩
    · rw [sealedFiles]
      obtain ⟨gone, shape, above, -⟩ := deleteFrom_spec lsn deleted wal.files
      refine ⟨gone, shape, fun seg mem => ?_⟩
      have := above seg mem
      omega
  generalize wal.truncateCrash lsn deleted = left at shape
  have chained := ok.chained
  have ends := ok.ends
  have recordsEq : wal.records = recordsOf left ++ recordsOf gone := by
    rw [← recordsOf_append, ← shape]
    rfl
  rw [shape, Chained.append] at chained
  obtain ⟨leftChained, goneChained⟩ := chained
  have reaches : min lsn wal.flush ≤ wal.retainedStart + framesLen (recordsOf left) := by
    cases gone with
    | nil =>
        simp only [recordsOf_nil, List.append_nil] at recordsEq
        rw [← recordsEq, ends]
        exact Nat.min_le_right _ _
    | cons seg gone =>
        have start : seg.start = _ := goneChained.1
        have := above seg (by simp)
        omega
  obtain ⟨leftOk, leftRecords, someLeft, noneLeft⟩ := open_chained leftChained rotateBytes
  refine ⟨leftOk, recordsOf left, ⟨recordsOf gone, recordsEq.symm⟩, leftRecords, ?_, ?_⟩
  · intro some
    obtain ⟨start, flushEq⟩ := someLeft (leftChained.recordsOf_eq_nil.not.mp some)
    exact ⟨start, flushEq, reaches⟩
  · intro none
    obtain ⟨flushEq, start⟩ := noneLeft (leftChained.recordsOf_eq_nil.mp none)
    rw [none] at reaches
    exact ⟨flushEq, start, reaches⟩

/-- After a failure inside a horizon advance the log stands where it did and has lost leading
records at or below the horizon. -/
theorem Ok.dropCrash {wal : SegmentWal} (ok : wal.Ok) (someRecord : wal.records ≠ [])
    (horizon dropped rotateBytes : Nat) :
    (SegmentWal.open (wal.dropCrash horizon dropped) rotateBytes).Ok ∧
      (SegmentWal.open (wal.dropCrash horizon dropped) rotateBytes).flush = wal.flush ∧
      (SegmentWal.open (wal.dropCrash horizon dropped) rotateBytes).records ≠ [] ∧
      ∃ gone, wal.records =
          gone ++ (SegmentWal.open (wal.dropCrash horizon dropped) rotateBytes).records ∧
        (SegmentWal.open (wal.dropCrash horizon dropped) rotateBytes).retainedStart =
          wal.retainedStart + framesLen gone ∧
        (gone ≠ [] → wal.retainedStart + framesLen gone ≤ horizon) := by
  obtain ⟨-, below, stays⟩ := wal.droppable_spec horizon
    (min dropped (wal.droppable horizon).length) (Nat.min_le_right _ _)
  obtain ⟨gone, recordsEq, chained, bound⟩ := dropped_records ok.chained below
  have someFile : wal.files ≠ [] := fun none => someRecord (ok.records_eq_nil.mpr none)
  obtain ⟨leftOk, leftRecords, someLeft, -⟩ := open_chained chained rotateBytes
  obtain ⟨start, flushEq⟩ := someLeft (stays someFile)
  have ends := ok.ends
  have recordsDef : wal.records = recordsOf wal.files := rfl
  rw [recordsDef, recordsEq, framesLen_append] at ends
  refine ⟨leftOk, ?_, ?_, gone, ?_, start, bound⟩
  · rw [SegmentWal.dropCrash, flushEq]
    omega
  · rw [SegmentWal.dropCrash, leftRecords]
    exact chained.recordsOf_eq_nil.not.mpr (stays someFile)
  · rw [SegmentWal.dropCrash, leftRecords, recordsDef, recordsEq]

end SegmentWal

end Icegres.Quorum
