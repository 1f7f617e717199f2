import Icegres.Quorum.Wal

/-!
# What the segmented log does to its records

The files of a log that was only written, truncated at record boundaries and trimmed below
the horizon form a chain of whole records that ends at the flush position. For such a log
every operation, and every failure inside one, is described by what it does to the retained
records; the file layout drops out of the rest of the development.
-/

namespace Icegres.Quorum

/-- Files that hold whole, consecutive records from `pos` on, none of them empty. -/
def Chained : Nat → List Seg → Prop
  | _, [] => True
  | pos, seg :: rest =>
      seg.start = pos ∧ Consecutive seg.start seg.records ∧ seg.torn = [] ∧ seg.records ≠ [] ∧
        Chained seg.endLsn rest

/-- The records of a list of files. -/
def recordsOf (files : List Seg) : List Record :=
  files.flatMap Seg.records

@[simp] theorem recordsOf_nil : recordsOf [] = [] := rfl

@[simp] theorem recordsOf_cons (seg : Seg) (files : List Seg) :
    recordsOf (seg :: files) = seg.records ++ recordsOf files := by
  simp [recordsOf]

@[simp] theorem recordsOf_append (left right : List Seg) :
    recordsOf (left ++ right) = recordsOf left ++ recordsOf right := by
  simp [recordsOf]

theorem framesLen_pos {records : List Record} (nonempty : records ≠ []) :
    0 < framesLen records := by
  cases records with
  | nil => exact absurd rfl nonempty
  | cons record records =>
      have := record.frameLen_pos
      simp only [framesLen_cons]
      omega

theorem Seg.endLsn_whole {seg : Seg} (whole : seg.torn = []) :
    seg.endLsn = seg.start + framesLen seg.records := by
  simp [Seg.endLsn, whole]

theorem Chained.append {pos : Nat} {left right : List Seg} :
    Chained pos (left ++ right) ↔
      Chained pos left ∧ Chained (pos + framesLen (recordsOf left)) right := by
  induction left generalizing pos with
  | nil => simp [Chained]
  | cons seg left ih =>
      simp only [List.cons_append, Chained, ih, recordsOf_cons, framesLen_append]
      constructor
      · rintro ⟨rfl, consecutive, whole, nonempty, inLeft, inRight⟩
        refine ⟨⟨rfl, consecutive, whole, nonempty, inLeft⟩, ?_⟩
        rwa [Seg.endLsn_whole whole, Nat.add_assoc] at inRight
      · rintro ⟨⟨rfl, consecutive, whole, nonempty, inLeft⟩, inRight⟩
        refine ⟨rfl, consecutive, whole, nonempty, inLeft, ?_⟩
        rwa [Seg.endLsn_whole whole, Nat.add_assoc]

theorem Chained.consecutive {pos : Nat} {files : List Seg} (chained : Chained pos files) :
    Consecutive pos (recordsOf files) := by
  induction files generalizing pos with
  | nil => exact trivial
  | cons seg files ih =>
      obtain ⟨rfl, consecutive, whole, -, rest⟩ := chained
      rw [recordsOf_cons, Consecutive.append]
      exact ⟨consecutive, Seg.endLsn_whole whole ▸ ih rest⟩

theorem Chained.recordsOf_eq_nil {pos : Nat} {files : List Seg} (chained : Chained pos files) :
    recordsOf files = [] ↔ files = [] := by
  cases files with
  | nil => simp
  | cons seg files =>
      obtain ⟨-, -, -, nonempty, -⟩ := chained
      simp [nonempty]

/-- A scan keeps consecutive records. -/
theorem scanRecords_consecutive {start : Nat} {records : List Record}
    (consecutive : Consecutive start records) : scanRecords start records = (records, false) := by
  induction records generalizing start with
  | nil => rfl
  | cons record records ih =>
      obtain ⟨rfl, more⟩ := consecutive
      simp [scanRecords, ih more]

/-- The scan of the first file of a chain and the walk over the rest. -/
theorem scanSegments_cons {seg : Seg} (consecutive : Consecutive seg.start seg.records)
    (whole : seg.torn = []) (nonempty : seg.records ≠ []) (rest : List Seg)
    {before : Option Nat} (agrees : ∀ position, before = some position → position = seg.start) :
    scanSegments (seg :: rest) before =
      (seg :: (scanSegments rest (some seg.endLsn)).1,
        (scanSegments rest (some seg.endLsn)).2) := by
  have notBefore : before.any (fun position => decide (position ≠ seg.start)) = false := by
    cases before with
    | none => rfl
    | some position => simpa using agrees position rfl
  have kept : scanWalSegment seg = (seg, false) := by
    cases seg with
    | mk start records torn =>
        simp only at whole consecutive
        subst whole
        simp [scanWalSegment, scanRecords_consecutive consecutive]
  have long : seg.endLsn ≠ seg.start := by
    have := framesLen_pos nonempty
    rw [Seg.endLsn_whole whole]
    omega
  simp only [scanSegments, notBefore, kept, Bool.false_eq_true, if_false, long,
    List.singleton_append]

/-- Where the chain ends, when there is one. -/
theorem scanSegments_chained {pos : Nat} {files : List Seg} (chained : Chained pos files)
    {before : Option Nat} (agrees : ∀ position, before = some position → position = pos) :
    scanSegments files before =
      (files, if files = [] then before else some (pos + framesLen (recordsOf files))) := by
  induction files generalizing pos before with
  | nil => simp [scanSegments]
  | cons seg files ih =>
      obtain ⟨rfl, consecutive, whole, nonempty, rest⟩ := chained
      have here : ∀ position, some seg.endLsn = some position → position = seg.endLsn := by simp
      have inner := ih rest here
      rw [scanSegments_cons consecutive whole nonempty files agrees, inner]
      simp only [List.cons_ne_nil, if_false, recordsOf_cons, framesLen_append]
      congr 1
      by_cases last : files = []
      · simp [last, Seg.endLsn_whole whole]
      · simp [last, Seg.endLsn_whole whole, Nat.add_assoc]

namespace SegmentWal

/-- The layout every reachable log has. -/
structure Ok (wal : SegmentWal) : Prop where
  chained : Chained wal.retainedStart wal.files
  ends : wal.retainedStart + framesLen wal.records = wal.flush
  fresh : wal.empty = true → wal.files = [] ∧ wal.flush = 0

namespace Ok

variable {wal : SegmentWal}

theorem consecutive (ok : wal.Ok) : Consecutive wal.retainedStart wal.records :=
  ok.chained.consecutive

theorem records_eq_nil (ok : wal.Ok) : wal.records = [] ↔ wal.files = [] :=
  ok.chained.recordsOf_eq_nil

theorem retainedStart_le (ok : wal.Ok) : wal.retainedStart ≤ wal.flush := by
  have := ok.ends
  omega

end Ok

/-- A restart over a chain of files keeps its records; without a file nothing is left, not
even the position. -/
theorem open_chained {pos : Nat} {files : List Seg} (chained : Chained pos files)
    (rotateBytes : Nat) :
    let wal := SegmentWal.open files rotateBytes
    wal.Ok ∧ wal.records = recordsOf files ∧
      (files ≠ [] → wal.retainedStart = pos ∧
        wal.flush = pos + framesLen (recordsOf files)) ∧
      (files = [] → wal.flush = 0 ∧ wal.retainedStart = 0) := by
  have nowhere : ∀ position, Option.none = some position → position = pos := by simp
  have scan := scanSegments_chained chained nowhere
  by_cases none : files = []
  · subst none
    have layout : SegmentWal.open [] rotateBytes =
        { sealed := [], active := Option.none, flush := 0, empty := true,
          rotateBytes := rotateBytes } := rfl
    rw [layout]
    refine ⟨⟨trivial, rfl, fun _ => ⟨rfl, rfl⟩⟩, rfl, fun nonempty => absurd rfl nonempty, ?_⟩
    exact fun _ => ⟨rfl, rfl⟩
  · have layout : SegmentWal.open files rotateBytes =
        { sealed := files, active := Option.none, flush := pos + framesLen (recordsOf files),
          empty := false, rotateBytes := rotateBytes } := by
      simp [SegmentWal.open, scan, none]
    obtain ⟨seg, rest, rfl⟩ := List.exists_cons_of_ne_nil none
    have start : seg.start = pos := chained.1
    rw [layout]
    refine ⟨⟨?_, ?_, by simp⟩, by simp [records, SegmentWal.files, recordsOf], ?_, by simp⟩
    · simpa [retainedStart, SegmentWal.files, start] using chained
    · simp [retainedStart, records, SegmentWal.files, start, recordsOf]
    · simp [retainedStart, SegmentWal.files, start]

/-- A chained active segment holds a record, so sealing it moves no file. -/
theorem sealActive_files {wal : SegmentWal} {pos : Nat} (chained : Chained pos wal.files) :
    wal.sealActive.files = wal.files := by
  cases active : wal.active with
  | none => simp [sealActive, files, active]
  | some seg =>
      rw [files, active, Option.toList_some, Chained.append] at chained
      obtain ⟨-, -, -, whole, nonempty, -⟩ := chained
      have long : seg.endLsn > seg.start := by
        have := framesLen_pos nonempty
        rw [Seg.endLsn_whole whole]
        omega
      simp [sealActive, files, active, long]

@[simp] theorem sealActive_flush (wal : SegmentWal) : wal.sealActive.flush = wal.flush := by
  unfold sealActive
  cases wal.active <;> rfl

@[simp] theorem sealActive_empty (wal : SegmentWal) : wal.sealActive.empty = wal.empty := by
  unfold sealActive
  cases wal.active <;> rfl

@[simp] theorem sealActive_active (wal : SegmentWal) : wal.sealActive.active = none := by
  unfold sealActive
  split
  · rfl
  · assumption

/-- Sealing changes nothing that the specification sees. -/
theorem Ok.sealActive {wal : SegmentWal} (ok : wal.Ok) :
    wal.sealActive.Ok ∧ wal.sealActive.records = wal.records ∧
      wal.sealActive.retainedStart = wal.retainedStart := by
  have same := sealActive_files ok.chained
  have sameRecords : wal.sealActive.records = wal.records := by simp [records, same]
  have sameStart : wal.sealActive.retainedStart = wal.retainedStart := by
    simp [retainedStart, same]
  refine ⟨⟨?_, ?_, ?_⟩, sameRecords, sameStart⟩
  · rw [sameStart, same]
    exact ok.chained
  · rw [sameStart, sameRecords, sealActive_flush]
    exact ok.ends
  · rw [sealActive_empty, same, sealActive_flush]
    exact ok.fresh

/-- The layout of a log with the given files whose flush position is their end. -/
theorem ok_of_files (wal : SegmentWal) {pos : Nat} (chained : Chained pos wal.files)
    (nonempty : wal.files ≠ []) (ends : pos + framesLen wal.records = wal.flush)
    (written : wal.empty = false) : wal.Ok ∧ wal.retainedStart = pos := by
  obtain ⟨seg, rest, shape⟩ := List.exists_cons_of_ne_nil nonempty
  have start : wal.retainedStart = pos := by
    rw [shape] at chained
    simpa [retainedStart, shape] using chained.1
  refine ⟨⟨?_, ?_, by simp [written]⟩, start⟩
  · rw [start]
    exact chained
  · rw [start]
    exact ends

/-- The files around the write position: the sealed ones are a chain, and the active one,
which may be about to be created, continues it up to the position. -/
theorem Ok.activeAt {wal : SegmentWal} (ok : wal.Ok) {begin : Nat}
    (position : wal.empty = false → begin = wal.flush) :
    Chained (if wal.records = [] then begin else wal.retainedStart) wal.sealed ∧
      (wal.activeAt begin).start =
        (if wal.records = [] then begin else wal.retainedStart) +
          framesLen (recordsOf wal.sealed) ∧
      Consecutive (wal.activeAt begin).start (wal.activeAt begin).records ∧
      (wal.activeAt begin).torn = [] ∧
      wal.records = recordsOf wal.sealed ++ (wal.activeAt begin).records ∧
      (wal.activeAt begin).start + framesLen (wal.activeAt begin).records = begin := by
  have ends := ok.ends
  have chained := ok.chained
  cases active : wal.active with
  | some seg =>
      have filesEq : wal.files = wal.sealed ++ [seg] := by simp [files, active]
      have unfresh : wal.empty = false := by
        by_contra isFresh
        simpa [filesEq] using (ok.fresh (by simpa using isFresh)).1
      rw [filesEq, Chained.append] at chained
      obtain ⟨front, start, inSeg, whole, segNonempty, -⟩ := chained
      have recordsEq : wal.records = recordsOf wal.sealed ++ seg.records := by
        simp [records, filesEq, recordsOf]
      have someRecord : wal.records ≠ [] := by simp [recordsEq, segNonempty]
      rw [recordsEq, framesLen_append] at ends
      simp only [SegmentWal.activeAt, active, Option.getD_some, if_neg someRecord]
      refine ⟨front, start, inSeg, whole, recordsEq, ?_⟩
      rw [position unfresh, start]
      omega
  | none =>
      have filesEq : wal.files = wal.sealed := by simp [files, active]
      have recordsEq : wal.records = recordsOf wal.sealed := by
        simp [records, filesEq, recordsOf]
      rw [filesEq] at chained
      simp only [SegmentWal.activeAt, active, Option.getD_none, framesLen_nil, List.append_nil]
      by_cases noRecord : wal.records = []
      · have noFile : wal.sealed = [] := by
          rw [← filesEq]
          exact ok.records_eq_nil.mp noRecord
        rw [if_pos noRecord, noFile]
        exact ⟨trivial, rfl, trivial, trivial, noRecord, rfl⟩
      · have unfresh : wal.empty = false := by
          by_contra isFresh
          exact noRecord (ok.records_eq_nil.mpr (ok.fresh (by simpa using isFresh)).1)
        rw [if_neg noRecord]
        refine ⟨chained, ?_, trivial, trivial, recordsEq, rfl⟩
        rw [position unfresh, ← ends, recordsEq]

/-- The files after a batch is written to the active segment. -/
private theorem Ok.written {wal : SegmentWal} (ok : wal.Ok) {begin : Nat} {batch : List Record}
    (nonempty : batch ≠ []) (consecutive : Consecutive begin batch)
    (position : wal.empty = false → begin = wal.flush) :
    let active := { wal.activeAt begin with records := (wal.activeAt begin).records ++ batch }
    Chained (if wal.records = [] then begin else wal.retainedStart) (wal.sealed ++ [active]) ∧
      recordsOf (wal.sealed ++ [active]) = wal.records ++ batch ∧
      active.endLsn = begin + framesLen batch := by
  obtain ⟨front, start, inActive, whole, recordsEq, atEnd⟩ := ok.activeAt position
  refine ⟨?_, by simp [recordsEq], ?_⟩
  · rw [Chained.append]
    refine ⟨front, start, ?_, whole, by simp [nonempty], trivial⟩
    rw [Consecutive.append]
    exact ⟨inActive, atEnd.symm ▸ consecutive⟩
  · simp only [Seg.endLsn, whole, framesLen_append, List.length_nil]
    omega

/-- An append at the write position adds the batch; the first one after nothing was retained
sets the local start. -/
theorem Ok.append {wal : SegmentWal} (ok : wal.Ok) {begin : Nat} {batch : List Record}
    (nonempty : batch ≠ []) (consecutive : Consecutive begin batch)
    (position : wal.empty = false → begin = wal.flush) :
    ∃ next, wal.append begin batch = .ok next ∧ next.Ok ∧
      next.records = wal.records ++ batch ∧ next.flush = begin + framesLen batch ∧
      next.retainedStart = (if wal.records = [] then begin else wal.retainedStart) ∧
      next.empty = false := by
  have atEnd : ¬ begin ≠ if wal.empty then begin else wal.flush := by
    cases written : wal.empty with
    | true => simp
    | false => simpa using position written
  obtain ⟨chained, recordsEq, endEq⟩ := ok.written nonempty consecutive position
  let active : Seg :=
    { wal.activeAt begin with records := (wal.activeAt begin).records ++ batch }
  let written : SegmentWal :=
    { wal with active := some active, flush := active.endLsn, empty := false }
  have filesEq : written.files = wal.sealed ++ [active] := by simp [files, written]
  have writtenRecords : written.records = wal.records ++ batch := by
    rw [← recordsEq, records, filesEq, recordsOf]
  have ends : (if wal.records = [] then begin else wal.retainedStart) +
      framesLen written.records = written.flush := by
    change _ = active.endLsn
    rw [endEq, writtenRecords, framesLen_append]
    by_cases noRecord : wal.records = []
    · simp [noRecord]
    · have unfresh : wal.empty = false := by
        by_contra isFresh
        exact noRecord (ok.records_eq_nil.mpr (ok.fresh (by simpa using isFresh)).1)
      rw [if_neg noRecord, position unfresh, ← ok.ends]
      omega
  obtain ⟨writtenOk, start⟩ := ok_of_files written (filesEq ▸ chained)
    (by simp [filesEq]) ends rfl
  rw [SegmentWal.append]
  simp only [if_neg atEnd]
  split
  · obtain ⟨sealedOk, sealedRecords, sealedStart⟩ := writtenOk.sealActive
    exact ⟨written.sealActive, rfl, sealedOk, sealedRecords.trans writtenRecords,
      (sealActive_flush written).trans endEq, sealedStart.trans start, sealActive_empty written⟩
  · exact ⟨written, rfl, writtenOk, writtenRecords, endEq, start, rfl⟩

end SegmentWal

end Icegres.Quorum
