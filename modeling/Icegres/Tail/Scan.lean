import Icegres.Tail.Segments

/-!
# Scanning a table's tail

The scan of a table reads its segments in the order of their names and repairs them as it goes: a
segment that ends in a bad frame is cut behind the last good one, a segment without frames is
deleted, and so is a segment behind a bad frame whose first sequence is not the expected one. The
file operations are listed beside the result, so that a scan can be interrupted after any of
them.
-/

namespace Icegres.Tail

/-- A segment file with the text of the poison marker beside it. -/
structure SegFile where
  name : String
  data : List UInt8
  marker : Option String
  deriving DecidableEq

inductive FileOp where
  | truncate (name : String) (len : Nat)
  | removeMarker (name : String)
  | removeSegment (name : String)
  deriving DecidableEq

/-- The segment whose files an operation changes. -/
def FileOp.name : FileOp → String
  | .truncate name _ | .removeMarker name | .removeSegment name => name

/-- A segment after an operation. A marker whose segment is gone is not read any more. -/
def FileOp.apply (op : FileOp) (file : SegFile) : Option SegFile :=
  if op.name = file.name then
    match op with
    | .truncate _ len => some { file with data := file.data.take len }
    | .removeMarker _ => some { file with marker := none }
    | .removeSegment _ => none
  else
    some file

/-- The files after operations in order. -/
def applyOps (ops : List FileOp) (files : List SegFile) : List SegFile :=
  ops.foldl (fun files op => files.filterMap op.apply) files

structure SegmentScan (Batches : Type) where
  frames : List (SeqOp Batches)
  /-- The segment ended in a bad frame, or in bytes behind the marker's length. -/
  hitBadFrame : Bool
  /-- The sequence the next segment starts at, if a marker says so. -/
  resumeHint : Option Nat

/-- What the scan of a table has gathered. -/
structure ScanState (Batches : Type) where
  frames : List (SeqOp Batches)
  /-- The kept segments with their highest sequences. -/
  sealed : List (String × Nat)
  nextSegment : Nat
  /-- The segment that ended in a bad frame, until a later one proves continuity. -/
  badFrameAt : Option String
  resumeHint : Option Nat

structure TableScan (Batches : Type) where
  frames : List (SeqOp Batches)
  sealed : List (String × Nat)
  nextSeq : Nat
  nextSegment : Nat

/-- The id in a segment's file name. -/
def segmentId (name : String) : Option Nat :=
  parseU64 16 (name.toList.take (name.toList.length - ".seg".length))

section Scan

variable {Batches : Type} (decodeIpc : List UInt8 → Except String Batches)

/-- The bytes of a segment that are read, and why not all of them. -/
def clamped (file : SegFile) : List UInt8 × Option String :=
  match file.marker.bind readPoisonMarker with
  | some marker =>
    if marker.clamp < file.data.length then
      (file.data.take marker.clamp,
        some s!"poison marker clamps the scan to {marker.clamp} bytes ({file.data.length - marker.clamp} bytes of post-poisoning garbage past it)")
    else
      (file.data, none)
  | none => (file.data, none)

/-- Read one segment, and cut off what is behind the last good frame. -/
def scanSegment (file : SegFile) : Except String (SegmentScan Batches × List FileOp) :=
  match walk decodeIpc (clamped file).1 with
  | .error why => .error s!"tail segment {file.name} holds an incompatible frame: {why}"
  | .ok found =>
    let bad := found.bad.or (clamped file).2
    .ok (⟨found.frames, bad.isSome,
        (file.marker.bind readPoisonMarker).bind PoisonMarker.resumeSeq⟩,
      if bad.isSome then [.truncate file.name found.goodEnd, .removeMarker file.name] else [])

namespace ScanState

variable {decodeIpc}

/-- Where numbering goes on behind the last bad frame. -/
def expected (state : ScanState Batches) : Option Nat :=
  state.resumeHint.or (state.frames.getLast?.map fun frame => frame.1 + 1)

/-- Every id in the directory is below the next one. -/
def noteId (state : ScanState Batches) (name : String) : ScanState Batches :=
  match segmentId name with
  | some id => { state with nextSegment := max state.nextSegment (id + 1) }
  | none => state

/-- The frames of a kept segment join. -/
def keep (state : ScanState Batches) (name : String) (last : Nat) (scan : SegmentScan Batches) :
    ScanState Batches :=
  { state with
    sealed := state.sealed ++ [(name, last)]
    frames := state.frames ++ scan.frames
    badFrameAt := if scan.hitBadFrame then some name else state.badFrameAt
    resumeHint := if scan.hitBadFrame then scan.resumeHint else state.resumeHint }

/-- Keep or delete a segment that was read. -/
def judge (state : ScanState Batches) (name : String) (scan : SegmentScan Batches) :
    ScanState Batches × List FileOp :=
  let state := state.noteId name
  match scan.frames.getLast? with
  | none =>
    (if scan.hitBadFrame then
        { state with badFrameAt := some name, resumeHint := scan.resumeHint }
      else
        state,
      [.removeSegment name, .removeMarker name])
  | some last =>
    match state.badFrameAt with
    | none => (state.keep name last.1 scan, [])
    | some _ =>
      if state.expected = none ∨ scan.frames.head?.map Prod.fst ≠ state.expected then
        (state, [.removeSegment name, .removeMarker name])
      else
        ({ state with badFrameAt := none, resumeHint := none }.keep name last.1 scan, [])

end ScanState

/-- Scan segments from a state on, with the operations on their files. -/
def scanFiles : ScanState Batches → List SegFile →
    Except String (ScanState Batches) × List FileOp
  | state, [] => (.ok state, [])
  | state, file :: rest =>
    match scanSegment decodeIpc file with
    | .error why => (.error why, [])
    | .ok (scan, repairs) =>
      let (state, removals) := state.judge file.name scan
      let (result, later) := scanFiles state rest
      (result, repairs ++ removals ++ later)

/-- Nothing was scanned. -/
def ScanState.start : ScanState Batches := ⟨[], [], 1, none, none⟩

/-- Scan the segments of a table, listed by name. -/
def scanTable (files : List SegFile) : Except String (TableScan Batches) × List FileOp :=
  let (result, ops) := scanFiles decodeIpc .start files
  (result.map fun state =>
    { frames := state.frames
      sealed := state.sealed
      nextSeq := (state.frames.getLast?.map fun frame => frame.1 + 1).getD 1
      nextSegment := state.nextSegment }, ops)

/-! ## Interrupted scans -/

/-- The frames, the kept segments and the next sequence of a scan, and the segments it leaves. -/
def outcome (files : List SegFile) :
    Except String (List (SeqOp Batches) × List (String × Nat) × Nat) ×
      List (String × List UInt8) :=
  let (result, ops) := scanTable decodeIpc files
  (result.map fun scan => (scan.frames, scan.sealed, scan.nextSeq),
    (applyOps ops files).map fun file => (file.name, file.data))

/-- Wherever the scan is interrupted, the next one ends as if it had not been. -/
def CrashIdempotent (files : List SegFile) : Prop :=
  ∀ count, outcome decodeIpc (applyOps ((scanTable decodeIpc files).2.take count) files) =
    outcome decodeIpc files

/-- The segments up to the first one of a foreign format. -/
def readable : List SegFile → List (SegmentScan Batches)
  | [] => []
  | file :: rest =>
    match scanSegment decodeIpc file with
    | .error _ => []
    | .ok (scan, _) => scan :: readable rest

end Scan

/-- The bad segment in front of the next one, back over segments without frames; the newest
first. -/
def openBreak {Batches : Type} : List (SegmentScan Batches) → Option (SegmentScan Batches)
  | [] => none
  | scan :: older =>
    if scan.hitBadFrame then some scan
    else if scan.frames.getLast? = none then openBreak older
    else none

/-- A segment behind a bad one begins where numbering goes on. -/
def Resumes {Batches : Type} (earlier : List (SegmentScan Batches)) (scan : SegmentScan Batches) :
    Prop :=
  ∀ bad, openBreak earlier.reverse = some bad → ∃ seq,
    scan.frames.head?.map Prod.fst = some seq ∧
      bad.resumeHint.or
        ((earlier.flatMap SegmentScan.frames).getLast?.map fun frame => frame.1 + 1) = some seq

/-- Every segment with frames begins where numbering goes on. -/
def Unbroken {Batches : Type} (decodeIpc : List UInt8 → Except String Batches)
    (files : List SegFile) : Prop :=
  ∀ earlier scan later, readable decodeIpc files = earlier ++ scan :: later →
    scan.frames ≠ [] → Resumes earlier scan

/-! ## Operations on files -/

theorem applyOps_append (ops more : List FileOp) (files : List SegFile) :
    applyOps (ops ++ more) files = applyOps more (applyOps ops files) :=
  List.foldl_append

@[simp] theorem applyOps_nil (files : List SegFile) : applyOps [] files = files := rfl

@[simp] theorem applyOps_no_files (ops : List FileOp) : applyOps ops [] = [] := by
  induction ops with
  | nil => rfl
  | cons op ops ih => exact ih

/-- Files are changed one by one. -/
theorem applyOps_files (ops : List FileOp) (front back : List SegFile) :
    applyOps ops (front ++ back) = applyOps ops front ++ applyOps ops back := by
  induction ops generalizing front back with
  | nil => rfl
  | cons op ops ih =>
      have step := ih (front.filterMap op.apply) (back.filterMap op.apply)
      rw [← List.filterMap_append] at step
      exact step

/-- Operations on other segments leave the files alone. -/
theorem applyOps_other {ops : List FileOp} {files : List SegFile}
    (others : ∀ op ∈ ops, ∀ file ∈ files, op.name ≠ file.name) : applyOps ops files = files := by
  induction ops with
  | nil => rfl
  | cons op ops ih =>
      have same : files.filterMap op.apply = files := by
        refine (List.filterMap_congr fun file mem => ?_).trans List.filterMap_some
        exact if_neg (others op List.mem_cons_self file mem)
      change applyOps ops (files.filterMap op.apply) = files
      rw [same]
      exact ih fun other mem => others other (List.mem_cons_of_mem _ mem)

/-- Operations make no new segments. -/
theorem name_of_mem_applyOps {ops : List FileOp} {files : List SegFile} {file : SegFile}
    (mem : file ∈ applyOps ops files) : ∃ old ∈ files, old.name = file.name := by
  induction ops generalizing files with
  | nil => exact ⟨file, mem, rfl⟩
  | cons op ops ih =>
      obtain ⟨mid, isMid, same⟩ := ih mem
      obtain ⟨old, isOld, after⟩ := List.mem_filterMap.mp isMid
      refine ⟨old, isOld, ?_⟩
      rw [← same]
      unfold FileOp.apply at after
      split at after
      · cases op with
        | truncate name len =>
            cases after
            rfl
        | removeMarker name =>
            cases after
            rfl
        | removeSegment name => cases after
      · exact congrArg SegFile.name (Option.some.inj after)

/-- Operations on one segment and then on others. -/
theorem applyOps_split {own later : List FileOp} {name : String} {front back : List SegFile}
    (isFront : ∀ file ∈ front, file.name = name) (isBack : ∀ file ∈ back, file.name ≠ name)
    (isOwn : ∀ op ∈ own, op.name = name)
    (isLater : ∀ op ∈ later, ∃ other ∈ back, op.name = other.name) :
    applyOps (own ++ later) (front ++ back) = applyOps own front ++ applyOps later back := by
  have ownOnly : applyOps own back = back := applyOps_other fun op mem other isOther same =>
    isBack other isOther (same.symm.trans (isOwn op mem))
  have laterOnly : applyOps later (applyOps own front) = applyOps own front := by
    refine applyOps_other fun op mem left isLeft same => ?_
    obtain ⟨other, isOther, isName⟩ := isLater op mem
    obtain ⟨old, isOld, sameName⟩ := name_of_mem_applyOps isLeft
    exact isBack other isOther (by rw [← isName, same, ← sameName, isFront old isOld])
  rw [applyOps_append, applyOps_files, ownOnly, applyOps_files, laterOnly]

/-! ## Scanning what a scan left -/

section Repair

variable {Batches : Type} {decodeIpc : List UInt8 → Except String Batches}
  {file : SegFile} {rest : List SegFile} {scan : SegmentScan Batches} {repairs : List FileOp}

/-- Up to the marker's length a segment is read. -/
theorem clamped_eq_take (file : SegFile) :
    ∃ len, (clamped file).1 = file.data.take len ∧
      ∀ marker, file.marker.bind readPoisonMarker = some marker → len ≤ marker.clamp ∨
        file.data.length ≤ marker.clamp := by
  unfold clamped
  split
  · next marker isMarker =>
      split
      · exact ⟨marker.clamp, rfl, fun other isOther => by
          cases isMarker.symm.trans isOther
          exact .inl (Nat.le_refl _)⟩
      · next long =>
          refine ⟨file.data.length, by rw [List.take_length], fun other isOther => ?_⟩
          cases isMarker.symm.trans isOther
          exact .inr (Nat.not_lt.mp long)
  · next none =>
      exact ⟨file.data.length, by rw [List.take_length], fun other isOther => by
        rw [none] at isOther
        cases isOther⟩

/-- A segment that was cut is read as it was before, to its end. -/
theorem scanSegment_repaired (scans : scanSegment decodeIpc file = .ok (scan, repairs)) :
    ∃ len, repairs = (if scan.hitBadFrame then
        [.truncate file.name len, .removeMarker file.name] else []) ∧
      ∀ marker, marker = file.marker ∨ marker = none → ∃ hint,
        scanSegment decodeIpc { file with data := file.data.take len, marker := marker } =
          .ok (⟨scan.frames, false, hint⟩, []) := by
  unfold scanSegment at scans
  split at scans
  · cases scans
  · next found walks =>
      cases scans
      refine ⟨found.goodEnd, rfl, fun marker isMarker => ?_⟩
      obtain ⟨bounded, rewalks⟩ := walk_take walks
      obtain ⟨len, isTake, clamps⟩ := clamped_eq_take file
      rw [isTake, List.length_take] at bounded
      have data : (clamped file).1.take found.goodEnd = file.data.take found.goodEnd := by
        rw [isTake, List.take_take, Nat.min_eq_left (Nat.le_trans bounded (Nat.min_le_left _ _))]
      -- the marker bounds nothing any more
      have whole : clamped { file with data := file.data.take found.goodEnd, marker := marker } =
          (file.data.take found.goodEnd, none) := by
        unfold clamped
        dsimp only
        split
        · next other isOther =>
            have short : (file.data.take found.goodEnd).length ≤ other.clamp := by
              rcases isMarker with rfl | rfl
              · rw [List.length_take]
                rcases clamps other isOther with below | below <;> omega
              · cases isOther
            rw [if_neg (Nat.not_lt.mpr short)]
        · rfl
      refine ⟨(marker.bind readPoisonMarker).bind PoisonMarker.resumeSeq, ?_⟩
      unfold scanSegment
      rw [whole, ← data, rewalks]
      rfl

theorem exists_getLast {α : Type} {items : List α} (some' : items ≠ []) :
    ∃ last, items.getLast? = some last :=
  Option.ne_none_iff_exists'.mp (mt List.getLast?_eq_none_iff.mp some')

/-- The names of the segments and their bytes. -/
def shown (files : List SegFile) : List (String × List UInt8) :=
  files.map fun file => (file.name, file.data)

namespace ScanState

variable {state other : ScanState Batches}

/-- The segment begins elsewhere than where numbering goes on behind a bad frame. -/
def Gapped (state : ScanState Batches) (scan : SegmentScan Batches) : Prop :=
  scan.frames ≠ [] ∧ state.badFrameAt ≠ none ∧
    (state.expected = none ∨ scan.frames.head?.map Prod.fst ≠ state.expected)

/-- The same was gathered. -/
structure Like (state other : ScanState Batches) : Prop where
  frames : other.frames = state.frames
  isSealed : other.sealed = state.sealed

/-- The same bad frame is behind. -/
def SameBreak (state other : ScanState Batches) : Prop :=
  other.badFrameAt = state.badFrameAt ∧ other.resumeHint = state.resumeHint

@[simp] theorem noteId_frames (name : String) : (state.noteId name).frames = state.frames := by
  unfold noteId
  split <;> rfl

@[simp] theorem noteId_sealed (name : String) : (state.noteId name).sealed = state.sealed := by
  unfold noteId
  split <;> rfl

@[simp] theorem noteId_badFrameAt (name : String) :
    (state.noteId name).badFrameAt = state.badFrameAt := by
  unfold noteId
  split <;> rfl

@[simp] theorem noteId_resumeHint (name : String) :
    (state.noteId name).resumeHint = state.resumeHint := by
  unfold noteId
  split <;> rfl

@[simp] theorem noteId_expected (name : String) :
    (state.noteId name).expected = state.expected := by
  simp [expected]

/-- Without frames a segment is deleted, and its bad frame noted. -/
theorem judge_empty (state : ScanState Batches) (name : String) (scan : SegmentScan Batches)
    (none' : scan.frames = []) :
    (state.judge name scan).2 = [.removeSegment name, .removeMarker name] ∧
      state.Like (state.judge name scan).1 ∧
      (state.judge name scan).1.badFrameAt =
        (if scan.hitBadFrame then some name else state.badFrameAt) ∧
      (state.judge name scan).1.resumeHint =
        (if scan.hitBadFrame then scan.resumeHint else state.resumeHint) := by
  simp only [judge, none', List.getLast?_nil]
  cases scan.hitBadFrame with
  | true => exact ⟨trivial, ⟨noteId_frames _, noteId_sealed _⟩, rfl, rfl⟩
  | false =>
      exact ⟨trivial, ⟨noteId_frames _, noteId_sealed _⟩, noteId_badFrameAt _,
        noteId_resumeHint _⟩

/-- A segment that begins where it should is kept. -/
theorem judge_kept (state : ScanState Batches) (name : String) (scan : SegmentScan Batches)
    {last : SeqOp Batches} (isLast : scan.frames.getLast? = some last)
    (continues : ¬ state.Gapped scan) :
    (state.judge name scan).2 = [] ∧
      (state.judge name scan).1.frames = state.frames ++ scan.frames ∧
      (state.judge name scan).1.sealed = state.sealed ++ [(name, last.1)] ∧
      (state.judge name scan).1.badFrameAt = (if scan.hitBadFrame then some name else none) ∧
      (scan.hitBadFrame = true → (state.judge name scan).1.resumeHint = scan.resumeHint) := by
  have some' : scan.frames ≠ [] := by
    intro none'
    rw [none'] at isLast
    cases isLast
  simp only [judge, isLast, noteId_badFrameAt, noteId_expected]
  cases isBad : state.badFrameAt with
  | none =>
      simp only [keep, noteId_frames, noteId_sealed, noteId_badFrameAt, isBad, true_and]
      exact fun hit => if_pos hit
  | some bad =>
      dsimp only
      have resumes : ¬ (state.expected = none ∨
          scan.frames.head?.map Prod.fst ≠ state.expected) := fun gapped =>
        continues ⟨some', by rw [isBad]; exact Option.some_ne_none _, gapped⟩
      rw [if_neg resumes]
      simp only [keep, noteId_frames, noteId_sealed, true_and]
      exact fun hit => if_pos hit

/-- A segment that begins elsewhere is deleted. -/
theorem judge_gapped (name : String) (gapped : state.Gapped scan) :
    (state.judge name scan).2 = [.removeSegment name, .removeMarker name] := by
  obtain ⟨some', isBad, elsewhere⟩ := gapped
  obtain ⟨last, isLast⟩ := exists_getLast some'
  obtain ⟨bad, isBad⟩ := Option.ne_none_iff_exists'.mp isBad
  simp only [judge, isLast, noteId_badFrameAt, isBad, noteId_expected]
  rw [if_pos elsewhere]

end ScanState

/-- What is left of one segment is scanned from `other` on to `after`, and leaves these files. -/
structure Again (decodeIpc : List UInt8 → Except String Batches) (name : String)
    (next other after : ScanState Batches) (head : List SegFile)
    (left : List (String × List UInt8)) : Prop where
  like : next.Like after
  scans : ∃ ops, (∀ op ∈ ops, op.name = name) ∧
    (∀ rest, scanFiles decodeIpc other (head ++ rest) =
      ((scanFiles decodeIpc after rest).1, ops ++ (scanFiles decodeIpc after rest).2)) ∧
    shown (applyOps ops head) = left

theorem repairs_name (scans : scanSegment decodeIpc file = .ok (scan, repairs)) :
    ∀ op ∈ repairs, op.name = file.name := by
  obtain ⟨len, isRepairs, -⟩ := scanSegment_repaired scans
  rw [isRepairs]
  intro op mem
  split at mem
  · rcases List.mem_cons.mp mem with rfl | mem
    · rfl
    · rw [List.mem_singleton.mp mem]
      rfl
  · cases mem

theorem removals_name (state : ScanState Batches) (name : String) (scan : SegmentScan Batches) :
    ∀ op ∈ (state.judge name scan).2, op.name = name := by
  have both : ∀ op ∈ [FileOp.removeSegment name, FileOp.removeMarker name], op.name = name := by
    simp [FileOp.name]
  by_cases none' : scan.frames = []
  · rw [(ScanState.judge_empty state name scan none').1]
    exact both
  · by_cases gapped : state.Gapped scan
    · rw [ScanState.judge_gapped name gapped]
      exact both
    · obtain ⟨last, isLast⟩ := exists_getLast none'
      rw [(ScanState.judge_kept state name scan isLast gapped).1]
      simp

/-- One segment that is read is repaired and judged. -/
theorem scanFiles_cons (scans : scanSegment decodeIpc file = .ok (scan, repairs))
    (state : ScanState Batches) (rest : List SegFile) :
    scanFiles decodeIpc state (file :: rest) =
      ((scanFiles decodeIpc (state.judge file.name scan).1 rest).1,
        repairs ++ (state.judge file.name scan).2 ++
          (scanFiles decodeIpc (state.judge file.name scan).1 rest).2) := by
  rw [scanFiles, scans]

section Judged

variable {state other : ScanState Batches}

/-- A segment is judged alike from states that are alike. -/
theorem judge_like (like : state.Like other) (continues : ¬ state.Gapped scan)
    (alike : ¬ other.Gapped scan) (name : String) :
    (state.judge name scan).2 = (other.judge name scan).2 ∧
      (state.judge name scan).1.Like (other.judge name scan).1 := by
  by_cases none' : scan.frames = []
  · obtain ⟨ops, first, -⟩ := ScanState.judge_empty state name scan none'
    obtain ⟨ops', second, -⟩ := ScanState.judge_empty other name scan none'
    exact ⟨ops.trans ops'.symm, second.frames.trans (like.frames.trans first.frames.symm),
      second.isSealed.trans (like.isSealed.trans first.isSealed.symm)⟩
  · obtain ⟨last, isLast⟩ := exists_getLast none'
    obtain ⟨ops, frames, isSealed, -⟩ := ScanState.judge_kept state name scan isLast continues
    obtain ⟨ops', frames', isSealed', -⟩ := ScanState.judge_kept other name scan isLast alike
    refine ⟨ops.trans ops'.symm, ?_, ?_⟩
    · rw [frames, frames', like.frames]
    · rw [isSealed, isSealed', like.isSealed]

/-- The state of the same break, or of none, keeps what the first one keeps. -/
theorem not_gapped_of_same (like : state.Like other)
    (fresh : other.badFrameAt = none ∨ state.SameBreak other) (continues : ¬ state.Gapped scan) :
    ¬ other.Gapped scan := by
  rintro ⟨some', isBad, elsewhere⟩
  rcases fresh with none' | ⟨same, hint⟩
  · exact isBad none'
  · refine continues ⟨some', same ▸ isBad, ?_⟩
    have expected : other.expected = state.expected := by
      rw [ScanState.expected, ScanState.expected, like.frames, hint]
    rwa [expected] at elsewhere

/-- The breaks after a segment that is judged from both states. -/
theorem fresh_judge (fresh : other.badFrameAt = none ∨ state.SameBreak other)
    (continues : ¬ state.Gapped scan) (alike : ¬ other.Gapped scan) (name : String) :
    (other.judge name scan).1.badFrameAt = none ∨
      (state.judge name scan).1.SameBreak (other.judge name scan).1 := by
  by_cases none' : scan.frames = []
  · obtain ⟨-, -, bad, hint⟩ := ScanState.judge_empty state name scan none'
    obtain ⟨-, -, bad', hint'⟩ := ScanState.judge_empty other name scan none'
    rw [ScanState.SameBreak, bad, hint, bad', hint']
    cases scan.hitBadFrame with
    | true => exact .inr ⟨rfl, rfl⟩
    | false => exact fresh
  · obtain ⟨last, isLast⟩ := exists_getLast none'
    obtain ⟨-, -, -, bad, hint⟩ := ScanState.judge_kept state name scan isLast continues
    obtain ⟨-, -, -, bad', hint'⟩ := ScanState.judge_kept other name scan isLast alike
    rw [ScanState.SameBreak, bad, bad']
    cases hit : scan.hitBadFrame with
    | true => exact .inr ⟨rfl, (hint' hit).trans (hint hit).symm⟩
    | false => exact .inl rfl

/-- An untouched segment is scanned as before. -/
theorem again_untouched (scans : scanSegment decodeIpc file = .ok (scan, repairs))
    (like : state.Like other) (continues : ¬ state.Gapped scan) (alike : ¬ other.Gapped scan) :
    Again decodeIpc file.name (state.judge file.name scan).1 other (other.judge file.name scan).1
      [file] (shown (applyOps (repairs ++ (state.judge file.name scan).2) [file])) := by
  obtain ⟨sameOps, after⟩ := judge_like like continues alike file.name
  refine ⟨after, repairs ++ (other.judge file.name scan).2, fun op mem => ?_,
    scanFiles_cons scans other, by rw [sameOps]⟩
  rcases List.mem_append.mp mem with first | second
  · exact repairs_name scans op first
  · exact removals_name other file.name scan op second

/-- A segment that was cut is kept or deleted as before, and its bad frame is forgotten. -/
theorem again_repaired {again : SegFile} {hint : Option Nat} (isName : again.name = file.name)
    (rescans : scanSegment decodeIpc again = .ok (⟨scan.frames, false, hint⟩, []))
    (like : state.Like other) (continues : ¬ state.Gapped scan) (fresh : other.badFrameAt = none)
    {left : List (String × List UInt8)}
    (leaves : left = if scan.frames = [] then [] else [(file.name, again.data)]) :
    ∃ after, Again decodeIpc file.name (state.judge file.name scan).1 other after [again] left ∧
      after.badFrameAt = none := by
  have alike : ¬ other.Gapped ⟨scan.frames, false, hint⟩ := fun gapped => gapped.2.1 fresh
  have ops := removals_name other again.name ⟨scan.frames, false, hint⟩
  refine ⟨(other.judge again.name ⟨scan.frames, false, hint⟩).1, ⟨?_, _, fun op mem => ?_,
    scanFiles_cons rescans other, ?_⟩, ?_⟩
  · by_cases none' : scan.frames = []
    · obtain ⟨-, first, -⟩ := ScanState.judge_empty state file.name scan none'
      obtain ⟨-, second, -⟩ := ScanState.judge_empty other again.name ⟨scan.frames, false, hint⟩
        none'
      exact ⟨second.frames.trans (like.frames.trans first.frames.symm),
        second.isSealed.trans (like.isSealed.trans first.isSealed.symm)⟩
    · obtain ⟨last, isLast⟩ := exists_getLast none'
      obtain ⟨-, frames, isSealed, -⟩ := ScanState.judge_kept state file.name scan isLast continues
      obtain ⟨-, frames', isSealed', -⟩ :=
        ScanState.judge_kept other again.name ⟨scan.frames, false, hint⟩ isLast alike
      exact ⟨by rw [frames, frames', like.frames], by
        rw [isSealed, isSealed', like.isSealed, isName]⟩
  · rw [List.nil_append] at mem
    exact (ops op mem).trans isName
  · rw [List.nil_append, leaves]
    by_cases none' : scan.frames = []
    · rw [(ScanState.judge_empty other again.name ⟨scan.frames, false, hint⟩ none').1,
        if_pos none']
      simp [applyOps, FileOp.apply, FileOp.name, shown]
    · obtain ⟨last, isLast⟩ := exists_getLast none'
      rw [(ScanState.judge_kept other again.name ⟨scan.frames, false, hint⟩ isLast alike).1,
        if_neg none', ← isName]
      rfl
  · by_cases none' : scan.frames = []
    · exact (ScanState.judge_empty other again.name ⟨scan.frames, false, hint⟩
        none').2.2.1.trans fresh
    · obtain ⟨last, isLast⟩ := exists_getLast none'
      exact (ScanState.judge_kept other again.name ⟨scan.frames, false, hint⟩ isLast alike).2.2.2.1

/-- A segment that is gone stays away. -/
theorem again_gone (like : state.Like other) (none' : scan.frames = [])
    {left : List (String × List UInt8)} (leaves : left = []) :
    Again decodeIpc file.name (state.judge file.name scan).1 other other [] left := by
  obtain ⟨-, after, -⟩ := ScanState.judge_empty state file.name scan none'
  exact ⟨⟨like.frames.trans after.frames.symm, like.isSealed.trans after.isSealed.symm⟩, [],
    by simp, fun rest => rfl, leaves.symm⟩

@[simp] theorem applyOps_truncate {name : String} (isName : file.name = name) (len : Nat)
    (ops : List FileOp) : applyOps (.truncate name len :: ops) [file] =
      applyOps ops [{ file with data := file.data.take len }] := by
  simp [applyOps, FileOp.apply, FileOp.name, isName]

@[simp] theorem applyOps_removeMarker {name : String} (isName : file.name = name)
    (ops : List FileOp) : applyOps (.removeMarker name :: ops) [file] =
      applyOps ops [{ file with marker := none }] := by
  simp [applyOps, FileOp.apply, FileOp.name, isName]

@[simp] theorem applyOps_removeSegment {name : String} (isName : file.name = name)
    (ops : List FileOp) : applyOps (.removeSegment name :: ops) [file] = [] := by
  have gone : applyOps (.removeSegment name :: ops) [file] = applyOps ops [] := by
    simp [applyOps, FileOp.apply, FileOp.name, isName]
  rw [gone, applyOps_no_files]

/-- However much was done to a segment, it is scanned to the same end. A bad frame is forgotten
unless nothing was done yet. -/
theorem head_again (scans : scanSegment decodeIpc file = .ok (scan, repairs))
    (like : state.Like other) (continues : ¬ state.Gapped scan) (count : Nat)
    (fresh : other.badFrameAt = none ∨ count = 0 ∧ state.SameBreak other) :
    ∃ after, Again decodeIpc file.name (state.judge file.name scan).1 other after
        (applyOps ((repairs ++ (state.judge file.name scan).2).take count) [file])
        (shown (applyOps (repairs ++ (state.judge file.name scan).2) [file])) ∧
      (after.badFrameAt = none ∨
        count = 0 ∧ (state.judge file.name scan).1.SameBreak after) ∧
      ((repairs ++ (state.judge file.name scan).2).length ≤ count → other.badFrameAt = none →
        after.badFrameAt = none) := by
  have alike := not_gapped_of_same like (fresh.imp_right And.right) continues
  have untouched := again_untouched scans like continues alike
  have judged := fresh_judge (fresh.imp_right And.right) continues alike file.name
  obtain ⟨len, isRepairs, rescans⟩ := scanSegment_repaired scans
  cases count with
  | zero =>
      refine ⟨(other.judge file.name scan).1, untouched, judged.imp_right fun same => ⟨rfl, same⟩,
        fun short free => ?_⟩
      have noOps := List.length_eq_zero_iff.mp (Nat.le_zero.mp short)
      obtain ⟨noRepairs, noRemovals⟩ := List.append_eq_nil_iff.mp noOps
      have kept : scan.frames ≠ [] := by
        intro none'
        rw [(ScanState.judge_empty state file.name scan none').1] at noRemovals
        cases noRemovals
      obtain ⟨last, isLast⟩ := exists_getLast kept
      rw [(ScanState.judge_kept other file.name scan isLast alike).2.2.2.1]
      cases hit : scan.hitBadFrame with
      | false => rfl
      | true =>
          rw [isRepairs, hit] at noRepairs
          cases noRepairs
  | succ count =>
      have free : other.badFrameAt = none := fresh.resolve_right fun same => nomatch same.1
      have repaired (marker : Option String) (isMarker : marker = file.marker ∨ marker = none)
          {left : List (String × List UInt8)}
          (leaves : left = if scan.frames = [] then [] else [(file.name, file.data.take len)]) :
          ∃ after, Again decodeIpc file.name (state.judge file.name scan).1 other after
            [{ file with data := file.data.take len, marker := marker }] left ∧
            after.badFrameAt = none := by
        obtain ⟨hint, rescan⟩ := rescans marker isMarker
        refine again_repaired ?_ rescan like continues free leaves
        rfl
      suffices ends : ∃ after, Again decodeIpc file.name (state.judge file.name scan).1 other after
          (applyOps ((repairs ++ (state.judge file.name scan).2).take (count + 1)) [file])
          (shown (applyOps (repairs ++ (state.judge file.name scan).2) [file])) ∧
          after.badFrameAt = none by
        obtain ⟨after, again, none'⟩ := ends
        exact ⟨after, again, .inl none', fun _ _ => none'⟩
      by_cases none' : scan.frames = []
      · have removals := (ScanState.judge_empty state file.name scan none').1
        cases hit : scan.hitBadFrame with
        | false =>
            rw [isRepairs, removals, hit]
            exact ⟨other, by simpa using again_gone like none' (by simp [shown]), free⟩
        | true =>
            rw [isRepairs, removals, hit]
            cases count with
            | zero => simpa using repaired file.marker (.inl rfl) (by simp [shown, none'])
            | succ count =>
                cases count with
                | zero => simpa using repaired none (.inr rfl) (by simp [shown, none'])
                | succ count =>
                    exact ⟨other, by simpa using again_gone like none' (by simp [shown]), free⟩
      · obtain ⟨last, isLast⟩ := exists_getLast none'
        obtain ⟨removals, -, -, bad, -⟩ :=
          ScanState.judge_kept state file.name scan isLast continues
        cases hit : scan.hitBadFrame with
        | false =>
            rw [isRepairs, removals, hit] at untouched ⊢
            exact ⟨_, untouched, by
              rw [(ScanState.judge_kept other file.name scan isLast alike).2.2.2.1, hit]
              rfl⟩
        | true =>
            rw [isRepairs, removals, hit]
            cases count with
            | zero =>
                simpa using repaired file.marker (.inl rfl) (by simp [shown, none'])
            | succ count =>
                simpa using repaired none (.inr rfl) (by simp [shown, none'])

end Judged

/-! ## Scans of tables -/

/-- No segment is deleted behind a bad frame. -/
def Clean (decodeIpc : List UInt8 → Except String Batches) :
    ScanState Batches → List SegFile → Prop
  | _, [] => True
  | state, file :: rest =>
    match scanSegment decodeIpc file with
    | .error _ => True
    | .ok (scan, _) =>
      ¬ state.Gapped scan ∧ Clean decodeIpc (state.judge file.name scan).1 rest

/-- The scan changes the files of the segments it reads. -/
theorem ops_name (state : ScanState Batches) (files : List SegFile) :
    ∀ op ∈ (scanFiles decodeIpc state files).2, ∃ file ∈ files, op.name = file.name := by
  induction files generalizing state with
  | nil => simp [scanFiles]
  | cons file rest ih =>
      cases scans : scanSegment decodeIpc file with
      | error why => simp [scanFiles, scans]
      | ok read =>
          obtain ⟨scan, repairs⟩ := read
          rw [scanFiles_cons scans]
          intro op mem
          rcases List.mem_append.mp mem with own | later
          · refine ⟨file, List.mem_cons_self, ?_⟩
            rcases List.mem_append.mp own with first | second
            · exact repairs_name scans op first
            · exact removals_name state file.name scan op second
          · obtain ⟨other, isOther, isName⟩ := ih _ op later
            exact ⟨other, List.mem_cons_of_mem _ isOther, isName⟩

/-- What a scan has gathered, as far as a caller sees it. -/
def gathered (result : Except String (ScanState Batches)) :
    Except String (List (SeqOp Batches) × List (String × Nat)) :=
  result.map fun state => (state.frames, state.sealed)

theorem apart (distinct : ((file :: rest).map SegFile.name).Nodup) :
    ∀ other ∈ rest, other.name ≠ file.name := by
  rw [List.map_cons, List.nodup_cons] at distinct
  exact fun other mem same => distinct.1 (same ▸ List.mem_map_of_mem mem)

/-- The operations of a scan up to some point, one segment after the other. -/
theorem applyOps_take (scans : scanSegment decodeIpc file = .ok (scan, repairs))
    (state : ScanState Batches) (count : Nat)
    (distinct : ((file :: rest).map SegFile.name).Nodup) :
    applyOps ((scanFiles decodeIpc state (file :: rest)).2.take count) (file :: rest) =
      applyOps ((repairs ++ (state.judge file.name scan).2).take count) [file] ++
        applyOps ((scanFiles decodeIpc (state.judge file.name scan).1 rest).2.take
          (count - (repairs ++ (state.judge file.name scan).2).length)) rest := by
  rw [scanFiles_cons scans, List.take_append, ← List.singleton_append]
  refine applyOps_split (by simp) (apart distinct) (fun op mem => ?_) (fun op mem => ?_)
  · rcases List.mem_append.mp (List.mem_of_mem_take mem) with first | second
    · exact repairs_name scans op first
    · exact removals_name state file.name scan op second
  · exact ops_name _ _ op (List.mem_of_mem_take mem)

/-- The operations of a whole scan, one segment after the other. -/
theorem applyOps_whole (scans : scanSegment decodeIpc file = .ok (scan, repairs))
    (state : ScanState Batches) (distinct : ((file :: rest).map SegFile.name).Nodup) :
    applyOps (scanFiles decodeIpc state (file :: rest)).2 (file :: rest) =
      applyOps (repairs ++ (state.judge file.name scan).2) [file] ++
        applyOps (scanFiles decodeIpc (state.judge file.name scan).1 rest).2 rest := by
  have all := applyOps_take scans state
    (scanFiles decodeIpc state (file :: rest)).2.length distinct
  rw [List.take_length, List.take_of_length_le, List.take_of_length_le] at all
  · exact all
  · simp only [scanFiles_cons scans, List.length_append]
    omega
  · simp only [scanFiles_cons scans, List.length_append]
    omega

theorem shown_append (front back : List SegFile) :
    shown (front ++ back) = shown front ++ shown back :=
  List.map_append

/-- A scan that deletes no segment behind a bad frame may be interrupted anywhere. The induction
is over the segments; up to the interruption every bad frame is forgotten, and behind it the two
scans know the same ones, or the second knows none. -/
theorem scan_again {state other : ScanState Batches} {files : List SegFile}
    (distinct : (files.map SegFile.name).Nodup) (clean : Clean decodeIpc state files)
    (like : state.Like other) (count : Nat)
    (fresh : other.badFrameAt = none ∨ count = 0 ∧ state.SameBreak other) :
    gathered (scanFiles decodeIpc other
        (applyOps ((scanFiles decodeIpc state files).2.take count) files)).1 =
        gathered (scanFiles decodeIpc state files).1 ∧
      shown (applyOps (scanFiles decodeIpc other
          (applyOps ((scanFiles decodeIpc state files).2.take count) files)).2
            (applyOps ((scanFiles decodeIpc state files).2.take count) files)) =
        shown (applyOps (scanFiles decodeIpc state files).2 files) := by
  induction files generalizing state other count with
  | nil => simp [scanFiles, gathered, Except.map, like.frames, like.isSealed]
  | cons file rest ih =>
      cases scans : scanSegment decodeIpc file with
      | error why => simp [scanFiles, scans, gathered, Except.map]
      | ok read =>
          obtain ⟨scan, repairs⟩ := read
          rw [Clean, scans] at clean
          obtain ⟨after, again, broken, -⟩ := head_again scans like clean.1 count fresh
          obtain ⟨ops, isOwn, rescans, leaves⟩ := again.scans
          have tail := (List.nodup_cons.mp (List.map_cons ▸ distinct)).2
          obtain ⟨result, files⟩ := ih tail clean.2 again.like
            (count - (repairs ++ (state.judge file.name scan).2).length)
            (broken.imp_right fun same => ⟨by omega, same.2⟩)
          have others := apart distinct
          have whole := applyOps_whole scans state distinct
          rw [applyOps_take scans state count distinct, rescans, scanFiles_cons scans state rest]
          refine ⟨result, ?_⟩
          rw [scanFiles_cons scans state rest] at whole
          rw [whole, shown_append, ← leaves, ← files, ← shown_append]
          refine congrArg shown (applyOps_split (fun left mem => ?_) (fun left mem => ?_) isOwn
            (ops_name _ _))
          · obtain ⟨old, isOld, same⟩ := name_of_mem_applyOps mem
            rw [← same, List.mem_singleton.mp isOld]
          · obtain ⟨old, isOld, same⟩ := name_of_mem_applyOps mem
            exact same ▸ others old isOld

theorem shown_name {files : List SegFile} {name : String} {data : List UInt8}
    (mem : (name, data) ∈ shown files) : ∃ file ∈ files, file.name = name := by
  obtain ⟨file, isFile, same⟩ := List.mem_map.mp mem
  exact ⟨file, isFile, congrArg Prod.fst same⟩

/-- A scan that would delete a segment behind a bad frame keeps it when it is run again after the
segments before were repaired. -/
theorem exists_kept_again {state other : ScanState Batches} {files : List SegFile}
    (distinct : (files.map SegFile.name).Nodup) (deletes : ¬ Clean decodeIpc state files)
    (like : state.Like other) (free : other.badFrameAt = none) :
    ∃ count, shown (applyOps (scanFiles decodeIpc other
        (applyOps ((scanFiles decodeIpc state files).2.take count) files)).2
          (applyOps ((scanFiles decodeIpc state files).2.take count) files)) ≠
      shown (applyOps (scanFiles decodeIpc state files).2 files) := by
  induction files generalizing state other with
  | nil => exact absurd trivial deletes
  | cons file rest ih =>
      have others := apart distinct
      cases scans : scanSegment decodeIpc file with
      | error why =>
          rw [Clean, scans] at deletes
          exact absurd trivial deletes
      | ok read =>
          obtain ⟨scan, repairs⟩ := read
          rw [Clean, scans] at deletes
          have whole := applyOps_whole scans state distinct
          by_cases gapped : state.Gapped scan
          · -- at this segment the second scan knows of no bad frame
            refine ⟨0, fun same => ?_⟩
            have kept : ¬ other.Gapped scan := fun gapped => gapped.2.1 free
            obtain ⟨last, isLast⟩ := exists_getLast gapped.1
            obtain ⟨len, isRepairs, -⟩ := scanSegment_repaired scans
            rw [List.take_zero, applyOps_nil, applyOps_whole scans other distinct, whole,
              (ScanState.judge_kept other file.name scan isLast kept).1,
              ScanState.judge_gapped file.name gapped, List.append_nil] at same
            have stays : ∃ data, (file.name, data) ∈ shown (applyOps repairs [file]) := by
              rw [isRepairs]
              cases scan.hitBadFrame <;> simp [shown]
            have gone : applyOps (repairs ++
                [.removeSegment file.name, .removeMarker file.name]) [file] = [] := by
              rw [isRepairs]
              cases scan.hitBadFrame <;> simp
            obtain ⟨data, mem⟩ := stays
            rw [gone, List.nil_append, shown_append] at same
            have absent := same ▸ List.mem_append_left _ mem
            obtain ⟨left, isLeft, isName⟩ := shown_name absent
            obtain ⟨old, isOld, sameName⟩ := name_of_mem_applyOps isLeft
            exact others old isOld (sameName.trans isName)
          · have deletes : ¬ Clean decodeIpc (state.judge file.name scan).1 rest := fun clean =>
              deletes ⟨gapped, clean⟩
            obtain ⟨after, again, -, forgets⟩ := head_again scans like gapped
              (repairs ++ (state.judge file.name scan).2).length (.inl free)
            obtain ⟨count, differs⟩ := ih (List.nodup_cons.mp (List.map_cons ▸ distinct)).2 deletes
              again.like (forgets (Nat.le_refl _) free)
            obtain ⟨ops, isOwn, rescans, leaves⟩ := again.scans
            rw [List.take_length] at rescans leaves
            refine ⟨(repairs ++ (state.judge file.name scan).2).length + count, fun same => ?_⟩
            rw [applyOps_take scans state _ distinct, Nat.add_sub_cancel_left,
              List.take_of_length_le (Nat.le_add_right _ _), rescans, whole,
              applyOps_split (fun left mem => ?_) (fun left mem => ?_) isOwn (ops_name _ _),
              shown_append, shown_append, leaves] at same
            · exact differs (List.append_cancel_left same)
            · obtain ⟨old, isOld, same⟩ := name_of_mem_applyOps mem
              rw [← same, List.mem_singleton.mp isOld]
            · obtain ⟨old, isOld, same⟩ := name_of_mem_applyOps mem
              exact same ▸ others old isOld

/-! ## Segments behind bad frames -/

/-- The state after segments none of which was deleted behind a bad frame. -/
structure Tracks (state : ScanState Batches) (earlier : List (SegmentScan Batches)) : Prop where
  frames : state.frames = earlier.flatMap SegmentScan.frames
  broken : state.badFrameAt = none ↔ openBreak earlier.reverse = none
  hint : ∀ bad, openBreak earlier.reverse = some bad → state.resumeHint = bad.resumeHint

theorem Tracks.start : Tracks (ScanState.start : ScanState Batches) [] where
  frames := rfl
  broken := by simp [ScanState.start, openBreak]
  hint := by simp [openBreak]

/-- A segment is deleted behind a bad frame exactly if it does not go on from there. -/
theorem Tracks.gapped_iff {state : ScanState Batches} {earlier : List (SegmentScan Batches)}
    (tracks : Tracks state earlier) (some' : scan.frames ≠ []) :
    ¬ state.Gapped scan ↔ Resumes earlier scan := by
  obtain ⟨first, isFirst⟩ := Option.ne_none_iff_exists'.mp (mt List.head?_eq_none_iff.mp some')
  cases isBreak : openBreak earlier.reverse with
  | none =>
      refine iff_of_true (fun gapped => gapped.2.1 (tracks.broken.mpr isBreak)) ?_
      rw [Resumes, isBreak]
      rintro bad ⟨⟩
  | some bad =>
      have isBad : state.badFrameAt ≠ none := by
        rw [ne_eq, tracks.broken, isBreak]
        exact Option.some_ne_none _
      have expected : state.expected = bad.resumeHint.or
          ((earlier.flatMap SegmentScan.frames).getLast?.map fun frame => frame.1 + 1) := by
        rw [ScanState.expected, tracks.hint bad isBreak, tracks.frames]
      simp only [ScanState.Gapped, Resumes, isBreak, Option.some.injEq, forall_eq', expected,
        isFirst, Option.map_some]
      cases bad.resumeHint.or
          ((earlier.flatMap SegmentScan.frames).getLast?.map fun frame => frame.1 + 1) with
      | none => simp [some', isBad]
      | some seq => simp [some', isBad, eq_comm]

theorem Tracks.judge {state : ScanState Batches} {earlier : List (SegmentScan Batches)}
    (tracks : Tracks state earlier) (continues : ¬ state.Gapped scan) (name : String) :
    Tracks (state.judge name scan).1 (earlier ++ [scan]) := by
  by_cases none' : scan.frames = []
  · obtain ⟨-, like, bad, hint⟩ := ScanState.judge_empty state name scan none'
    constructor
    · simp [like.frames, tracks.frames, none']
    · rw [bad, List.reverse_append]
      cases hit : scan.hitBadFrame with
      | true => simp [openBreak, hit]
      | false => simpa [openBreak, hit, none'] using tracks.broken
    · rw [hint, List.reverse_append]
      cases hit : scan.hitBadFrame with
      | true => simp [openBreak, hit]
      | false => simpa [openBreak, hit, none'] using tracks.hint
  · obtain ⟨last, isLast⟩ := exists_getLast none'
    obtain ⟨-, frames, -, bad, hint⟩ := ScanState.judge_kept state name scan isLast continues
    constructor
    · simp [frames, tracks.frames]
    · rw [bad, List.reverse_append]
      cases hit : scan.hitBadFrame <;> simp [openBreak, hit, isLast]
    · rw [List.reverse_append]
      cases hit : scan.hitBadFrame with
      | true => simpa [openBreak, hit] using hint hit
      | false => simp [openBreak, hit, isLast]

/-- A scan deletes no segment behind a bad frame exactly if every one goes on from there. -/
theorem clean_iff {state : ScanState Batches} {earlier : List (SegmentScan Batches)}
    (tracks : Tracks state earlier) (files : List SegFile) :
    Clean decodeIpc state files ↔ ∀ front scan later,
      readable decodeIpc files = front ++ scan :: later → scan.frames ≠ [] →
        Resumes (earlier ++ front) scan := by
  induction files generalizing state earlier with
  | nil => simp [Clean, readable]
  | cons file rest ih =>
      cases scans : scanSegment decodeIpc file with
      | error why => simp [Clean, readable, scans]
      | ok read =>
          obtain ⟨scan, repairs⟩ := read
          simp only [Clean, readable, scans]
          constructor
          · rintro ⟨continues, clean⟩ front other later isSplit some'
            cases front with
            | nil =>
                cases isSplit
                rw [List.append_nil]
                exact (tracks.gapped_iff some').mp continues
            | cons first front =>
                obtain ⟨rfl, isLater⟩ := List.cons.inj isSplit
                have step := (ih (tracks.judge continues file.name)).mp clean front other later
                  isLater some'
                rwa [List.append_assoc] at step
          · intro resumes
            have continues : ¬ state.Gapped scan := by
              by_cases none' : scan.frames = []
              · exact fun gapped => gapped.1 none'
              · have first := resumes [] scan _ rfl none'
                rw [List.append_nil] at first
                exact (tracks.gapped_iff none').mpr first
            refine ⟨continues, (ih (tracks.judge continues file.name)).mpr ?_⟩
            intro front other later isSplit some'
            have step := resumes (scan :: front) other later (by rw [isSplit]; rfl) some'
            rwa [List.append_assoc]

end Repair

/-! ## Interrupting the scan of a directory -/

/-- The segments of a table's directory in the order of their names, in which the scan reads
them. -/
structure TailDir where
  files : List SegFile
  sorted : (files.map SegFile.name).Pairwise (· < ·)

theorem TailDir.distinct (dir : TailDir) : (dir.files.map SegFile.name).Nodup := by
  refine dir.sorted.imp ?_
  rintro name _ before rfl
  exact String.lt_irrefl name before

section Interrupted

variable {Batches : Type} {decodeIpc : List UInt8 → Except String Batches}

/-- Two scans that gathered the same have the same outcome. -/
theorem outcome_eq_iff {files others : List SegFile} :
    outcome decodeIpc others = outcome decodeIpc files ↔
      gathered (scanFiles decodeIpc .start others).1 =
        gathered (scanFiles decodeIpc .start files).1 ∧
      shown (applyOps (scanFiles decodeIpc .start others).2 others) =
        shown (applyOps (scanFiles decodeIpc .start files).2 files) := by
  simp only [outcome, scanTable, Prod.mk.injEq, gathered]
  refine and_congr_left fun _ => ?_
  cases (scanFiles decodeIpc .start others).1 with
  | error why =>
      cases (scanFiles decodeIpc .start files).1 <;> simp [Except.map]
  | ok other =>
      cases (scanFiles decodeIpc .start files).1 with
      | error why => simp [Except.map]
      | ok state =>
          simp only [Except.map, Except.ok.injEq, Prod.mk.injEq]
          exact ⟨fun same => ⟨same.1, same.2.1⟩, fun same => ⟨same.1, same.2, by rw [same.1]⟩⟩

/-- A scan of a tail can be interrupted after any of its file operations exactly if every segment
behind a bad frame goes on where numbering resumes: otherwise the repair of the bad segment
takes away the reason for deleting it. -/
theorem crashIdempotent_iff (dir : TailDir) :
    CrashIdempotent decodeIpc dir.files ↔ Unbroken decodeIpc dir.files := by
  have isClean : Clean decodeIpc ScanState.start dir.files ↔ ∀ front scan later,
      readable decodeIpc dir.files = front ++ scan :: later → scan.frames ≠ [] →
        Resumes ([] ++ front) scan := clean_iff Tracks.start dir.files
  simp only [List.nil_append] at isClean
  rw [Unbroken, ← isClean]
  have like : (ScanState.start : ScanState Batches).Like .start := ⟨rfl, rfl⟩
  constructor
  · intro idempotent
    by_contra deletes
    obtain ⟨count, differs⟩ := exists_kept_again dir.distinct deletes like rfl
    exact differs (outcome_eq_iff.mp (idempotent count)).2
  · intro clean count
    exact outcome_eq_iff.mpr (scan_again dir.distinct clean like count (.inl rfl))

end Interrupted

/-- The frame of a statement without rows. -/
def emptyFrame (seq : Nat) : List UInt8 :=
  Segment.frameOf (Segment.leBytes 8 seq ++ [tailPayloadFormat, TailOpKind.append.toByte])

/-- A torn segment, and behind a hole in the sequences another one. -/
def tornBeforeHole : TailDir where
  files := [⟨"0000000000000001.seg", emptyFrame 1 ++ [0], none⟩,
    ⟨"0000000000000002.seg", emptyFrame 3, none⟩]
  sorted := by decide

/-- The sequences a scan returns. -/
def scannedSeqs (files : List SegFile) : Option (List Nat) :=
  (scanTable (fun _ => .ok ()) files).1.toOption.map fun scan => scan.frames.map Prod.fst

/-- Uninterrupted the scan deletes the second segment; a scan that ends with the truncation of
the first one lets the next scan return it, a frame from beyond the hole. -/
theorem not_crashIdempotent_tornBeforeHole :
    ¬ CrashIdempotent (fun _ => .ok ()) tornBeforeHole.files ∧
      scannedSeqs tornBeforeHole.files = some [1] ∧
      scannedSeqs (applyOps ((scanTable (fun _ => .ok ()) tornBeforeHole.files).2.take 1)
        tornBeforeHole.files) = some [1, 3] := by
  refine ⟨fun idempotent => ?_, by decide +kernel, by decide +kernel⟩
  have same := congrArg (fun ends => ends.2.map Prod.fst) (idempotent 1)
  revert same
  decide +kernel

end Icegres.Tail
