import Icegres.Tail.LocalWal

/-!
# What a directory replays

The frames that a scan of a table's directory returns, and what becomes of them when the last
segment loses some: the segments before it are judged as they were.
-/

namespace Icegres.Tail

open Segment (frameHeaderBytes)

variable {Batches : Type} {decodeIpc : List UInt8 → Except String Batches}

/-! ## Frames with a torn one behind -/

/-- A frame with the bytes of its payload. -/
abbrev Written (Batches : Type) := List UInt8 × SeqOp Batches

/-- Each of these frames is read from its bytes. -/
def Genuine (decodeIpc : List UInt8 → Except String Batches) (written : List (Written Batches)) :
    Prop :=
  ∀ frame ∈ written, Decodes decodeIpc frame.1 frame.2

def bytesOf (written : List (Written Batches)) : List UInt8 :=
  written.flatMap fun frame => Segment.frameOf frame.1

@[simp] theorem bytesOf_nil : bytesOf ([] : List (Written Batches)) = [] := rfl

theorem bytesOf_cons (frame : Written Batches) (rest : List (Written Batches)) :
    bytesOf (frame :: rest) = Segment.frameOf frame.1 ++ bytesOf rest :=
  List.flatMap_cons

@[simp] theorem bytesOf_append (front back : List (Written Batches)) :
    bytesOf (front ++ back) = bytesOf front ++ bytesOf back :=
  List.flatMap_append

/-- Frames take room. -/
theorem eq_nil_of_bytesOf {written : List (Written Batches)}
    (none' : (bytesOf written).length = 0) : written = [] := by
  cases written with
  | nil => rfl
  | cons frame rest =>
      rw [bytesOf_cons, List.length_append, Segment.frameOf_length] at none'
      simp only [frameHeaderBytes] at none'
      omega

/-- Bytes of which nothing is read. -/
def Torn (decodeIpc : List UInt8 → Except String Batches) (bytes : List UInt8) : Prop :=
  ∀ fuel off, ∃ bad, walkFrom decodeIpc (fuel + 1) off bytes = .ok ⟨[], off, bad⟩

theorem torn_nil : Torn decodeIpc [] := fun _ _ => ⟨none, rfl⟩

/-- A frame is torn as long as not all of it is there. -/
theorem torn_take {payload : List UInt8} (fits : payload.length < 2 ^ 32) (count : Nat) :
    Torn decodeIpc ((Segment.frameOf payload).dropLast.take count) := by
  intro fuel off
  have isFrame : (Segment.frameOf payload).dropLast.take count =
      (Segment.frameOf payload).take (min count ((Segment.frameOf payload).length - 1)) := by
    rw [List.dropLast_eq_take, List.take_take]
  have whole := Segment.frameOf_length payload
  generalize isCount : min count ((Segment.frameOf payload).length - 1) = len at isFrame
  have short : len ≤ (Segment.frameOf payload).length - 1 := isCount ▸ Nat.min_le_right _ _
  have length : ((Segment.frameOf payload).take len).length = len := by
    rw [List.length_take]
    omega
  rw [isFrame, walkFrom]
  by_cases none' : (Segment.frameOf payload).take len = []
  · exact ⟨none, if_pos none'⟩
  · rw [if_neg none']
    by_cases header : ((Segment.frameOf payload).take len).length < frameHeaderBytes
    · exact ⟨_, if_pos header⟩
    · rw [if_neg header]
      -- the length in the header is that of the whole payload
      obtain ⟨lengthBytes, -, -, -⟩ := Segment.header_frameOf payload [] fits
      rw [List.append_nil] at lengthBytes
      rw [length] at header
      have taken : ((Segment.frameOf payload).take len).take 4 =
          (Segment.frameOf payload).take 4 := by
        rw [List.take_take, Nat.min_eq_left]
        simp only [frameHeaderBytes] at header
        omega
      refine ⟨_, if_pos ?_⟩
      rw [taken, lengthBytes, List.length_drop, length]
      simp only [frameHeaderBytes] at header whole ⊢
      omega

/-- Whole frames are read off the front. -/
theorem walkFrom_written {written : List (Written Batches)} (genuine : Genuine decodeIpc written)
    (fuel off : Nat) (rest : List UInt8) :
    walkFrom decodeIpc (written.length + fuel) off (bytesOf written ++ rest) =
      (walkFrom decodeIpc fuel (off + (bytesOf written).length) rest).map fun later =>
        ⟨written.map Prod.snd ++ later.frames, later.goodEnd, later.bad⟩ := by
  induction written generalizing off with
  | nil =>
      rw [List.length_nil, Nat.zero_add]
      cases later : walkFrom decodeIpc fuel off rest <;> simp [Except.map, later]
  | cons frame written ih =>
      have first := genuine frame List.mem_cons_self
      have step := walkFrom_frameOf decodeIpc (written.length + fuel) off
        (bytesOf written ++ rest) first.1 first.2
      have fuels : (frame :: written).length + fuel = written.length + fuel + 1 := by
        rw [List.length_cons]
        omega
      have bytes : bytesOf (frame :: written) ++ rest =
          Segment.frameOf frame.1 ++ (bytesOf written ++ rest) := by
        rw [bytesOf_cons, List.append_assoc]
      have offset : off + (Segment.frameOf frame.1).length + (bytesOf written).length =
          off + (bytesOf (frame :: written)).length := by
        rw [bytesOf_cons, List.length_append, Nat.add_assoc]
      rw [fuels, bytes, step, ih (fun other mem => genuine other (List.mem_cons_of_mem _ mem)),
        offset]
      cases walkFrom decodeIpc fuel (off + (bytesOf (frame :: written)).length) rest <;> rfl

/-- A walk over whole frames and a torn one reads the whole ones. -/
theorem walk_torn {written : List (Written Batches)} {torn : List UInt8}
    (genuine : Genuine decodeIpc written) (isTorn : Torn decodeIpc torn) :
    ∃ bad, walk decodeIpc (bytesOf written ++ torn) =
      .ok ⟨written.map Prod.snd, (bytesOf written).length, bad⟩ := by
  have enough : written.length ≤ (bytesOf written).length := by
    have frames := Segment.length_le_flatMap_frameOf (written.map Prod.fst)
    rw [List.length_map, List.flatMap_map] at frames
    exact frames
  obtain ⟨fuel, isFuel⟩ : ∃ fuel, (bytesOf written ++ torn).length + 1 =
      written.length + (fuel + 1) := by
    refine ⟨(bytesOf written ++ torn).length - written.length, ?_⟩
    rw [List.length_append]
    omega
  obtain ⟨bad, stops⟩ := isTorn fuel (0 + (bytesOf written).length)
  refine ⟨bad, ?_⟩
  rw [walk, isFuel, walkFrom_written genuine, stops]
  simp [Except.map]

/-! ## Reading one segment -/

/-- The segment is read to these frames. -/
def Reads (decodeIpc : List UInt8 → Except String Batches) (file : SegmentFile)
    (frames : List (SeqOp Batches)) : Prop :=
  ∃ scan repairs, scanSegment decodeIpc file.named = .ok (scan, repairs) ∧ scan.frames = frames

/-- Without a marker all whole frames are read. -/
theorem reads_written (id : Nat) {written : List (Written Batches)} {torn : List UInt8}
    (genuine : Genuine decodeIpc written) (isTorn : Torn decodeIpc torn) :
    Reads decodeIpc ⟨id, bytesOf written ++ torn, none⟩ (written.map Prod.snd) := by
  obtain ⟨bad, walks⟩ := walk_torn genuine isTorn
  have whole : (clamped (SegmentFile.named ⟨id, bytesOf written ++ torn, none⟩)).1 =
      bytesOf written ++ torn := rfl
  unfold Reads scanSegment
  rw [whole, walks]
  exact ⟨_, _, rfl, rfl⟩

/-- A marker at a boundary keeps the frames before it, and the later ones only where it cannot
be read. -/
theorem reads_marked (id nextSeq : Nat) {kept later : List (Written Batches)} {torn : List UInt8}
    (genuine : Genuine decodeIpc (kept ++ later)) (isTorn : Torn decodeIpc torn) :
    ∃ rest, (rest = [] ∨ rest = later) ∧
      Reads decodeIpc ⟨id, bytesOf (kept ++ later) ++ torn,
        some (poisonMarkerText (bytesOf kept).length nextSeq)⟩ ((kept ++ rest).map Prod.snd) := by
  have keptGenuine : Genuine decodeIpc kept := fun frame mem =>
    genuine frame (List.mem_append_left _ mem)
  by_cases fits : (bytesOf kept).length < 2 ^ 64
  · -- up to the marker there are the frames before it
    have whole : (clamped (SegmentFile.named ⟨id, bytesOf (kept ++ later) ++ torn,
        some (poisonMarkerText (bytesOf kept).length nextSeq)⟩)).1 = bytesOf kept ++ [] := by
      simp only [clamped, SegmentFile.named, Option.bind_some, readPoisonMarker_text, if_pos fits,
        bytesOf_append, List.append_assoc, List.append_nil]
      split
      · exact List.take_left
      · next short =>
          rw [List.length_append] at short
          have noMore : (bytesOf later ++ torn).length = 0 := by omega
          rw [List.length_eq_zero_iff.mp noMore, List.append_nil]
    obtain ⟨bad, walks⟩ := walk_torn keptGenuine torn_nil
    refine ⟨[], .inl rfl, ?_⟩
    unfold Reads scanSegment
    rw [whole, walks, List.append_nil]
    exact ⟨_, _, rfl, rfl⟩
  · have unread : (clamped (SegmentFile.named ⟨id, bytesOf (kept ++ later) ++ torn,
        some (poisonMarkerText (bytesOf kept).length nextSeq)⟩)).1 =
          bytesOf (kept ++ later) ++ torn := by
      simp only [clamped, SegmentFile.named, Option.bind_some, readPoisonMarker_text, if_neg fits]
    obtain ⟨bad, walks⟩ := walk_torn genuine isTorn
    refine ⟨later, .inr rfl, ?_⟩
    unfold Reads scanSegment
    rw [unread, walks]
    exact ⟨_, _, rfl, rfl⟩

/-! ## Judging the last segment -/

section Judging

variable {state next : ScanState Batches} {scan : SegmentScan Batches}

theorem judge_of_gapped (name : String) (gapped : state.Gapped scan) :
    (state.judge name scan).1 = state.noteId name := by
  obtain ⟨some', isBad, elsewhere⟩ := gapped
  obtain ⟨last, isLast⟩ := exists_getLast some'
  obtain ⟨bad, isBad⟩ := Option.ne_none_iff_exists'.mp isBad
  simp only [ScanState.judge, isLast, ScanState.noteId_badFrameAt, isBad,
    ScanState.noteId_expected]
  rw [if_pos elsewhere]

theorem frames_judge (name : String) (continues : ¬ state.Gapped scan) :
    (state.judge name scan).1.frames = state.frames ++ scan.frames := by
  by_cases none' : scan.frames = []
  · rw [(state.judge_empty name scan none').2.1.frames, none', List.append_nil]
  · obtain ⟨last, isLast⟩ := exists_getLast none'
    exact (state.judge_kept name scan isLast continues).2.1

/-- Whether a segment is deleted depends on where it begins. -/
theorem gapped_congr {other : SegmentScan Batches} (some' : scan.frames ≠ [])
    (head : other.frames.head? = scan.frames.head?) (gapped : state.Gapped other) :
    state.Gapped scan :=
  ⟨some', gapped.2.1, head ▸ gapped.2.2⟩

/-- The segments up to the last one, and then the last one. -/
theorem scanFiles_snoc {files : List SegFile} {file : SegFile} {repairs : List FileOp}
    (front : (scanFiles decodeIpc state files).1 = .ok next)
    (last : scanSegment decodeIpc file = .ok (scan, repairs)) :
    (scanFiles decodeIpc state (files ++ [file])).1 = .ok (next.judge file.name scan).1 := by
  induction files generalizing state with
  | nil =>
      cases front
      rw [List.nil_append, scanFiles_cons last]
      rfl
  | cons first files ih =>
      cases scans : scanSegment decodeIpc first with
      | error why =>
          rw [scanFiles, scans] at front
          cases front
      | ok read =>
          rw [scanFiles_cons scans] at front
          rw [List.cons_append, scanFiles_cons scans]
          exact ih front

end Judging

/-! ## Reading a directory -/

/-- What a scan of a table makes of what it gathered. -/
def ScanState.tableScan (state : ScanState Batches) : TableScan Batches where
  frames := state.frames
  sealed := state.sealed
  nextSeq := (state.frames.getLast?.map fun frame => frame.1 + 1).getD 1
  nextSegment := state.nextSegment

theorem scanTable_eq (files : List SegFile) :
    (scanTable decodeIpc files).1 =
      (scanFiles decodeIpc .start files).1.map ScanState.tableScan := rfl

/-- A scan of the directory returns these frames. -/
def Replays (decodeIpc : List UInt8 → Except String Batches) (dir : List SegmentFile)
    (frames : List (SeqOp Batches)) : Prop :=
  ∃ scan, (scanTable decodeIpc (dir.map SegmentFile.named)).1 = .ok scan ∧ scan.frames = frames

/-- Every segment can be read. -/
def Readable (decodeIpc : List UInt8 → Except String Batches) (dir : List SegmentFile) : Prop :=
  ∀ file ∈ dir, ∃ frames, Reads decodeIpc file frames

theorem replays_iff {dir : List SegmentFile} {frames : List (SeqOp Batches)} :
    Replays decodeIpc dir frames ↔ ∃ state : ScanState Batches,
      (scanFiles decodeIpc .start (dir.map SegmentFile.named)).1 = .ok state ∧
        state.frames = frames := by
  rw [Replays, scanTable_eq]
  cases (scanFiles decodeIpc .start (dir.map SegmentFile.named)).1 with
  | error why => simp [Except.map]
  | ok state => simp [Except.map, ScanState.tableScan]

theorem exists_scan {dir : List SegmentFile} (readable : Readable decodeIpc dir)
    (state : ScanState Batches) :
    ∃ next, (scanFiles decodeIpc state (dir.map SegmentFile.named)).1 = .ok next := by
  induction dir generalizing state with
  | nil => exact ⟨state, rfl⟩
  | cons file dir ih =>
      obtain ⟨frames, scan, repairs, scans, -⟩ := readable file List.mem_cons_self
      rw [List.map_cons, scanFiles_cons scans]
      exact ih (fun other mem => readable other (List.mem_cons_of_mem _ mem)) _

theorem readable_of_scan {dir : List SegmentFile} {state next : ScanState Batches}
    (scanned : (scanFiles decodeIpc state (dir.map SegmentFile.named)).1 = .ok next) :
    Readable decodeIpc dir := by
  induction dir generalizing state with
  | nil =>
      rintro file ⟨⟩
  | cons first dir ih =>
      cases scans : scanSegment decodeIpc first.named with
      | error why =>
          rw [List.map_cons, scanFiles, scans] at scanned
          cases scanned
      | ok read =>
          rw [List.map_cons, scanFiles_cons scans] at scanned
          intro file mem
          rcases List.mem_cons.mp mem with rfl | later
          · exact ⟨_, _, _, scans, rfl⟩
          · exact ih scanned file later

/-- What a directory replays is read from all of its segments. -/
theorem Replays.readable {dir : List SegmentFile} {frames : List (SeqOp Batches)}
    (replays : Replays decodeIpc dir frames) : Readable decodeIpc dir := by
  obtain ⟨state, scanned, -⟩ := replays_iff.mp replays
  exact readable_of_scan scanned

theorem Readable.replays {dir : List SegmentFile} (readable : Readable decodeIpc dir) :
    ∃ frames, Replays decodeIpc dir frames := by
  obtain ⟨state, scanned⟩ := exists_scan readable .start
  exact ⟨state.frames, replays_iff.mpr ⟨state, scanned, rfl⟩⟩

/-! ## The last segment of a directory -/

section Last

variable {front : List SegmentFile} {old new : SegmentFile}
  {kept later rest frames : List (SeqOp Batches)}

/-- What is replayed with the last segment goes on from what is replayed without it. -/
theorem replays_snoc {state : ScanState Batches}
    (scanned : (scanFiles decodeIpc .start (front.map SegmentFile.named)).1 = .ok state)
    {scan : SegmentScan Batches} {repairs : List FileOp}
    (scans : scanSegment decodeIpc old.named = .ok (scan, repairs)) :
    Replays decodeIpc (front ++ [old]) (state.judge old.named.name scan).1.frames := by
  refine replays_iff.mpr ⟨_, ?_, rfl⟩
  rw [List.map_append]
  exact scanFiles_snoc scanned scans

/-- A last segment without frames adds none. -/
theorem Replays.snoc_empty (replays : Replays decodeIpc front frames)
    (reads : Reads decodeIpc new []) : Replays decodeIpc (front ++ [new]) frames := by
  obtain ⟨state, scanned, rfl⟩ := replays_iff.mp replays
  obtain ⟨scan, repairs, scans, none'⟩ := reads
  have stays := replays_snoc scanned scans
  rwa [(state.judge_empty _ scan none').2.1.frames] at stays

/-- The last segment goes, and its frames with it. -/
theorem replays_gone (readable : Readable decodeIpc front) (reads : Reads decodeIpc old later) :
    ∃ stay lost, Replays decodeIpc (front ++ [old]) (stay ++ lost) ∧
      Replays decodeIpc front stay ∧ ∀ frame ∈ lost, frame ∈ later := by
  obtain ⟨state, scanned⟩ := exists_scan readable .start
  obtain ⟨scan, repairs, scans, rfl⟩ := reads
  have whole := replays_snoc scanned scans
  have without := replays_iff.mpr ⟨state, scanned, rfl⟩
  by_cases gapped : state.Gapped scan
  · rw [judge_of_gapped _ gapped, ScanState.noteId_frames] at whole
    exact ⟨state.frames, [], by rwa [List.append_nil], without, by simp⟩
  · rw [frames_judge _ gapped] at whole
    exact ⟨state.frames, scan.frames, whole, without, fun _ mem => mem⟩

/-- The last segment loses some of its later frames. -/
theorem replays_cut (readable : Readable decodeIpc front)
    (reads : Reads decodeIpc old (kept ++ later)) (rereads : Reads decodeIpc new (kept ++ rest))
    (isRest : rest = [] ∨ rest = later) :
    ∃ stay lost, Replays decodeIpc (front ++ [old]) (stay ++ lost) ∧
      Replays decodeIpc (front ++ [new]) stay ∧ ∀ frame ∈ lost, frame ∈ later := by
  by_cases gone : kept ++ rest = []
  · -- nothing is left of it
    obtain ⟨noKept, noRest⟩ := List.append_eq_nil_iff.mp gone
    rw [noKept, List.nil_append] at reads
    rw [gone] at rereads
    obtain ⟨stay, lost, whole, without, lose⟩ := replays_gone readable reads
    exact ⟨stay, lost, whole, without.snoc_empty rereads, lose⟩
  · obtain ⟨state, scanned⟩ := exists_scan readable .start
    obtain ⟨scan, repairs, scans, isScan⟩ := reads
    obtain ⟨again, repairs', rescans, isAgain⟩ := rereads
    have whole := replays_snoc scanned scans
    have less := replays_snoc scanned rescans
    have someAgain : again.frames ≠ [] := isAgain ▸ gone
    have some' : scan.frames ≠ [] := by
      rintro none'
      rw [isScan] at none'
      obtain ⟨noKept, noLater⟩ := List.append_eq_nil_iff.mp none'
      rcases isRest with rfl | rfl
      · exact gone (by rw [noKept]; rfl)
      · exact gone none'
    -- both begin at the same frame
    have head : again.frames.head? = scan.frames.head? := by
      rw [isAgain, isScan]
      rcases isRest with rfl | rfl
      · cases kept with
        | nil => exact absurd rfl gone
        | cons first kept => rfl
      · rfl
    by_cases gapped : state.Gapped scan
    · have gappedAgain := gapped_congr someAgain head.symm gapped
      rw [judge_of_gapped _ gapped, ScanState.noteId_frames] at whole
      rw [judge_of_gapped _ gappedAgain, ScanState.noteId_frames] at less
      exact ⟨state.frames, [], by rwa [List.append_nil], less, by simp⟩
    · have continues : ¬ state.Gapped again := fun gappedAgain =>
        gapped (gapped_congr some' head gappedAgain)
      rw [frames_judge _ gapped, isScan] at whole
      rw [frames_judge _ continues, isAgain] at less
      rcases isRest with rfl | rfl
      · rw [List.append_nil] at less
        refine ⟨state.frames ++ kept, later, ?_, less, fun _ mem => mem⟩
        rwa [List.append_assoc]
      · exact ⟨_, [], by rwa [List.append_nil], less, by simp⟩

end Last

/-! ## Scanning a repaired directory -/

theorem applyOps_one (ops : List FileOp) (file : SegFile) :
    applyOps ops [file] = [] ∨
      ∃ left, left.name = file.name ∧ applyOps ops [file] = [left] := by
  induction ops generalizing file with
  | nil => exact .inr ⟨file, rfl, rfl⟩
  | cons op ops ih =>
      have step : applyOps (op :: ops) [file] = applyOps ops ([file].filterMap op.apply) := rfl
      cases after : op.apply file with
      | none =>
          left
          rw [step, List.filterMap_cons_none after, List.filterMap_nil, applyOps_no_files]
      | some left =>
          have sameName : left.name = file.name := by
            obtain ⟨old, isOld, same⟩ := @name_of_mem_applyOps [op] [file] left (by
              simp [applyOps, after])
            rw [← same, List.mem_singleton.mp isOld]
          rw [step, List.filterMap_cons_some after, List.filterMap_nil, ← sameName]
          exact ih left

theorem repairDir_cons (ops : List FileOp) (file : SegmentFile) (dir : List SegmentFile) :
    repairDir ops (file :: dir) =
      ((applyOps ops [file.named]).head?.map fun left =>
        (⟨file.id, left.data, left.marker⟩ : SegmentFile)).toList ++ repairDir ops dir := by
  unfold repairDir
  cases after : (applyOps ops [file.named]).head? with
  | none =>
      rw [List.filterMap_cons_none (by rw [after]; rfl)]
      rfl
  | some left =>
      rw [List.filterMap_cons_some (by rw [after]; rfl)]
      rfl

theorem repairDir_named (ops : List FileOp) (dir : List SegmentFile) :
    (repairDir ops dir).map SegmentFile.named = applyOps ops (dir.map SegmentFile.named) := by
  induction dir with
  | nil => exact (applyOps_no_files ops).symm
  | cons file dir ih =>
      have split := applyOps_files ops [file.named] (dir.map SegmentFile.named)
      rw [List.singleton_append] at split
      rw [repairDir_cons, List.map_append, ih, List.map_cons, split]
      refine congrArg (fun head : List SegFile => head ++ _) ?_
      rcases applyOps_one ops file.named with gone | ⟨left, isName, stays⟩
      · rw [gone]
        rfl
      · have same : SegmentFile.named ⟨file.id, left.data, left.marker⟩ = left := by
          unfold SegmentFile.named
          rw [show segmentName file.id = left.name from isName.symm]
        rw [stays]
        exact congrArg (fun file => [file]) same

theorem id_of_mem_repairDir {ops : List FileOp} {dir : List SegmentFile} {file : SegmentFile}
    (mem : file ∈ repairDir ops dir) : ∃ old ∈ dir, old.id = file.id := by
  obtain ⟨old, isOld, after⟩ := List.mem_filterMap.mp mem
  obtain ⟨left, -, rfl⟩ := Option.map_eq_some_iff.mp after
  exact ⟨old, isOld, rfl⟩

/-- The files of a directory are listed by id. -/
def Ordered (dir : List SegmentFile) : Prop :=
  dir.Pairwise fun file later => file.id < later.id

theorem Ordered.repairDir {dir : List SegmentFile} (ordered : Ordered dir) (ops : List FileOp) :
    Ordered (repairDir ops dir) := by
  refine List.pairwise_filterMap.mpr (ordered.imp fun {file later} before => ?_)
  intro left isLeft right isRight
  obtain ⟨_, -, rfl⟩ := Option.map_eq_some_iff.mp isLeft
  obtain ⟨_, -, rfl⟩ := Option.map_eq_some_iff.mp isRight
  exact before

theorem Ordered.distinct {dir : List SegmentFile} (ordered : Ordered dir) :
    ((dir.map SegmentFile.named).map SegFile.name).Nodup := by
  rw [List.map_map]
  refine List.Pairwise.map _ (fun file later before same => ?_) ordered
  exact Nat.ne_of_lt before (segmentName_inj same)

/-- A scan that is not interrupted leaves the frames it returned. The induction is over the
segments; the second scan meets no bad frame. -/
theorem scan_repaired {state other final : ScanState Batches} {files : List SegFile}
    (distinct : (files.map SegFile.name).Nodup) (like : state.Like other)
    (free : other.badFrameAt = none) (scanned : (scanFiles decodeIpc state files).1 = .ok final) :
    ∃ again, (scanFiles decodeIpc other (applyOps (scanFiles decodeIpc state files).2 files)).1 =
      .ok again ∧ again.frames = final.frames := by
  induction files generalizing state other with
  | nil =>
      cases scanned
      refine ⟨other, ?_, like.frames⟩
      rw [applyOps_no_files]
      rfl
  | cons file rest ih =>
      cases scans : scanSegment decodeIpc file with
      | error why =>
          rw [scanFiles, scans] at scanned
          cases scanned
      | ok read =>
          obtain ⟨scan, repairs⟩ := read
          have tail := (List.nodup_cons.mp (List.map_cons ▸ distinct)).2
          have whole := applyOps_whole scans state distinct
          rw [scanFiles_cons scans state rest] at scanned whole ⊢
          by_cases gapped : state.Gapped scan
          · -- the segment is deleted, and the second scan does not see it
            have gone : applyOps (repairs ++ (state.judge file.name scan).2) [file] = [] := by
              obtain ⟨len, isRepairs, -⟩ := scanSegment_repaired scans
              rw [ScanState.judge_gapped file.name gapped, isRepairs]
              cases scan.hitBadFrame <;> simp
            rw [whole, gone, List.nil_append]
            refine ih tail ⟨?_, ?_⟩ free scanned
            · rw [judge_of_gapped _ gapped, ScanState.noteId_frames, like.frames]
            · rw [judge_of_gapped _ gapped, ScanState.noteId_sealed, like.isSealed]
          · obtain ⟨after, again, -, forgets⟩ := head_again scans like gapped
              (repairs ++ (state.judge file.name scan).2).length (.inl free)
            obtain ⟨ops, -, rescans, -⟩ := again.scans
            rw [List.take_length] at rescans
            obtain ⟨last, rescanned, same⟩ := ih tail again.like
              (forgets (Nat.le_refl _) free) scanned
            rw [whole, rescans]
            exact ⟨last, rescanned, same⟩

/-- The repaired directory replays what it did. -/
theorem Replays.repairDir {dir : List SegmentFile} {frames : List (SeqOp Batches)}
    (ordered : Ordered dir) (replays : Replays decodeIpc dir frames) :
    Replays decodeIpc
      (repairDir (scanTable decodeIpc (dir.map SegmentFile.named)).2 dir) frames := by
  obtain ⟨state, scanned, rfl⟩ := replays_iff.mp replays
  have like : (ScanState.start : ScanState Batches).Like .start := ⟨rfl, rfl⟩
  obtain ⟨again, rescanned, same⟩ := scan_repaired ordered.distinct like rfl scanned
  refine replays_iff.mpr ⟨again, ?_, same⟩
  rw [repairDir_named]
  exact rescanned

/-! ## What a scan counts -/

theorem nextSegment_judge (state : ScanState Batches) (name : String)
    (scan : SegmentScan Batches) :
    (state.judge name scan).1.nextSegment = (state.noteId name).nextSegment := by
  unfold ScanState.judge
  dsimp only
  split
  · split <;> rfl
  · split
    · rfl
    · split <;> rfl

theorem sealed_judge {state : ScanState Batches} {name : String} {scan : SegmentScan Batches}
    {segment : String × Nat} (mem : segment ∈ (state.judge name scan).1.sealed) :
    segment ∈ state.sealed ∨ segment.1 = name := by
  by_cases none' : scan.frames = []
  · rw [(state.judge_empty name scan none').2.1.isSealed] at mem
    exact .inl mem
  · by_cases gapped : state.Gapped scan
    · rw [judge_of_gapped _ gapped, ScanState.noteId_sealed] at mem
      exact .inl mem
    · obtain ⟨last, isLast⟩ := exists_getLast none'
      rw [(state.judge_kept name scan isLast gapped).2.2.1] at mem
      rcases List.mem_append.mp mem with old | own
      · exact .inl old
      · exact .inr (congrArg Prod.fst (List.mem_singleton.mp own))

theorem nextSegment_noteId (state : ScanState Batches) (name : String) :
    state.nextSegment ≤ (state.noteId name).nextSegment ∧
      ∀ id, segmentId name = some id → id < (state.noteId name).nextSegment := by
  unfold ScanState.noteId
  split
  · next id isId =>
      refine ⟨Nat.le_max_left _ _, fun other isOther => ?_⟩
      rw [isId] at isOther
      cases isOther
      exact Nat.lt_of_lt_of_le (Nat.lt_succ_self _) (Nat.le_max_right _ _)
  · next none' =>
      refine ⟨Nat.le_refl _, fun id isId => ?_⟩
      rw [none'] at isId
      cases isId

/-- The next segment gets an id above those in the directory, and the kept segments are from
the directory. -/
theorem scanFiles_counts {state final : ScanState Batches} {files : List SegFile}
    (scanned : (scanFiles decodeIpc state files).1 = .ok final) :
    state.nextSegment ≤ final.nextSegment ∧
      (∀ file ∈ files, ∀ id, segmentId file.name = some id → id < final.nextSegment) ∧
      ∀ segment ∈ final.sealed, segment ∈ state.sealed ∨
        ∃ file ∈ files, file.name = segment.1 := by
  induction files generalizing state with
  | nil =>
      cases scanned
      exact ⟨Nat.le_refl _, by simp, fun segment mem => .inl mem⟩
  | cons file rest ih =>
      cases scans : scanSegment decodeIpc file with
      | error why =>
          rw [scanFiles, scans] at scanned
          cases scanned
      | ok read =>
          obtain ⟨scan, repairs⟩ := read
          rw [scanFiles_cons scans] at scanned
          obtain ⟨grows, below, fromDir⟩ := ih scanned
          rw [nextSegment_judge] at grows
          have noted := nextSegment_noteId state file.name
          refine ⟨Nat.le_trans noted.1 grows, fun other mem id isId => ?_, fun segment mem => ?_⟩
          · rcases List.mem_cons.mp mem with rfl | later
            · exact Nat.lt_of_lt_of_le (noted.2 id isId) grows
            · exact below other later id isId
          · rcases fromDir segment mem with old | ⟨other, isOther, same⟩
            · rcases sealed_judge old with before | own
              · exact .inl before
              · exact .inr ⟨file, List.mem_cons_self, own.symm⟩
            · exact .inr ⟨other, List.mem_cons_of_mem _ isOther, same⟩

end Icegres.Tail
