import Icegres.Quorum.WalCut
import Icegres.Tiling

/-!
# The segmented log as one string of bytes

What the segment files are for: a string of bytes between a retained start and an end. Bytes
are added at the end, cut off above a position and dropped below a horizon; which files they
lie in, when the files rotate and where their boundaries are cannot be told from outside.
-/

namespace Icegres.Quorum

open Icegres.Segment

/-- The abstract log: nothing until the first append, then bytes at a position. -/
abbrev ByteLog := Option (Piece UInt8)

/-- The calls that write a log. The rotation threshold may change between them. -/
inductive WalOp where
  | append (beginLsn : Nat) (frames : List Record)
  | truncateFrom (lsn : Nat)
  | dropBelow (horizon : Nat)
  | setRotateBytes (bytes : Nat)

namespace ByteLog

/-- The bytes with their position. -/
def held (log : ByteLog) : Piece UInt8 :=
  log.getD ⟨0, []⟩

/-- The first append decides where the log starts; later ones continue at its end. -/
def append (log : ByteLog) (beginLsn : Nat) (bytes : List UInt8) : Option ByteLog :=
  match log with
  | none => some (some ⟨beginLsn, bytes⟩)
  | some piece =>
      if beginLsn = piece.stop then some (some ⟨piece.start, piece.data ++ bytes⟩) else none

/-- Keep exactly the bytes below the position. -/
def truncateFrom (log : ByteLog) (lsn : Nat) : ByteLog :=
  log.map fun piece => if lsn < piece.stop then piece.below lsn else piece

/-- The effect of a call: a refused append changes nothing, and a horizon advance drops some
leading bytes, all of them below the horizon. -/
inductive Step : ByteLog → WalOp → ByteLog → Prop where
  | appended {log next beginLsn frames}
      (added : append log beginLsn (encodeAll frames) = some next) :
      Step log (.append beginLsn frames) next
  | refused {log beginLsn frames} (refused : append log beginLsn (encodeAll frames) = none) :
      Step log (.append beginLsn frames) log
  | truncated {log lsn} : Step log (.truncateFrom lsn) (truncateFrom log lsn)
  | dropped {log : ByteLog} {horizon : Nat} (count : Nat)
      (within : count ≤ log.held.data.length)
      (below : 0 < count → log.held.start + count ≤ horizon) :
      Step log (.dropBelow horizon) (log.map fun piece => piece.behead count)
  | rotated {log bytes} : Step log (.setRotateBytes bytes) log

/-- The effect of a sequence of calls. -/
inductive Runs : ByteLog → List WalOp → ByteLog → Prop where
  | nil {log} : Runs log [] log
  | cons {log middle last op ops} (step : Step log op middle) (rest : Runs middle ops last) :
      Runs log (op :: ops) last

end ByteLog

namespace Seg

/-- The bytes of the file at its position. -/
def piece (seg : Seg) : Piece UInt8 :=
  ⟨seg.start, seg.data⟩

theorem piece_stop (seg : Seg) : seg.piece.stop = seg.endLsn := by
  simp [piece, Piece.stop, data, endLsn, encodeAll_length]

end Seg

/-- The bytes of a list of files. -/
def pieces (files : List Seg) : List (Piece UInt8) :=
  files.map Seg.piece

@[simp] theorem pieces_nil : pieces [] = [] := rfl

@[simp] theorem pieces_cons (seg : Seg) (files : List Seg) :
    pieces (seg :: files) = seg.piece :: pieces files := rfl

@[simp] theorem pieces_append (left right : List Seg) :
    pieces (left ++ right) = pieces left ++ pieces right := by
  simp [pieces]

/-- Cutting a stream of frames is cutting its bytes. -/
theorem cutFrames_bytes (room : Nat) (records : List Record) :
    encodeAll (cutFrames room records).1 ++ (cutFrames room records).2 =
      (encodeAll records).take room := by
  induction records generalizing room with
  | nil => simp [cutFrames, encodeAll]
  | cons record records ih =>
      have encoded : encodeAll (record :: records) = record.encode ++ encodeAll records := by
        simp [encodeAll]
      rw [cutFrames, encoded, List.take_append, record.encode_length]
      split
      · next fits =>
        have whole : record.encode.take room = record.encode :=
          List.take_of_length_le (by rw [record.encode_length]; exact fits)
        rw [whole, ← ih, ← List.append_assoc]
        simp [encodeAll]
      · next short =>
        have none : room - record.frameLen = 0 := by omega
        simp [none, encodeAll]

/-- A file truncated to end at a position keeps its bytes below it. -/
theorem Seg.cutAt_data (seg : Seg) (lsn : Nat) :
    (seg.cutAt lsn).data = seg.data.take (lsn - seg.start) := by
  simp only [Seg.cutAt]
  split
  · next long =>
    have whole : (encodeAll seg.records).take (lsn - seg.start) = encodeAll seg.records :=
      List.take_of_length_le (by rw [encodeAll_length]; exact long)
    rw [Seg.data, Seg.data, List.take_append, whole, encodeAll_length]
  · next short =>
    have none : lsn - seg.start - framesLen seg.records = 0 := by omega
    rw [Seg.data, Seg.data, List.take_append, encodeAll_length, none, List.take_zero,
      List.append_nil, cutFrames_bytes]

theorem Seg.cutAt_start (seg : Seg) (lsn : Nat) : (seg.cutAt lsn).start = seg.start := by
  simp only [Seg.cutAt]
  split <;> rfl

/-- The calls of the source, under their names. -/
def WalOp.apply (wal : SegmentWal) : WalOp → Except String SegmentWal
  | .append beginLsn frames => wal.append beginLsn frames
  | .truncateFrom lsn => .ok (wal.truncateFrom lsn)
  | .dropBelow horizon => .ok (wal.dropBelow horizon)
  | .setRotateBytes bytes => .ok { wal with rotateBytes := bytes }

namespace SegmentWal

/-- A sequence of calls; a refused one leaves the log as it is. -/
def run (wal : SegmentWal) : List WalOp → SegmentWal
  | [] => wal
  | op :: ops =>
    match op.apply wal with
    | .ok next => next.run ops
    | .error _ => wal.run ops

/-- The files hold the bytes of the abstract log, whatever their boundaries. -/
structure Holds (wal : SegmentWal) (log : ByteLog) : Prop where
  tiles : Tiles log.held.start (pieces wal.files)
  contents : contents (pieces wal.files) = log.held.data
  flush : wal.flush = log.held.stop
  /-- Appends continue the active file. -/
  whole : ∀ active ∈ wal.active, active.torn = []
  written : wal.empty = log.isNone
  fresh : log = none → wal.files = []

namespace Holds

variable {wal : SegmentWal} {log : ByteLog}

/-- The first file starts where the log does. -/
theorem retainedStart (holds : wal.Holds log) : wal.retainedStart = log.held.start := by
  have tiles := holds.tiles
  have contents := holds.contents
  cases shape : wal.files with
  | nil =>
      rw [shape, pieces_nil, contents_nil] at contents
      simp [SegmentWal.retainedStart, shape, holds.flush, Piece.stop, ← contents]
  | cons seg files =>
      rw [shape] at tiles
      have start : seg.start = log.held.start := tiles.1
      simp [SegmentWal.retainedStart, shape, start]

/-- A read stitches the files together. -/
theorem read (holds : wal.Holds log) {lo hi : Nat} (ordered : lo ≤ hi) :
    (log.held.Covers lo hi → wal.read lo hi = .ok (log.held.window lo hi)) ∧
      (¬ log.held.Covers lo hi → ∃ why, wal.read lo hi = .error why) := by
  have own (seg : Seg) : readSeg lo hi seg = seg.piece.window lo hi := by
    rw [readSeg, ← Piece.window_clamp, seg.piece_stop]
    split
    · next outside =>
      rw [← seg.piece_stop, Piece.window_clamp]
      exact (Piece.window_eq_nil (by rwa [seg.piece_stop])).symm
    · rfl
  have stitched : wal.files.flatMap (readSeg lo hi) =
      (pieces wal.files).flatMap fun piece => piece.window lo hi := by
    rw [pieces, List.flatMap_map, funext own]
  have out : wal.files.flatMap (readSeg lo hi) = log.held.window lo hi := by
    rw [stitched, holds.tiles.flatMap_window, holds.contents]
  have complete : (log.held.window lo hi).length = hi - lo ↔ log.held.Covers lo hi :=
    Piece.length_window_eq_iff ordered
  simp only [SegmentWal.read, out]
  split
  · next short =>
    exact ⟨fun covers => absurd (complete.mpr covers) short, fun _ => ⟨_, rfl⟩⟩
  · next full =>
    exact ⟨fun _ => rfl, fun missing => absurd (complete.mp (not_not.mp full)) missing⟩

/-- Sealing moves no byte. -/
theorem sealActive (holds : wal.Holds log) : wal.sealActive.Holds log := by
  have tiles := holds.tiles
  have held := holds.contents
  have files : Tiles log.held.start (pieces wal.sealActive.files) ∧
      Icegres.contents (pieces wal.sealActive.files) = log.held.data := by
    cases active : wal.active with
    | none =>
        have same : wal.sealActive = wal := by simp [SegmentWal.sealActive, active]
        rw [same]
        exact ⟨tiles, held⟩
    | some seg =>
        by_cases long : seg.endLsn > seg.start
        · have same : wal.sealActive.files = wal.files := by
            simp [SegmentWal.sealActive, SegmentWal.files, active, long]
          rw [same]
          exact ⟨tiles, held⟩
        · have nothing : seg.piece.data = [] := by
            have stop := seg.piece_stop
            simp only [Piece.stop, Seg.piece] at stop ⊢
            exact List.eq_nil_of_length_eq_zero (by omega)
          have left : wal.sealActive.files = wal.sealed := by
            simp [SegmentWal.sealActive, SegmentWal.files, active, long]
          simp only [SegmentWal.files, active, Option.toList_some, pieces_append, Tiles.append,
            contents_append, pieces_cons, pieces_nil, contents_cons, nothing, contents_nil,
            List.append_nil] at tiles held
          rw [left]
          exact ⟨tiles.1, held⟩
  refine ⟨files.1, files.2, ?_, by simp, ?_, ?_⟩
  · rw [sealActive_flush]
    exact holds.flush
  · rw [sealActive_empty]
    exact holds.written
  · intro none
    have noFile := holds.fresh none
    simp only [SegmentWal.files, List.append_eq_nil_iff, Option.toList_eq_nil_iff] at noFile
    simp [SegmentWal.sealActive, SegmentWal.files, noFile]

/-- The active file, which may be about to be created, continues the sealed ones up to the
write position. -/
theorem activeAt (holds : wal.Holds log) {begin : Nat}
    (position : log ≠ none → begin = log.held.stop) :
    let start := (log.map Piece.start).getD begin
    Tiles start (pieces (wal.sealed ++ [wal.activeAt begin])) ∧
      Icegres.contents (pieces (wal.sealed ++ [wal.activeAt begin])) = log.held.data ∧
      (wal.activeAt begin).torn = [] := by
  intro start
  have tiles := holds.tiles
  have held := holds.contents
  have atStart : log ≠ none → start = log.held.start := by
    intro some
    obtain ⟨piece, rfl⟩ := Option.ne_none_iff_exists'.mp some
    rfl
  cases active : wal.active with
  | some seg =>
      have filesEq : wal.files = wal.sealed ++ [seg] := by simp [SegmentWal.files, active]
      have some : log ≠ none := fun none => by simpa [filesEq] using holds.fresh none
      have same : wal.activeAt begin = seg := by simp [SegmentWal.activeAt, active]
      rw [same, ← filesEq, atStart some]
      exact ⟨tiles, held, holds.whole seg (by simp [active])⟩
  | none =>
      have filesEq : wal.files = wal.sealed := by simp [SegmentWal.files, active]
      have created : wal.activeAt begin = { start := begin, records := [], torn := [] } := by
        simp [SegmentWal.activeAt, active]
      have nothing : Seg.piece { start := begin, records := [], torn := [] } = ⟨begin, []⟩ := rfl
      rw [filesEq] at tiles held
      rw [created, pieces_append, Tiles.append, contents_append, pieces_cons, nothing, held]
      refine ⟨⟨?_, ?_, trivial⟩, by simp, rfl⟩
      · by_cases none : log = none
        · have noFile := holds.fresh none
          rw [filesEq] at noFile
          rw [noFile]
          exact trivial
        · rw [atStart none]
          exact tiles
      · by_cases none : log = none
        · subst none
          rfl
        · rw [atStart none]
          exact position none

/-- An append adds its bytes at the end, or is refused by both. -/
theorem append (holds : wal.Holds log) (begin : Nat) (frames : List Record) :
    (∃ next added, wal.append begin frames = .ok next ∧
        log.append begin (encodeAll frames) = some added ∧ next.Holds added) ∨
      (∃ why, wal.append begin frames = .error why) ∧
        log.append begin (encodeAll frames) = none := by
  have unwritten := holds.written
  by_cases position : log ≠ none → begin = log.held.stop
  · left
    obtain ⟨tiles, held, whole⟩ := holds.activeAt position
    have atEnd : ¬ begin ≠ if wal.empty then begin else wal.flush := by
      cases log with
      | none => simp [unwritten]
      | some piece => simpa [unwritten, holds.flush] using position (by simp)
    let added : Piece UInt8 := ⟨(log.map Piece.start).getD begin, log.held.data ++ encodeAll frames⟩
    have addedEq : log.append begin (encodeAll frames) = some (some added) := by
      cases log with
      | none => rfl
      | some piece =>
          have atStop : begin = piece.stop := position (by simp)
          simp [ByteLog.append, atStop, added, ByteLog.held]
    let active : Seg :=
      { wal.activeAt begin with records := (wal.activeAt begin).records ++ frames }
    let written : SegmentWal :=
      { wal with active := some active, flush := active.endLsn, empty := false }
    have filesEq : written.files = wal.sealed ++ [active] := by
      simp [written, SegmentWal.files]
    have extended : active.piece =
        ⟨(wal.activeAt begin).start, (wal.activeAt begin).data ++ encodeAll frames⟩ := by
      simp [Seg.piece, active, Seg.data, whole, encodeAll]
    rw [pieces_append, Tiles.append] at tiles
    have ends : active.endLsn = added.stop := by
      have start : (wal.activeAt begin).start = _ := tiles.2.1
      have length := congrArg List.length held
      simp only [pieces_append, pieces_cons, pieces_nil, contents_append, contents_cons,
        contents_nil, List.length_append, Seg.piece, List.length_nil] at length
      rw [← active.piece_stop, extended]
      simp only [Piece.stop, added, start, List.length_append]
      omega
    have writtenHolds : written.Holds (some added) := by
      refine ⟨?_, ?_, ends, ?_, rfl, by simp⟩
      · rw [filesEq, pieces_append, Tiles.append]
        exact ⟨tiles.1, tiles.2.1, trivial⟩
      · rw [filesEq, pieces_append, contents_append, pieces_cons, extended]
        simp only [pieces_append, pieces_cons, contents_append, contents_cons, Seg.piece,
          pieces_nil, contents_nil, List.append_nil] at held
        simp only [pieces_nil, contents_cons, contents_nil, List.append_nil, ← List.append_assoc,
          held]
        rfl
      · intro seg isActive
        obtain rfl : active = seg := by simpa [written] using isActive
        exact whole
    rw [SegmentWal.append]
    simp only [if_neg atEnd]
    split
    · exact ⟨_, _, rfl, addedEq, writtenHolds.sealActive⟩
    · exact ⟨_, _, rfl, addedEq, writtenHolds⟩
  · right
    obtain ⟨some, away⟩ := Classical.not_imp.mp position
    obtain ⟨piece, rfl⟩ := Option.ne_none_iff_exists'.mp some
    have awayFlush : begin ≠ if wal.empty then begin else wal.flush := by
      simpa [unwritten, holds.flush] using away
    have awayStop : begin ≠ piece.stop := away
    rw [SegmentWal.append]
    simp only [if_pos awayFlush]
    exact ⟨⟨_, rfl⟩, by simp [ByteLog.append, awayStop]⟩

end Holds

/-- Deleting the files at or above a position and cutting the one that contains it leaves the
bytes below it. -/
theorem truncated_pieces {files : List Seg} {pos lsn : Nat} (tiles : Tiles pos (pieces files))
    (below : lsn < pos + (contents (pieces files)).length) :
    Tiles (min pos lsn) (pieces (cutBoundary lsn (deleteFrom lsn files.length files))) ∧
      contents (pieces (cutBoundary lsn (deleteFrom lsn files.length files))) =
        (contents (pieces files)).take (lsn - pos) := by
  obtain ⟨deleted, shape, above, stops⟩ := deleteFrom_spec lsn files.length files
  generalize deleteFrom lsn files.length files = left at shape stops
  subst shape
  rw [pieces_append, Tiles.append] at tiles
  obtain ⟨inLeft, inDeleted⟩ := tiles
  rcases List.eq_nil_or_concat left with rfl | ⟨front, last, rfl⟩
  · -- every file starts at or above the position
    have low : lsn ≤ pos := by
      cases deleted with
      | nil =>
          simp only [List.append_nil, pieces_nil, contents_nil, List.length_nil] at below
          omega
      | cons seg deleted =>
          have start : seg.start = _ := inDeleted.1
          have := above seg (by simp)
          simp only [pieces_nil, contents_nil, List.length_nil] at start
          omega
    refine ⟨trivial, ?_⟩
    rw [show lsn - pos = 0 by omega, List.take_zero]
    rfl
  · rw [List.concat_eq_append] at *
    have lastBelow : last.start < lsn := stops (Nat.le_refl _) last (by simp)
    rw [pieces_append, Tiles.append] at inLeft
    obtain ⟨inFront, lastStart, -⟩ := inLeft
    have start : last.start = _ := lastStart
    have low : min pos lsn = pos := by omega
    -- what was deleted lies at or above the position
    have outside : (contents (pieces (front ++ [last]))).take (lsn - pos) =
        (contents (pieces (front ++ [last] ++ deleted))).take (lsn - pos) := by
      rw [pieces_append (front ++ [last]), contents_append, List.take_append]
      cases deleted with
      | nil => simp
      | cons seg deleted =>
          have next : seg.start = _ := inDeleted.1
          have := above seg (by simp)
          rw [show lsn - pos - (contents (pieces (front ++ [last]))).length = 0 by omega]
          simp
    rw [low, ← outside]
    simp only [cutBoundary, List.getLast?_append, List.getLast?_singleton, Option.some_or,
      List.dropLast_concat]
    split
    · next longer =>
      constructor
      · rw [pieces_append, Tiles.append]
        exact ⟨inFront, (last.cutAt_start lsn).trans start, trivial⟩
      · have skip : (contents (pieces front)).take (lsn - pos) = contents (pieces front) :=
          List.take_of_length_le (by omega)
        simp only [pieces_append, pieces_cons, pieces_nil, contents_append, contents_cons,
          contents_nil, List.append_nil, List.take_append, skip, Seg.piece, Seg.cutAt_data]
        rw [show lsn - pos - (contents (pieces front)).length = lsn - last.start by omega]
    · next shorter =>
      constructor
      · rw [pieces_append, Tiles.append]
        exact ⟨inFront, start, trivial⟩
      · symm
        apply List.take_of_length_le
        have stop := last.piece_stop
        simp only [Piece.stop, Seg.piece] at stop
        simp only [pieces_append, pieces_cons, pieces_nil, contents_append, contents_cons,
          contents_nil, List.append_nil, List.length_append, Seg.piece]
        omega

namespace Holds

variable {wal : SegmentWal} {log : ByteLog}

/-- A truncation keeps exactly the bytes below the position. -/
theorem truncateFrom (holds : wal.Holds log) (lsn : Nat) :
    (wal.truncateFrom lsn).Holds (log.truncateFrom lsn) := by
  by_cases beyond : lsn ≥ wal.flush
  · have same : log.truncateFrom lsn = log := by
      cases log with
      | none => rfl
      | some piece =>
          have stop : wal.flush = piece.stop := holds.flush
          simp [ByteLog.truncateFrom, show ¬ lsn < piece.stop by omega]
    rw [SegmentWal.truncateFrom, if_pos beyond, same]
    exact holds
  · have sealedHolds := holds.sealActive
    have sealedFiles : wal.sealActive.files = wal.sealActive.sealed := by
      simp [SegmentWal.files]
    have stop := holds.flush
    have held := sealedHolds.contents
    rw [Piece.stop, ← held, sealedFiles] at stop
    obtain ⟨tiles, contents⟩ := truncated_pieces (sealedFiles ▸ sealedHolds.tiles)
      (Nat.not_le.mp (stop ▸ beyond))
    generalize leftEq : cutBoundary lsn
      (deleteFrom lsn wal.sealActive.sealed.length wal.sealActive.sealed) = left at tiles contents
    have layout : wal.truncateFrom lsn =
        { sealed := left, active := none, flush := lsn, empty := wal.empty
          rotateBytes := wal.sealActive.rotateBytes } := by
      rw [SegmentWal.truncateFrom, if_neg beyond]
      simp [leftEq]
    have filesEq : (wal.truncateFrom lsn).files = left := by
      rw [layout]
      simp [SegmentWal.files]
    have flushEq : (wal.truncateFrom lsn).flush = lsn := by rw [layout]
    have emptyEq : (wal.truncateFrom lsn).empty = wal.empty := by rw [layout]
    have activeEq : (wal.truncateFrom lsn).active = none := by rw [layout]
    cases log with
    | none =>
        have none : wal.flush = 0 := holds.flush
        omega
    | some piece =>
        have inside : lsn < piece.stop := by
          have := holds.flush
          simp only [ByteLog.held, Option.getD_some] at this
          omega
        have truncated : ByteLog.truncateFrom (some piece) lsn = some (piece.below lsn) := by
          simp [ByteLog.truncateFrom, inside]
        rw [truncated]
        rw [sealedFiles] at held
        rw [held] at contents
        refine ⟨filesEq ▸ tiles, filesEq ▸ contents, ?_, by simp [activeEq],
          emptyEq.trans holds.written, by simp⟩
        · rw [flushEq]
          change lsn = (piece.below lsn).stop
          simp only [Piece.stop, Piece.below, List.length_take] at inside ⊢
          omega

/-- A horizon advance drops leading bytes below the horizon, and no file unless an other one
follows it. -/
theorem dropBelow (holds : wal.Holds log) (horizon : Nat) :
    ∃ next, ByteLog.Step log (.dropBelow horizon) next ∧ (wal.dropBelow horizon).Holds next := by
  obtain ⟨dropEq, below, -⟩ := wal.droppable_spec horizon _ (Nat.le_refl _)
  have filesEq : (wal.dropBelow horizon).files =
      wal.files.drop (wal.droppable horizon).length := dropEq
  generalize (wal.droppable horizon).length = count at below filesEq
  have tiles := holds.tiles
  have held := holds.contents
  rw [← List.take_append_drop count wal.files, pieces_append, Tiles.append] at tiles
  rw [← List.take_append_drop count wal.files, pieces_append, contents_append] at held
  let gone := Icegres.contents (pieces (wal.files.take count))
  have within : gone.length ≤ log.held.data.length := by
    rw [← held, List.length_append]
    exact Nat.le_add_right _ _
  have left : Icegres.contents (pieces (wal.files.drop count)) =
      log.held.data.drop gone.length := by
    rw [← held, List.drop_left]
  refine ⟨_, .dropped gone.length within ?_, ?_⟩
  · intro some
    rcases List.eq_nil_or_concat (wal.files.take count) with none | ⟨front, last, shape⟩
    · simp [gone, none] at some
    · rw [List.concat_eq_append] at shape
      have lastBelow := below last (by simp [shape])
      rw [← last.piece_stop] at lastBelow
      have inFront := tiles.1
      rw [shape, pieces_append, Tiles.append] at inFront
      have start := inFront.2.1
      simp only [gone, shape, pieces_append, pieces_cons, pieces_nil, contents_append,
        contents_cons, contents_nil, List.append_nil, List.length_append]
      simp only [Piece.stop] at lastBelow
      omega
  · cases log with
    | none =>
        have noFile : (wal.dropBelow horizon).files = [] := by simp [filesEq, holds.fresh rfl]
        refine ⟨by rw [noFile]; exact trivial, by rw [noFile]; rfl, holds.flush, holds.whole,
          holds.written, fun _ => noFile⟩
    | some piece =>
        refine ⟨?_, ?_, ?_, holds.whole, holds.written, by simp⟩
        · rw [filesEq]
          exact tiles.2
        · rw [filesEq]
          exact left
        · change wal.flush = (piece.behead gone.length).stop
          have stop := holds.flush
          simp only [ByteLog.held, Option.getD_some] at stop within
          simp only [Piece.stop, Piece.behead, List.length_drop] at stop ⊢
          omega

end Holds

end SegmentWal

/-- The scan of a file keeps it as it is, or hits an invalid frame and loses bytes. -/
theorem scanWalSegment_cases (seg : Seg) :
    scanWalSegment seg = (seg, false) ∨
      (scanWalSegment seg).2 = true ∧ (scanWalSegment seg).1.endLsn < seg.endLsn := by
  have scanned : ∀ (records : List Record) (pos : Nat),
      scanRecords pos records = (records, false) ∨
        (scanRecords pos records).2 = true ∧
          framesLen (scanRecords pos records).1 < framesLen records := by
    intro records
    induction records with
    | nil => exact fun _ => .inl rfl
    | cons record records ih =>
        intro pos
        have := record.frameLen_pos
        rw [scanRecords]
        split
        · rcases ih record.endLsn with whole | ⟨bad, fewer⟩
          · exact .inl (by rw [whole])
          · refine .inr ⟨bad, ?_⟩
            simp only [framesLen_cons]
            omega
        · exact .inr ⟨rfl, by simp only [framesLen_nil, framesLen_cons]; omega⟩
  rcases scanned seg.records seg.start with whole | ⟨bad, fewer⟩
  · by_cases torn : seg.torn = []
    · left
      rw [scanWalSegment, whole, torn]
      cases seg
      simp_all
    · right
      have := List.length_pos_of_ne_nil torn
      simp only [scanWalSegment, whole, Seg.endLsn, List.length_nil]
      exact ⟨by simp [torn], by omega⟩
  · right
    simp only [scanWalSegment, Seg.endLsn, List.length_nil]
    exact ⟨by simp [bad], by omega⟩

/-- The walk starts at whatever file comes first. -/
theorem scanSegments_none (seg : Seg) (files : List Seg) :
    scanSegments (seg :: files) none = scanSegments (seg :: files) (some seg.start) := by
  simp [scanSegments]

/-- The files a boot scan keeps follow one another up to the position it derives. -/
theorem scanSegments_tiles (files : List Seg) (pos : Nat) :
    Tiles pos (pieces (scanSegments files (some pos)).1) ∧
      (scanSegments files (some pos)).2 =
        some (pos + (contents (pieces (scanSegments files (some pos)).1)).length) := by
  induction files generalizing pos with
  | nil => exact ⟨trivial, rfl⟩
  | cons seg files ih =>
      by_cases gap : pos = seg.start
      · subst gap
        have kept (good : Seg) (start : good.start = seg.start) :
            Tiles seg.start (pieces (if good.endLsn = seg.start then [] else [good])) ∧
              good.endLsn = seg.start +
                (contents (pieces (if good.endLsn = seg.start then [] else [good]))).length := by
          have stop := good.piece_stop
          simp only [Piece.stop, Seg.piece] at stop
          split
          · next nothing => exact ⟨trivial, by simpa using nothing⟩
          · exact ⟨⟨start, trivial⟩, by simp [Seg.piece]; omega⟩
        obtain ⟨keptTiles, keptEnd⟩ := kept (scanWalSegment seg).1 rfl
        simp only [scanSegments, Option.any_some, ne_eq, not_true_eq_false, decide_false,
          Bool.false_eq_true, if_false]
        split
        · exact ⟨keptTiles, congrArg some keptEnd⟩
        · obtain ⟨restTiles, restEnd⟩ := ih (scanWalSegment seg).1.endLsn
          rw [pieces_append, Tiles.append, contents_append, List.length_append, ← Nat.add_assoc,
            ← keptEnd]
          exact ⟨⟨keptTiles, restTiles⟩, restEnd⟩
      · simp [scanSegments, gap, Tiles]

/-- Without its first file, a directory whose scan reaches the end still does. -/
theorem scanSegments_tail {seg : Seg} {files : List Seg} (nonempty : files ≠ [])
    (tiles : Tiles seg.start (pieces (seg :: files)))
    (reached : (scanSegments (seg :: files) none).2 =
      some (seg.start + (contents (pieces (seg :: files))).length)) :
    (scanSegments files none).2 =
      some (seg.start + (contents (pieces (seg :: files))).length) := by
  obtain ⟨next, rest, rfl⟩ := List.exists_cons_of_ne_nil nonempty
  have stop := seg.piece_stop
  have start : next.start = seg.endLsn := by
    rw [← stop]
    exact tiles.2.1
  simp only [Piece.stop, Seg.piece] at stop
  rw [scanSegments_none, start]
  rcases scanWalSegment_cases seg with whole | ⟨bad, shorter⟩
  · simp only [scanSegments, Option.any_none, Bool.false_eq_true, if_false, whole] at reached ⊢
    exact reached
  · simp only [scanSegments, Option.any_none, Bool.false_eq_true, if_false, bad, if_true,
      Option.some.injEq, pieces_cons, contents_cons, List.length_append, Seg.piece] at reached
    omega

/-- If a boot scan over the files reaches the end, it does over every rest of them. -/
theorem scanSegments_drop {files : List Seg} {pos stop : Nat} (tiles : Tiles pos (pieces files))
    (atStop : pos + (contents (pieces files)).length = stop)
    (reached : (scanSegments files none).2 = some stop) (count : Nat)
    (stays : files.drop count ≠ []) : (scanSegments (files.drop count) none).2 = some stop := by
  induction count generalizing files pos with
  | zero => exact reached
  | succ count ih =>
      cases files with
      | nil => exact absurd (by simp) stays
      | cons seg files =>
          obtain rfl : seg.start = pos := tiles.1
          have nonempty : files ≠ [] := by
            rintro rfl
            exact stays (by simp)
          refine ih tiles.2 ?_ ?_ stays
          · rw [← atStop, pieces_cons, contents_cons, List.length_append, Piece.stop, Nat.add_assoc]
            rfl
          · rw [← atStop]
            exact scanSegments_tail nonempty tiles (atStop ▸ reached)

namespace SegmentWal

/-- Whatever is on disk, the opened log holds one string of bytes. -/
theorem open_holds (files : List Seg) (rotateBytes : Nat) :
    ∃ log, (SegmentWal.open files rotateBytes).Holds log ∧ (files = [] → log = none) := by
  cases files with
  | nil =>
      refine ⟨none, ⟨trivial, rfl, rfl, ?_, rfl, fun _ => rfl⟩, fun _ => rfl⟩
      intro active isActive
      cases isActive
  | cons seg files =>
      obtain ⟨tiles, flush⟩ := scanSegments_tiles (seg :: files) seg.start
      rw [← scanSegments_none] at tiles flush
      generalize scanned : scanSegments (seg :: files) none = scan at tiles flush
      have layout : SegmentWal.open (seg :: files) rotateBytes =
          { sealed := scan.1, active := none
            flush := seg.start + (contents (pieces scan.1)).length
            empty := scan.1.isEmpty &&
              seg.start + (contents (pieces scan.1)).length == 0
            rotateBytes := rotateBytes } := by
        simp [SegmentWal.open, scanned, flush]
      rw [layout]
      by_cases fresh : scan.1 = [] ∧ seg.start = 0
      · refine ⟨none, ⟨?_, ?_, ?_, by simp, ?_, ?_⟩, by simp⟩ <;>
          simp [SegmentWal.files, fresh, Tiles, ByteLog.held, Piece.stop]
      · let wal : SegmentWal :=
          { sealed := scan.1, active := none
            flush := seg.start + (contents (pieces scan.1)).length
            empty := scan.1.isEmpty && seg.start + (contents (pieces scan.1)).length == 0
            rotateBytes := rotateBytes }
        have filesEq : wal.files = scan.1 := by simp [wal, SegmentWal.files]
        refine ⟨some ⟨seg.start, contents (pieces scan.1)⟩,
          ⟨filesEq.symm ▸ tiles, congrArg (fun files => contents (pieces files)) filesEq, rfl,
            by simp, ?_, by simp⟩, by simp⟩
        · cases shape : scan.1 with
          | nil => simpa [shape] using fresh
          | cons first rest => rfl

/-- Every call has the effect of the abstract one. -/
theorem Holds.apply {wal : SegmentWal} {log : ByteLog} (holds : wal.Holds log) (op : WalOp) :
    ∃ next, ByteLog.Step log op next ∧
      ((∃ changed, op.apply wal = .ok changed ∧ changed.Holds next) ∨
        (∃ why, op.apply wal = .error why) ∧ wal.Holds next) := by
  cases op with
  | append beginLsn frames =>
      rcases holds.append beginLsn frames with ⟨changed, next, applied, added, held⟩ | ⟨why, refused⟩
      · exact ⟨next, .appended added, .inl ⟨changed, applied, held⟩⟩
      · exact ⟨log, .refused refused, .inr ⟨why, holds⟩⟩
  | truncateFrom lsn => exact ⟨_, .truncated, .inl ⟨_, rfl, holds.truncateFrom lsn⟩⟩
  | dropBelow horizon =>
      obtain ⟨next, dropped, held⟩ := holds.dropBelow horizon
      exact ⟨next, dropped, .inl ⟨_, rfl, held⟩⟩
  | setRotateBytes bytes =>
      exact ⟨log, .rotated, .inl ⟨_, rfl, ⟨holds.tiles, holds.contents, holds.flush, holds.whole,
        holds.written, holds.fresh⟩⟩⟩

theorem Holds.run {wal : SegmentWal} {log : ByteLog} (holds : wal.Holds log) (ops : List WalOp) :
    ∃ last, ByteLog.Runs log ops last ∧ (wal.run ops).Holds last := by
  induction ops generalizing wal log with
  | nil => exact ⟨log, .nil, holds⟩
  | cons op ops ih =>
      obtain ⟨next, step, ⟨changed, applied, held⟩ | ⟨⟨why, refused⟩, held⟩⟩ := holds.apply op
      · obtain ⟨last, runs, lastHeld⟩ := ih held
        exact ⟨last, .cons step runs, by simpa only [SegmentWal.run, applied] using lastHeld⟩
      · obtain ⟨last, runs, lastHeld⟩ := ih held
        exact ⟨last, .cons step runs, by simpa only [SegmentWal.run, refused] using lastHeld⟩

/-- What the callers of a log can see of it. -/
structure Shows (wal : SegmentWal) (log : ByteLog) : Prop where
  flush : wal.flush = log.held.stop
  retainedStart : wal.retainedStart = log.held.start
  empty : wal.empty = log.isNone
  reads : ∀ lo hi, lo ≤ hi → log.held.Covers lo hi → wal.read lo hi = .ok (log.held.window lo hi)
  refuses : ∀ lo hi, lo ≤ hi → ¬ log.held.Covers lo hi → ∃ why, wal.read lo hi = .error why
  appends : ∀ beginLsn frames,
    (wal.append beginLsn frames).isOk = (log.append beginLsn (encodeAll frames)).isSome
  /-- A horizon advance keeps the last file, and with it what a restart derives the end from. -/
  lastFile : ∀ horizon, (wal.dropBelow horizon).files.getLast? = wal.files.getLast?
  rederived : ∀ horizon, (SegmentWal.open wal.files wal.rotateBytes).flush = wal.flush →
    (SegmentWal.open (wal.dropBelow horizon).files wal.rotateBytes).flush = wal.flush

theorem Holds.shows {wal : SegmentWal} {log : ByteLog} (holds : wal.Holds log) :
    wal.Shows log where
  flush := holds.flush
  retainedStart := holds.retainedStart
  empty := holds.written
  reads _ _ ordered := (holds.read ordered).1
  refuses _ _ ordered := (holds.read ordered).2
  appends beginLsn frames := by
    rcases holds.append beginLsn frames with ⟨_, _, applied, added, -⟩ | ⟨⟨_, refused⟩, none⟩
    · rw [applied, added]
      rfl
    · rw [refused, none]
      rfl
  lastFile horizon := by
    obtain ⟨dropEq, -, stays⟩ := wal.droppable_spec horizon _ (Nat.le_refl _)
    have filesEq : (wal.dropBelow horizon).files =
        wal.files.drop (wal.droppable horizon).length := dropEq
    rw [filesEq]
    by_cases none : wal.files = []
    · simp [none]
    · have left := stays none
      rw [List.getLast?_drop]
      simp only [ne_eq, List.drop_eq_nil_iff] at left
      simp [left]
  rederived horizon reached := by
    obtain ⟨dropEq, -, stays⟩ := wal.droppable_spec horizon _ (Nat.le_refl _)
    have filesEq : (wal.dropBelow horizon).files =
        wal.files.drop (wal.droppable horizon).length := dropEq
    rw [filesEq]
    by_cases none : wal.files = []
    · simpa [none] using reached
    · have atStop : log.held.start + (Icegres.contents (pieces wal.files)).length = wal.flush := by
        rw [holds.contents, holds.flush, Piece.stop]
      have scanned : (scanSegments wal.files Option.none).2 = some wal.flush := by
        obtain ⟨seg, files, shape⟩ := List.exists_cons_of_ne_nil none
        have found := (scanSegments_tiles wal.files seg.start).2
        rw [shape, ← scanSegments_none, ← shape] at found
        rw [found]
        simpa [SegmentWal.open, found] using reached
      simp [SegmentWal.open, scanSegments_drop holds.tiles atStop scanned _ (stays none)]

/-- The segmented log is a string of bytes between a retained start and an end: after any
calls on whatever a restart found, it shows what the abstract log shows after the same
calls. -/
theorem run_refines_byteLog (files : List Seg) (rotateBytes : Nat) :
    ∃ first : ByteLog, (files = [] → first = none) ∧
      (SegmentWal.open files rotateBytes).Shows first ∧
      ∀ ops, ∃ last, ByteLog.Runs first ops last ∧
        ((SegmentWal.open files rotateBytes).run ops).Shows last := by
  obtain ⟨first, holds, fresh⟩ := open_holds files rotateBytes
  refine ⟨first, fresh, holds.shows, fun ops => ?_⟩
  obtain ⟨last, runs, held⟩ := holds.run ops
  exact ⟨last, runs, held.shows⟩

end SegmentWal

end Icegres.Quorum
