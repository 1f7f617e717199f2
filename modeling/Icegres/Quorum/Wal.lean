import Icegres.Quorum.Proto

/-!
# The acceptor's segmented log

LSN-named segment files of concatenated record frames. The flush position is not stored: a
restart rescans the files, so what a restart recovers is a function of the files alone. A
file's content is its whole records followed by the bytes of a record that was cut inside
its frame; the scan drops those bytes.

Files are listed in name order throughout, which is the order of their start LSNs.
-/

namespace Icegres.Quorum

open Icegres.Segment

/-- Rotate the active segment once it reaches this many bytes. -/
def segmentRotateBytes : Nat := 16 <<< 20

/-- One log segment file, named after the start LSN of its first record. -/
structure Seg where
  start : Nat
  records : List Record
  /-- Bytes of a record that was cut inside its frame. -/
  torn : List UInt8

namespace Seg

/-- The bytes of the file. -/
def data (seg : Seg) : List UInt8 :=
  encodeAll seg.records ++ seg.torn

/-- The position after the file's last byte. -/
def endLsn (seg : Seg) : Nat :=
  seg.start + (framesLen seg.records + seg.torn.length)

end Seg

/-- The first `room` bytes of a stream of frames: the records that fit whole, and the part of
the next one. -/
def cutFrames : Nat → List Record → List Record × List UInt8
  | _, [] => ([], [])
  | room, record :: rest =>
    if record.frameLen ≤ room then
      let inner := cutFrames (room - record.frameLen) rest
      (record :: inner.1, inner.2)
    else
      ([], record.encode.take room)

/-- A segment file truncated to end at `lsn`. -/
def Seg.cutAt (seg : Seg) (lsn : Nat) : Seg :=
  let room := lsn - seg.start
  if framesLen seg.records ≤ room then
    { seg with torn := seg.torn.take (room - framesLen seg.records) }
  else
    let kept := cutFrames room seg.records
    { seg with records := kept.1, torn := kept.2 }

/-- The acceptor's log over its segment files. -/
structure SegmentWal where
  /-- Ascending. -/
  sealed : List Seg
  /-- The segment currently receiving appends. -/
  active : Option Seg
  /-- End of the durable log; the local start when nothing was ever written. -/
  flush : Nat
  /-- Nothing was ever written locally. -/
  empty : Bool
  rotateBytes : Nat

/-- The records a scan of one file keeps, and whether it hit an invalid frame: a record
whose embedded LSN is not its position. -/
def scanRecords : Nat → List Record → List Record × Bool
  | _, [] => ([], false)
  | pos, record :: rest =>
    if record.lsn = pos then
      let inner := scanRecords record.endLsn rest
      (record :: inner.1, inner.2)
    else
      ([], true)

/-- Scan one segment, truncating it at the first invalid frame. -/
def scanWalSegment (seg : Seg) : Seg × Bool :=
  let scan := scanRecords seg.start seg.records
  ({ seg with records := scan.1, torn := [] }, scan.2 || !seg.torn.isEmpty)

/-- The boot scan's walk over the files: it stops at a gap or behind an invalid frame and
drops files without a valid frame. Returns the surviving files and the end position. -/
def scanSegments : List Seg → Option Nat → List Seg × Option Nat
  | [], pos => ([], pos)
  | seg :: rest, pos =>
    if pos.any (· ≠ seg.start) then
      ([], pos)
    else
      let scan := scanWalSegment seg
      let pos := some scan.1.endLsn
      let keep := if scan.1.endLsn = seg.start then [] else [scan.1]
      if scan.2 then
        (keep, pos)
      else
        let inner := scanSegments rest pos
        (keep ++ inner.1, inner.2)

namespace SegmentWal

/-- Open the log over its files, recomputing the flush position. -/
def «open» (files : List Seg) (rotateBytes : Nat) : SegmentWal :=
  let scan := scanSegments files none
  let flush := scan.2.getD 0
  { sealed := scan.1
    active := none
    flush := flush
    empty := scan.1.isEmpty && flush == 0
    rotateBytes := rotateBytes }

/-- The segment files on disk. -/
def files (wal : SegmentWal) : List Seg :=
  wal.sealed ++ wal.active.toList

/-- The retained records. -/
def records (wal : SegmentWal) : List Record :=
  wal.files.flatMap Seg.records

/-- The lowest LSN still retained locally; the flush position when nothing is retained.
Files ascend, so the first one starts lowest. -/
def retainedStart (wal : SegmentWal) : Nat :=
  (wal.files.head?.map Seg.start).getD wal.flush

/-- Seal the active segment; one without a record is deleted instead. -/
def sealActive (wal : SegmentWal) : SegmentWal :=
  match wal.active with
  | some active =>
      { wal with
        sealed := if active.endLsn > active.start then wal.sealed ++ [active] else wal.sealed
        active := none }
  | none => wal

/-- The active segment; it is created at `beginLsn` when there is none. -/
def activeAt (wal : SegmentWal) (beginLsn : Nat) : Seg :=
  wal.active.getD { start := beginLsn, records := [], torn := [] }

/-- Durably append validated records at `beginLsn`, the write position. -/
def append (wal : SegmentWal) (beginLsn : Nat) (frames : List Record) :
    Except String SegmentWal :=
  let flush := if wal.empty then beginLsn else wal.flush
  if beginLsn ≠ flush then
    .error s!"wal append at {beginLsn} does not match the write position {flush}"
  else
    let active := wal.activeAt beginLsn
    let active := { active with records := active.records ++ frames }
    let written :=
      { wal with active := some active, flush := active.endLsn, empty := false }
    .ok (if active.endLsn - active.start ≥ wal.rotateBytes then written.sealActive else written)

/-- Delete trailing files that start at or above `lsn`, at most `count` of them. -/
def deleteFrom (lsn : Nat) : Nat → List Seg → List Seg
  | 0, files => files
  | count + 1, files =>
    match files.getLast? with
    | some last => if last.start < lsn then files else deleteFrom lsn count files.dropLast
    | none => files

/-- Truncate the last file to end at `lsn` when it runs past it. -/
def cutBoundary (lsn : Nat) (files : List Seg) : List Seg :=
  match files.getLast? with
  | some last => if last.endLsn > lsn then files.dropLast ++ [last.cutAt lsn] else files
  | none => files

/-- Drop everything at or after `lsn`: later files first, in descending order, then the
boundary one is truncated. -/
def truncateFrom (wal : SegmentWal) (lsn : Nat) : SegmentWal :=
  if lsn ≥ wal.flush then
    wal
  else
    let wal := wal.sealActive
    { wal with
      sealed := cutBoundary lsn (deleteFrom lsn wal.sealed.length wal.sealed)
      flush := lsn }

/-- The files a horizon advance deletes: those fully below it, in ascending order, never the
one that holds the flush position. -/
def droppable (wal : SegmentWal) (horizon : Nat) : List Seg :=
  let deletable :=
    if wal.active.isSome then wal.sealed.length else wal.sealed.length - 1
  (wal.sealed.take deletable).takeWhile fun seg => seg.endLsn ≤ horizon

/-- Garbage-collect the files fully below `horizon`. -/
def dropBelow (wal : SegmentWal) (horizon : Nat) : SegmentWal :=
  { wal with sealed := wal.sealed.drop (wal.droppable horizon).length }

/-- The bytes of one file inside `[lo, hi)`. -/
def readSeg (lo hi : Nat) (seg : Seg) : List UInt8 :=
  if seg.endLsn ≤ lo ∨ seg.start ≥ hi then
    []
  else
    (seg.data.take (min hi seg.endLsn - seg.start)).drop (max lo seg.start - seg.start)

/-- The raw frame bytes of `[lo, hi)`; an error when the range is not fully retained. -/
def read (wal : SegmentWal) (lo hi : Nat) : Except String (List UInt8) :=
  let out := wal.files.flatMap (readSeg lo hi)
  if out.length ≠ hi - lo then
    .error s!"log range [{lo}, {hi}) is not fully retained here ({out.length} of {hi - lo} bytes)"
  else
    .ok out

/-- The files left by an append of `frames` of which `written` bytes reached the disk. The
active file exists by then, also when this append creates it. -/
def appendCrash (wal : SegmentWal) (beginLsn : Nat) (frames : List Record) (written : Nat) :
    List Seg :=
  let active := wal.activeAt beginLsn
  let reached := cutFrames written frames
  wal.sealed ++ [{ active with records := active.records ++ reached.1, torn := reached.2 }]

/-- The files left by a truncation at `lsn` that stopped after `deleted` deletions. -/
def truncateCrash (wal : SegmentWal) (lsn deleted : Nat) : List Seg :=
  if lsn ≥ wal.flush then wal.files else deleteFrom lsn deleted wal.sealActive.sealed

/-- The files left by a horizon advance that stopped after `dropped` deletions. -/
def dropCrash (wal : SegmentWal) (horizon dropped : Nat) : List Seg :=
  wal.files.drop (min dropped (wal.droppable horizon).length)

end SegmentWal

end Icegres.Quorum
