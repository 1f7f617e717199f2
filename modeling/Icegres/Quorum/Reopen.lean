import Icegres.Quorum.ByteLog
import Icegres.Quorum.Sendable
import Icegres.Quorum.WalCrash
import Icegres.Transition

/-!
# Reopening the segmented log

The flush position is not stored: a restart derives it from the names and contents of the
segment files. Along every run of calls, restarts and failures inside calls the files lead back
to a contiguous log with every acknowledged record that was neither truncated nor dropped. The
position itself survives a restart as long as a file is left to derive it from.
-/

namespace Icegres.Quorum

open Icegres.Segment

/-- What the walk makes of the first file: it ends with leading records of it, or keeps it
whole and goes on. -/
theorem scanSegments_first (seg : Seg) (files : List Seg) (before : Option Nat) :
    recordsOf (scanSegments (seg :: files) before).1 <+: seg.records ∨
      seg.torn = [] ∧ ∃ position, recordsOf (scanSegments (seg :: files) before).1 =
        seg.records ++ recordsOf (scanSegments files position).1 := by
  have scanned (records : List Record) (pos : Nat) : (scanRecords pos records).1 <+: records := by
    induction records generalizing pos with
    | nil => exact List.prefix_rfl
    | cons record records ih =>
        rw [scanRecords]
        split
        · exact List.cons_prefix_cons.mpr ⟨rfl, ih _⟩
        · exact List.nil_prefix
  rw [scanSegments]
  split
  · exact .inl List.nil_prefix
  · rcases scanWalSegment_cases seg with whole | ⟨bad, -⟩
    · right
      have torn : seg.torn = [] := by
        have same : (scanWalSegment seg).1.torn = [] := rfl
        rwa [whole] at same
      have kept : recordsOf (if seg.endLsn = seg.start then [] else [seg]) = seg.records := by
        split
        · next nothing =>
          rw [Seg.endLsn_whole torn] at nothing
          by_contra some
          have := framesLen_pos (Ne.symm some)
          omega
        · simp
      refine ⟨torn, some seg.endLsn, ?_⟩
      simp only [whole, Bool.false_eq_true, if_false, recordsOf_append, kept]
    · left
      simp only [bad, if_true]
      split
      · exact List.nil_prefix
      · simpa [scanWalSegment] using scanned seg.records seg.start

/-- A scan keeps leading records of the directory, and none behind the first torn file. -/
theorem scanSegments_keeps (files : List Seg) (before : Option Nat) :
    recordsOf (scanSegments files before).1 <+: recordsOf files ∧
      ∀ front seg back, files = front ++ seg :: back → seg.torn ≠ [] →
        recordsOf (scanSegments files before).1 <+: recordsOf (front ++ [seg]) := by
  induction files generalizing before with
  | nil => exact ⟨List.prefix_rfl, by simp⟩
  | cons first files ih =>
      rcases scanSegments_first first files before with ends | ⟨whole, position, goes⟩
      · refine ⟨ends.trans (by simp), ?_⟩
        intro front seg back shape torn
        refine ends.trans ?_
        cases front with
        | nil =>
            cases shape
            simp
        | cons _ front =>
            cases shape
            simp
      · obtain ⟨inner, behind⟩ := ih position
        rw [goes, recordsOf_cons]
        refine ⟨(List.prefix_append_right_inj _).mpr inner, ?_⟩
        intro front seg back shape torn
        cases front with
        | nil =>
            cases shape
            exact absurd whole torn
        | cons _ front =>
            cases shape
            rw [List.cons_append, recordsOf_cons]
            exact (List.prefix_append_right_inj _).mpr (behind front seg back rfl torn)

/-- A log with what was acknowledged and since then neither truncated nor dropped. -/
structure Disk where
  wal : SegmentWal
  acked : List Record

/-- The calls, a restart, and a failure inside each call followed by a restart. A rotation
closes a file and has no effect on the disk. -/
inductive DiskAction where
  | append (beginLsn : Nat) (batch : List Record)
  | truncateFrom (lsn : Nat)
  | dropBelow (horizon : Nat)
  | setRotateBytes (bytes : Nat)
  | reopen
  | crashAppending (beginLsn : Nat) (batch : List Record) (written : Nat)
  | crashTruncating (lsn deleted : Nat)
  | crashDropping (horizon dropped : Nat)

namespace Disk

/-- An empty directory. -/
def new (rotateBytes : Nat) : Disk where
  wal := SegmentWal.open [] rotateBytes
  acked := []

/-- The process stops and opens the files it left. -/
def reopened (disk : Disk) (files : List Seg) : SegmentWal :=
  SegmentWal.open files disk.wal.rotateBytes

/-- The acknowledged records that a truncation or a horizon advance leaves. -/
def below (disk : Disk) (lsn : Nat) : List Record :=
  disk.acked.filter fun record => record.endLsn ≤ lsn

def above (disk : Disk) (horizon : Nat) : List Record :=
  disk.acked.filter fun record => horizon < record.endLsn

def step (disk : Disk) : DiskAction → Option Disk
  | .append beginLsn batch =>
      match disk.wal.append beginLsn batch with
      | .ok wal => some ⟨wal, disk.acked ++ batch⟩
      | .error _ => none
  | .truncateFrom lsn => some ⟨disk.wal.truncateFrom lsn, disk.below lsn⟩
  | .dropBelow horizon => some ⟨disk.wal.dropBelow horizon, disk.above horizon⟩
  | .setRotateBytes bytes => some ⟨{ disk.wal with rotateBytes := bytes }, disk.acked⟩
  | .reopen => some ⟨disk.reopened disk.wal.files, disk.acked⟩
  | .crashAppending beginLsn batch written =>
      match disk.wal.append beginLsn batch with
      | .ok _ => some ⟨disk.reopened (disk.wal.appendCrash beginLsn batch written), disk.acked⟩
      | .error _ => none
  | .crashTruncating lsn deleted =>
      some ⟨disk.reopened (disk.wal.truncateCrash lsn deleted), disk.below lsn⟩
  | .crashDropping horizon dropped =>
      some ⟨disk.reopened (disk.wal.dropCrash horizon dropped), disk.above horizon⟩

/-- Batches are consecutive records, as `handle_append` checks, and truncations are at record
boundaries or below everything retained. -/
def Allowed (disk : Disk) : DiskAction → Prop
  | .append beginLsn batch | .crashAppending beginLsn batch _ =>
      batch ≠ [] ∧ Consecutive beginLsn batch
  | .truncateFrom lsn => lsn < disk.wal.flush → ∃ kept, disk.wal.CutPoint lsn kept
  | _ => True

/-- The files hold one contiguous log with every acknowledged record. -/
structure Sound (disk : Disk) : Prop where
  ok : disk.wal.Ok
  acked : ∀ record ∈ disk.acked, record ∈ disk.wal.records

theorem sound_new (rotateBytes : Nat) : (new rotateBytes).Sound :=
  ⟨⟨trivial, rfl, fun _ => ⟨rfl, rfl⟩⟩, by simp [new]⟩

/-- The write position of an append that is accepted. -/
theorem position_of_append {wal next : SegmentWal} {beginLsn : Nat} {batch : List Record}
    (appended : wal.append beginLsn batch = .ok next) :
    wal.empty = false → beginLsn = wal.flush := by
  intro written
  simp only [SegmentWal.append, written, Bool.false_eq_true, if_false] at appended
  split at appended
  · cases appended
  · next atFlush => exact not_not.mp atFlush

/-- A record of a log that is not among its leading records starts at or above their end. -/
theorem mem_front {wal : SegmentWal} (ok : wal.Ok) {kept : List Record}
    (isFront : kept <+: wal.records) {record : Record} (mem : record ∈ wal.records)
    (low : record.endLsn ≤ wal.retainedStart + framesLen kept) : record ∈ kept := by
  obtain ⟨more, shape⟩ := isFront
  rw [← shape] at mem
  rcases List.mem_append.mp mem with inKept | inMore
  · exact inKept
  · have consecutive := ok.consecutive
    rw [← shape, Consecutive.append] at consecutive
    have := consecutive.2.start_le inMore
    have := record.frameLen_pos
    simp only [Record.endLsn] at low
    omega

/-- Records above the horizon survive the loss of leading records at or below it. -/
theorem survives_drop {disk : Disk} (ok : disk.wal.Ok) {gone left : List Record} {horizon : Nat}
    (records : disk.wal.records = gone ++ left)
    (bound : gone ≠ [] → disk.wal.retainedStart + framesLen gone ≤ horizon)
    (acked : ∀ record ∈ disk.acked, record ∈ disk.wal.records) :
    ∀ record ∈ disk.above horizon, record ∈ left := by
  intro record mem
  obtain ⟨old, high⟩ := List.mem_filter.mp mem
  rw [decide_eq_true_eq] at high
  have inRecords := acked record old
  rw [records] at inRecords
  rcases List.mem_append.mp inRecords with inGone | inLeft
  · have consecutive := ok.consecutive
    rw [records, Consecutive.append] at consecutive
    have := consecutive.1.endLsn_le inGone
    have := bound (List.ne_nil_of_mem inGone)
    omega
  · exact inLeft

theorem Sound.step {disk next : Disk} {action : DiskAction} (sound : disk.Sound)
    (allowed : disk.Allowed action) (taken : disk.step action = some next) : next.Sound := by
  obtain ⟨ok, acked⟩ := sound
  cases action with
  | append beginLsn batch =>
      simp only [Disk.step] at taken
      split at taken
      · next wal appended =>
        cases taken
        obtain ⟨other, same, nextOk, records, -⟩ :=
          ok.append allowed.1 allowed.2 (position_of_append appended)
        obtain rfl := Except.ok.inj (appended.symm.trans same)
        refine ⟨nextOk, ?_⟩
        intro record mem
        rw [records]
        exact List.mem_append.mpr ((List.mem_append.mp mem).imp_left (acked record))
      · cases taken
  | setRotateBytes bytes =>
      cases taken
      exact ⟨⟨ok.chained, ok.ends, ok.fresh⟩, acked⟩
  | truncateFrom lsn =>
      cases taken
      by_cases beyond : lsn ≥ disk.wal.flush
      · rw [SegmentWal.truncateFrom, if_pos beyond]
        exact ⟨ok, fun record mem => acked record (List.mem_of_mem_filter mem)⟩
      · obtain ⟨kept, cut⟩ := allowed (Nat.not_le.mp beyond)
        obtain ⟨nextOk, records, -⟩ := ok.truncateFrom (Nat.not_le.mp beyond) cut
        refine ⟨nextOk, fun record mem => ?_⟩
        obtain ⟨old, low⟩ := List.mem_filter.mp mem
        rw [decide_eq_true_eq] at low
        rw [records]
        refine mem_front ok cut.isFront (acked record old) ?_
        rcases cut.position with atBoundary | ⟨rfl, below⟩
        · omega
        · rw [framesLen_nil]
          omega
  | dropBelow horizon =>
      cases taken
      obtain ⟨nextOk, -, -, dropped, records, -, bound, -⟩ := ok.dropBelow horizon
      exact ⟨nextOk, survives_drop ok records bound acked⟩
  | reopen =>
      cases taken
      obtain ⟨nextOk, records, -⟩ := SegmentWal.open_chained ok.chained disk.wal.rotateBytes
      exact ⟨nextOk, fun record mem => records ▸ acked record mem⟩
  | crashAppending beginLsn batch written =>
      simp only [Disk.step] at taken
      split at taken
      · next wal appended =>
        cases taken
        obtain ⟨reached, -, nextOk, records, -⟩ :=
          ok.appendCrash allowed.2 (position_of_append appended) written disk.wal.rotateBytes
        refine ⟨nextOk, fun record mem => ?_⟩
        rw [reopened, records]
        exact List.mem_append_left _ (acked record mem)
      · cases taken
  | crashTruncating lsn deleted =>
      cases taken
      obtain ⟨nextOk, kept, isFront, records, someLeft, noneLeft⟩ :=
        ok.truncateCrash lsn deleted disk.wal.rotateBytes
      refine ⟨nextOk, fun record mem => ?_⟩
      obtain ⟨old, low⟩ := List.mem_filter.mp mem
      rw [decide_eq_true_eq] at low
      have inside := ok.consecutive.endLsn_le (acked record old)
      rw [ok.ends] at inside
      rw [reopened, records]
      refine mem_front ok isFront (acked record old) ?_
      by_cases none : kept = []
      · obtain ⟨-, -, below⟩ := noneLeft none
        omega
      · obtain ⟨-, -, below⟩ := someLeft none
        omega
  | crashDropping horizon dropped =>
      cases taken
      by_cases none : disk.wal.records = []
      · have noFile := ok.records_eq_nil.mp none
        have nothing : disk.reopened (disk.wal.dropCrash horizon dropped) =
            SegmentWal.open [] disk.wal.rotateBytes := by
          simp [reopened, SegmentWal.dropCrash, noFile]
        rw [nothing]
        refine ⟨(sound_new _).ok, fun record mem => ?_⟩
        have old := acked record (List.mem_of_mem_filter mem)
        simp [none] at old
      · obtain ⟨nextOk, -, -, gone, records, -, bound⟩ :=
          ok.dropCrash none horizon dropped disk.wal.rotateBytes
        exact ⟨nextOk, survives_drop ok records bound acked⟩

/-- An opened log is contiguous, ends at its position and has every acknowledged record. -/
structure Recovered (disk : Disk) (log : SegmentWal) : Prop where
  consecutive : Consecutive log.retainedStart log.records
  ends : log.retainedStart + framesLen log.records = log.flush
  acked : ∀ record ∈ disk.acked, record ∈ log.records

/-- Closing and reopening changes no position. -/
structure Preserved (disk : Disk) : Prop where
  flush : (disk.reopened disk.wal.files).flush = disk.wal.flush
  empty : (disk.reopened disk.wal.files).empty = disk.wal.empty
  retainedStart : (disk.reopened disk.wal.files).retainedStart = disk.wal.retainedStart

theorem Sound.recovered {disk : Disk} (sound : disk.Sound) : disk.Recovered disk.wal :=
  ⟨sound.ok.consecutive, sound.ok.ends, sound.acked⟩

/-- The positions survive as long as there is a file to derive them from. -/
theorem Sound.preserved_iff {disk : Disk} (sound : disk.Sound) :
    disk.Preserved ↔ disk.wal.files ≠ [] ∨ disk.wal.empty = true := by
  have ok := sound.ok
  obtain ⟨openOk, records, someFile, noFile⟩ :=
    SegmentWal.open_chained ok.chained disk.wal.rotateBytes
  constructor
  · intro preserved
    by_cases none : disk.wal.files = []
    · right
      rw [← preserved.empty, reopened, none]
      rfl
    · exact .inl none
  · intro backed
    by_cases none : disk.wal.files = []
    · have fresh := backed.resolve_left (not_not.mpr none)
      obtain ⟨flush, start⟩ := noFile none
      have atZero := (ok.fresh fresh).2
      refine ⟨flush.trans atZero.symm, ?_, ?_⟩
      · rw [fresh, reopened, none]
        rfl
      · have := ok.retainedStart_le
        rw [reopened, start]
        omega
    · obtain ⟨start, flush⟩ := someFile none
      refine ⟨flush.trans ok.ends, ?_, start⟩
      have written : disk.wal.empty = false := by
        by_contra isFresh
        exact none (ok.fresh (by simpa using isFresh)).1
      rw [written]
      by_contra isFresh
      rw [reopened] at isFresh
      have noRecord := openOk.records_eq_nil.mpr (openOk.fresh (by simpa using isFresh)).1
      rw [records] at noRecord
      exact none (ok.records_eq_nil.mp noRecord)

/-- Along every run, also with failures inside calls, the opened log is contiguous and has
every acknowledged record that was neither truncated nor dropped; whatever is on disk, nothing
behind a torn file comes back. Closing and reopening preserves the positions exactly when a
segment file is left or nothing was ever written. -/
theorem reopen_recovers {rotateBytes : Nat} {disk : Disk}
    (run : Run Disk.step Disk.Allowed (Disk.new rotateBytes) disk) :
    disk.Recovered disk.wal ∧ disk.Recovered (disk.reopened disk.wal.files) ∧
      (∀ files front seg back, files = front ++ seg :: back → seg.torn ≠ [] →
        (disk.reopened files).records <+: recordsOf (front ++ [seg])) ∧
      (disk.Preserved ↔ disk.wal.files ≠ [] ∨ disk.wal.empty = true) := by
  have sound : disk.Sound := by
    refine run.invariant (fun _ _ _ inv allowed taken => ?_) (sound_new rotateBytes)
    exact inv.step allowed taken
  refine ⟨sound.recovered, ?_, ?_, sound.preserved_iff⟩
  · have again : disk.step .reopen = some ⟨disk.reopened disk.wal.files, disk.acked⟩ := rfl
    have allowed : disk.Allowed .reopen := trivial
    have kept := (sound.step allowed again).recovered
    exact ⟨kept.consecutive, kept.ends, kept.acked⟩
  · intro files front seg back shape torn
    have kept := (scanSegments_keeps files none).2 front seg back shape torn
    simpa [reopened, SegmentWal.records, SegmentWal.files, SegmentWal.open, recordsOf] using kept

/-- A record at the position where an acceptor joined. -/
def joinedRecord : Record :=
  { firstRecord with lsn := 100, lsn_lt := by decide }

/-- The acceptor receives the record. -/
def joined : Disk where
  wal := (SegmentWal.open [] 64).run [.append 100 [joinedRecord]]
  acked := [joinedRecord]

theorem run_joined : Run Disk.step Disk.Allowed (new 64) joined := by
  have allowed : (new 64).Allowed (.append 100 [joinedRecord]) := ⟨by simp, rfl, trivial⟩
  have taken : (new 64).step (.append 100 [joinedRecord]) = some joined := rfl
  exact Run.refl.step allowed taken

theorem reopen_recovers_joined : joined.Preserved :=
  (reopen_recovers run_joined).2.2.2.mpr (.inl (by
    intro none
    exact absurd (congrArg List.length none) (by decide)))

/-- A truncation at the start of the first file deletes every file; the next restart starts over
at position zero, as if nothing had ever been written. -/
theorem reopen_forgets :
    ∃ disk, Run Disk.step Disk.Allowed (new 64) disk ∧
      disk.wal.flush = 100 ∧ (disk.reopened disk.wal.files).flush = 0 ∧
      disk.wal.empty = false ∧ (disk.reopened disk.wal.files).empty = true ∧
      disk.wal.retainedStart = 100 ∧ (disk.reopened disk.wal.files).retainedStart = 0 := by
  have cut : joined.wal.CutPoint 100 [] := ⟨List.nil_prefix, .inr ⟨rfl, by decide⟩⟩
  have allowed : joined.Allowed (.truncateFrom 100) := fun _ => ⟨[], cut⟩
  have taken : joined.step (.truncateFrom 100) =
      some ⟨joined.wal.truncateFrom 100, joined.below 100⟩ := rfl
  exact ⟨_, run_joined.step allowed taken, by decide, by decide, by decide, by decide, by decide,
    by decide⟩

end Disk

end Icegres.Quorum
