import Icegres.Quorum.Election
import Icegres.Quorum.Lag

/-!
# The worker's watermark jobs

The worker of an open tail takes jobs in order. A job that enters a record leaves the wait for
its commit to a task of its own, and the map of the highest watermark of each table is raised
when the record is submitted. A watermark at or below the map's is answered at once, whatever
became of the record that raised it.
-/

namespace Icegres.Quorum

/-- What the streaming tasks and the supervisor do to the shared state of an open tail. -/
inductive Drive where
  /-- An acceptor's flush ack arrives on a connection of `connTerm`. -/
  | ack (id : AcceptorId) (connTerm flush : Nat)
  | fail (id : AcceptorId)
  | ask (reason : ReelectReason)
  /-- The supervisor takes the oldest re-election request. -/
  | take
  | reelected (election : Election)
  | poisoned (why : String)

def Shared.drive (shared : Shared) : Drive → Shared
  | .ack id connTerm flush => (shared.storeAck id connTerm flush).getD shared
  | .fail id => shared.setFailed id
  | .ask reason => shared.request reason
  | .take => { shared with requests := shared.requests.drop 1 }
  | .reelected election => shared.adoptTerm election
  | .poisoned why => shared.poisonWith why

/-- The jobs that touch the log. -/
inductive Job where
  | append (key : String) (seq : Nat) (payload : Segment.Bytes)
  | truncate (key : String) (uptoSeq : Nat)
  | recordWatermark (key : String) (seq : Nat)

/-- A spawned `wait_commit`. -/
structure Wait where
  position : Nat
  stalledOnce : Bool
  /-- A watermark's wait nudges the horizon once the record is committed. -/
  nudges : Bool
  /-- The job whose caller blocks on the outcome; a refresh has none. -/
  caller : Option Job

/-- An answered job, with the records that were committed at that moment. -/
structure Reply where
  job : Job
  result : Except String Unit
  committed : List Record

/-- An open tail with its worker. -/
structure Tail where
  shared : Shared
  /-- Per-table highest watermark, zero when none was submitted. -/
  wmMax : String → Nat
  waits : List Wait
  /-- The recovered and the submitted records, those trimmed from the log included. -/
  written : List Record
  replies : List Reply

/-- The watermark records of a table. -/
def watermarksOf (key : String) (records : List Record) : List Record :=
  records.filter fun record => record.kind = .watermark && record.tableKey = key

namespace Tail

/-- The records at or below the commit position. -/
def committed (tail : Tail) : List Record :=
  tail.written.filter fun record => record.endLsn ≤ tail.shared.commit

/-- Answer a job. -/
def reply (tail : Tail) (job : Job) (result : Except String Unit) : Tail :=
  { tail with replies := tail.replies ++ [⟨job, result, tail.committed⟩] }

/-- A submitted record is in the log and its wait is spawned. -/
def enter (tail : Tail) (shared : Shared) (record : Record) (nudges : Bool)
    (caller : Option Job) : Tail :=
  { tail with
    shared := shared
    written := tail.written ++ [record]
    waits := tail.waits ++ [⟨record.endLsn, false, nudges, caller⟩] }

/-- Answer the job that waits, if one does. -/
def answer (tail : Tail) (caller : Option Job) (result : Except String Unit) : Tail :=
  match caller with
  | some job => tail.reply job result
  | none => tail

/-- Submit a watermark and leave the wait to a task. -/
def appendWatermarkOffLoop (tail : Tail) (table : String) (seq : Nat) (caller : Option Job) :
    Tail :=
  match tail.shared.submit .watermark table seq ⟨[], 0, rfl⟩ with
  | .ok (shared, record) =>
      -- raised here, before the record is committed
      { tail.enter shared record true caller with
        wmMax := fun key => if key = table then max (tail.wmMax key) seq else tail.wmMax key }
  | .error why => tail.answer caller (.error why)

def runJob (tail : Tail) (job : Job) : Tail :=
  match job with
  | .append key seq payload =>
      match tail.shared.submit .frame key seq payload with
      | .ok (shared, record) => tail.enter shared record false (some job)
      | .error why => tail.reply job (.error why)
  | .truncate key uptoSeq =>
      let (shared, refresh) := tail.shared.noteCovered key uptoSeq
      let tail := { tail with shared }.reply job (.ok ())
      match refresh with
      | some (table, seq) => tail.appendWatermarkOffLoop table seq none
      | none => tail
  | .recordWatermark key seq =>
      if tail.wmMax key ≥ seq then tail.reply job (.ok ())
      else tail.appendWatermarkOffLoop key seq (some job)

/-- `wait_commit` returns once the tail is poisoned or the commit covers its position. -/
def waitEnds (tail : Tail) (index : Nat) : Option Tail := do
  let wait ← tail.waits[index]?
  let done := { tail with waits := tail.waits.eraseIdx index }
  match tail.shared.poison with
  | some why => some (done.answer wait.caller (.error why))
  | none =>
      if tail.shared.commit ≥ wait.position then
        let nudged := if wait.nudges then tail.shared.advanceHorizon.1 else tail.shared
        some ({ done with shared := nudged }.answer wait.caller (.ok ()))
      else
        none

/-- A wait spends a full append timeout: the first asks for a re-election, the second poisons
the tail. -/
def waitStalls (tail : Tail) (index : Nat) : Option Tail := do
  let wait ← tail.waits[index]?
  if wait.stalledOnce then
    let why := "quorum append timed out (re-election attempted)"
    some ({ tail with
      waits := tail.waits.eraseIdx index
      shared := tail.shared.poisonWith why }.answer wait.caller (.error why))
  else
    some { tail with
      waits := tail.waits.set index { wait with stalledOnce := true }
      shared := tail.shared.request (.stalled wait.position) }

end Tail

inductive TailAction where
  | job (job : Job)
  | waitEnds (index : Nat)
  | waitStalls (index : Nat)
  | drive (move : Drive)

namespace Tail

def step (tail : Tail) : TailAction → Option Tail
  | .job job => some (tail.runJob job)
  | .waitEnds index => tail.waitEnds index
  | .waitStalls index => tail.waitStalls index
  | .drive move => some { tail with shared := tail.shared.drive move }

/-- The worker starts on a tail that has just opened with these records. -/
def opened (shared : Shared) (recovered : List Record) : Tail where
  shared := shared
  wmMax key := ((watermarksOf key recovered).map Record.seq).foldl max 0
  waits := []
  written := recovered
  replies := []

end Tail

/-- What `Quorum::open` returns: the recovered records reach from the base to the head and are
committed. -/
structure Shared.Opened (shared : Shared) (recovered : List Record) : Prop where
  log : ∃ base head, shared.log = LogBuf.recovered base head recovered ∧
    Consecutive base recovered ∧ base + framesLen recovered = head ∧ head ≤ shared.commit

/-- An `Ok` to `record_watermark` is backed by a committed watermark at or above the
sequence. -/
def Reply.Honest (reply : Reply) : Prop :=
  ∀ key seq, reply.job = .recordWatermark key seq → reply.result = .ok () →
    ∃ record ∈ watermarksOf key reply.committed, seq ≤ record.seq

/-- The last watermark record of every table carries the highest sequence. -/
def LastIsHighest (records : List Record) : Prop :=
  ∀ key, ∀ last ∈ (watermarksOf key records).getLast?, ∀ record ∈ watermarksOf key records,
    record.seq ≤ last.seq

namespace Tail

/-- The first watermark record of a table at or above a sequence: its submission raised the
map so far. -/
def raisedBy (tail : Tail) (key : String) (seq : Nat) : Option Record :=
  (watermarksOf key tail.written).find? fun record => seq ≤ record.seq

/-- When the map already holds the sequence of a watermark job, the record that raised it is
committed. -/
def Settled (tail : Tail) : TailAction → Prop
  | .job (.recordWatermark key seq) =>
      seq ≤ tail.wmMax key →
        ∃ record ∈ tail.raisedBy key seq, record.endLsn ≤ tail.shared.commit
  | _ => True

instance (tail : Tail) : DecidablePred tail.Settled
  | .job (.recordWatermark key seq) =>
      decidable_of_iff
        (seq ≤ tail.wmMax key → (tail.raisedBy key seq).any fun record =>
          record.endLsn ≤ tail.shared.commit) (by
        rw [Settled]
        cases tail.raisedBy key seq <;> simp)
  | .job (.append ..) | .job (.truncate ..) | .waitEnds _ | .waitStalls _ | .drive _ =>
      .isTrue trivial

end Tail

section Log

variable {key : String} {records left right : List Record} {record other : Record}

theorem mem_watermarksOf : record ∈ watermarksOf key records ↔
    record ∈ records ∧ record.kind = .watermark ∧ record.tableKey = key := by
  simp [watermarksOf]

theorem watermarksOf_append :
    watermarksOf key (left ++ right) = watermarksOf key left ++ watermarksOf key right := by
  simp [watermarksOf]

theorem watermarksOf_other (differs : record.kind = .watermark → record.tableKey ≠ key) :
    watermarksOf key [record] = [] := by
  simpa [watermarksOf] using differs

theorem watermarksOf_own (kind : record.kind = .watermark) (table : record.tableKey = key) :
    watermarksOf key [record] = [record] := by
  simp [watermarksOf, kind, table]

/-- A new watermark at or above those of its table keeps the last one the highest. -/
theorem LastIsHighest.concat (highest : LastIsHighest records)
    (above : record.kind = .watermark →
      ∀ earlier ∈ watermarksOf record.tableKey records, earlier.seq ≤ record.seq) :
    LastIsHighest (records ++ [record]) := by
  intro key last isLast earlier mem
  rw [watermarksOf_append] at isLast mem
  by_cases own : record.kind = .watermark ∧ record.tableKey = key
  · obtain ⟨kind, rfl⟩ := own
    rw [watermarksOf_own kind rfl] at isLast mem
    obtain rfl : last = record := by simpa using isLast.symm
    rcases List.mem_append.mp mem with old | new
    · exact above kind earlier old
    · rw [List.mem_singleton.mp new]
  · rw [watermarksOf_other (fun kind table => own ⟨kind, table⟩), List.append_nil] at isLast mem
    exact highest key last isLast earlier mem

/-- The latest-watermark table names the last watermark record of each table. -/
theorem foldl_noteRecord (records : List Record) (key : String) :
    records.foldl LogBuf.noteRecord (fun _ => none) key =
      (watermarksOf key records).getLast?.map fun last => (last.lsn, last.seq) := by
  induction records using List.reverseRecOn with
  | nil => rfl
  | append_singleton records record ih =>
      rw [List.foldl_concat, watermarksOf_append, LogBuf.noteRecord]
      cases kind : record.kind with
      | frame =>
          simp only
          rw [ih, watermarksOf_other (by simp [kind]), List.append_nil]
      | watermark =>
          simp only
          split
          · next own =>
            rw [watermarksOf_own kind own.symm]
            simp
          · next differs =>
            rw [ih, watermarksOf_other (fun _ table => differs table.symm), List.append_nil]

/-- Of two records the later one starts where the earlier one ends, or further on. -/
theorem Consecutive.pairwise {start : Nat} (consecutive : Consecutive start records) :
    records.Pairwise fun earlier later => earlier.endLsn ≤ later.lsn := by
  induction records generalizing start with
  | nil => exact .nil
  | cons record records ih =>
      obtain ⟨-, after⟩ := consecutive
      exact .cons (fun later mem => after.start_le mem) (ih after)

/-- The last watermark of a table is the only one that does not start before it. -/
theorem last_of_not_before {start : Nat} {last : Record} (consecutive : Consecutive start records)
    (isLast : last ∈ (watermarksOf key records).getLast?)
    (mem : record ∈ watermarksOf key records) (notBefore : last.lsn ≤ record.lsn) :
    record = last := by
  have ordered : (watermarksOf key records).Pairwise fun earlier later =>
    earlier.endLsn ≤ later.lsn := consecutive.pairwise.filter _
  obtain ⟨before, shape⟩ := List.getLast?_eq_some_iff.mp isLast
  rw [shape] at ordered mem
  rcases List.mem_append.mp mem with earlier | same
  · have := (List.pairwise_append.mp ordered).2.2 record earlier last (by simp)
    have := record.frameLen_pos
    rw [Record.endLsn] at *
    omega
  · exact List.mem_singleton.mp same

end Log

namespace Shared

variable {shared moved : Shared}

/-- A submitted record is the given one, at the head of the log. -/
theorem submit_eq_ok {kind : RecordKind} {key : String} {seq : Nat} {body : Segment.Bytes}
    {record : Record} (entered : shared.submit kind key seq body = .ok (moved, record)) :
    moved = { shared with log := shared.log.push record } ∧ record.lsn = shared.log.head ∧
      record.kind = kind ∧ record.tableKey = key ∧ record.seq = seq := by
  simp only [submit] at entered
  split at entered
  · cases entered
  · split at entered
    · split at entered
      · cases entered
      · cases entered
        exact ⟨rfl, rfl, rfl, rfl, rfl⟩
    · cases entered

/-- What never happens to an open tail's shared state: the log loses records only from the
front and forgets no watermark, and the commit does not move back. -/
structure Keeps (shared moved : Shared) : Prop where
  records : moved.log.records <:+ shared.log.records
  head : moved.log.head = shared.log.head
  lastWm : moved.log.lastWm = shared.log.lastWm
  commit : shared.commit ≤ moved.commit

theorem Keeps.refl (shared : Shared) : shared.Keeps shared :=
  ⟨List.suffix_refl _, rfl, rfl, Nat.le_refl _⟩

theorem keeps_advanceHorizon (shared : Shared) : shared.Keeps shared.advanceHorizon.1 := by
  simp only [advanceHorizon]
  split
  · obtain ⟨gone, shape, -⟩ := shared.log.dropTo_records
      (retain (max (min (shared.log.coverablePrefix shared.commit).1 shared.commit)
        shared.horizon) 4 shared.peers).2
    exact ⟨⟨gone, shape.symm⟩, rfl, rfl, Nat.le_refl _⟩
  · exact .refl shared

theorem keeps_drive (shared : Shared) (move : Drive) : shared.Keeps (shared.drive move) := by
  cases move with
  | ack id connTerm flush =>
      simp only [drive, storeAck]
      split
      · exact .refl shared
      · simp only [Option.getD_some, recomputeCommit]
        split
        · next raised => exact ⟨List.suffix_refl _, rfl, rfl, Nat.le_of_lt raised.2⟩
        · exact ⟨List.suffix_refl _, rfl, rfl, Nat.le_refl _⟩
  | fail | ask | take | reelected | poisoned =>
      exact ⟨List.suffix_refl _, rfl, rfl, Nat.le_refl _⟩

end Shared

/-- A refresh re-appends a retained watermark that no later one of its table follows, at its
sequence or above. -/
theorem LogBuf.coverableFrom_refresh {log : LogBuf} {commit prefixEnd seq : Nat}
    {records : List Record} {table : String}
    (refresh : (log.coverableFrom commit prefixEnd records).2 = some (table, seq)) :
    ∃ record ∈ watermarksOf table records, record.seq ≤ seq ∧
      ∀ wm ∈ log.lastWm table, wm.1 ≤ record.lsn := by
  induction records generalizing prefixEnd with
  | nil => cases refresh
  | cons record records ih =>
      rw [coverableFrom] at refresh
      split at refresh
      · cases refresh
      · split at refresh
        · obtain ⟨found, mem, rest⟩ := ih refresh
          refine ⟨found, ?_, rest⟩
          rw [← List.singleton_append, watermarksOf_append]
          exact List.mem_append_right _ mem
        · next blocks =>
          split at refresh
          · next behind =>
            cases refresh
            refine ⟨record, mem_watermarksOf.mpr ⟨List.mem_cons_self, behind.1, rfl⟩,
              Nat.le_max_left _ _, fun wm isLast => ?_⟩
            rw [Option.mem_def] at isLast
            simpa [coverable, behind.1, isLast] using blocks
          · cases refresh

namespace Tail

variable {tail next : Tail} {front : List Record}

/-- What holds of an open tail after any jobs: the written records are in order and end at the
head, the retained ones are their end, and the map is at or above every watermark. The records
after `front` keep their last watermarks the highest. -/
structure Kept (front : List Record) (tail : Tail) : Prop where
  ordered : ∃ base, Consecutive base tail.written ∧
    base + framesLen tail.written = tail.shared.log.head
  retained : tail.shared.log.records <:+ tail.written
  lastWm : tail.shared.log.lastWm = tail.written.foldl LogBuf.noteRecord fun _ => none
  raised : ∀ key, ∀ record ∈ watermarksOf key tail.written, record.seq ≤ tail.wmMax key
  /-- A watermark job waits for a watermark at or above its sequence. -/
  awaited : ∀ wait ∈ tail.waits, ∀ key seq, wait.caller = some (.recordWatermark key seq) →
    ∃ record ∈ watermarksOf key tail.written, seq ≤ record.seq ∧ record.endLsn = wait.position
  highest : ∃ part, tail.written = front ++ part ∧ LastIsHighest part

/-- A job is answered. -/
theorem Kept.reply (kept : Kept front tail) (job : Job) (result : Except String Unit) :
    Kept front (tail.reply job result) :=
  ⟨kept.ordered, kept.retained, kept.lastWm, kept.raised, kept.awaited, kept.highest⟩

theorem Kept.answer (kept : Kept front tail) (caller : Option Job) (result : Except String Unit) :
    Kept front (tail.answer caller result) := by
  cases caller with
  | none => exact kept
  | some job => exact kept.reply job result

/-- The shared state moves under the worker, and waits end or stall. -/
theorem Kept.moved (kept : Kept front tail) {shared : Shared} {waits : List Wait}
    (keeps : tail.shared.Keeps shared)
    (same : ∀ wait ∈ waits, ∃ old ∈ tail.waits, wait.position = old.position ∧
      wait.caller = old.caller) :
    Kept front { tail with shared := shared, waits := waits } := by
  obtain ⟨base, consecutive, ends⟩ := kept.ordered
  refine ⟨⟨base, consecutive, ends.trans keeps.head.symm⟩, keeps.records.trans kept.retained,
    keeps.lastWm.trans kept.lastWm, kept.raised, ?_, kept.highest⟩
  intro wait mem key seq isCaller
  obtain ⟨old, oldMem, position, caller⟩ := same wait mem
  rw [position]
  exact kept.awaited old oldMem key seq (caller ▸ isCaller)

/-- A record enters the log. -/
theorem Kept.enter (kept : Kept front tail) {kind : RecordKind} {key : String} {seq : Nat}
    {body : Segment.Bytes} {shared : Shared} {record : Record}
    (entered : tail.shared.submit kind key seq body = .ok (shared, record)) (nudges : Bool)
    {caller : Option Job} {wmMax : String → Nat} (notBack : ∀ key, tail.wmMax key ≤ wmMax key)
    (folded : kind = .watermark → seq ≤ wmMax key)
    (above : kind = .watermark → ∀ part, tail.written = front ++ part → LastIsHighest part →
      ∀ earlier ∈ watermarksOf key part, earlier.seq ≤ seq)
    (isCaller : ∀ job, caller = some job →
      kind = .frame ∧ (∃ key seq payload, job = .append key seq payload) ∨
        kind = .watermark ∧ job = .recordWatermark key seq) :
    Kept front { tail.enter shared record nudges caller with wmMax := wmMax } := by
  obtain ⟨rfl, position, rfl, rfl, rfl⟩ := Shared.submit_eq_ok entered
  obtain ⟨base, consecutive, ends⟩ := kept.ordered
  refine ⟨⟨base, ?_, ?_⟩, ?_, ?_, ?_, ?_, ?_⟩
  · rw [Tail.enter, Consecutive.append]
    exact ⟨consecutive, by rw [position, ends], trivial⟩
  · simp only [Tail.enter, framesLen_append, framesLen_cons, framesLen_nil, LogBuf.push,
      Record.endLsn]
    omega
  · obtain ⟨gone, shape⟩ := kept.retained
    exact ⟨gone, by simp only [Tail.enter, LogBuf.push, ← shape, List.append_assoc]⟩
  · simp only [Tail.enter, LogBuf.push, List.foldl_concat, kept.lastWm]
  · intro key earlier mem
    simp only [Tail.enter, watermarksOf_append] at mem
    rcases List.mem_append.mp mem with old | new
    · exact Nat.le_trans (kept.raised key earlier old) (notBack key)
    · obtain ⟨isRecord, isWatermark, rfl⟩ := mem_watermarksOf.mp new
      obtain rfl := List.mem_singleton.mp isRecord
      exact folded isWatermark
  · intro wait mem key seq waits
    simp only [Tail.enter, watermarksOf_append]
    rcases List.mem_append.mp mem with old | new
    · obtain ⟨found, inLog, atLeast, position⟩ := kept.awaited wait old key seq waits
      exact ⟨found, List.mem_append_left _ inLog, atLeast, position⟩
    · obtain rfl := List.mem_singleton.mp new
      rcases isCaller _ waits with ⟨-, _, _, _, differs⟩ | ⟨isWatermark, same⟩
      · cases differs
      · cases same
        refine ⟨record, List.mem_append_right _ ?_, Nat.le_refl _, rfl⟩
        rw [watermarksOf_own isWatermark rfl]
        exact List.mem_singleton_self _
  · obtain ⟨part, shape, highest⟩ := kept.highest
    refine ⟨part ++ [record], by simp [Tail.enter, shape], highest.concat fun isWatermark => ?_⟩
    exact above isWatermark part shape highest

/-- A watermark at or above those written after `front` is submitted. -/
theorem Kept.appendWatermark (kept : Kept front tail) {table : String} {seq : Nat}
    {caller : Option Job} (isCaller : ∀ job, caller = some job → job = .recordWatermark table seq)
    (above : ∀ part, tail.written = front ++ part → LastIsHighest part →
      ∀ earlier ∈ watermarksOf table part, earlier.seq ≤ seq) :
    Kept front (tail.appendWatermarkOffLoop table seq caller) := by
  rw [appendWatermarkOffLoop]
  split
  · next shared record entered =>
    refine kept.enter entered true ?_ ?_ (fun _ => above) fun job isJob => ?_
    · intro key
      split
      · exact Nat.le_max_left _ _
      · exact Nat.le_refl _
    · intro _
      rw [if_pos rfl]
      exact Nat.le_max_right _ _
    · exact .inr ⟨rfl, isCaller job isJob⟩
  · exact kept.answer caller _

/-- The refresh that an advance of the horizon asks for is at or above its table's
watermarks. -/
theorem Kept.refresh_above (kept : Kept front tail) {table : String} {seq : Nat}
    (refresh : tail.shared.advanceHorizon.2 = some (table, seq)) {part : List Record}
    (shape : tail.written = front ++ part) (highest : LastIsHighest part) :
    ∀ earlier ∈ watermarksOf table part, earlier.seq ≤ seq := by
  have blocked : (tail.shared.log.coverablePrefix tail.shared.commit).2 = some (table, seq) := by
    simp only [Shared.advanceHorizon] at refresh
    split at refresh <;> exact refresh
  obtain ⟨record, mem, atMost, noLater⟩ := LogBuf.coverableFrom_refresh blocked
  obtain ⟨base, consecutive, -⟩ := kept.ordered
  intro earlier inPart
  -- the blocking watermark is the last of its table
  obtain ⟨last, isLast⟩ : ∃ last, last ∈ (watermarksOf table part).getLast? := by
    cases isLast : (watermarksOf table part).getLast? with
    | none => simp [List.getLast?_eq_none_iff.mp isLast] at inPart
    | some last => exact ⟨last, rfl⟩
  have isLastWritten : last ∈ (watermarksOf table tail.written).getLast? := by
    rw [Option.mem_def] at isLast ⊢
    rw [shape, watermarksOf_append, List.getLast?_append, isLast, Option.some_or]
  have written : record ∈ watermarksOf table tail.written := by
    obtain ⟨inLog, kind, key⟩ := mem_watermarksOf.mp mem
    exact mem_watermarksOf.mpr ⟨kept.retained.subset inLog, kind, key⟩
  have notBefore : last.lsn ≤ record.lsn := by
    refine noLater (last.lsn, last.seq) ?_
    rw [kept.lastWm, foldl_noteRecord, isLastWritten]
    rfl
  obtain rfl := last_of_not_before consecutive isLastWritten written notBefore
  exact Nat.le_trans (highest table record isLast earlier inPart) atMost

theorem Kept.runJob (kept : Kept front tail) (job : Job) : Kept front (tail.runJob job) := by
  cases job with
  | append key seq payload =>
      simp only [Tail.runJob]
      split
      · next shared record entered =>
        refine kept.enter entered false (fun _ => Nat.le_refl _) nofun nofun fun job isJob => ?_
        cases isJob
        exact .inl ⟨rfl, key, seq, payload, rfl⟩
      · exact kept.reply _ _
  | truncate key uptoSeq =>
      simp only [Tail.runJob, Shared.noteCovered_eq]
      have noted : Kept front { tail with shared := tail.shared.noted key uptoSeq } :=
        kept.moved ⟨List.suffix_refl _, rfl, rfl, Nat.le_refl _⟩
          fun wait mem => ⟨wait, mem, rfl, rfl⟩
      have advanced := noted.moved (tail.shared.noted key uptoSeq).keeps_advanceHorizon
        fun wait mem => ⟨wait, mem, rfl, rfl⟩
      split
      · next table seq refresh =>
        refine (advanced.reply _ _).appendWatermark nofun fun part shape highest => ?_
        exact noted.refresh_above refresh shape highest
      · exact advanced.reply _ _
  | recordWatermark key seq =>
      rw [Tail.runJob]
      split
      · exact kept.reply _ _
      · next below =>
        refine kept.appendWatermark (fun job isJob => (Option.some.inj isJob).symm) ?_
        intro part shape _ earlier inPart
        have := kept.raised key earlier (by
          rw [shape, watermarksOf_append]
          exact List.mem_append_right _ inPart)
        omega

theorem Kept.step (kept : Kept front tail) {action : TailAction}
    (taken : tail.step action = some next) : Kept front next := by
  have spent (index : Nat) : ∀ wait ∈ tail.waits.eraseIdx index, ∃ old ∈ tail.waits,
      wait.position = old.position ∧ wait.caller = old.caller :=
    fun wait mem => ⟨wait, List.mem_of_mem_eraseIdx mem, rfl, rfl⟩
  cases action with
  | job job =>
      cases taken
      exact kept.runJob job
  | waitEnds index =>
      simp only [Tail.step, Tail.waitEnds, Option.bind_eq_bind, Option.bind_eq_some_iff] at taken
      obtain ⟨wait, -, ended⟩ := taken
      split at ended
      · cases ended
        exact (kept.moved (.refl _) (spent index)).answer _ _
      · split at ended
        · cases ended
          refine (kept.moved ?_ (spent index)).answer _ _
          split
          · exact tail.shared.keeps_advanceHorizon
          · exact .refl _
        · cases ended
  | waitStalls index =>
      simp only [Tail.step, Tail.waitStalls, Option.bind_eq_bind, Option.bind_eq_some_iff] at taken
      obtain ⟨wait, isWait, stalled⟩ := taken
      split at stalled
      · cases stalled
        exact (kept.moved (tail.shared.keeps_drive (.poisoned _)) (spent index)).answer _ _
      · cases stalled
        refine kept.moved (tail.shared.keeps_drive (.ask _)) fun later mem => ?_
        rcases List.mem_or_eq_of_mem_set mem with old | rfl
        · exact ⟨later, old, rfl, rfl⟩
        · exact ⟨wait, List.mem_of_getElem? isWait, rfl, rfl⟩
  | drive move =>
      cases taken
      exact kept.moved (tail.shared.keeps_drive move) fun wait mem => ⟨wait, mem, rfl, rfl⟩

/-- A tail that has just opened. -/
theorem kept_opened {shared : Shared} {recovered front part : List Record}
    (isOpened : shared.Opened recovered) (shape : recovered = front ++ part)
    (highest : LastIsHighest part) : Kept front (opened shared recovered) := by
  obtain ⟨base, head, log, consecutive, ends, -⟩ := isOpened.log
  have le_foldl (start : Nat) (seqs : List Nat) :
      start ≤ seqs.foldl max start ∧ ∀ seq ∈ seqs, seq ≤ seqs.foldl max start := by
    induction seqs generalizing start with
    | nil => exact ⟨Nat.le_refl _, nofun⟩
    | cons seq seqs ih =>
        obtain ⟨startLe, all⟩ := ih (max start seq)
        refine ⟨Nat.le_trans (Nat.le_max_left _ _) startLe, fun other mem => ?_⟩
        rcases List.mem_cons.mp mem with rfl | later
        · exact Nat.le_trans (Nat.le_max_right _ _) startLe
        · exact all other later
  refine ⟨⟨base, consecutive, ?_⟩, ?_, ?_, ?_, nofun, part, shape, highest⟩
  · rw [opened, log]
    exact ends
  · rw [opened, log]
    exact List.suffix_refl _
  · rw [opened, log]
    rfl
  · exact fun key record mem => (le_foldl 0 _).2 _ (List.mem_map_of_mem mem)

theorem mem_watermarksOf_committed {key : String} {record : Record} :
    record ∈ watermarksOf key tail.committed ↔
      record ∈ watermarksOf key tail.written ∧ record.endLsn ≤ tail.shared.commit := by
  simp only [mem_watermarksOf, committed, List.mem_filter, decide_eq_true_eq]
  constructor
  · rintro ⟨⟨written, below⟩, isWatermark⟩
    exact ⟨⟨written, isWatermark⟩, below⟩
  · rintro ⟨⟨written, isWatermark⟩, below⟩
    exact ⟨⟨written, below⟩, isWatermark⟩

/-- An immediate `Ok` is honest exactly when the record that raised the map is committed. -/
theorem Kept.honest_iff (kept : Kept front tail) (key : String) (seq : Nat) :
    Reply.Honest ⟨.recordWatermark key seq, .ok (), tail.committed⟩ ↔
      ∃ record ∈ tail.raisedBy key seq, record.endLsn ≤ tail.shared.commit := by
  obtain ⟨base, consecutive, -⟩ := kept.ordered
  constructor
  · intro honest
    obtain ⟨found, isCommitted, atLeast⟩ := honest key seq rfl rfl
    obtain ⟨written, below⟩ := mem_watermarksOf_committed.mp isCommitted
    have ordered : (watermarksOf key tail.written).Pairwise fun earlier later =>
      earlier.endLsn ≤ later.lsn := consecutive.pairwise.filter _
    cases isFirst : tail.raisedBy key seq with
    | none => exact absurd (by simpa using atLeast) (List.find?_eq_none.mp isFirst found written)
    | some first =>
        refine ⟨first, rfl, ?_⟩
        obtain ⟨-, before, after, shape, none⟩ := List.find?_eq_some_iff_append.mp isFirst
        rw [shape] at ordered written
        rcases List.mem_append.mp written with early | onward
        · exact absurd (none found early) (by simpa using atLeast)
        · rcases List.mem_cons.mp onward with rfl | later
          · exact below
          · have := (List.pairwise_cons.mp (List.pairwise_append.mp ordered).2.1).1 found later
            rw [Record.endLsn] at *
            omega
  · rintro ⟨first, isFirst, below⟩ key seq ⟨⟩ -
    have mem := List.mem_of_find?_eq_some isFirst
    have atLeast := List.find?_some isFirst
    exact ⟨first, mem_watermarksOf_committed.mpr ⟨mem, below⟩, by simpa using atLeast⟩

/-- Only an `Ok` to a watermark job can be dishonest. -/
theorem honest_error (job : Job) (why : String) (committed : List Record) :
    Reply.Honest ⟨job, .error why, committed⟩ := by
  intro key seq _ isOk
  cases isOk

/-- The answers an action adds. -/
def Adds (before after : Tail) (P : Reply → Prop) : Prop :=
  ∃ more, after.replies = before.replies ++ more ∧ ∀ reply ∈ more, P reply

theorem Adds.none {P : Reply → Prop} (same : next.replies = tail.replies) : tail.Adds next P :=
  ⟨[], by rw [same, List.append_nil], nofun⟩

theorem Adds.reply {P : Reply → Prop} {job : Job} {result : Except String Unit}
    (holds : P ⟨job, result, tail.committed⟩) : tail.Adds (tail.reply job result) P :=
  ⟨_, rfl, fun _ mem => List.mem_singleton.mp mem ▸ holds⟩

theorem Adds.answer (tail : Tail) {P : Reply → Prop} {caller : Option Job}
    {result : Except String Unit} (holds : ∀ job, caller = some job → P ⟨job, result, tail.committed⟩) :
    tail.Adds (tail.answer caller result) P := by
  cases caller with
  | none => exact .none rfl
  | some job => exact .reply (holds job rfl)

theorem adds_appendWatermarkOffLoop (tail : Tail) (table : String) (seq : Nat)
    (caller : Option Job) :
    tail.Adds (tail.appendWatermarkOffLoop table seq caller) Reply.Honest := by
  rw [appendWatermarkOffLoop]
  split
  · exact .none rfl
  · exact .answer tail fun job _ => honest_error job _ _

/-- A settled step adds only honest answers. -/
theorem Kept.adds (kept : Kept front tail) {action : TailAction} (settled : tail.Settled action)
    (taken : tail.step action = some next) : tail.Adds next Reply.Honest := by
  cases action with
  | job job =>
      cases taken
      cases job with
      | append key seq payload =>
          simp only [Tail.runJob]
          split
          · exact .none rfl
          · exact .reply (honest_error _ _ _)
      | truncate key uptoSeq =>
          have answered : ∀ committed,
              Reply.Honest ⟨.truncate key uptoSeq, .ok (), committed⟩ := by
            intro committed key seq isWatermark
            cases isWatermark
          simp only [Tail.runJob]
          split
          · next table seq refresh =>
            obtain ⟨more, replies, honest⟩ := adds_appendWatermarkOffLoop
              ({ tail with shared := (tail.shared.noteCovered key uptoSeq).1 }.reply
                (.truncate key uptoSeq) (.ok ())) table seq none
            refine ⟨_ :: more, by rw [replies, Tail.reply, List.append_assoc]; rfl, ?_⟩
            intro reply mem
            rcases List.mem_cons.mp mem with rfl | later
            · exact answered _
            · exact honest reply later
          · exact ⟨_, rfl, fun _ mem => List.mem_singleton.mp mem ▸ answered _⟩
      | recordWatermark key seq =>
          rw [Tail.runJob]
          split
          · next raised => exact .reply ((kept.honest_iff key seq).mpr (settled raised))
          · exact adds_appendWatermarkOffLoop _ _ _ _
  | waitEnds index =>
      simp only [Tail.step, Tail.waitEnds, Option.bind_eq_bind, Option.bind_eq_some_iff] at taken
      obtain ⟨wait, isWait, ended⟩ := taken
      split at ended
      · cases ended
        exact Adds.answer { tail with waits := tail.waits.eraseIdx index }
          fun job _ => honest_error job _ _
      · split at ended
        · next covers =>
          cases ended
          generalize nudged : (if wait.nudges = true then tail.shared.advanceHorizon.1
            else tail.shared) = shared
          have keeps : tail.shared.Keeps shared := by
            rw [← nudged]
            split
            · exact tail.shared.keeps_advanceHorizon
            · exact .refl _
          refine Adds.answer { tail with waits := tail.waits.eraseIdx index, shared := shared }
            fun job isJob key seq isWatermark _ => ?_
          obtain ⟨record, written, atLeast, position⟩ := kept.awaited wait
            (List.mem_of_getElem? isWait) key seq (isJob.trans (congrArg some isWatermark))
          refine ⟨record, mem_watermarksOf_committed.mpr ⟨written, ?_⟩, atLeast⟩
          have := keeps.commit
          simp only
          omega
        · cases ended
  | waitStalls index =>
      simp only [Tail.step, Tail.waitStalls, Option.bind_eq_bind, Option.bind_eq_some_iff] at taken
      obtain ⟨wait, -, stalled⟩ := taken
      split at stalled
      · cases stalled
        exact Adds.answer { tail with
            waits := tail.waits.eraseIdx index
            shared := tail.shared.poisonWith "quorum append timed out (re-election attempted)" }
          fun job _ => honest_error job _ _
      · cases stalled
        exact .none rfl
  | drive move =>
      cases taken
      exact .none rfl

end Tail

/-- In every run in which the shortcut never runs ahead of the commit, each `Ok` to
`record_watermark` is backed by a committed watermark of the table at or above the sequence. An
immediate `Ok` is so exactly under that condition. In every run whatever, the last watermark
record of each table carries the highest sequence submitted for it, and the highest in the log
when the recovered records have it so. -/
theorem recordWatermark_honest {shared : Shared} {recovered : List Record}
    (isOpened : shared.Opened recovered) :
    (∀ tail, Run Tail.step Tail.Settled (Tail.opened shared recovered) tail →
      ∀ reply ∈ tail.replies, reply.Honest) ∧
    ∀ tail, Run Tail.step Unrestricted (Tail.opened shared recovered) tail →
      (∀ key seq, seq ≤ tail.wmMax key →
        tail.runJob (.recordWatermark key seq) = tail.reply (.recordWatermark key seq) (.ok ()) ∧
        (Reply.Honest ⟨.recordWatermark key seq, .ok (), tail.committed⟩ ↔
          tail.Settled (.job (.recordWatermark key seq)))) ∧
      ∃ submitted, tail.written = recovered ++ submitted ∧ LastIsHighest submitted ∧
        (LastIsHighest recovered → LastIsHighest tail.written) := by
  have keeps (front : List Record) (tail : Tail)
      (starts : Tail.Kept front (Tail.opened shared recovered))
      (run : Run Tail.step Unrestricted (Tail.opened shared recovered) tail) :
      Tail.Kept front tail :=
    run.invariant (fun _ _ _ kept _ taken => kept.step taken) starts
  have none : LastIsHighest [] := nofun
  have starts := Tail.kept_opened isOpened (List.append_nil recovered).symm none
  constructor
  · intro tail run
    have kept : Tail.Kept recovered tail ∧ ∀ reply ∈ tail.replies, reply.Honest := by
      induction run with
      | refl => exact ⟨starts, nofun⟩
      | step _ settled taken ih =>
          obtain ⟨kept, honest⟩ := ih
          obtain ⟨more, replies, moreHonest⟩ := kept.adds settled taken
          refine ⟨kept.step taken, fun reply mem => ?_⟩
          rw [replies] at mem
          exact (List.mem_append.mp mem).elim (honest reply) (moreHonest reply)
    exact kept.2
  · intro tail run
    have kept := keeps recovered tail starts run
    refine ⟨fun key seq raised => ⟨if_pos raised, ?_⟩, ?_⟩
    · rw [kept.honest_iff]
      exact ⟨fun committed _ => committed, fun settled => settled raised⟩
    · obtain ⟨submitted, shape, highest⟩ := kept.highest
      refine ⟨submitted, shape, highest, fun recoveredHighest => ?_⟩
      obtain ⟨part, same, partHighest⟩ :=
        (keeps [] tail (Tail.kept_opened isOpened rfl recoveredHighest) run).highest
      rw [same]
      exact partHighest

/-- What a new tail's `Quorum::open` returns. -/
def newShared : Shared where
  tailId := "tail"
  election := { term := 1, termStartLsn := 0, history := [⟨1, 0⟩] }
  log := LogBuf.recovered 0 0 []
  peers := Tri.replicate { flush := 0, failed := false }
  commit := 0
  horizon := 0
  poison := none
  requests := []

theorem opened_newShared : newShared.Opened [] :=
  ⟨0, 0, rfl, trivial, rfl, Nat.le_refl _⟩

/-- A watermark is submitted, acknowledged by two acceptors and awaited, then asked for again. -/
def committedTwice : Tail :=
  execute Tail.step (fun tail action => decide (tail.Settled action)) (Tail.opened newShared [])
    [.job (.recordWatermark "t" 5), .drive (.ack .first 1 30), .drive (.ack .second 1 30),
      .waitEnds 0, .job (.recordWatermark "t" 5)]

theorem recordWatermark_honest_committedTwice :
    committedTwice.replies.map (fun reply => reply.result.isOk) = [true, true] ∧
      ∀ reply ∈ committedTwice.replies, reply.Honest := by
  refine ⟨by decide +kernel, (recordWatermark_honest opened_newShared).1 _ ?_⟩
  exact run_execute (fun _ _ => of_decide_eq_true) _ _

/-- The first wait times out and poisons the tail, and its caller hears of it. The second call
returns `Ok`, and no record was ever committed. -/
theorem recordWatermark_dishonest :
    let tail := execute Tail.step (fun _ _ => true) (Tail.opened newShared [])
      [.job (.recordWatermark "t" 5), .waitStalls 0, .waitStalls 0,
        .job (.recordWatermark "t" 5)]
    Run Tail.step Unrestricted (Tail.opened newShared []) tail ∧
      ∃ first second, tail.replies = [first, second] ∧ first.result.isOk = false ∧
        second.job = .recordWatermark "t" 5 ∧ second.result = .ok () ∧ second.committed = [] ∧
        ¬ second.Honest := by
  refine ⟨run_execute (fun _ _ _ => trivial) _ _, _, _, rfl, rfl, rfl, rfl, rfl, ?_⟩
  intro honest
  obtain ⟨record, mem, -⟩ := honest "t" 5 rfl rfl
  cases mem

end Icegres.Quorum
