import Icegres.Quorum.ByteLog
import Icegres.Quorum.Rules
import Icegres.Quorum.Wire

/-!
# Everything that is logged can be sent

A record is admitted into the log only when it fits one message with headroom to spare. From
there three limits meet: the byte target of a batch, the headroom and the message cap with its
header. A peer that asks at a record boundary gets a batch that can be sent, and the recovery
download of a starting proposer ends with the donor's bytes or with a failure.
-/

namespace Icegres.Quorum

open Icegres.Segment

namespace LogBuf

/-- The logs that come to be: seeded with recovered records that fit a message, then records
submitted, coverage noted and covered records trimmed. -/
inductive Built : LogBuf → Prop where
  | recovered {base head records} (consecutive : Consecutive base records)
      (ends : base + framesLen records = head)
      (checked : ∀ record ∈ records, checkRecordFrameLen record.frameLen = .ok ()) :
      Built (recovered base head records)
  | submitted {shared next : Shared} {kind tableKey seq body record} (built : Built shared.log)
      (entered : shared.submit kind tableKey seq body = .ok (next, record)) : Built next.log
  | noted {log : LogBuf} (built : Built log) (covered : String → Nat) :
      Built { log with covered := covered }
  | trimmed {log : LogBuf} (built : Built log) (upto : Nat) : Built (log.dropTo upto)

/-- The retained records end at the head, and each fits a message. -/
structure Sendable (log : LogBuf) : Prop where
  consecutive : Consecutive log.base log.records
  ends : log.base + framesLen log.records = log.head
  fits : ∀ record ∈ log.records, record.frameLen + appendMessageHeadroom ≤ maxMessageBytes

theorem checkRecordFrameLen_eq_ok_iff {frameLen : Nat} :
    checkRecordFrameLen frameLen = .ok () ↔
      frameLen + appendMessageHeadroom ≤ maxMessageBytes := by
  rw [checkRecordFrameLen]
  split
  · next tooLong =>
    constructor
    · intro isOk
      cases isOk
    · omega
  · next within => exact ⟨fun _ => Nat.le_of_not_lt within, fun _ => rfl⟩

theorem Built.sendable {log : LogBuf} (built : log.Built) : log.Sendable := by
  induction built with
  | recovered consecutive ends checked =>
      exact ⟨consecutive, ends,
        fun record mem => checkRecordFrameLen_eq_ok_iff.mp (checked record mem)⟩
  | @submitted shared next kind tableKey seq body record built entered ih =>
      obtain ⟨consecutive, ends, fits⟩ := ih
      simp only [Shared.submit] at entered
      split at entered
      · cases entered
      · split at entered
        · split at entered
          · cases entered
          · next checked =>
            cases entered
            refine ⟨?_, ?_, ?_⟩
            · rw [push, Consecutive.append]
              exact ⟨consecutive, ends.symm, trivial⟩
            · simp only [push, framesLen_append, framesLen_cons, framesLen_nil, Record.endLsn]
              omega
            · intro record mem
              rcases List.mem_append.mp mem with old | new
              · exact fits record old
              · obtain rfl := List.mem_singleton.mp new
                exact checkRecordFrameLen_eq_ok_iff.mp checked
        · cases entered
  | noted _ covered ih => exact ⟨ih.consecutive, ih.ends, ih.fits⟩
  | @trimmed log _ upto ih =>
      obtain ⟨consecutive, ends, fits⟩ := ih
      obtain ⟨gone, records, base, -, head, -, -⟩ := dropTo_spec consecutive upto
      rw [records, Consecutive.append] at consecutive
      rw [records, framesLen_append] at ends
      refine ⟨base ▸ consecutive.2, by omega, ?_⟩
      intro record mem
      exact fits record (by rw [records]; exact List.mem_append_right _ mem)

/-- A batch stays below the message cap by the headroom. -/
theorem takeBatch_fits (len : Nat) (records : List Record)
    (fits : len + appendMessageHeadroom ≤ maxMessageBytes) :
    len + framesLen (takeBatch len records) + appendMessageHeadroom ≤ maxMessageBytes := by
  induction records generalizing len with
  | nil => simpa [takeBatch] using fits
  | cons record records ih =>
      rw [takeBatch]
      split
      · simpa using fits
      · next more =>
        have := ih (len + record.frameLen) (by omega)
        simp only [framesLen_cons]
        omega

/-- At a record boundary below the head the batch is the records that follow it. -/
theorem Sendable.nextBatch {log : LogBuf} (sendable : log.Sendable) {front : List Record}
    (isFront : front <+: log.records) (inside : log.base + framesLen front < log.head) :
    ∃ batch, batch ≠ [] ∧ front ++ batch <+: log.records ∧
      framesLen batch + appendMessageHeadroom ≤ maxMessageBytes ∧
      log.nextBatch (log.base + framesLen front) =
        .data (log.base + framesLen front) (log.base + framesLen (front ++ batch)) batch := by
  obtain ⟨consecutive, ends, fits⟩ := sendable
  obtain ⟨rest, shape⟩ := isFront
  rw [← shape, Consecutive.append] at consecutive
  rw [← shape, framesLen_append] at ends
  cases rest with
  | nil =>
      rw [framesLen_nil] at ends
      omega
  | cons record rest =>
      obtain ⟨inFront, start, after⟩ := consecutive
      have passed : front.filter (fun record => log.base + framesLen front < record.endLsn) = [] := by
        rw [List.filter_eq_nil_iff]
        intro earlier mem
        have := inFront.endLsn_le mem
        simpa using this
      have ahead : (record :: rest).filter
          (fun record => log.base + framesLen front < record.endLsn) = record :: rest := by
        rw [List.filter_eq_self]
        intro later mem
        have := later.frameLen_pos
        have laterStart : log.base + framesLen front ≤ later.lsn := by
          rcases List.mem_cons.mp mem with rfl | inRest
          · exact Nat.le_of_eq start.symm
          · have := after.start_le inRest
            have := record.frameLen_pos
            simp only [Record.endLsn] at *
            omega
        rw [decide_eq_true_eq, Record.endLsn]
        omega
      have own : record.frameLen + appendMessageHeadroom ≤ maxMessageBytes := by
        apply fits
        rw [← shape]
        simp
      refine ⟨record :: takeBatch record.frameLen rest, by simp, ?_, ?_, ?_⟩
      · rw [← shape, List.prefix_append_right_inj, List.cons_prefix_cons]
        exact ⟨rfl, takeBatch_prefix _ _⟩
      · rw [framesLen_cons]
        exact takeBatch_fits _ _ own
      · rw [LogBuf.nextBatch, if_neg (by omega), if_neg (by omega), ← shape, List.filter_append,
          passed, ahead, List.nil_append]
        simp only [framesLen_append, start, Nat.add_assoc]

/-- The retained bytes at their position. -/
def bytes (log : LogBuf) : Piece UInt8 :=
  ⟨log.base, encodeAll log.records⟩

theorem window_bytes {log : LogBuf} {front batch : List Record}
    (isFront : front ++ batch <+: log.records) :
    log.bytes.window (log.base + framesLen front) (log.base + framesLen (front ++ batch)) =
      encodeAll batch := by
  obtain ⟨rest, shape⟩ := isFront
  have split : encodeAll log.records = encodeAll front ++ encodeAll batch ++ encodeAll rest := by
    rw [← shape]
    simp [encodeAll]
  have both : encodeAll (front ++ batch) = encodeAll front ++ encodeAll batch := by
    simp [encodeAll]
  rw [Piece.window, bytes, split, Nat.add_sub_cancel_left, Nat.add_sub_cancel_left,
    ← encodeAll_length, ← encodeAll_length, both, List.take_left, List.drop_left]

end LogBuf

/-- An append that keeps the headroom is below the message cap. -/
theorem AppendRequest.encodes {request : AppendRequest}
    (room : framesLen request.records + appendMessageHeadroom ≤ maxMessageBytes) :
    (Message.append request).encode.isOk = true := by
  have header := request.header_length_le
  have payload : (Message.append request).wire.payload.length = framesLen request.records :=
    encodeAll_length _
  rw [Message.encode, WireMessage.encode_isOk_iff, payload]
  simp only [appendMessageHeadroom] at room
  omega

/-- What a round of the recovery download makes of the outcome of its request. -/
def Opening.recover (opening : Opening) : Outcome → Opening
  | .response (.readResp fromLsn records) => Proposer.countChunk opening fromLsn records
  | _ => opening.fail "the donor did not return the recovery range"

/-- How a request to an acceptor can end: with its answer, when that can be encoded, or without
one. -/
inductive Answers (donor : Acceptor) (request : Message) : Outcome → Prop where
  | answered (encodes : (donor.process request).2.encode.isOk = true) :
      Answers donor request (.ofMessage (donor.process request).2)
  | timedOut : Answers donor request .timedOut
  | broken : Answers donor request .broken

/-- The rounds of the recovery download from one donor, with their outcomes, latest first. -/
inductive Downloads (donor : Acceptor) (first : Opening) : List Outcome → Opening → Prop where
  | start : Downloads donor first [] first
  | round {outcomes opening request outcome} (prior : Downloads donor first outcomes opening)
      (reading : opening.pc = .reading)
      (asked : opening.pending none = some (opening.donor, request))
      (ended : Answers donor request outcome) :
      Downloads donor first (outcome :: outcomes) (opening.recover outcome)

/-- The outcome is a chunk of the log that could be encoded. -/
def Sent (outcome : Outcome) : Prop :=
  ∃ fromLsn records, outcome = .response (.readResp fromLsn records) ∧
    (Message.readResp fromLsn records).encode.isOk = true

/-- How far a download of `[horizon, finish)` has come after some rounds. -/
inductive Downloaded (held : Piece UInt8) (horizon finish chunk : Nat) (outcomes : List Outcome)
    (opening : Opening) : Prop where
  | failed (why : String) (isFailed : opening.pc = .failed why)
      (rounds : outcomes.length ≤ finish - horizon)
  | reading (isReading : opening.pc = .reading)
      (sameChunk : opening.recoveryReadChunk = chunk)
      (sameHorizon : opening.truncateLsn = horizon) (sameFinish : opening.termStartLsn = finish)
      (position : opening.readPos = horizon + opening.recBytes.length)
      (more : opening.readPos < finish)
      (bytes : opening.recBytes = held.window horizon opening.readPos)
      (rounds : outcomes.length ≤ opening.recBytes.length)
      (answers : ∀ outcome ∈ outcomes, Sent outcome)
  | complete (isComplete : opening.pc = .electing [] 0)
      (bytes : opening.recBytes = held.window horizon finish)
      (whole : horizon + opening.recBytes.length = finish)
      (rounds : outcomes.length ≤ finish - horizon)
      (answers : ∀ outcome ∈ outcomes, Sent outcome)

/-- Decoding the downloaded range completes the download or fails. -/
theorem Opening.decode_cases (opening : Opening) :
    (∃ why, opening.decode.pc = .failed why) ∨
      opening.truncateLsn + opening.recBytes.length = opening.termStartLsn ∧
        opening.decode.pc = .electing [] 0 ∧ opening.decode.recBytes = opening.recBytes ∧
        opening.decode.truncateLsn = opening.truncateLsn ∧
        opening.decode.termStartLsn = opening.termStartLsn := by
  rw [Opening.decode]
  split
  · exact .inl ⟨_, rfl⟩
  · next whole =>
    split
    · exact .inl ⟨_, rfl⟩
    · exact .inr ⟨not_not.mp whole, rfl, rfl, rfl, rfl⟩

/-- Where the download starts. -/
theorem Opening.chooseDonor_downloaded (voted : Opening) (held : Piece UInt8) :
    Downloaded held voted.chooseDonor.truncateLsn voted.chooseDonor.termStartLsn
      voted.chooseDonor.recoveryReadChunk [] voted.chooseDonor := by
  have nothing (position : Nat) : [] = held.window position position := by
    apply (List.eq_nil_of_length_eq_zero _).symm
    rw [Piece.length_window]
    omega
  generalize chosenEq : voted.chooseDonor = chosen
  simp only [Opening.chooseDonor] at chosenEq
  split at chosenEq
  · subst chosenEq
    exact .failed _ rfl (Nat.zero_le _)
  · split at chosenEq
    · subst chosenEq
      exact .failed _ rfl (Nat.zero_le _)
    · split at chosenEq
      · subst chosenEq
        exact .failed _ rfl (Nat.zero_le _)
      · split at chosenEq
        · next some =>
          subst chosenEq
          exact .reading rfl rfl rfl rfl rfl some (nothing _) (Nat.le_refl _) (by simp)
        · next none =>
          subst chosenEq
          rcases Opening.decode_cases _ with ⟨why, isFailed⟩ | ⟨whole, complete, bytes, low, high⟩
          · exact .failed why isFailed (Nat.zero_le _)
          · refine .complete complete ?_ (by rw [bytes, low, high, whole]) (Nat.zero_le _) (by simp)
            rw [bytes, low, high, ← whole]
            exact nothing _

/-- What an acceptor answers to a read: an error, nothing, or bytes from the asked position on. -/
theorem Acceptor.process_read_cases {donor : Acceptor} {log : ByteLog} (holds : donor.wal.Holds log)
    (lo hi : Nat) :
    (∃ why, (donor.process (.read lo hi)).2 = .error why) ∨
      (donor.process (.read lo hi)).2 = .readResp lo [] ∨
      ∃ upto, lo < upto ∧ upto ≤ hi ∧
        (donor.process (.read lo hi)).2 = .readResp lo (log.held.window lo upto) ∧
        (log.held.window lo upto).length = upto - lo := by
  have answer (result : Message) (read : donor.handleRead lo hi = .ok result) :
      (donor.process (.read lo hi)).2 = result := by
    simp [Acceptor.process, read]
  by_cases beyond : lo ≥ min hi donor.wal.flush
  · exact .inr (.inl (answer _ (by simp only [Acceptor.handleRead, if_pos beyond])))
  · have ordered : lo ≤ min hi donor.wal.flush := by omega
    by_cases covers : log.held.Covers lo (min hi donor.wal.flush)
    · have read := (holds.read ordered).1 covers
      exact .inr (.inr ⟨_, by omega, Nat.min_le_left _ _,
        answer _ (by simp only [Acceptor.handleRead, if_neg beyond, read]),
        (Piece.length_window_eq_iff ordered).mpr covers⟩)
    · obtain ⟨why, refused⟩ := (holds.read ordered).2 covers
      exact .inl ⟨why, by simp [Acceptor.process, Acceptor.handleRead, beyond, refused]⟩

/-- An empty chunk ends the download. -/
theorem Proposer.countChunk_empty (opening : Opening) :
    ∃ why, (countChunk opening opening.readPos []).pc = .failed why := by
  simp [countChunk, Opening.fail]

/-- A chunk inside the requested range is taken, and the last one decoded. -/
theorem Proposer.countChunk_inside {opening : Opening} {records : List UInt8}
    (some : records ≠ []) (inside : opening.readPos + records.length ≤
      min opening.termStartLsn (opening.readPos + max opening.recoveryReadChunk 1)) :
    let grown := { opening with
      readPos := opening.readPos + records.length, recBytes := opening.recBytes ++ records }
    countChunk opening opening.readPos records =
      if grown.readPos < opening.termStartLsn then grown else grown.decode := by
  simp [countChunk, some, Nat.not_lt.mpr inside]

/-- One round: the download grows by at least one of the donor's bytes, completes or fails. -/
theorem Downloaded.recover {donor : Acceptor} {log : ByteLog} (holds : donor.wal.Holds log)
    {horizon finish chunk : Nat} {outcomes : List Outcome} {opening : Opening}
    (downloaded : Downloaded log.held horizon finish chunk outcomes opening)
    (isReading : opening.pc = .reading) {request : Message}
    (asked : opening.pending none = some (opening.donor, request)) {outcome : Outcome}
    (ended : Answers donor request outcome) :
    Downloaded log.held horizon finish chunk (outcome :: outcomes) (opening.recover outcome) := by
  cases downloaded with
  | failed why isFailed => simp [isFailed] at isReading
  | complete isComplete => simp [isComplete] at isReading
  | reading _ sameChunk sameHorizon sameFinish position more bytes rounds answers =>
      have within : (outcome :: outcomes).length ≤ finish - horizon := by
        rw [List.length_cons]
        omega
      obtain rfl : .read opening.readPos (min opening.termStartLsn
          (opening.readPos + max opening.recoveryReadChunk 1)) = request := by
        simpa [Opening.pending, isReading] using asked
      cases ended with
      | timedOut | broken => exact .failed _ rfl within
      | answered encodes =>
          rcases Acceptor.process_read_cases holds opening.readPos (min opening.termStartLsn
              (opening.readPos + max opening.recoveryReadChunk 1)) with
            ⟨why, answer⟩ | answer | ⟨upto, above, below, answer, length⟩
          · rw [answer]
            exact .failed _ rfl within
          · rw [answer]
            obtain ⟨why, isFailed⟩ := Proposer.countChunk_empty opening
            exact .failed why isFailed within
          · rw [answer]
            have some : log.held.window opening.readPos upto ≠ [] := by
              intro none
              simp only [none, List.length_nil] at length
              omega
            have inside : opening.readPos + (log.held.window opening.readPos upto).length ≤
                min opening.termStartLsn
                  (opening.readPos + max opening.recoveryReadChunk 1) := by
              omega
            have counted := Proposer.countChunk_inside some inside
            have extended : opening.recBytes ++ log.held.window opening.readPos upto =
                log.held.window horizon upto := by
              rw [bytes]
              exact log.held.window_concat (by omega) (by omega)
            rw [answer] at encodes
            have answered : ∀ outcome ∈ Outcome.ofMessage
                (.readResp opening.readPos (log.held.window opening.readPos upto)) :: outcomes,
                Sent outcome := by
              intro outcome mem
              rcases List.mem_cons.mp mem with rfl | earlier
              · exact ⟨_, _, rfl, encodes⟩
              · exact answers outcome earlier
            have reached : opening.readPos + (upto - opening.readPos) = upto := by omega
            simp only [length, extended, reached] at counted
            change Downloaded _ _ _ _ _ (Proposer.countChunk opening _ _)
            rw [counted]
            have grew : (log.held.window horizon upto).length = upto - horizon := by
              rw [← extended, List.length_append, length]
              omega
            split
            · next more' =>
              refine .reading isReading sameChunk sameHorizon sameFinish ?_ (sameFinish ▸ more')
                rfl ?_ answered
              · simp only
                omega
              · simp only [List.length_cons]
                omega
            · next last =>
              have atFinish : upto = finish := by omega
              subst atFinish
              rcases Opening.decode_cases _ with ⟨why, isFailed⟩ | ⟨whole, complete, bytes', -, -⟩
              · exact .failed why isFailed within
              · refine .complete complete bytes' ?_ within answered
                rw [bytes']
                simp only at whole ⊢
                omega

theorem Downloads.downloaded {donor : Acceptor} {log : ByteLog} (holds : donor.wal.Holds log)
    {voted last : Opening} {outcomes : List Outcome}
    (downloads : Downloads donor voted.chooseDonor outcomes last) :
    Downloaded log.held voted.chooseDonor.truncateLsn voted.chooseDonor.termStartLsn
      voted.chooseDonor.recoveryReadChunk outcomes last := by
  induction downloads with
  | start => exact voted.chooseDonor_downloaded log.held
  | round _ reading asked ended ih => exact ih.recover holds reading asked ended

/-- A chunk that leaves the headroom can be encoded. -/
theorem readResp_encodes {donor : Acceptor} {log : ByteLog} (holds : donor.wal.Holds log)
    {lo hi : Nat} (room : hi - lo + appendMessageHeadroom ≤ maxMessageBytes) {fromLsn : Nat}
    {records : List UInt8}
    (answer : (donor.process (.read lo hi)).2 = .readResp fromLsn records) :
    (Message.readResp fromLsn records).encode.isOk = true := by
  have bound : fromLsn = lo ∧ records.length ≤ hi - lo := by
    rcases Acceptor.process_read_cases holds lo hi with ⟨why, refused⟩ | none | ⟨upto, -, within, some, length⟩
    · rw [refused] at answer
      cases answer
    · rw [none] at answer
      cases answer
      exact ⟨rfl, Nat.zero_le _⟩
    · rw [some] at answer
      cases answer
      exact ⟨rfl, by omega⟩
  obtain ⟨rfl, short⟩ := bound
  have header := readResp_header_length_le fromLsn records
  rw [Message.encode, WireMessage.encode_isOk_iff]
  change 4 + _ + records.length ≤ _
  simp only [appendMessageHeadroom] at room
  omega

/-- A peer at a record boundary of a log built by submissions gets a batch that is the log's
bytes from there and can be sent at any positions. A recovery download takes at most one round
for each byte; when it is over it has failed or holds exactly the donor's bytes of the range,
all of it sent in encodable chunks, and a chunk size that keeps the headroom makes every chunk
encodable. -/
theorem streaming_sends :
    (∀ log : LogBuf, log.Built → ∀ front, front <+: log.records →
      log.base + framesLen front < log.head →
      ∃ batch, batch ≠ [] ∧ front ++ batch <+: log.records ∧
        log.nextBatch (log.base + framesLen front) =
          .data (log.base + framesLen front) (log.base + framesLen (front ++ batch)) batch ∧
        encodeAll batch = log.bytes.window (log.base + framesLen front)
          (log.base + framesLen (front ++ batch)) ∧
        ∀ request : AppendRequest, request.Fits → request.records = batch →
          (Message.append request).encode.isOk = true) ∧
    ∀ (donor : Acceptor) (log : ByteLog) (voted last : Opening) (outcomes : List Outcome),
      donor.wal.Holds log → Downloads donor voted.chooseDonor outcomes last →
      let horizon := voted.chooseDonor.truncateLsn
      let finish := voted.chooseDonor.termStartLsn
      let chunk := max voted.chooseDonor.recoveryReadChunk 1
      outcomes.length ≤ finish - horizon ∧
      (last.pc ≠ .reading → (∃ why, last.pc = .failed why) ∨
        last.recBytes = log.held.window horizon finish ∧
          last.recBytes.length = finish - horizon ∧ ∀ outcome ∈ outcomes, Sent outcome) ∧
      (last.pc = .reading → chunk + appendMessageHeadroom ≤ maxMessageBytes → finish < 2 ^ 64 →
        ∃ lo hi, last.pending none = some (last.donor, .read lo hi) ∧
          ∀ fromLsn records, (donor.process (.read lo hi)).2 = .readResp fromLsn records →
            (Message.readResp fromLsn records).encode.isOk = true) := by
  refine ⟨?_, ?_⟩
  · intro log built front isFront inside
    obtain ⟨batch, some, isSlice, room, next⟩ := built.sendable.nextBatch isFront inside
    refine ⟨batch, some, isSlice, next, (LogBuf.window_bytes isSlice).symm, ?_⟩
    rintro request - rfl
    exact request.encodes room
  · intro donor log voted last outcomes holds downloads
    cases downloads.downloaded holds with
    | failed why isFailed rounds =>
        refine ⟨rounds, fun _ => .inl ⟨why, isFailed⟩, ?_⟩
        simp [isFailed]
    | reading isReading sameChunk sameHorizon sameFinish position more bytes rounds answers =>
        refine ⟨by omega, fun failed => absurd isReading failed, ?_⟩
        intro _ small _
        refine ⟨last.readPos, min last.termStartLsn (last.readPos + max last.recoveryReadChunk 1),
          by simp [Opening.pending, isReading], ?_⟩
        intro fromLsn records answer
        refine readResp_encodes holds ?_ answer
        rw [sameChunk]
        omega
    | complete isComplete bytes whole rounds answers =>
        refine ⟨rounds, fun _ => .inr ⟨bytes, by omega, answers⟩, ?_⟩
        simp [isComplete]

/-- A record of one byte at the start of a log. -/
def firstRecord : Record where
  lsn := 0
  kind := .frame
  tableKey := "t"
  seq := 1
  body := .ofList [7]
  lsn_lt := by decide
  seq_lt := by decide
  payload_fits := by decide

def OpenPc.isElecting : OpenPc → Bool
  | .electing .. => true
  | _ => false

/-- Two voters hold that record. -/
def votedFirst : Opening :=
  let vote : Vote := { flush := firstRecord.frameLen, lastLogTerm := 1, history := [], horizon := 0 }
  { Opening.start "tail" maxAppendBatchBytes with votes := ⟨some vote, some vote, none⟩ }

/-- The acceptor they are downloaded from. -/
def donorOfFirst : Acceptor :=
  { Acceptor.new with wal := (SegmentWal.open [] 64).run [.append 0 [firstRecord]] }

theorem streaming_sends_first :
    (∃ batch, batch ≠ [] ∧ (LogBuf.recovered 0 firstRecord.frameLen [firstRecord]).nextBatch 0 =
      .data 0 (framesLen batch) batch) ∧
    ∃ last outcomes, Downloads donorOfFirst votedFirst.chooseDonor outcomes last ∧
      last.pc ≠ .reading ∧ last.recBytes.length = firstRecord.frameLen := by
  obtain ⟨sends, downloads⟩ := streaming_sends
  constructor
  · have built : (LogBuf.recovered 0 firstRecord.frameLen [firstRecord]).Built :=
      .recovered ⟨rfl, trivial⟩ rfl (by
        intro record mem
        rw [List.mem_singleton.mp mem]
        exact LogBuf.checkRecordFrameLen_eq_ok_iff.mpr (by decide))
    obtain ⟨batch, some, -, next, -⟩ := sends _ built [] List.nil_prefix (by decide)
    refine ⟨batch, some, next.trans ?_⟩
    simp [LogBuf.recovered]
  · obtain ⟨first, holds, fresh⟩ := SegmentWal.open_holds [] 64
    obtain rfl := fresh rfl
    obtain ⟨log, -, held⟩ := holds.run [.append 0 [firstRecord]]
    let answer := (donorOfFirst.process (.read 0 firstRecord.frameLen)).2
    let last := votedFirst.chooseDonor.recover (.ofMessage answer)
    have round : Downloads donorOfFirst votedFirst.chooseDonor [.ofMessage answer] last :=
      .round .start rfl rfl (.answered (by decide +kernel))
    have elects : last.pc.isElecting = true := by decide +kernel
    have notReading : last.pc ≠ .reading := by
      intro isReading
      rw [isReading] at elects
      cases elects
    obtain ⟨-, whole, -⟩ := downloads donorOfFirst log votedFirst last _ held round
    rcases whole notReading with ⟨why, isFailed⟩ | ⟨-, length, -⟩
    · rw [isFailed] at elects
      cases elects
    · exact ⟨last, _, round, notReading, length⟩

end Icegres.Quorum
