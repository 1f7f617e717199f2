import Icegres.Segment
import Icegres.TermLog.History

/-!
# Quorum-tail protocol: consensus types, records and messages

The replicated log is a byte stream of framed records; an LSN is a byte offset into it and
every record advances it by its framed length. One record is the frame of
`[u64 lsn][u8 kind][u32 key_len][table_key][u64 seq][body]`.
-/

namespace Icegres.Quorum

open Icegres.Segment
open Icegres.TermLog (Switch History partingPoint CommonPoint)

/-- `(term, lsn)`: the LSN at which `term` began. -/
abbrev TermLsn := Switch

/-- The sequence of term switches a log has adopted. An acceptor stores the proposer's in
full, so it is always consulted through `upTo` its flush position. -/
abbrev TermHistory := History

/-- The term the log's last record belongs to, zero for an empty log. -/
def lastLogTerm (history : TermHistory) (flushLsn : Nat) : Nat :=
  (history.upTo flushLsn).lastTerm

/-- How many leading switches two histories share. The walk stops where the terms differ;
a common term with two starts is an error. -/
def commonSwitches (disagree : Switch → Switch → String) :
    TermHistory → TermHistory → Except String Nat
  | prop :: propRest, sk :: skRest =>
    if prop.term ≠ sk.term then
      .ok 0
    else if prop.lsn ≠ sk.lsn then
      .error (disagree prop sk)
    else do
      return (← commonSwitches disagree propRest skRest) + 1
  | _, _ => .ok 0

/-- Where the proposer's history and an acceptor's history diverge. The proposer's history
extends without bound, the acceptor's ends at its flush position. -/
def findHighestCommonPoint (propTh skTh : TermHistory) (skWalEnd : Nat) :
    Except String (Option TermLsn) :=
  let skEnd := (skTh.getLast?.map Switch.lsn).getD 0
  if skEnd > skWalEnd then
    .error s!"acceptor term history end {skEnd} is beyond its flush position {skWalEnd}"
  else
    match commonSwitches (fun prop sk =>
      s!"term histories disagree on the start of term {prop.term}: {prop.lsn} vs {sk.lsn}")
      propTh skTh with
    | .error why => .error why
    | .ok 0 => .ok none
    | .ok (before + 1) => .ok (some
        { term := History.lastTerm (propTh.take (before + 1))
          lsn := partingPoint skWalEnd (propTh.drop (before + 1)) (skTh.drop (before + 1)) })

/-- The counted switches are shared, and the next ones are of different terms. -/
theorem commonSwitches_spec {disagree : Switch → Switch → String} {propTh skTh : TermHistory}
    {common : Nat} (counted : commonSwitches disagree propTh skTh = .ok common) :
    propTh.take common = skTh.take common ∧
      ∀ next other, (propTh.drop common).head? = some next →
        (skTh.drop common).head? = some other → next.term ≠ other.term := by
  induction propTh generalizing skTh common with
  | nil =>
      obtain rfl : 0 = common := by simpa [commonSwitches] using counted
      simp
  | cons prop propRest ih =>
      cases skTh with
      | nil =>
          obtain rfl : 0 = common := by simpa [commonSwitches] using counted
          simp
      | cons sk skRest =>
          rw [commonSwitches] at counted
          split at counted
          · rename_i differ
            obtain rfl : 0 = common := by simpa using counted
            simpa using differ
          · rename_i sameTerm
            split at counted
            · cases counted
            · rename_i sameLsn
              cases inner : commonSwitches disagree propRest skRest with
              | error why => simp [inner, bind, Except.bind] at counted
              | ok count =>
                  obtain rfl : count + 1 = common := by
                    simpa [inner, bind, Except.bind, pure, Except.pure] using counted
                  obtain ⟨shared, parts⟩ := ih inner
                  have same : prop = sk := by
                    cases prop
                    cases sk
                    simp_all
                  exact ⟨by simp [same, shared], by simpa using parts⟩

private theorem commonPoint_of_commonSwitches {disagree : Switch → Switch → String}
    {propTh skTh : TermHistory} {common : Nat}
    (counted : commonSwitches disagree propTh skTh = .ok common) (skWalEnd : Nat) :
    CommonPoint propTh skTh skWalEnd
      (partingPoint skWalEnd (propTh.drop common) (skTh.drop common)) := by
  obtain ⟨shared, parts⟩ := commonSwitches_spec counted
  refine ⟨propTh.take common, propTh.drop common, skTh.drop common,
    (List.take_append_drop _ _).symm, ?_, parts, rfl⟩
  rw [shared, List.take_append_drop]

/-- A divergence point the code finds is the common point of the two histories. -/
theorem findHighestCommonPoint_some {propTh skTh : TermHistory} {skWalEnd : Nat}
    {point : TermLsn}
    (found : findHighestCommonPoint propTh skTh skWalEnd = .ok (some point)) :
    CommonPoint propTh skTh skWalEnd point.lsn := by
  simp only [findHighestCommonPoint] at found
  split at found
  · cases found
  · split at found
    · cases found
    · cases found
    · rename_i before counted
      cases found
      exact commonPoint_of_commonSwitches counted skWalEnd

/-- Without a common term the two histories part at their first switches. -/
theorem findHighestCommonPoint_none {propTh skTh : TermHistory} {skWalEnd : Nat}
    (found : findHighestCommonPoint propTh skTh skWalEnd = .ok none) :
    CommonPoint propTh skTh skWalEnd (partingPoint skWalEnd propTh skTh) := by
  simp only [findHighestCommonPoint] at found
  split at found
  · cases found
  · split at found
    · cases found
    · rename_i counted
      simpa using commonPoint_of_commonSwitches counted skWalEnd
    · cases found

/-- Record kinds: one acked tail statement, or a committed-watermark note. -/
inductive RecordKind where
  | frame
  | watermark
  deriving DecidableEq

namespace RecordKind

/-- The kind byte on the wire. -/
def toByte : RecordKind → UInt8
  | frame => 0
  | watermark => 1

def ofByte (byte : UInt8) : Except String RecordKind :=
  if byte = 0 then .ok frame
  else if byte = 1 then .ok watermark
  else .error s!"unknown record kind {byte}"

@[simp] theorem ofByte_toByte (kind : RecordKind) : ofByte kind.toByte = .ok kind := by
  cases kind <;> rfl

end RecordKind

/-- Payload bytes of a record with this table key and body length. -/
def recordPayloadLen (tableKey : String) (bodyLen : Nat) : Nat :=
  8 + 1 + 4 + tableKey.utf8ByteSize + 8 + bodyLen

/-- One log record. The integer fields are `u64`, and the payload fits the frame header. -/
structure Record where
  /-- Start LSN: the record's byte position in the log. -/
  lsn : Nat
  kind : RecordKind
  /-- The canonical percent-encoded `<ns>.<table>` key. -/
  tableKey : String
  /-- The per-table tail sequence number this record carries or covers. -/
  seq : Nat
  /-- Frame records: the op payload. Watermark records: empty. -/
  body : Bytes
  lsn_lt : lsn < 2 ^ 64
  seq_lt : seq < 2 ^ 64
  payload_fits : recordPayloadLen tableKey body.len < 2 ^ 32
  deriving DecidableEq

namespace Record

/-- Length of the framed record on the wire and on disk. -/
def frameLen (record : Record) : Nat :=
  frameHeaderBytes + recordPayloadLen record.tableKey record.body.len

/-- The record's end LSN. -/
def endLsn (record : Record) : Nat :=
  record.lsn + record.frameLen

/-- The bytes inside the frame wrap. -/
def payload (record : Record) : List UInt8 :=
  leBytes 8 record.lsn ++ (record.kind.toByte ::
    (leBytes 4 record.tableKey.utf8ByteSize ++
      (record.tableKey.toByteArray.data.toList ++
        (leBytes 8 record.seq ++ record.body.data))))

/-- The framed on-wire and on-disk bytes. -/
def encode (record : Record) : List UInt8 :=
  frameOf record.payload

theorem frameLen_pos (record : Record) : 0 < record.frameLen := by
  simp only [frameLen, frameHeaderBytes]
  omega

@[simp] theorem payload_length (record : Record) :
    record.payload.length = recordPayloadLen record.tableKey record.body.len := by
  simp only [payload, List.length_append, List.length_cons, leBytes_length, Bytes.data_length,
    Array.length_toList, recordPayloadLen]
  have size : record.tableKey.toByteArray.data.size = record.tableKey.utf8ByteSize := rfl
  omega

@[simp] theorem encode_length (record : Record) : record.encode.length = record.frameLen := by
  simp [encode, frameLen]

end Record

/-- Decode one record's frame payload. -/
def decodeRecordPayload (p : List UInt8) : Except String Record :=
  if p.length < 8 + 1 + 4 then
    .error s!"record payload of {p.length} bytes is shorter than its header"
  else
    let lsn := ofLeBytes (p.take 8)
    match RecordKind.ofByte ((p.drop 8).headD 0) with
    | .error why => .error why
    | .ok kind =>
      let keyLen := ofLeBytes ((p.drop 9).take 4)
      if p.length < 13 + keyLen + 8 then
        .error "record payload is torn inside its table key/seq"
      else
        match String.fromUTF8? ((p.drop 13).take keyLen).toByteArray with
        | none => .error "record table key is not UTF-8"
        | some tableKey =>
          let seq := ofLeBytes ((p.drop (13 + keyLen)).take 8)
          let body := Bytes.ofList (p.drop (13 + keyLen + 8))
          if fits : lsn < 2 ^ 64 ∧ seq < 2 ^ 64 ∧ recordPayloadLen tableKey body.len < 2 ^ 32 then
            .ok { lsn, kind, tableKey, seq, body, lsn_lt := fits.1, seq_lt := fits.2.1,
                  payload_fits := fits.2.2 }
          else
            .error "record payload is over the u32 frame length"

/-- A record's payload decodes to the record. -/
theorem decodeRecordPayload_payload (record : Record) :
    decodeRecordPayload record.payload = .ok record := by
  have keyLen : record.tableKey.toByteArray.data.toList.length = record.tableKey.utf8ByteSize :=
    rfl
  have long : ¬ record.payload.length < 8 + 1 + 4 := by
    simp [recordPayloadLen]
    omega
  have lsnFits : record.lsn < 256 ^ 8 := record.lsn_lt
  have seqFits : record.seq < 256 ^ 8 := record.seq_lt
  have keyFits : record.tableKey.utf8ByteSize < 256 ^ 4 := by
    have := record.payload_fits
    simp only [recordPayloadLen] at this
    omega
  have lsnEq : ofLeBytes (record.payload.take 8) = record.lsn := by
    simp [Record.payload, ofLeBytes_leBytes lsnFits]
  have kindEq : (record.payload.drop 8).headD 0 = record.kind.toByte := by
    simp [Record.payload]
  have afterKind : record.payload.drop 9 = leBytes 4 record.tableKey.utf8ByteSize ++
      (record.tableKey.toByteArray.data.toList ++
        (leBytes 8 record.seq ++ record.body.data)) := by
    simp [Record.payload, List.drop_append]
  have keyLenEq : ofLeBytes ((record.payload.drop 9).take 4) = record.tableKey.utf8ByteSize := by
    rw [afterKind]
    simp [ofLeBytes_leBytes keyFits]
  have afterLen : record.payload.drop 13 = record.tableKey.toByteArray.data.toList ++
      (leBytes 8 record.seq ++ record.body.data) := by
    have split : record.payload.drop 13 = (record.payload.drop 9).drop 4 := by simp
    rw [split, afterKind]
    simp
  have keyEq : ((record.payload.drop 13).take record.tableKey.utf8ByteSize).toByteArray =
      record.tableKey.toByteArray := by
    rw [afterLen, ← keyLen, List.take_left]
    exact ByteArray.ext (by simp)
  have afterKey : record.payload.drop (13 + record.tableKey.utf8ByteSize) =
      leBytes 8 record.seq ++ record.body.data := by
    rw [← List.drop_drop, afterLen, ← keyLen, List.drop_left]
  have seqEq : ofLeBytes ((record.payload.drop (13 + record.tableKey.utf8ByteSize)).take 8) =
      record.seq := by
    rw [afterKey]
    simp [ofLeBytes_leBytes seqFits]
  have bodyEq : Bytes.ofList (record.payload.drop (13 + record.tableKey.utf8ByteSize + 8)) =
      record.body := by
    ext1
    rw [← List.drop_drop, afterKey]
    simp [Bytes.ofList]
  have untorn : ¬ record.payload.length < 13 + record.tableKey.utf8ByteSize + 8 := by
    rw [Record.payload_length, recordPayloadLen]
    omega
  have decodedKey : String.fromUTF8? record.tableKey.toByteArray = some record.tableKey := by
    rw [String.fromUTF8?, dif_pos record.tableKey.isValidUTF8]
    rfl
  simp only [decodeRecordPayload, if_neg long, lsnEq, kindEq, RecordKind.ofByte_toByte, keyLenEq,
    if_neg untorn, keyEq, decodedKey, seqEq, bodyEq]
  rw [dif_pos ⟨record.lsn_lt, record.seq_lt, record.payload_fits⟩]

/-- The strict walk over the payloads of a record stream: every record's embedded LSN must be
its running byte position, a `u64`. -/
def decodePayloads : List (List UInt8) → Nat → Except String (List Record)
  | [], _ => .ok []
  | payload :: rest, pos => do
      let record ← decodeRecordPayload payload
      if record.lsn ≠ pos then
        throw s!"record stream discontinuity: record claims lsn {record.lsn} at stream position {pos}"
      let records ← decodePayloads rest ((pos + (payload.length + frameHeaderBytes)) % 2 ^ 64)
      return record :: records

/-- Strict decode of a concatenated record stream that starts at `expectStart` and ends
exactly at a record boundary. -/
def decodeRecords (bytes : List UInt8) (expectStart : Nat) : Except String (List Record) :=
  let scan := scanFrameBytes bytes
  match scan.bad with
  | some bad => .error s!"record stream is invalid at byte {scan.goodEnd}: {bad}"
  | none => decodePayloads scan.payloads expectStart

/-- Consecutive records from `start`: each begins where the one before it ends. -/
def Consecutive (start : Nat) : List Record → Prop
  | [] => True
  | record :: rest => record.lsn = start ∧ Consecutive record.endLsn rest

/-- The stream check of `decodeRecords` on records that are already decoded. -/
def checkStream : Nat → List Record → Except String Unit
  | _, [] => .ok ()
  | pos, record :: rest =>
    if record.lsn ≠ pos then
      .error s!"record stream discontinuity: record claims lsn {record.lsn} at stream position {pos}"
    else
      checkStream record.endLsn rest

/-- The stream check passes exactly on consecutive records. -/
theorem checkStream_eq_ok {start : Nat} {records : List Record} :
    checkStream start records = .ok () ↔ Consecutive start records := by
  induction records generalizing start with
  | nil => simp [checkStream, Consecutive]
  | cons record records ih =>
      by_cases atStart : record.lsn = start
      · simp [checkStream, Consecutive, atStart, ih]
      · simp [checkStream, Consecutive, atStart]

/-- Total framed length of a list of records. -/
def framesLen (records : List Record) : Nat :=
  (records.map Record.frameLen).sum

/-- The concatenated frames of a list of records. -/
def encodeAll (records : List Record) : List UInt8 :=
  records.flatMap Record.encode

@[simp] theorem framesLen_nil : framesLen [] = 0 := rfl

@[simp] theorem framesLen_cons (record : Record) (records : List Record) :
    framesLen (record :: records) = record.frameLen + framesLen records := by
  simp [framesLen]

@[simp] theorem framesLen_append (left right : List Record) :
    framesLen (left ++ right) = framesLen left + framesLen right := by
  simp [framesLen]

@[simp] theorem encodeAll_length (records : List Record) :
    (encodeAll records).length = framesLen records := by
  induction records with
  | nil => rfl
  | cons record records ih => simp [encodeAll] at ih ⊢; omega

theorem Consecutive.append {start : Nat} {left right : List Record} :
    Consecutive start (left ++ right) ↔
      Consecutive start left ∧ Consecutive (start + framesLen left) right := by
  induction left generalizing start with
  | nil => simp [Consecutive]
  | cons record left ih =>
      simp only [List.cons_append, Consecutive, ih, framesLen_cons, and_assoc]
      constructor
      · rintro ⟨rfl, inLeft, inRight⟩
        exact ⟨rfl, inLeft, by simpa [Record.endLsn, Nat.add_assoc] using inRight⟩
      · rintro ⟨rfl, inLeft, inRight⟩
        exact ⟨rfl, inLeft, by simpa [Record.endLsn, Nat.add_assoc] using inRight⟩

/-- No record of a consecutive list starts below the first. -/
theorem Consecutive.start_le {start : Nat} {records : List Record}
    (consecutive : Consecutive start records) {record : Record} (mem : record ∈ records) :
    start ≤ record.lsn := by
  induction records generalizing start with
  | nil => simp at mem
  | cons head rest ih =>
      obtain ⟨atStart, more⟩ := consecutive
      rcases List.mem_cons.mp mem with rfl | later
      · exact Nat.le_of_eq atStart.symm
      · have := ih more later
        have := head.frameLen_pos
        simp only [Record.endLsn] at *
        omega

/-- A record ends at or below the end of its list. -/
theorem Consecutive.endLsn_le {start : Nat} {records : List Record}
    (consecutive : Consecutive start records) {record : Record} (mem : record ∈ records) :
    record.endLsn ≤ start + framesLen records := by
  obtain ⟨front, back, rfl⟩ := List.append_of_mem mem
  rw [Consecutive.append] at consecutive
  have own : record.lsn = start + framesLen front := consecutive.2.1
  simp only [Record.endLsn, framesLen_append, framesLen_cons]
  omega

/-- Consecutive records survive the byte round trip. -/
theorem decodeRecords_encodeAll {start : Nat} {records : List Record}
    (consecutive : Consecutive start records) :
    decodeRecords (encodeAll records) start = .ok records := by
  have bytes : encodeAll records = (records.map Record.payload).flatMap frameOf := by
    rw [encodeAll, List.flatMap_map]
    rfl
  have fits : ∀ payload ∈ records.map Record.payload, payload.length < 2 ^ 32 := by
    intro payload mem
    obtain ⟨record, -, rfl⟩ := List.mem_map.mp mem
    simpa using record.payload_fits
  have walk : decodePayloads (records.map Record.payload) start = .ok records := by
    clear bytes fits
    induction records generalizing start with
    | nil => rfl
    | cons record records ih =>
        obtain ⟨atStart, rest⟩ := consecutive
        have next : start + (record.payload.length + frameHeaderBytes) = record.endLsn := by
          simp only [Record.payload_length, Record.endLsn, Record.frameLen, atStart]
          omega
        have decoded := decodeRecordPayload_payload record
        -- a record that follows begins below the end of the address space
        have wrapped : decodePayloads (records.map Record.payload) (record.endLsn % 2 ^ 64) =
            .ok records := by
          cases records with
          | nil => rfl
          | cons later records =>
              have below := later.lsn_lt
              rw [rest.1] at below
              rw [Nat.mod_eq_of_lt below]
              exact ih rest
        simp only [List.map_cons, decodePayloads, decoded, bind, Except.bind, next, wrapped]
        simp [atStart, pure, Except.pure]
  simp only [decodeRecords, bytes, scanFrameBytes_frames _ fits, walk]

/-- Hard cap on one wire message. -/
def maxMessageBytes : Nat := 256 <<< 20

/-- Marker the acceptor embeds in its wrong-tail-id greeting refusal and the proposer
matches. -/
def wrongClusterMark : String := "wrong cluster"

/-- What a voter reports beside its decision. -/
structure VoteResponse where
  term : Nat
  granted : Bool
  flushLsn : Nat
  lastLogTerm : Nat
  /-- Already truncated to `flushLsn` by the acceptor. -/
  termHistory : TermHistory
  horizonLsn : Nat
  commitLsn : Nat

/-- An append batch: the records of `[beginLsn, endLsn)`. The wire carries their
concatenated frames, which the acceptor decodes strictly before it writes. -/
structure AppendRequest where
  term : Nat
  beginLsn : Nat
  endLsn : Nat
  commitLsn : Nat
  horizonLsn : Nat
  records : List Record

/-- One protocol message, either direction. -/
inductive Message where
  | greeting (tailId : Option String)
  | greetingResp (tailId : Option String) (term flushLsn : Nat)
  | voteRequest (term : Nat)
  | voteResponse (response : VoteResponse)
  | elected (term startLsn : Nat) (termHistory : TermHistory)
  | electedResp (term : Nat) (ok : Bool)
  | append (request : AppendRequest)
  | appendResp (term : Nat) (ok : Bool) (flushLsn commitLsn : Nat)
  | read (fromLsn toLsn : Nat)
  | readResp (fromLsn : Nat) (records : List UInt8)
  | error (message : String)

end Icegres.Quorum
