import Icegres.Quorum.Proto

/-!
# The record codec

A record stream is three nested layers of length-prefixed bytes: frames, record headers and
table keys. The strict decoder accepts exactly the streams the encoder writes.
-/

namespace Icegres.Quorum

open Icegres.Segment

/-- Each record lies at its byte position, counted as a `u64`. -/
def Contiguous (pos : Nat) : List Record → Prop
  | [] => True
  | record :: rest => record.lsn = pos ∧ Contiguous (record.endLsn % 2 ^ 64) rest

theorem RecordKind.toByte_of_ofByte {byte : UInt8} {kind : RecordKind}
    (decoded : RecordKind.ofByte byte = .ok kind) : kind.toByte = byte := by
  unfold RecordKind.ofByte at decoded
  split at decoded
  · next isFrame =>
    cases decoded
    exact isFrame.symm
  · split at decoded
    · next isWatermark =>
      cases decoded
      exact isWatermark.symm
    · cases decoded

/-- What UTF-8 text was read from is its bytes. -/
theorem toByteArray_of_fromUTF8 {bytes : ByteArray} {text : String}
    (decoded : String.fromUTF8? bytes = some text) : text.toByteArray = bytes := by
  unfold String.fromUTF8? at decoded
  split at decoded
  · cases decoded
    rfl
  · cases decoded

/-- A payload that decodes is the payload of the record. -/
theorem payload_of_decodeRecordPayload {bytes : List UInt8} {record : Record}
    (decoded : decodeRecordPayload bytes = .ok record) : record.payload = bytes := by
  unfold decodeRecordPayload at decoded
  split at decoded
  · cases decoded
  · next header =>
    dsimp only at decoded
    split at decoded
    · cases decoded
    · next kind isKind =>
      split at decoded
      · cases decoded
      · next untorn =>
        split at decoded
        · cases decoded
        · next tableKey isKey =>
          split at decoded
          · cases decoded
            have key := toByteArray_of_fromUTF8 isKey
            have keyBytes : tableKey.toByteArray.data.toList =
                (bytes.drop 13).take (ofLeBytes ((bytes.drop 9).take 4)) := by
              rw [key]
              simp
            have keyLen : tableKey.utf8ByteSize = ofLeBytes ((bytes.drop 9).take 4) := by
              have size := congrArg List.length keyBytes
              rw [List.length_take, List.length_drop] at size
              have same : tableKey.toByteArray.data.toList.length = tableKey.utf8ByteSize := rfl
              rw [same] at size
              omega
            -- each field is read from where the encoder writes it
            have lsn : leBytes 8 (ofLeBytes (bytes.take 8)) = bytes.take 8 := by
              have whole := leBytes_ofLeBytes (bytes.take 8)
              rwa [List.length_take, Nat.min_eq_left (by omega)] at whole
            have len : leBytes 4 tableKey.utf8ByteSize = (bytes.drop 9).take 4 := by
              have whole := leBytes_ofLeBytes ((bytes.drop 9).take 4)
              rw [List.length_take, List.length_drop, Nat.min_eq_left (by omega)] at whole
              rw [keyLen, whole]
            have seq : leBytes 8 (ofLeBytes ((bytes.drop
                (13 + ofLeBytes ((bytes.drop 9).take 4))).take 8)) =
                (bytes.drop (13 + ofLeBytes ((bytes.drop 9).take 4))).take 8 := by
              have whole := leBytes_ofLeBytes
                ((bytes.drop (13 + ofLeBytes ((bytes.drop 9).take 4))).take 8)
              rwa [List.length_take, List.length_drop, Nat.min_eq_left (by omega)] at whole
            have kindByte : kind.toByte :: bytes.drop 9 = bytes.drop 8 := by
              rw [RecordKind.toByte_of_ofByte isKind]
              obtain ⟨first, rest, shape⟩ : ∃ first rest, bytes.drop 8 = first :: rest := by
                apply List.exists_cons_of_ne_nil
                rw [Ne, List.drop_eq_nil_iff]
                omega
              have next : bytes.drop 9 = rest := by
                rw [show 9 = 8 + 1 from rfl, ← List.drop_drop, shape]
                rfl
              rw [shape, next]
              rfl
            have joined (start count : Nat) : (bytes.drop start).take count ++
                bytes.drop (start + count) = bytes.drop start := by
              rw [← List.drop_drop, List.take_append_drop]
            simp only [Record.payload, Bytes.ofList, lsn, len, seq, keyBytes]
            rw [joined, joined 13, joined 9 4, kindByte, List.take_append_drop]
          · cases decoded

/-- The walk over payloads succeeds on the payloads of contiguous records. -/
theorem decodePayloads_eq_ok_iff {payloads : List (List UInt8)} {pos : Nat}
    {records : List Record} : decodePayloads payloads pos = .ok records ↔
      records.map Record.payload = payloads ∧ Contiguous pos records := by
  induction payloads generalizing pos records with
  | nil =>
      rw [decodePayloads, List.map_eq_nil_iff]
      constructor
      · intro decoded
        cases decoded
        exact ⟨rfl, trivial⟩
      · rintro ⟨rfl, -⟩
        rfl
  | cons payload payloads ih =>
      constructor
      · intro decoded
        simp only [decodePayloads, bind, Except.bind] at decoded
        split at decoded
        · cases decoded
        · next record isRecord =>
          split at decoded
          · cases decoded
          · next isLsn =>
            split at decoded
            · cases decoded
            · next rest isRest =>
              cases decoded
              have own := payload_of_decodeRecordPayload isRecord
              obtain ⟨later, contiguous⟩ := ih.mp isRest
              refine ⟨by rw [List.map_cons, own, later], not_not.mp isLsn, ?_⟩
              have next : pos + (payload.length + frameHeaderBytes) = record.endLsn := by
                rw [← own, record.payload_length, Record.endLsn, Record.frameLen,
                  not_not.mp isLsn]
                omega
              rwa [next] at contiguous
      · rintro ⟨same, contiguous⟩
        obtain ⟨record, rest, rfl, own, later⟩ := List.map_eq_cons_iff.mp same
        obtain ⟨rfl, contiguous⟩ := contiguous
        have next : record.lsn + (payload.length + frameHeaderBytes) = record.endLsn := by
          rw [← own, record.payload_length, Record.endLsn, Record.frameLen]
          omega
        have decoded := decodeRecordPayload_payload record
        rw [own] at decoded
        have tail := ih.mpr ⟨later, contiguous⟩
        simp only [decodePayloads, decoded, bind, Except.bind, next, tail]
        simp [pure, Except.pure]

/-- The strict decoder succeeds exactly on the concatenated encodings of contiguous records,
and returns them. -/
theorem decodeRecords_eq_ok_iff (bytes : List UInt8) (start : Nat) (records : List Record) :
    decodeRecords bytes start = .ok records ↔
      encodeAll records = bytes ∧ Contiguous start records := by
  have frames (records : List Record) :
      encodeAll records = (records.map Record.payload).flatMap frameOf := by
    rw [encodeAll, List.flatMap_map]
    rfl
  constructor
  · intro decoded
    simp only [decodeRecords] at decoded
    split at decoded
    · cases decoded
    · next whole =>
      obtain ⟨same, contiguous⟩ := decodePayloads_eq_ok_iff.mp decoded
      refine ⟨?_, contiguous⟩
      rw [frames, same]
      exact (eq_of_scanFrameBytes whole).1.symm
  · rintro ⟨rfl, contiguous⟩
    have fits : ∀ payload ∈ records.map Record.payload, payload.length < 2 ^ 32 := by
      intro payload mem
      obtain ⟨record, -, rfl⟩ := List.mem_map.mp mem
      rw [record.payload_length]
      exact record.payload_fits
    simp only [decodeRecords, frames, scanFrameBytes_frames _ fits]
    exact decodePayloads_eq_ok_iff.mpr ⟨rfl, contiguous⟩

end Icegres.Quorum
