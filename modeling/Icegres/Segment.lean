import Mathlib.Algebra.Ring.Nat
import Mathlib.Data.List.Basic

/-!
# Durable-log frames

Every log of the server is a byte stream of `[u32 len][u32 crc32(payload)][payload]`
frames with little-endian headers. This module has the wrap, the walker that stops at
the first torn or corrupt frame, and the one fact the rest of the development needs
about them: what was framed is what the walk returns.
-/

namespace Icegres.Segment

/-- Bytes of one frame's `[u32 len][u32 crc]` header. -/
def frameHeaderBytes : Nat := 8

/-- A byte buffer that knows its length, as a vector does. -/
structure Bytes where
  data : List UInt8
  len : Nat
  len_eq : data.length = len

namespace Bytes

/-- The buffer over an explicit list of bytes. -/
def ofList (data : List UInt8) : Bytes where
  data := data
  len := data.length
  len_eq := rfl

/-- Buffers are equal exactly when their bytes are. -/
@[ext] theorem ext {left right : Bytes} (data : left.data = right.data) : left = right := by
  cases left with
  | mk leftData leftLen leftEq =>
      cases right with
      | mk rightData rightLen rightEq =>
          simp only at data
          subst data leftEq rightEq
          rfl

instance : DecidableEq Bytes := fun left right =>
  decidable_of_iff (left.data = right.data) ⟨ext, fun equal => congrArg data equal⟩

@[simp] theorem data_length (bytes : Bytes) : bytes.data.length = bytes.len :=
  bytes.len_eq

end Bytes

/-- The low `width` bytes of a number, least significant first. -/
def leBytes : Nat → Nat → List UInt8
  | 0, _ => []
  | width + 1, value => UInt8.ofNat value :: leBytes width (value / 256)

/-- The number a little-endian byte string spells. -/
def ofLeBytes : List UInt8 → Nat
  | [] => 0
  | byte :: rest => byte.toNat + 256 * ofLeBytes rest

@[simp] theorem leBytes_length (width value : Nat) : (leBytes width value).length = width := by
  induction width generalizing value with
  | zero => rfl
  | succ width ih => simp [leBytes, ih]

/-- A number is read back as far as its width goes. -/
theorem ofLeBytes_leBytes_mod (width value : Nat) :
    ofLeBytes (leBytes width value) = value % 256 ^ width := by
  induction width generalizing value with
  | zero => rw [Nat.pow_zero, Nat.mod_one]; rfl
  | succ width ih =>
      rw [leBytes, ofLeBytes, ih, Nat.pow_succ', Nat.mod_mul, UInt8.toNat_ofNat']

/-- A number that fits its width survives the little-endian round trip. -/
theorem ofLeBytes_leBytes {width value : Nat} (fits : value < 256 ^ width) :
    ofLeBytes (leBytes width value) = value := by
  rw [ofLeBytes_leBytes_mod, Nat.mod_eq_of_lt fits]

/-- A little-endian byte string spells a number of its width. -/
theorem ofLeBytes_lt (bytes : List UInt8) : ofLeBytes bytes < 256 ^ bytes.length := by
  induction bytes with
  | nil => simp [ofLeBytes]
  | cons byte bytes ih =>
      have low := byte.toNat_lt
      simp only [ofLeBytes, List.length_cons, Nat.pow_succ]
      omega

/-- The bytes of the number a byte string spells are that string. -/
theorem leBytes_ofLeBytes (bytes : List UInt8) :
    leBytes bytes.length (ofLeBytes bytes) = bytes := by
  induction bytes with
  | nil => rfl
  | cons byte bytes ih =>
      have low := byte.toNat_lt
      have quotient : (byte.toNat + 256 * ofLeBytes bytes) / 256 = ofLeBytes bytes := by omega
      have remainder : UInt8.ofNat (byte.toNat + 256 * ofLeBytes bytes) = byte := by
        apply UInt8.toNat_inj.mp
        rw [UInt8.toNat_ofNat']
        omega
      simp only [List.length_cons, leBytes, ofLeBytes, quotient, ih, remainder]

/-- One byte step of the reflected CRC-32 register. -/
def crc32Step (register : UInt32) (byte : UInt8) : UInt32 :=
  let shift (value : UInt32) : UInt32 :=
    if value &&& 1 = 1 then (value >>> 1) ^^^ 0xEDB88320 else value >>> 1
  shift (shift (shift (shift (shift (shift (shift (shift (register ^^^ byte.toUInt32))))))))

/-- The CRC-32 checksum of a byte string. -/
def crc32 (data : List UInt8) : UInt32 :=
  data.foldl crc32Step 0xFFFFFFFF ^^^ 0xFFFFFFFF

/-- The wrap of one payload. The caller has checked that its length fits the header. -/
def frameOf (payload : List UInt8) : List UInt8 :=
  leBytes 4 payload.length ++ leBytes 4 (crc32 payload).toNat ++ payload

/-- A payload longer than the `u32` length header is refused before it is framed. -/
def checkFrameLen (len : Nat) (logKind : String) : Except String Unit :=
  if len > 2 ^ 32 - 1 then
    .error s!"{logKind} frame payload is {len} bytes, over the u32 frame-length limit (4294967295); split the statement into smaller inserts"
  else
    .ok ()

/-- Wrap `payload` in the shared frame format. -/
def frameBytes (payload : List UInt8) (logKind : String) : Except String (List UInt8) := do
  checkFrameLen payload.length logKind
  return frameOf payload

/-- Result of walking a buffer of concatenated frames. -/
structure RawFrameScan where
  /-- Each valid frame's payload, in order. -/
  payloads : List (List UInt8)
  /-- End offset of the last valid frame. -/
  goodEnd : Nat
  /-- Why the walk stopped early; `none` when the whole buffer was valid frames. -/
  bad : Option String
  deriving DecidableEq

/-- The walk from offset `off` over the bytes not yet consumed. A frame consumes at least
its header, so `fuel` above the number of remaining bytes never runs out. -/
def scanFrom : Nat → Nat → List UInt8 → RawFrameScan
  | 0, off, _ => ⟨[], off, none⟩
  | fuel + 1, off, data =>
    if data = [] then
      ⟨[], off, none⟩
    else if data.length < frameHeaderBytes then
      ⟨[], off, some s!"torn header ({data.length} trailing bytes)"⟩
    else
      let len := ofLeBytes (data.take 4)
      let crc := ofLeBytes ((data.drop 4).take 4)
      let body := data.drop frameHeaderBytes
      if body.length < len then
        ⟨[], off, some s!"torn payload (frame wants {len} bytes, {body.length} present)"⟩
      else if (crc32 (body.take len)).toNat ≠ crc then
        ⟨[], off, some "crc mismatch"⟩
      else
        let rest := scanFrom fuel (off + frameHeaderBytes + len) (body.drop len)
        ⟨body.take len :: rest.payloads, rest.goodEnd, rest.bad⟩

/-- Walk `data` as concatenated frames, stopping at the first invalid one. -/
def scanFrameBytes (data : List UInt8) : RawFrameScan :=
  scanFrom (data.length + 1) 0 data

@[simp] theorem frameOf_length (payload : List UInt8) :
    (frameOf payload).length = frameHeaderBytes + payload.length := by
  simp [frameOf, frameHeaderBytes]
  omega

private theorem crc_fits (payload : List UInt8) : (crc32 payload).toNat < 256 ^ 4 :=
  (crc32 payload).toNat_lt

/-- The header in front of a frame's payload spells its length and its checksum. -/
theorem header_frameOf (payload rest : List UInt8) (fits : payload.length < 2 ^ 32) :
    ofLeBytes ((frameOf payload ++ rest).take 4) = payload.length ∧
      ofLeBytes (((frameOf payload ++ rest).drop 4).take 4) = (crc32 payload).toNat ∧
      (frameOf payload ++ rest).drop frameHeaderBytes = payload ++ rest ∧
      ¬ (frameOf payload ++ rest).length < frameHeaderBytes := by
  have lengthBytes : (frameOf payload ++ rest).take 4 = leBytes 4 payload.length := by
    simp [frameOf]
  have crcBytes :
      ((frameOf payload ++ rest).drop 4).take 4 = leBytes 4 (crc32 payload).toNat := by
    simp [frameOf]
  refine ⟨?_, ?_, ?_, ?_⟩
  · rw [lengthBytes]
    exact ofLeBytes_leBytes (by simpa using fits)
  · rw [crcBytes]
    exact ofLeBytes_leBytes (crc_fits payload)
  · have header : (leBytes 4 payload.length ++ leBytes 4 (crc32 payload).toNat).length =
        frameHeaderBytes := by
      simp [frameHeaderBytes]
    rw [← header, frameOf, List.append_assoc, List.drop_left]
  · simp
    omega

/-- Bytes whose header spells the length and the checksum of what follows begin with a frame. -/
theorem frameOf_of_header {data : List UInt8} (header : ¬ data.length < frameHeaderBytes)
    (whole : ¬ (data.drop frameHeaderBytes).length < ofLeBytes (data.take 4))
    (sum : (crc32 ((data.drop frameHeaderBytes).take (ofLeBytes (data.take 4)))).toNat =
      ofLeBytes ((data.drop 4).take 4)) :
    frameOf ((data.drop frameHeaderBytes).take (ofLeBytes (data.take 4))) ++
        (data.drop frameHeaderBytes).drop (ofLeBytes (data.take 4)) = data ∧
      ((data.drop frameHeaderBytes).take (ofLeBytes (data.take 4))).length =
        ofLeBytes (data.take 4) ∧
      ofLeBytes (data.take 4) < 2 ^ 32 := by
  have lenBytes : (data.take 4).length = 4 := by
    simp only [frameHeaderBytes] at header
    simp only [List.length_take]
    omega
  have crcBytes : ((data.drop 4).take 4).length = 4 := by
    simp only [frameHeaderBytes] at header
    simp only [List.length_take, List.length_drop]
    omega
  have body : ((data.drop frameHeaderBytes).take (ofLeBytes (data.take 4))).length =
      ofLeBytes (data.take 4) := by
    rw [List.length_take]
    omega
  refine ⟨?_, body, ?_⟩
  · have len := leBytes_ofLeBytes (data.take 4)
    have crc := leBytes_ofLeBytes ((data.drop 4).take 4)
    rw [lenBytes] at len
    rw [crcBytes, ← sum] at crc
    rw [frameOf, body, len, crc, List.append_assoc, List.take_append_drop, List.append_assoc]
    have split : data.drop frameHeaderBytes = (data.drop 4).drop 4 := by
      rw [List.drop_drop]
      rfl
    rw [split, List.take_append_drop, List.take_append_drop]
  · have bound := ofLeBytes_lt (data.take 4)
    rw [lenBytes] at bound
    exact bound

/-- One well-formed frame in front of the remaining bytes is consumed whole. -/
theorem scanFrom_frameOf (fuel off : Nat) (payload rest : List UInt8)
    (fits : payload.length < 2 ^ 32) :
    scanFrom (fuel + 1) off (frameOf payload ++ rest) =
      let tail := scanFrom fuel (off + (frameOf payload).length) rest
      ⟨payload :: tail.payloads, tail.goodEnd, tail.bad⟩ := by
  obtain ⟨len, crc, body, long⟩ := header_frameOf payload rest fits
  have nonempty : frameOf payload ++ rest ≠ [] := by
    intro empty
    have := congrArg List.length empty
    simp [frameHeaderBytes] at this
  rw [scanFrom, if_neg nonempty, if_neg long]
  simp only [len, crc, body]
  rw [if_neg (by simp), if_neg (by simp)]
  simp [Nat.add_assoc]

/-- A walk over whole frames returns their payloads and nothing is left over. -/
theorem scanFrom_frames (payloads : List (List UInt8))
    (fits : ∀ payload ∈ payloads, payload.length < 2 ^ 32) (fuel off : Nat)
    (enough : payloads.length < fuel) :
    scanFrom fuel off (payloads.flatMap frameOf) =
      ⟨payloads, off + (payloads.flatMap frameOf).length, none⟩ := by
  induction payloads generalizing fuel off with
  | nil =>
      cases fuel with
      | zero => simp at enough
      | succ fuel => simp [scanFrom]
  | cons payload payloads ih =>
      cases fuel with
      | zero => simp at enough
      | succ fuel =>
          have headFits := fits payload (by simp)
          have tailFits : ∀ p ∈ payloads, p.length < 2 ^ 32 :=
            fun p mem => fits p (by simp [mem])
          have tail := ih tailFits fuel (off + (frameOf payload).length) (by simpa using enough)
          rw [List.flatMap_cons, scanFrom_frameOf fuel off payload _ headFits, tail]
          simp [Nat.add_assoc]

theorem length_le_flatMap_frameOf (payloads : List (List UInt8)) :
    payloads.length ≤ (payloads.flatMap frameOf).length := by
  induction payloads with
  | nil => simp
  | cons payload payloads ih =>
      simp only [List.flatMap_cons, List.length_append, List.length_cons, frameOf_length,
        frameHeaderBytes]
      omega

/-- Scanning framed payloads gives the payloads back. -/
theorem scanFrameBytes_frames (payloads : List (List UInt8))
    (fits : ∀ payload ∈ payloads, payload.length < 2 ^ 32) :
    scanFrameBytes (payloads.flatMap frameOf) =
      ⟨payloads, (payloads.flatMap frameOf).length, none⟩ := by
  have enough := length_le_flatMap_frameOf payloads
  rw [scanFrameBytes, scanFrom_frames payloads fits _ _ (by omega)]
  simp

/-- The walk takes whole frames off the front and reports whether anything is left. The
induction is on the fuel, of which one unit goes with each frame. -/
theorem scanFrom_spec (fuel off : Nat) (data : List UInt8) (enough : data.length < fuel) :
    ∃ rest, data = (scanFrom fuel off data).payloads.flatMap frameOf ++ rest ∧
      (scanFrom fuel off data).goodEnd =
        off + ((scanFrom fuel off data).payloads.flatMap frameOf).length ∧
      ((scanFrom fuel off data).bad = none ↔ rest = []) ∧
      ∀ payload ∈ (scanFrom fuel off data).payloads, payload.length < 2 ^ 32 := by
  induction fuel generalizing off data with
  | zero => omega
  | succ fuel ih =>
      rw [scanFrom]
      split
      · next none => exact ⟨[], by simp [none], rfl, by simp, by simp⟩
      · next some =>
        split
        · exact ⟨data, by simp, rfl, by simp [some], by simp⟩
        · next header =>
          dsimp only
          split
          · exact ⟨data, by simp, rfl, by simp [some], by simp⟩
          · next whole =>
            split
            · exact ⟨data, by simp, rfl, by simp [some], by simp⟩
            · next sum =>
              obtain ⟨isFrame, body, bound⟩ := frameOf_of_header header whole (not_not.mp sum)
              have shorter : ((data.drop frameHeaderBytes).drop
                  (ofLeBytes (data.take 4))).length < fuel := by
                simp only [frameHeaderBytes, List.length_drop] at *
                omega
              obtain ⟨rest, isRest, goodEnd, bad, fits⟩ :=
                ih (off + frameHeaderBytes + ofLeBytes (data.take 4)) _ shorter
              refine ⟨rest, ?_, ?_, bad, ?_⟩
              · rw [List.flatMap_cons, List.append_assoc, ← isRest]
                exact isFrame.symm
              · rw [goodEnd, List.flatMap_cons, List.length_append, frameOf_length, body]
                omega
              · intro payload mem
                rcases List.mem_cons.mp mem with rfl | later
                · rw [body]
                  exact bound
                · exact fits payload later

/-- A buffer that scans to its end is the frames of the payloads found. -/
theorem eq_of_scanFrameBytes {data : List UInt8} (whole : (scanFrameBytes data).bad = none) :
    data = (scanFrameBytes data).payloads.flatMap frameOf ∧
      ∀ payload ∈ (scanFrameBytes data).payloads, payload.length < 2 ^ 32 := by
  obtain ⟨rest, isData, -, bad, fits⟩ :=
    scanFrom_spec (data.length + 1) 0 data (Nat.lt_succ_self _)
  have none := bad.mp whole
  subst none
  rw [List.append_nil] at isData
  exact ⟨isData, fits⟩

end Icegres.Segment
