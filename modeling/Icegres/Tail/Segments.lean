import Icegres.Segment
import Icegres.Whitespace

/-!
# Tail segments

A segment of the local tail is a file of frames, each with a sequence and one statement. Reading
it back stops at the first frame that is torn or corrupt and cuts the file there; a poison marker
beside the file bounds what is read of it.
-/

namespace Icegres.Tail

open Segment (frameHeaderBytes frameOf ofLeBytes leBytes crc32)

/-- What one acknowledged statement did. -/
inductive TailOpKind where
  | append
  | upsert
  | delete
  deriving DecidableEq

def TailOpKind.toByte : TailOpKind → UInt8
  | .append => 0
  | .upsert => 1
  | .delete => 2

def TailOpKind.fromByte (byte : UInt8) : Except String TailOpKind :=
  if byte = 0 then .ok .append
  else if byte = 1 then .ok .upsert
  else if byte = 2 then .ok .delete
  else .error s!"unknown tail op discriminator {byte.toNat}"

/-- Version byte every payload starts with. -/
def tailPayloadFormat : UInt8 := 2

/-- One statement with its rows. -/
structure TailOp (Batches : Type) where
  kind : TailOpKind
  batches : Batches
  deriving DecidableEq

/-- Why a payload is not decoded. -/
inductive DecodeError where
  /-- Another version wrote it: the scan stops with an error. -/
  | format (found : UInt8)
  /-- It is taken for a torn frame. -/
  | corrupt (why : String)

/-- The text of a foreign format byte. -/
def formatErrorText (found : UInt8) : String :=
  s!"tail payload has format version byte {found.toNat} (expected {tailPayloadFormat.toNat}); this tail was written by an incompatible icegres version (the pre-v2 layout has no version byte at all). Recover the frames with the version that wrote them, or delete the tail dir/schema to acknowledge losing them"

section Decode

variable {Batches : Type} (decodeIpc : List UInt8 → Except String Batches)

/-- Reading the rows is the Arrow library's. -/
def decodeOpPayload : List UInt8 → Except DecodeError (TailOp Batches)
  | [] => .error (.corrupt "tail payload is empty")
  | version :: rest =>
    if version ≠ tailPayloadFormat then
      .error (.format version)
    else
      match rest with
      | [] => .error (.corrupt "tail payload is missing its op byte")
      | op :: ipc =>
        match TailOpKind.fromByte op with
        | .error why => .error (.corrupt why)
        | .ok kind =>
          match decodeIpc ipc with
          | .error why => .error (.corrupt why)
          | .ok batches => .ok ⟨kind, batches⟩

/-- A sequence and its statement. -/
abbrev SeqOp (Batches : Type) := Nat × TailOp Batches

def decodePayload (payload : List UInt8) : Except DecodeError (SeqOp Batches) :=
  if payload.length < 8 then
    .error (.corrupt "payload shorter than its sequence header")
  else
    (decodeOpPayload decodeIpc (payload.drop 8)).map fun op => (ofLeBytes (payload.take 8), op)

/-- The frames of a segment, the end of the last one and why the walk stopped before the end. -/
structure FrameWalk (Batches : Type) where
  frames : List (SeqOp Batches)
  goodEnd : Nat
  bad : Option String

/-- The walk from offset `off` over the bytes left. A frame takes at least its header, so `fuel`
above their number does not run out. -/
def walkFrom : Nat → Nat → List UInt8 → Except String (FrameWalk Batches)
  | 0, off, _ => .ok ⟨[], off, none⟩
  | fuel + 1, off, data =>
    if data = [] then
      .ok ⟨[], off, none⟩
    else if data.length < frameHeaderBytes then
      .ok ⟨[], off, some s!"torn header ({data.length} trailing bytes)"⟩
    else
      let len := ofLeBytes (data.take 4)
      let crc := ofLeBytes ((data.drop 4).take 4)
      let body := data.drop frameHeaderBytes
      if body.length < len then
        .ok ⟨[], off, some s!"torn payload (frame wants {len} bytes, {body.length} present)"⟩
      else if (crc32 (body.take len)).toNat ≠ crc then
        .ok ⟨[], off, some "crc mismatch"⟩
      else
        match decodePayload decodeIpc (body.take len) with
        | .error (.format found) => .error (formatErrorText found)
        | .error (.corrupt why) => .ok ⟨[], off, some why⟩
        | .ok frame =>
          (walkFrom fuel (off + frameHeaderBytes + len) (body.drop len)).map fun later =>
            ⟨frame :: later.frames, later.goodEnd, later.bad⟩

/-- Walk the bytes of a segment as frames. -/
def walk (data : List UInt8) : Except String (FrameWalk Batches) :=
  walkFrom decodeIpc (data.length + 1) 0 data

/-! ## What a walk reads -/

/-- The frame of a payload that decodes is read. -/
theorem walkFrom_frameOf (fuel off : Nat) {payload : List UInt8} (rest : List UInt8)
    (fits : payload.length < 2 ^ 32) {frame : SeqOp Batches}
    (decodes : decodePayload decodeIpc payload = .ok frame) :
    walkFrom decodeIpc (fuel + 1) off (frameOf payload ++ rest) =
      (walkFrom decodeIpc fuel (off + (frameOf payload).length) rest).map fun later =>
        ⟨frame :: later.frames, later.goodEnd, later.bad⟩ := by
  obtain ⟨lengthBytes, crcBytes, body, long⟩ := Segment.header_frameOf payload rest fits
  have nonempty : frameOf payload ++ rest ≠ [] := by
    intro empty
    rw [empty] at long
    exact long (by decide)
  rw [walkFrom, if_neg nonempty, if_neg long]
  simp only [lengthBytes, crcBytes, body]
  rw [if_neg (by simp), if_neg (by simp)]
  simp only [List.take_left, List.drop_left, decodes]
  rw [Segment.frameOf_length, Nat.add_assoc]

/-- The payload fits a frame and decodes to this one. -/
def Decodes (payload : List UInt8) (frame : SeqOp Batches) : Prop :=
  payload.length < 2 ^ 32 ∧ decodePayload decodeIpc payload = .ok frame

variable {decodeIpc}

/-- A walk over whole frames reads them to the end. -/
theorem walkFrom_frames {payloads : List (List UInt8)} {frames : List (SeqOp Batches)}
    (decodes : List.Forall₂ (Decodes decodeIpc) payloads frames) (fuel off : Nat)
    (enough : payloads.length < fuel) :
    walkFrom decodeIpc fuel off (payloads.flatMap frameOf) =
      .ok ⟨frames, off + (payloads.flatMap frameOf).length, none⟩ := by
  induction decodes generalizing fuel off with
  | nil =>
      cases fuel with
      | zero => rfl
      | succ fuel => rfl
  | @cons payload frame payloads frames first rest ih =>
      cases fuel with
      | zero => exact absurd enough (Nat.not_lt_zero _)
      | succ fuel =>
          rw [List.flatMap_cons, walkFrom_frameOf decodeIpc fuel off _ first.1 first.2,
            ih fuel _ (Nat.lt_of_succ_lt_succ enough), List.length_append, ← Nat.add_assoc]
          rfl

/-- A walk takes whole frames off the front and tells whether anything is left. The induction is
on the fuel, of which one unit goes with each frame. -/
theorem walkFrom_spec {fuel off : Nat} {data : List UInt8} (enough : data.length < fuel)
    {found : FrameWalk Batches} (walks : walkFrom decodeIpc fuel off data = .ok found) :
    ∃ payloads rest, data = payloads.flatMap frameOf ++ rest ∧
      List.Forall₂ (Decodes decodeIpc) payloads found.frames ∧
      found.goodEnd = off + (payloads.flatMap frameOf).length ∧
      (found.bad = none ↔ rest = []) := by
  induction fuel generalizing off data found with
  | zero => exact absurd enough (Nat.not_lt_zero _)
  | succ fuel ih =>
      have stops {why : String} (some' : data ≠ [])
          (stopped : found = ⟨[], off, some why⟩) :
          ∃ payloads rest, data = payloads.flatMap frameOf ++ rest ∧
            List.Forall₂ (Decodes decodeIpc) payloads found.frames ∧
            found.goodEnd = off + (payloads.flatMap frameOf).length ∧
            (found.bad = none ↔ rest = []) := by
        subst stopped
        exact ⟨[], data, rfl, .nil, rfl, by simp [some']⟩
      rw [walkFrom] at walks
      split at walks
      · next none =>
          cases walks
          exact ⟨[], [], by simp [none], .nil, rfl, by simp⟩
      · next some' =>
        split at walks
        · exact stops some' (Except.ok.inj walks).symm
        · next header =>
          dsimp only at walks
          split at walks
          · exact stops some' (Except.ok.inj walks).symm
          · next whole =>
            split at walks
            · exact stops some' (Except.ok.inj walks).symm
            · next sum =>
              obtain ⟨isFrame, body, bound⟩ :=
                Segment.frameOf_of_header header whole (not_not.mp sum)
              split at walks
              · cases walks
              · exact stops some' (Except.ok.inj walks).symm
              · next frame decodes =>
                have shorter : ((data.drop frameHeaderBytes).drop
                    (ofLeBytes (data.take 4))).length < fuel := by
                  simp only [frameHeaderBytes, List.length_drop] at *
                  omega
                cases later : walkFrom decodeIpc fuel
                    (off + frameHeaderBytes + ofLeBytes (data.take 4))
                    ((data.drop frameHeaderBytes).drop (ofLeBytes (data.take 4))) with
                | error why =>
                    rw [later] at walks
                    cases walks
                | ok rest =>
                    rw [later] at walks
                    cases walks
                    obtain ⟨payloads, left, isRest, all, goodEnd, bad⟩ := ih shorter later
                    refine ⟨_ :: payloads, left, ?_, .cons ⟨body.symm ▸ bound, decodes⟩ all, ?_,
                      bad⟩
                    · rw [List.flatMap_cons, List.append_assoc, ← isRest]
                      exact isFrame.symm
                    · rw [List.flatMap_cons, List.length_append, Segment.frameOf_length, body]
                      dsimp only
                      omega

theorem walk_spec {data : List UInt8} {found : FrameWalk Batches}
    (walks : walk decodeIpc data = .ok found) :
    ∃ payloads rest, data = payloads.flatMap frameOf ++ rest ∧
      List.Forall₂ (Decodes decodeIpc) payloads found.frames ∧
      found.goodEnd = (payloads.flatMap frameOf).length ∧ (found.bad = none ↔ rest = []) := by
  obtain ⟨payloads, rest, isData, decodes, goodEnd, bad⟩ :=
    walkFrom_spec (Nat.lt_succ_self _) walks
  exact ⟨payloads, rest, isData, decodes, by rw [goodEnd, Nat.zero_add], bad⟩

theorem walk_frames {payloads : List (List UInt8)} {frames : List (SeqOp Batches)}
    (decodes : List.Forall₂ (Decodes decodeIpc) payloads frames) :
    walk decodeIpc (payloads.flatMap frameOf) =
      .ok ⟨frames, (payloads.flatMap frameOf).length, none⟩ := by
  have enough := Segment.length_le_flatMap_frameOf payloads
  rw [walk, walkFrom_frames decodes _ _ (by omega), Nat.zero_add]

/-- What a walk cut off at its last good frame is read to the end. -/
theorem walk_take {data : List UInt8} {found : FrameWalk Batches}
    (walks : walk decodeIpc data = .ok found) :
    found.goodEnd ≤ data.length ∧
      walk decodeIpc (data.take found.goodEnd) = .ok ⟨found.frames, found.goodEnd, none⟩ := by
  obtain ⟨payloads, rest, rfl, decodes, goodEnd, -⟩ := walk_spec walks
  rw [goodEnd, List.take_left, walk_frames decodes, List.length_append]
  exact ⟨Nat.le_add_right _ _, rfl⟩

end Decode

/-! ## Poison markers -/

/-- The value of a digit in the base. -/
def digitValue (base : Nat) (char : Char) : Option Nat :=
  let code := char.toNat
  let value :=
    if 48 ≤ code ∧ code ≤ 57 then code - 48
    else if 97 ≤ code ∧ code ≤ 122 then code - 87
    else if 65 ≤ code ∧ code ≤ 90 then code - 55
    else base
  if value < base then some value else none

/-- A `u64` in the base, with an optional plus sign. -/
def parseU64 (base : Nat) (text : List Char) : Option Nat :=
  let digits := match text with
    | '+' :: digits => digits
    | digits => digits
  if digits = [] then
    none
  else do
    let value ← digits.foldlM (fun value char => do
      return value * base + (← digitValue base char)) 0
    if value < 2 ^ 64 then some value else none

/-- A marker's last durable length, and where numbering resumes behind burned sequences. -/
structure PoisonMarker where
  clamp : Nat
  resumeSeq : Option Nat

/-- Garbage is no marker. -/
def readPoisonMarker (text : String) : Option PoisonMarker :=
  match splitWhitespace text.toList with
  | [] => none
  | first :: rest =>
    (parseU64 10 first).map fun clamp => ⟨clamp, rest.head?.bind (parseU64 10)⟩

end Icegres.Tail
