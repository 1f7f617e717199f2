import Icegres.Segment
import Icegres.FlightWeb.Protobuf

/-!
# Calls in the browser

The response of a call arrives in chunks. The client takes the messages out of them until it has
the trailers, of which it looks for the status, and makes an Arrow stream of the messages.
-/

namespace Icegres.FlightWeb

open Segment (leBytes)

/-! ## Frames -/

/-- A frame: its flags, the length of the payload in four bytes, the highest first, and the
payload. -/
def frameOf (flags : UInt8) (payload : List UInt8) : List UInt8 :=
  flags :: (leBytes 4 payload.length).reverse ++ payload

def grpcWebBody (message : List UInt8) : List UInt8 :=
  frameOf 0 message

/-- The byte at an index of the chunks. -/
def byteAt : List (List UInt8) → Nat → UInt8
  | [], _ => 0
  | c :: rest, idx => if idx < c.length then c.getD idx 0 else byteAt rest (idx - c.length)

/-- The chunks that are not read yet, and how many bytes they have. -/
structure Buffered where
  chunks : List (List UInt8)
  buffered : Nat
  counted : buffered = chunks.flatten.length

namespace Buffered

def empty : Buffered :=
  ⟨[], 0, rfl⟩

def push (body : Buffered) (value : List UInt8) : Buffered :=
  if value = [] then body
  else ⟨body.chunks ++ [value], body.buffered + value.length, by simp [body.counted]⟩

/-- The length in the frame at the front. -/
def frameLen (body : Buffered) : Nat :=
  5 + (((byteAt body.chunks 1).toUInt32 <<< 24) ||| ((byteAt body.chunks 2).toUInt32 <<< 16) |||
    ((byteAt body.chunks 3).toUInt32 <<< 8) ||| (byteAt body.chunks 4).toUInt32).toNat

/-- The chunks as one. -/
def collapsed (body : Buffered) : List UInt8 :=
  if 1 < body.chunks.length then body.chunks.flatten else body.chunks.headD []

theorem collapsed_eq (body : Buffered) : body.collapsed = body.chunks.flatten := by
  rw [collapsed]
  split
  · rfl
  · next few =>
    rcases chunks : body.chunks with _ | ⟨chunk, _ | ⟨_, _⟩⟩
    · rfl
    · simp
    · simp [chunks] at few

/-- The frame at the front, once it is whole: its flags and its payload. -/
def takeFrame (body : Buffered) : Option (UInt8 × List UInt8 × Buffered) :=
  if body.buffered < 5 ∨ body.buffered < body.frameLen then none
  else some (byteAt body.chunks 0, (body.collapsed.take body.frameLen).drop 5,
    ⟨[body.collapsed.drop body.frameLen], body.buffered - body.frameLen, by
      simp [body.counted, body.collapsed_eq]⟩)

end Buffered

/-! ## Texts -/

/-- The bytes that a character of several bytes still misses: how many, between which bounds the
next one is, and the bits of those before. -/
structure Pending where
  missing : Nat
  lower : Nat
  upper : Nat
  bits : Nat

/-- What is decoded when a byte begins a character. -/
def startChar (b : Nat) : List Char × Option Pending :=
  if b < 0x80 then ([Char.ofNat b], none)
  else if 0xc2 ≤ b ∧ b ≤ 0xdf then ([], some ⟨1, 0x80, 0xbf, b - 0xc0⟩)
  else if 0xe0 ≤ b ∧ b ≤ 0xef then
    ([], some ⟨2, if b = 0xe0 then 0xa0 else 0x80, if b = 0xed then 0x9f else 0xbf, b - 0xe0⟩)
  else if 0xf0 ≤ b ∧ b ≤ 0xf4 then
    ([], some ⟨3, if b = 0xf0 then 0x90 else 0x80, if b = 0xf4 then 0x8f else 0xbf, b - 0xf0⟩)
  else (['\ufffd'], none)

def decodeFrom : Option Pending → List UInt8 → List Char
  | none, [] => []
  | some _, [] => ['\ufffd']
  | none, b :: rest => (startChar b.toNat).1 ++ decodeFrom (startChar b.toNat).2 rest
  | some ⟨missing, lower, upper, bits⟩, b :: rest =>
    if lower ≤ b.toNat ∧ b.toNat ≤ upper then
      let bits := bits * 64 + (b.toNat - 0x80)
      if missing = 1 then Char.ofNat bits :: decodeFrom none rest
      else decodeFrom (some ⟨missing - 1, 0x80, 0xbf, bits⟩) rest
    else '\ufffd' :: (startChar b.toNat).1 ++ decodeFrom (startChar b.toNat).2 rest

/-- `TextDecoder.decode`: UTF-8 where it is none is replaced, and a byte order mark at the front is
left out. -/
def textDecode (bytes : List UInt8) : List Char :=
  match decodeFrom none bytes with
  | '\ufeff' :: text => text
  | text => text

/-- A character that `\s` stands for. -/
def isSpace (c : Char) : Bool :=
  c.val ∈ [0x9, 0xa, 0xb, 0xc, 0xd, 0x20, 0xa0, 0x1680, 0x2028, 0x2029, 0x202f, 0x205f, 0x3000,
    0xfeff] || (0x2000 ≤ c.val && c.val ≤ 0x200a)

/-- The first place of a text at which an expression matches. -/
def firstMatch {Match : Type} (here : List Char → Option Match) : List Char → Option Match
  | [] => here []
  | c :: rest => (here (c :: rest)).or (firstMatch here rest)

/-- What is behind a name and the whitespace that follows it. -/
def behind (name : String) (text : List Char) : Option (List Char) :=
  if name.toList <+: text then some ((text.drop name.toList.length).dropWhile isSpace) else none

/-- `grpc-status:\s*(\d+)` -/
def statusAt (text : List Char) : Option (List Char) :=
  (behind "grpc-status:" text).bind fun rest =>
    if rest.takeWhile Char.isDigit = [] then none else some (rest.takeWhile Char.isDigit)

/-- `grpc-message:\s*([^\r\n]*)` -/
def messageAt (text : List Char) : Option (List Char) :=
  (behind "grpc-message:" text).map fun rest =>
    rest.takeWhile fun c => c ≠ '\r' ∧ c ≠ '\n'

/-- `Number` of decimal digits. -/
def numberOf (digits : List Char) : Nat :=
  digits.foldl (fun number digit => 10 * number + (digit.toNat - '0'.toNat)) 0

def hexDigit (c : Char) : Option Nat :=
  if c.isDigit then some (c.toNat - '0'.toNat)
  else if 'a' ≤ c ∧ c ≤ 'f' then some (c.toNat - 'a'.toNat + 10)
  else if 'A' ≤ c ∧ c ≤ 'F' then some (c.toNat - 'A'.toNat + 10)
  else none

/-- The bytes of a text in which `%` and two digits stand for a byte. -/
def uriBytes : List Char → Option (List UInt8)
  | [] => some []
  | '%' :: hi :: lo :: rest =>
    (hexDigit hi).bind fun hi => (hexDigit lo).bind fun lo =>
      (uriBytes rest).map (UInt8.ofNat (16 * hi + lo) :: ·)
  | '%' :: _ => none
  | c :: rest => (uriBytes rest).map (utf8 (String.singleton c) ++ ·)

def decodeURIComponent (text : List Char) : Option String :=
  (uriBytes text).bind fun bytes => String.fromUTF8? ⟨bytes.toArray⟩

/-! ## Calls -/

/-- How a call ends: it returns, or it throws. -/
inductive Outcome where
  | ended
  | flightError (status : Nat) (message : String)
  | uriError
  | truncated
  | unreadable (why : String)
  deriving DecidableEq

/-- What the client makes of the payload of the trailers. -/
def readTrailers (payload : List UInt8) : Outcome :=
  let trailers := textDecode payload
  let status := ((firstMatch statusAt trailers).map numberOf).getD 0
  if status ≠ 0 then
    match decodeURIComponent ((firstMatch messageAt trailers).getD []) with
    | some message => .flightError status message
    | none => .uriError
  else
    .ended

def isTrailers (flags : UInt8) : Bool :=
  flags &&& 0x80 ≠ 0

/-- The loop over the frames that are whole: the messages, and what is left or how the call ends.
Every frame takes five bytes, so as many rounds as there are bytes are enough. -/
def drainFrames : Nat → Buffered → List (List UInt8) × Except Outcome Buffered
  | 0, body => ([], .ok body)
  | rounds + 1, body =>
    match body.takeFrame with
    | none => ([], .ok body)
    | some (flags, payload, rest) =>
      if isTrailers flags then ([], .error (readTrailers payload))
      else (payload :: (drainFrames rounds rest).1, (drainFrames rounds rest).2)

/-- The loop over the chunks. After the last one the call ends without trailers. -/
def callFrom : Buffered → List (List UInt8) → List (List UInt8) × Outcome
  | body, [] =>
    match drainFrames body.buffered body with
    | (messages, .error outcome) => (messages, outcome)
    | (messages, .ok _) => (messages, .truncated)
  | body, value :: chunks =>
    match drainFrames (body.push value).buffered (body.push value) with
    | (messages, .error outcome) => (messages, outcome)
    | (messages, .ok rest) =>
      (messages ++ (callFrom rest chunks).1, (callFrom rest chunks).2)

/-- The messages that a call yields for the chunks of a response, and how it ends. -/
def call (chunks : List (List UInt8)) : List (List UInt8) × Outcome :=
  callFrom .empty chunks

/-! ## Arrow streams -/

/-- The marker in front of every message of a stream. -/
def continuation : List UInt8 :=
  leBytes 4 0xffffffff

def flightDataToIpc (data : FlightData) : List UInt8 :=
  if data.dataHeader.length = 0 then []
  else
    let headLen := data.dataHeader.length
    let pad := (8 - (headLen + 8) % 8) % 8
    continuation ++ leBytes 4 (headLen + pad) ++ data.dataHeader ++ List.replicate pad 0 ++
      data.dataBody

def ipcEos : List UInt8 :=
  continuation ++ leBytes 4 0

/-- The chunks for the messages of a call. Rounds that are too few for a message are told by
`none`. -/
def ipcFrom (fuel : Nat) : List (List UInt8) → Outcome → Option (List (List UInt8) × Outcome)
  | [], .ended => some ([ipcEos], .ended)
  | [], outcome => some ([], outcome)
  | message :: later, outcome =>
    match decodeFlightData fuel message with
    | none => none
    | some (.error why) => some ([], .unreadable why)
    | some (.ok data) =>
      (ipcFrom fuel later outcome).map fun (chunks, outcome) =>
        (flightDataToIpc data :: chunks, outcome)

def ipcChunks (fuel : Nat) (chunks : List (List UInt8)) :
    Option (List (List UInt8) × Outcome) :=
  ipcFrom fuel (call chunks).1 (call chunks).2

end Icegres.FlightWeb
