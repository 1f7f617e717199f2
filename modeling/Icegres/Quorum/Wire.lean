import Icegres.Quorum.Codec

/-!
# Messages on the wire

A message is a frame around a JSON header and a binary payload. The header is written compactly
with its keys in order; what matters to the senders of records is how long it can get.
-/

namespace Icegres.Quorum

open Icegres.Segment

/-- A JSON value as the headers use them. -/
inductive Json where
  | null
  | bool (value : Bool)
  | num (value : Nat)
  | str (value : String)
  | arr (items : List Json)
  | obj (fields : List (String × Json))

/-- The UTF-8 bytes of a text. -/
def utf8 (text : String) : List UInt8 :=
  text.toByteArray.data.toList

/-- The lower-case hexadecimal digit. -/
def hexDigit (digit : Nat) : UInt8 :=
  UInt8.ofNat (if digit < 10 then 48 + digit else 87 + digit)

/-- One byte of a quoted string. -/
def escapeByte (byte : UInt8) : List UInt8 :=
  if byte = 0x22 then utf8 "\\\""
  else if byte = 0x5C then utf8 "\\\\"
  else if byte = 0x08 then utf8 "\\b"
  else if byte = 0x09 then utf8 "\\t"
  else if byte = 0x0A then utf8 "\\n"
  else if byte = 0x0C then utf8 "\\f"
  else if byte = 0x0D then utf8 "\\r"
  else if byte < 0x20 then utf8 "\\u00" ++ [hexDigit (byte.toNat / 16), hexDigit (byte.toNat % 16)]
  else [byte]

def quoted (text : String) : List UInt8 :=
  utf8 "\"" ++ (utf8 text).flatMap escapeByte ++ utf8 "\""

/-- The decimal digits of a number. -/
def decimal (value : Nat) : List UInt8 :=
  (Nat.toDigits 10 value).map fun digit => UInt8.ofNat digit.toNat

mutual

/-- The compact text of a value. -/
def Json.render : Json → List UInt8
  | .null => utf8 "null"
  | .bool value => utf8 (if value then "true" else "false")
  | .num value => decimal value
  | .str value => quoted value
  | .arr items => utf8 "[" ++ renderItems items ++ utf8 "]"
  | .obj fields => utf8 "\x7b" ++ renderFields fields ++ utf8 "\x7d"

def renderItems : List Json → List UInt8
  | [] => []
  | [item] => item.render
  | item :: rest => item.render ++ utf8 "," ++ renderItems rest

def renderFields : List (String × Json) → List UInt8
  | [] => []
  | [(key, value)] => quoted key ++ utf8 ":" ++ value.render
  | (key, value) :: rest => quoted key ++ utf8 ":" ++ value.render ++ utf8 "," ++ renderFields rest

end

def optionJson : Option String → Json
  | some text => .str text
  | none => .null

/-- One term switch as it crosses the wire. -/
structure WireTermLsn where
  term : UInt64
  lsn : UInt64
  deriving DecidableEq

/-- One protocol message with the widths of its fields: positions and terms are `u64`s, record
streams are raw bytes. -/
inductive WireMessage where
  | greeting (tailId : Option String)
  | greetingResp (tailId : Option String) (term flushLsn : UInt64)
  | voteRequest (term : UInt64)
  | voteResponse (term : UInt64) (granted : Bool) (flushLsn lastLogTerm : UInt64)
      (termHistory : List WireTermLsn) (horizonLsn commitLsn : UInt64)
  | elected (term startLsn : UInt64) (termHistory : List WireTermLsn)
  | electedResp (term : UInt64) (ok : Bool)
  | append (term beginLsn endLsn commitLsn horizonLsn : UInt64) (records : List UInt8)
  | appendResp (term : UInt64) (ok : Bool) (flushLsn commitLsn : UInt64)
  | read (fromLsn toLsn : UInt64)
  | readResp (fromLsn : UInt64) (records : List UInt8)
  | error (message : String)
  deriving DecidableEq

/-- A term history as pairs of term and LSN. -/
def WireTermLsn.historyToJson (history : List WireTermLsn) : Json :=
  .arr (history.map fun entry => .arr [.num entry.term.toNat, .num entry.lsn.toNat])

namespace WireMessage

/-- The header and the binary payload of a message. -/
def headerAndPayload : WireMessage → Json × List UInt8
  | .greeting tailId =>
      (.obj [("tail_id", optionJson tailId), ("type", .str "greeting")], [])
  | .greetingResp tailId term flushLsn =>
      (.obj [("flush_lsn", .num flushLsn.toNat), ("tail_id", optionJson tailId),
        ("term", .num term.toNat), ("type", .str "greeting_resp")], [])
  | .voteRequest term => (.obj [("term", .num term.toNat), ("type", .str "vote_req")], [])
  | .voteResponse term granted flushLsn lastLogTerm termHistory horizonLsn commitLsn =>
      (.obj [("commit_lsn", .num commitLsn.toNat), ("flush_lsn", .num flushLsn.toNat),
        ("granted", .bool granted), ("horizon_lsn", .num horizonLsn.toNat),
        ("last_log_term", .num lastLogTerm.toNat), ("term", .num term.toNat),
        ("term_history", WireTermLsn.historyToJson termHistory), ("type", .str "vote_resp")], [])
  | .elected term startLsn termHistory =>
      (.obj [("start_lsn", .num startLsn.toNat), ("term", .num term.toNat),
        ("term_history", WireTermLsn.historyToJson termHistory), ("type", .str "elected")], [])
  | .electedResp term ok =>
      (.obj [("ok", .bool ok), ("term", .num term.toNat), ("type", .str "elected_resp")], [])
  | .append term beginLsn endLsn commitLsn horizonLsn records =>
      (.obj [("begin_lsn", .num beginLsn.toNat), ("commit_lsn", .num commitLsn.toNat),
        ("end_lsn", .num endLsn.toNat), ("horizon_lsn", .num horizonLsn.toNat),
        ("term", .num term.toNat), ("type", .str "append")], records)
  | .appendResp term ok flushLsn commitLsn =>
      (.obj [("commit_lsn", .num commitLsn.toNat), ("flush_lsn", .num flushLsn.toNat),
        ("ok", .bool ok), ("term", .num term.toNat), ("type", .str "append_resp")], [])
  | .read fromLsn toLsn =>
      (.obj [("from_lsn", .num fromLsn.toNat), ("to_lsn", .num toLsn.toNat),
        ("type", .str "read")], [])
  | .readResp fromLsn records =>
      (.obj [("from_lsn", .num fromLsn.toNat), ("type", .str "read_resp")], records)
  | .error message => (.obj [("message", .str message), ("type", .str "error")], [])

def header (message : WireMessage) : Json :=
  message.headerAndPayload.1

def payload (message : WireMessage) : List UInt8 :=
  message.headerAndPayload.2

/-- What the frame is put around: the header behind its length, then the payload. -/
def body (message : WireMessage) : List UInt8 :=
  leBytes 4 message.header.render.length ++ message.header.render ++ message.payload

/-- The full on-wire bytes: a frame around the body, under the message cap. -/
def encode (message : WireMessage) : Except String (List UInt8) :=
  let restLen := 4 + message.header.render.length + message.payload.length
  if restLen > maxMessageBytes then
    .error s!"quorum message of {restLen} bytes exceeds the {maxMessageBytes}-byte cap; split the statement into smaller inserts"
  else
    .ok (frameOf message.body)

theorem body_length (message : WireMessage) :
    message.body.length = 4 + message.header.render.length + message.payload.length := by
  simp [body, Nat.add_assoc]

/-- A message is encodable as long as header and payload are within the cap. -/
theorem encode_isOk_iff (message : WireMessage) :
    message.encode.isOk = true ↔
      4 + message.header.render.length + message.payload.length ≤ maxMessageBytes := by
  unfold encode
  dsimp only
  split
  · next tooLong =>
    constructor
    · intro isOk
      cases isOk
    · omega
  · next within =>
    constructor
    · intro _
      omega
    · intro _
      rfl

end WireMessage

namespace Message

/-- A message of the consensus state machines as it crosses the wire. -/
def wire : Message → WireMessage
  | .greeting tailId => .greeting tailId
  | .greetingResp tailId term flushLsn => .greetingResp tailId (.ofNat term) (.ofNat flushLsn)
  | .voteRequest term => .voteRequest (.ofNat term)
  | .voteResponse response =>
      .voteResponse (.ofNat response.term) response.granted (.ofNat response.flushLsn)
        (.ofNat response.lastLogTerm) (switches response.termHistory)
        (.ofNat response.horizonLsn) (.ofNat response.commitLsn)
  | .elected term startLsn termHistory =>
      .elected (.ofNat term) (.ofNat startLsn) (switches termHistory)
  | .electedResp term ok => .electedResp (.ofNat term) ok
  | .append request =>
      .append (.ofNat request.term) (.ofNat request.beginLsn) (.ofNat request.endLsn)
        (.ofNat request.commitLsn) (.ofNat request.horizonLsn) (encodeAll request.records)
  | .appendResp term ok flushLsn commitLsn =>
      .appendResp (.ofNat term) ok (.ofNat flushLsn) (.ofNat commitLsn)
  | .read fromLsn toLsn => .read (.ofNat fromLsn) (.ofNat toLsn)
  | .readResp fromLsn records => .readResp (.ofNat fromLsn) records
  | .error message => .error message
where
  switches (history : TermHistory) : List WireTermLsn :=
    history.map fun entry => ⟨.ofNat entry.term, .ofNat entry.lsn⟩

/-- The full on-wire bytes of a message. -/
def encode (message : Message) : Except String (List UInt8) :=
  message.wire.encode

end Message

/-- A `u64` has at most twenty digits. -/
theorem decimal_length_le (value : UInt64) : (decimal value.toNat).length ≤ 20 := by
  have fits := value.toNat_lt
  rw [decimal, List.length_map, Nat.length_toDigits_le_iff (by decide) (by decide)]
  omega

/-- The positions of an append are `u64`s. -/
structure AppendRequest.Fits (request : AppendRequest) : Prop where
  term : request.term < 2 ^ 64
  beginLsn : request.beginLsn < 2 ^ 64
  endLsn : request.endLsn < 2 ^ 64
  commitLsn : request.commitLsn < 2 ^ 64
  horizonLsn : request.horizonLsn < 2 ^ 64

/-- The header of an append is far below the headroom left for it. -/
theorem AppendRequest.header_length_le (request : AppendRequest) :
    (Message.append request).wire.header.render.length ≤ 200 := by
  have begins := decimal_length_le (.ofNat request.beginLsn)
  have commits := decimal_length_le (.ofNat request.commitLsn)
  have ends := decimal_length_le (.ofNat request.endLsn)
  have horizon := decimal_length_le (.ofNat request.horizonLsn)
  have term := decimal_length_le (.ofNat request.term)
  have key (name : String) (size : Nat) (isSize : (quoted name).length = size) :
      (quoted name).length = size := isSize
  simp only [WireMessage.header, Message.wire, WireMessage.headerAndPayload, Json.render,
    renderFields, List.length_append,
    key "begin_lsn" 11 (by decide), key "commit_lsn" 12 (by decide), key "end_lsn" 9 (by decide),
    key "horizon_lsn" 13 (by decide), key "term" 6 (by decide), key "type" 6 (by decide),
    key "append" 8 (by decide), show (utf8 "\x7b").length = 1 by decide,
    show (utf8 "\x7d").length = 1 by decide, show (utf8 ":").length = 1 by decide,
    show (utf8 ",").length = 1 by decide]
  omega

/-- The header of a chunk of the log. -/
theorem readResp_header_length_le (fromLsn : Nat) (records : List UInt8) :
    (Message.readResp fromLsn records).wire.header.render.length ≤ 100 := by
  have start := decimal_length_le (.ofNat fromLsn)
  have key (name : String) (size : Nat) (isSize : (quoted name).length = size) :
      (quoted name).length = size := isSize
  simp only [WireMessage.header, Message.wire, WireMessage.headerAndPayload, Json.render,
    renderFields, List.length_append,
    key "from_lsn" 10 (by decide), key "type" 6 (by decide), key "read_resp" 11 (by decide),
    show (utf8 "\x7b").length = 1 by decide, show (utf8 "\x7d").length = 1 by decide,
    show (utf8 ":").length = 1 by decide, show (utf8 ",").length = 1 by decide]
  omega

end Icegres.Quorum
