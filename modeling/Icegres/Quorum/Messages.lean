import Icegres.Quorum.Wire

/-!
# Reading messages back

The reader takes one frame off the stream, checks its length and checksum, and looks the
fields of the message up in the header by name. Parsing the header text is the JSON library's,
a parameter here.
-/

namespace Icegres.Quorum

open Icegres.Segment

namespace Json

/-- The value under a key. -/
def get : Json → String → Option Json
  | .obj fields, key => (fields.find? fun field => field.1 == key).map Prod.snd
  | _, _ => none

def asU64 : Json → Option UInt64
  | .num value => if value < 2 ^ 64 then some (UInt64.ofNat value) else none
  | _ => none

def asBool : Json → Option Bool
  | .bool value => some value
  | _ => none

def asStr : Json → Option String
  | .str value => some value
  | _ => none

def asArray : Json → Option (List Json)
  | .arr items => some items
  | _ => none

@[simp] theorem asU64_num (value : UInt64) : (Json.num value.toNat).asU64 = some value := by
  rw [asU64, if_pos value.toNat_lt, UInt64.ofNat_toNat]

@[simp] theorem asBool_bool (value : Bool) : (Json.bool value).asBool = some value := rfl

@[simp] theorem asStr_str (value : String) : (Json.str value).asStr = some value := rfl

@[simp] theorem asArray_arr (items : List Json) : (Json.arr items).asArray = some items := rfl

/-- An optional string reads back, absent or not. -/
@[simp] theorem asStr_optionJson (value : Option String) :
    (optionJson value).asStr = value := by
  cases value <;> rfl

end Json

namespace WireTermLsn

/-- One entry of the header's history. -/
def ofJson (entry : Json) : Except String WireTermLsn :=
  match entry.asArray with
  | some [first, second] =>
    match first.asU64 with
    | none => .error "term_history term is not a u64"
    | some term =>
      match second.asU64 with
      | none => .error "term_history lsn is not a u64"
      | some lsn => .ok { term, lsn }
  | _ => .error "term_history entry is not a [term, lsn] pair"

def historyFromJson (value : Json) : Except String (List WireTermLsn) :=
  match value.asArray with
  | none => .error "term_history is not an array"
  | some entries => entries.mapM ofJson

/-- A term history survives the header. -/
@[simp] theorem historyFromJson_historyToJson (history : List WireTermLsn) :
    historyFromJson (historyToJson history) = .ok history := by
  simp only [historyFromJson, historyToJson, Json.asArray_arr]
  induction history with
  | nil => rfl
  | cons entry history ih =>
      have own : ofJson (.arr [.num entry.term.toNat, .num entry.lsn.toNat]) = .ok entry := by
        simp only [ofJson, Json.asArray_arr, Json.asU64_num]
      rw [List.map_cons, List.mapM_cons, own, ih]
      rfl

end WireTermLsn

/-- A `u64` field of a header. -/
def ju64 (header : Json) (key : String) : Except String UInt64 :=
  match (header.get key).bind Json.asU64 with
  | some value => .ok value
  | none => .error s!"quorum message header field {key.quote} missing or not a u64"

def jbool (header : Json) (key : String) : Except String Bool :=
  match (header.get key).bind Json.asBool with
  | some value => .ok value
  | none => .error s!"quorum message header field {key.quote} missing or not a bool"

def jstrOpt (header : Json) (key : String) : Option String :=
  (header.get key).bind Json.asStr

def jhistory (header : Json) : Except String (List WireTermLsn) :=
  match header.get "term_history" with
  | some value => WireTermLsn.historyFromJson value
  | none => .error "quorum message header has no term_history"

namespace WireMessage

/-- The message a header and a payload stand for: each variant's fields are looked up by name,
in the variant's own order. -/
def ofHeader (header : Json) (payload : List UInt8) : Except String WireMessage :=
  match (header.get "type").bind Json.asStr with
  | none => .error "quorum message header has no type"
  | some "greeting" => .ok (.greeting (jstrOpt header "tail_id"))
  | some "greeting_resp" => do
      let term ← ju64 header "term"
      let flushLsn ← ju64 header "flush_lsn"
      return .greetingResp (jstrOpt header "tail_id") term flushLsn
  | some "vote_req" => do
      let term ← ju64 header "term"
      return .voteRequest term
  | some "vote_resp" => do
      let term ← ju64 header "term"
      let granted ← jbool header "granted"
      let flushLsn ← ju64 header "flush_lsn"
      let lastLogTerm ← ju64 header "last_log_term"
      let termHistory ← jhistory header
      let horizonLsn ← ju64 header "horizon_lsn"
      let commitLsn ← ju64 header "commit_lsn"
      return .voteResponse term granted flushLsn lastLogTerm termHistory horizonLsn commitLsn
  | some "elected" => do
      let term ← ju64 header "term"
      let startLsn ← ju64 header "start_lsn"
      let termHistory ← jhistory header
      return .elected term startLsn termHistory
  | some "elected_resp" => do
      let term ← ju64 header "term"
      let ok ← jbool header "ok"
      return .electedResp term ok
  | some "append" => do
      let term ← ju64 header "term"
      let beginLsn ← ju64 header "begin_lsn"
      let endLsn ← ju64 header "end_lsn"
      let commitLsn ← ju64 header "commit_lsn"
      let horizonLsn ← ju64 header "horizon_lsn"
      return .append term beginLsn endLsn commitLsn horizonLsn payload
  | some "append_resp" => do
      let term ← ju64 header "term"
      let ok ← jbool header "ok"
      let flushLsn ← ju64 header "flush_lsn"
      let commitLsn ← ju64 header "commit_lsn"
      return .appendResp term ok flushLsn commitLsn
  | some "read" => do
      let fromLsn ← ju64 header "from_lsn"
      let toLsn ← ju64 header "to_lsn"
      return .read fromLsn toLsn
  | some "read_resp" => do
      let fromLsn ← ju64 header "from_lsn"
      return .readResp fromLsn payload
  | some "error" =>
      .ok (.error (((header.get "message").bind Json.asStr).getD "(no message)"))
  | some other => .error s!"unknown quorum message type {other.quote}"

/-- The names under which a variant's fields are written are the names they are read by. -/
theorem ofHeader_header (message : WireMessage) :
    ofHeader message.header message.payload = .ok message := by
  cases message <;>
    simp [header, payload, headerAndPayload, ofHeader, Json.get, ju64, jbool, jstrOpt, jhistory,
      bind, Except.bind, pure, Except.pure]

end WireMessage

/-- The next `count` bytes of a stream, and what is left of it. -/
def readExact (count : Nat) (stream : List UInt8) : Except String (List UInt8 × List UInt8) :=
  if stream.length < count then .error "early eof"
  else .ok (stream.take count, stream.drop count)

/-- Reading exactly what was written leaves what follows it. -/
theorem readExact_append {count : Nat} {taken : List UInt8} (size : taken.length = count)
    (rest : List UInt8) : readExact count (taken ++ rest) = .ok (taken, rest) := by
  subst size
  simp [readExact]

/-- The context an error is reported under. -/
def withContext {α : Type} (context : String) : Except String α → Except String α
  | .ok value => .ok value
  | .error why => .error s!"{context}: {why}"

@[simp] theorem withContext_ok {α : Type} (context : String) (value : α) :
    withContext context (.ok value) = .ok value := rfl

section Reader

variable (fromSlice : List UInt8 → Except String Json)

/-- Decode the body of a frame whose checksum was verified. -/
def decodeRest (rest : List UInt8) : Except String WireMessage := do
  if rest.length < 4 then
    throw "quorum message shorter than its header-length field"
  let headerLen := ofLeBytes (rest.take 4)
  if rest.length - 4 < headerLen then
    throw s!"quorum message header length {headerLen} overruns the message"
  let header ← withContext "quorum message header is not valid JSON"
    (fromSlice ((rest.drop 4).take headerLen))
  WireMessage.ofHeader header (rest.drop (4 + headerLen))

/-- Read one message from a stream: its frame header, then its body, whose checksum must be the
announced one. -/
def readMessage (stream : List UInt8) : Except String (WireMessage × List UInt8) := do
  let (hdr, stream) ← withContext "quorum read failed" (readExact 8 stream)
  let len := ofLeBytes (hdr.take 4)
  let crc := ofLeBytes ((hdr.drop 4).take 4)
  if len < 4 ∨ maxMessageBytes < len then
    throw s!"implausible quorum message length {len}"
  let (rest, stream) ← withContext "quorum read failed mid-message" (readExact len stream)
  if (crc32 rest).toNat ≠ crc then
    throw "quorum message crc mismatch (torn or foreign traffic)"
  return (← decodeRest fromSlice rest, stream)

/-- Read this many messages, one after the other. -/
def readMessages : Nat → List UInt8 → Except String (List WireMessage × List UInt8)
  | 0, stream => .ok ([], stream)
  | count + 1, stream => do
      let (message, stream) ← readMessage fromSlice stream
      let (messages, stream) ← readMessages count stream
      return (message :: messages, stream)

variable {fromSlice} {message : WireMessage}

/-- The JSON library reads back the header it was given to write. -/
def ReadsHeader (fromSlice : List UInt8 → Except String Json) (message : WireMessage) : Prop :=
  fromSlice message.header.render = .ok message.header

/-- A message under the cap is one frame, and its lengths fit their fields. -/
theorem WireMessage.encode_ok {bytes : List UInt8} (encoded : message.encode = .ok bytes) :
    bytes = frameOf message.body ∧ message.body.length ≤ maxMessageBytes := by
  unfold WireMessage.encode at encoded
  dsimp only at encoded
  split at encoded
  · cases encoded
  · next within =>
    refine ⟨(Except.ok.inj encoded).symm, ?_⟩
    rw [message.body_length]
    omega

theorem WireMessage.encode_eq {message : WireMessage}
    (within : message.body.length ≤ maxMessageBytes) :
    message.encode = .ok (frameOf message.body) := by
  rw [message.body_length] at within
  exact if_neg (by omega)

/-- A body decodes to the message it was built from. -/
theorem decodeRest_body (reads : ReadsHeader fromSlice message)
    (within : message.body.length ≤ maxMessageBytes) :
    decodeRest fromSlice message.body = .ok message := by
  have cap : maxMessageBytes < 256 ^ 4 := by decide
  have size := message.body_length
  have headerLen : ofLeBytes (message.body.take 4) = message.header.render.length := by
    have fits : message.header.render.length < 256 ^ 4 := by omega
    simp [WireMessage.body, ofLeBytes_leBytes fits]
  have headerBytes : (message.body.drop 4).take message.header.render.length =
      message.header.render := by
    simp [WireMessage.body, List.append_assoc]
  have payloadBytes : message.body.drop (4 + message.header.render.length) =
      message.payload := by
    rw [← List.drop_drop]
    simp [WireMessage.body, List.append_assoc]
  have long : ¬ message.body.length < 4 := by omega
  have whole : ¬ message.body.length - 4 < message.header.render.length := by omega
  have header : fromSlice message.header.render = .ok message.header := reads
  simp only [decodeRest, if_neg long, headerLen, if_neg whole, headerBytes, header, payloadBytes,
    withContext_ok, bind, Except.bind, message.ofHeader_header]

/-- Reading an encoded message returns it and consumes its bytes and no others. -/
theorem readMessage_encode {bytes : List UInt8} (encoded : message.encode = .ok bytes)
    (reads : ReadsHeader fromSlice message) (rest : List UInt8) :
    readMessage fromSlice (bytes ++ rest) = .ok (message, rest) := by
  obtain ⟨rfl, within⟩ := WireMessage.encode_ok encoded
  have cap : maxMessageBytes < 256 ^ 4 := by decide
  have crcFits : (crc32 message.body).toNat < 256 ^ 4 := (crc32 message.body).toNat_lt
  have size := message.body_length
  let hdr := leBytes 4 message.body.length ++ leBytes 4 (crc32 message.body).toNat
  have framed : frameOf message.body ++ rest = hdr ++ (message.body ++ rest) := by
    simp [frameOf, hdr, List.append_assoc]
  have first : readExact 8 (hdr ++ (message.body ++ rest)) = .ok (hdr, message.body ++ rest) :=
    readExact_append (by simp [hdr]) _
  have lenEq : ofLeBytes (hdr.take 4) = message.body.length := by
    simp [hdr, ofLeBytes_leBytes (show message.body.length < 256 ^ 4 by omega)]
  have crcEq : ofLeBytes ((hdr.drop 4).take 4) = (crc32 message.body).toNat := by
    rw [List.drop_left' (leBytes_length 4 _), List.take_of_length_le (by simp)]
    exact ofLeBytes_leBytes crcFits
  have sensible : ¬ (message.body.length < 4 ∨ maxMessageBytes < message.body.length) := by
    omega
  have second : readExact message.body.length (message.body ++ rest) =
      .ok (message.body, rest) := readExact_append rfl _
  rw [framed]
  simp only [readMessage, first, withContext_ok, bind, Except.bind, lenEq, crcEq,
    if_neg sensible, second, ne_eq, not_true_eq_false, if_false, pure, Except.pure,
    decodeRest_body reads within]

/-- A concatenation of encoded messages reads back as the messages, whatever follows it. -/
theorem readMessages_flatten {messages : List WireMessage} {frames : List (List UInt8)}
    (encoded : messages.mapM WireMessage.encode = .ok frames)
    (reads : ∀ message ∈ messages, ReadsHeader fromSlice message) (rest : List UInt8) :
    readMessages fromSlice messages.length (frames.flatten ++ rest) = .ok (messages, rest) := by
  induction messages generalizing frames with
  | nil =>
      obtain rfl : [] = frames := by simpa [pure, Except.pure] using encoded
      rfl
  | cons message messages ih =>
      rw [List.mapM_cons] at encoded
      cases own : message.encode with
      | error why => simp [own, bind, Except.bind] at encoded
      | ok bytes =>
          cases others : messages.mapM WireMessage.encode with
          | error why => simp [own, others, bind, Except.bind] at encoded
          | ok later =>
              obtain rfl : bytes :: later = frames := by
                simpa [own, others, bind, Except.bind, pure, Except.pure] using encoded
              have readOwn := readMessage_encode own (reads message List.mem_cons_self)
                (later.flatten ++ rest)
              have readLater := ih others fun message mem =>
                reads message (List.mem_cons_of_mem _ mem)
              simp only [List.flatten_cons, List.append_assoc, List.length_cons, readMessages,
                bind, Except.bind, readOwn, readLater, pure, Except.pure]

/-- A follower's vote and an append of two record bytes. -/
def exampleVote : WireMessage :=
  .voteResponse 7 true 96 6 [⟨1, 0⟩, ⟨6, 48⟩] 0 48

def exampleAppend : WireMessage :=
  .append 7 96 98 48 0 [0x0A, 0xFF]

/-- A library that knows the headers of the two messages. -/
def exampleFromSlice (bytes : List UInt8) : Except String Json :=
  if bytes = exampleVote.header.render then .ok exampleVote.header
  else if bytes = exampleAppend.header.render then .ok exampleAppend.header
  else .error "expected value at line 1 column 1"

theorem readMessages_flatten_vote_append :
    readMessages exampleFromSlice 2
      ([frameOf exampleVote.body, frameOf exampleAppend.body].flatten ++ [0x01]) =
        .ok ([exampleVote, exampleAppend], [0x01]) := by
  have vote := WireMessage.encode_eq (show exampleVote.body.length ≤ maxMessageBytes by
    decide +kernel)
  have append := WireMessage.encode_eq (show exampleAppend.body.length ≤ maxMessageBytes by
    decide +kernel)
  have encoded : [exampleVote, exampleAppend].mapM WireMessage.encode =
      .ok [frameOf exampleVote.body, frameOf exampleAppend.body] := by
    simp [vote, append, bind, Except.bind, pure, Except.pure]
  refine readMessages_flatten encoded ?_ [0x01]
  intro message mem
  have known : message = exampleVote ∨ message = exampleAppend := by simpa using mem
  rcases known with rfl | rfl
  · exact if_pos rfl
  · exact (if_neg (by decide +kernel)).trans (if_pos rfl)

end Reader

end Icegres.Quorum
