import Mathlib.Data.List.GetD
import Icegres.Framing
import Icegres.FlightWeb.Call

/-!
# Responses in chunks

The messages and the end of a call depend on the bytes of the response, and not on the chunks they
arrive in.
-/

namespace Icegres.FlightWeb

open Segment (leBytes ofLeBytes leBytes_length ofLeBytes_leBytes ofLeBytes_lt)

/-! ## The frames of a response -/

/-- The frame at the front of the bytes that have arrived: its flags and its payload. -/
def splitFrame : List UInt8 → Option ((UInt8 × List UInt8) × List UInt8)
  | flags :: b1 :: b2 :: b3 :: b4 :: rest =>
    let len := ofLeBytes [b4, b3, b2, b1]
    if rest.length < len then none else some ((flags, rest.take len), rest.drop len)
  | _ => none

theorem splitFrame_eq_some {bytes rest : List UInt8} {flags : UInt8} {payload : List UInt8}
    (taken : splitFrame bytes = some ((flags, payload), rest)) :
    ∃ b1 b2 b3 b4, bytes = flags :: b1 :: b2 :: b3 :: b4 :: (payload ++ rest) ∧
      payload.length = ofLeBytes [b4, b3, b2, b1] := by
  unfold splitFrame at taken
  split at taken
  · next other b1 b2 b3 b4 later =>
    dsimp only at taken
    split at taken
    · cases taken
    · next whole =>
      cases taken
      refine ⟨b1, b2, b3, b4, by rw [List.take_append_drop], ?_⟩
      rw [List.length_take]
      omega
  · cases taken

theorem splitFrame_of_whole (flags b1 b2 b3 b4 : UInt8) {payload : List UInt8}
    (whole : payload.length = ofLeBytes [b4, b3, b2, b1]) (rest : List UInt8) :
    splitFrame (flags :: b1 :: b2 :: b3 :: b4 :: (payload ++ rest)) =
      some ((flags, payload), rest) := by
  rw [splitFrame, ← whole, if_neg (by rw [List.length_append]; omega), List.take_left, List.drop_left]

/-- The length of a frame in its four bytes. -/
theorem frameOf_eq {payload : List UInt8} (fits : payload.length < 2 ^ 32) (flags : UInt8) :
    ∃ b1 b2 b3 b4, frameOf flags payload = flags :: b1 :: b2 :: b3 :: b4 :: payload ∧
      payload.length = ofLeBytes [b4, b3, b2, b1] := by
  have spells := @ofLeBytes_leBytes 4 payload.length (by omega)
  have four := leBytes_length 4 payload.length
  match isBytes : leBytes 4 payload.length, four with
  | [b4, b3, b2, b1], _ =>
    rw [isBytes] at spells
    exact ⟨b1, b2, b3, b4, by rw [frameOf, isBytes]; rfl, spells.symm⟩

/-- A frame that is cut off is none yet. -/
theorem splitFrame_cut {flags : UInt8} {payload items : List UInt8}
    (fits : payload.length < 2 ^ 32) (torn : items <+: frameOf flags payload)
    (short : items ≠ frameOf flags payload) : splitFrame items = none := by
  obtain ⟨b1, b2, b3, b4, isFrame, length⟩ := frameOf_eq fits flags
  rw [isFrame] at torn short
  cases taken : splitFrame items with
  | none => rfl
  | some found =>
      obtain ⟨⟨flags', payload'⟩, rest⟩ := found
      obtain ⟨c1, c2, c3, c4, rfl, length'⟩ := splitFrame_eq_some taken
      simp only [List.cons_prefix_cons] at torn
      obtain ⟨rfl, rfl, rfl, rfl, rfl, inside⟩ := torn
      refine absurd ?_ short
      rw [inside.eq_of_length_le]
      rw [List.length_append]
      omega

def grpcWeb : Framing UInt8 (UInt8 × List UInt8) where
  split := splitFrame
  encode frame := frameOf frame.1 frame.2
  Fits frame := frame.2.length < 2 ^ 32
  shorter taken := by
    obtain ⟨b1, b2, b3, b4, rfl, -⟩ := splitFrame_eq_some taken
    simp only [List.length_cons, List.length_append]
    omega
  split_append {items frame rest} more taken := by
    obtain ⟨b1, b2, b3, b4, rfl, whole⟩ := splitFrame_eq_some taken
    have later := splitFrame_of_whole frame.1 b1 b2 b3 b4 whole (rest ++ more)
    rwa [← List.append_assoc] at later
  split_encode {frame} fits rest := by
    obtain ⟨b1, b2, b3, b4, isFrame, whole⟩ := frameOf_eq fits frame.1
    rw [isFrame]
    exact splitFrame_of_whole frame.1 b1 b2 b3 b4 whole rest
  split_cut fits _ torn short := splitFrame_cut fits torn short

/-! ## The client sees the bytes only -/

theorem byteAt_eq (chunks : List (List UInt8)) (idx : Nat) :
    byteAt chunks idx = chunks.flatten.getD idx 0 := by
  induction chunks generalizing idx with
  | nil => rfl
  | cons c rest ih =>
      rw [byteAt, List.flatten_cons]
      split
      · next inside => rw [List.getD_append _ _ _ _ inside]
      · next past => rw [ih, List.getD_append_right _ _ _ _ (by omega)]

theorem or_bytes {n1 n2 n3 n4 : Nat} (l2 : n2 < 256) (l3 : n3 < 256) (l4 : n4 < 256) :
    n1 <<< 24 ||| n2 <<< 16 ||| n3 <<< 8 ||| n4 = n4 + 256 * (n3 + 256 * (n2 + 256 * n1)) := by
  have first : n1 <<< 24 ||| n2 <<< 16 = (n1 * 256 + n2) <<< 16 := by
    rw [← Nat.shiftLeft_add_eq_or_of_lt (by rw [Nat.shiftLeft_eq]; omega)]
    simp only [Nat.shiftLeft_eq]
    omega
  have second : (n1 * 256 + n2) <<< 16 ||| n3 <<< 8 = ((n1 * 256 + n2) * 256 + n3) <<< 8 := by
    rw [← Nat.shiftLeft_add_eq_or_of_lt (by rw [Nat.shiftLeft_eq]; omega)]
    simp only [Nat.shiftLeft_eq]
    omega
  rw [first, second, ← Nat.shiftLeft_add_eq_or_of_lt (by omega), Nat.shiftLeft_eq]
  omega

/-- Four bytes as the client puts them together. -/
theorem toNat_join (b1 b2 b3 b4 : UInt8) :
    ((b1.toUInt32 <<< 24) ||| (b2.toUInt32 <<< 16) ||| (b3.toUInt32 <<< 8) |||
      b4.toUInt32).toNat = ofLeBytes [b4, b3, b2, b1] := by
  have l1 := b1.toNat_lt
  have l2 := b2.toNat_lt
  have l3 := b3.toNat_lt
  have p1 : (b1.toUInt32 <<< 24).toNat = b1.toNat <<< 24 := by
    rw [UInt32.toNat_shiftLeft, UInt8.toNat_toUInt32]
    exact Nat.mod_eq_of_lt (by rw [Nat.shiftLeft_eq]; change _ * 2 ^ 24 < _; omega)
  have p2 : (b2.toUInt32 <<< 16).toNat = b2.toNat <<< 16 := by
    rw [UInt32.toNat_shiftLeft, UInt8.toNat_toUInt32]
    exact Nat.mod_eq_of_lt (by rw [Nat.shiftLeft_eq]; change _ * 2 ^ 16 < _; omega)
  have p3 : (b3.toUInt32 <<< 8).toNat = b3.toNat <<< 8 := by
    rw [UInt32.toNat_shiftLeft, UInt8.toNat_toUInt32]
    exact Nat.mod_eq_of_lt (by rw [Nat.shiftLeft_eq]; change _ * 2 ^ 8 < _; omega)
  rw [UInt32.toNat_or, UInt32.toNat_or, UInt32.toNat_or, p1, p2, p3, UInt8.toNat_toUInt32,
    or_bytes b2.toNat_lt b3.toNat_lt b4.toNat_lt]
  rfl

namespace Buffered

/-- Buffers are equal when their chunks are. -/
@[ext] theorem ext {left right : Buffered} (chunks : left.chunks = right.chunks) :
    left = right := by
  obtain ⟨leftChunks, leftCount, leftCounted⟩ := left
  obtain ⟨rightChunks, rightCount, rightCounted⟩ := right
  dsimp only at chunks
  subst chunks leftCounted rightCounted
  rfl

/-- What is not read yet, as one chunk. -/
def ofRest (rest : List UInt8) : Buffered :=
  ⟨[rest], rest.length, by simp⟩

theorem frameLen_eq {body : Buffered} {flags b1 b2 b3 b4 : UInt8} {rest : List UInt8}
    (isBytes : body.chunks.flatten = flags :: b1 :: b2 :: b3 :: b4 :: rest) :
    body.frameLen = 5 + ofLeBytes [b4, b3, b2, b1] := by
  rw [frameLen, toNat_join, byteAt_eq, byteAt_eq, byteAt_eq, byteAt_eq, isBytes]
  rfl

/-- The client takes the frame at the front of the bytes that have arrived. -/
theorem takeFrame_eq (body : Buffered) :
    body.takeFrame = (splitFrame body.chunks.flatten).map fun taken =>
      (taken.1.1, taken.1.2, ofRest taken.2) := by
  have counted := body.counted
  cases taken : splitFrame body.chunks.flatten with
  | some found =>
      obtain ⟨⟨flags, payload⟩, rest⟩ := found
      obtain ⟨b1, b2, b3, b4, isBytes, whole⟩ := splitFrame_eq_some taken
      have length := frameLen_eq isBytes
      rw [← whole] at length
      rw [isBytes] at counted
      simp only [List.length_cons, List.length_append] at counted
      have long : ¬ (body.buffered < 5 ∨ body.buffered < body.frameLen) := by
        rw [length, counted]
        omega
      rw [takeFrame, if_neg long, Option.map_some]
      have isFlags : byteAt body.chunks 0 = flags := by
        rw [byteAt_eq, isBytes]
        rfl
      have isFrame : body.collapsed = (flags :: b1 :: b2 :: b3 :: b4 :: payload) ++ rest := by
        rw [collapsed_eq, isBytes]
        rfl
      have frameLen : (flags :: b1 :: b2 :: b3 :: b4 :: payload).length = body.frameLen := by
        rw [length]
        simp only [List.length_cons]
        omega
      have front : (body.collapsed.take body.frameLen).drop 5 = payload := by
        rw [isFrame, ← frameLen, List.take_left]
        rfl
      have behind : body.collapsed.drop body.frameLen = rest := by
        rw [isFrame, ← frameLen, List.drop_left]
      rw [isFlags, front]
      exact congrArg (fun left => some (flags, payload, left))
        (ext (congrArg (fun left => [left]) behind))
  | none =>
      have short : body.buffered < 5 ∨ body.buffered < body.frameLen := by
        rcases isBytes : body.chunks.flatten with
          _ | ⟨flags, _ | ⟨b1, _ | ⟨b2, _ | ⟨b3, _ | ⟨b4, rest⟩⟩⟩⟩⟩
        case cons.cons.cons.cons.cons =>
          rw [isBytes, splitFrame] at taken
          rw [frameLen_eq isBytes, counted, isBytes]
          simp only [List.length_cons]
          split at taken
          · omega
          · cases taken
        all_goals
          rw [counted, isBytes]
          exact .inl (by simp only [List.length_cons, List.length_nil]; omega)
      rw [takeFrame, if_pos short]
      rfl

end Buffered

/-- The messages in the frames up to the trailers, and what the client makes of these. -/
def consume : List (UInt8 × List UInt8) → List (List UInt8) × Option Outcome
  | [] => ([], none)
  | (flags, payload) :: later =>
    if isTrailers flags then ([], some (readTrailers payload))
    else (payload :: (consume later).1, (consume later).2)

theorem consume_append (frames later : List (UInt8 × List UInt8)) :
    consume (frames ++ later) =
      if (consume frames).2.isSome then consume frames
      else ((consume frames).1 ++ (consume later).1, (consume later).2) := by
  induction frames with
  | nil => rfl
  | cons frame rest ih =>
      obtain ⟨flags, payload⟩ := frame
      rw [List.cons_append, consume, consume]
      split
      · rfl
      · rw [ih]
        split <;> rfl

/-- The loop over the frames comes to the trailers, or it leaves what is no whole frame. -/
theorem drainFrames_spec {rounds : Nat} {body : Buffered} (enough : body.buffered ≤ rounds) :
    let read := consume (grpcWeb.frames body.chunks.flatten)
    (drainFrames rounds body).1 = read.1 ∧
      match read.2 with
      | some outcome => (drainFrames rounds body).2 = .error outcome
      | none => ∃ rest, (drainFrames rounds body).2 = .ok rest ∧
          rest.chunks.flatten = grpcWeb.left body.chunks.flatten := by
  induction rounds generalizing body with
  | zero =>
      have counted := body.counted
      have empty : body.chunks.flatten = [] := List.length_eq_zero_iff.mp (by omega)
      rw [drainFrames, empty]
      exact ⟨rfl, body, rfl, empty⟩
  | succ rounds ih =>
      have frame := body.takeFrame_eq
      rw [drainFrames]
      cases taken : splitFrame body.chunks.flatten with
      | none =>
          obtain ⟨nothing, all⟩ := @Framing.drain_none _ _ grpcWeb _ taken
          rw [taken, Option.map_none] at frame
          rw [frame, nothing]
          exact ⟨rfl, body, rfl, all.symm⟩
      | some found =>
          obtain ⟨⟨flags, payload⟩, rest⟩ := found
          obtain ⟨first, behind⟩ := @Framing.drain_some _ _ grpcWeb _ _ _ taken
          have shorter := grpcWeb.shorter taken
          have counted := body.counted
          rw [taken, Option.map_some] at frame
          rw [frame, first, behind, consume]
          dsimp only
          split
          · exact ⟨rfl, rfl⟩
          · obtain ⟨messages, after⟩ := @ih (Buffered.ofRest rest) (by
              change rest.length ≤ rounds
              omega)
            have flat : (Buffered.ofRest rest).chunks.flatten = rest := by
              simp [Buffered.ofRest]
            rw [flat] at messages after
            exact ⟨congrArg (payload :: ·) messages, after⟩

theorem flatten_push (body : Buffered) (value : List UInt8) :
    (body.push value).chunks.flatten = body.chunks.flatten ++ value := by
  rw [Buffered.push]
  split
  · next empty => rw [empty, List.append_nil]
  · simp

/-- What a call yields and how it ends, from the bytes of the response. The induction is over the
chunks that are still to arrive. -/
theorem callFrom_eq (body : Buffered) (chunks : List (List UInt8)) :
    callFrom body chunks =
      ((consume (grpcWeb.frames (body.chunks.flatten ++ chunks.flatten))).1,
        (consume (grpcWeb.frames (body.chunks.flatten ++ chunks.flatten))).2.getD .truncated) := by
  induction chunks generalizing body with
  | nil =>
      obtain ⟨messages, after⟩ := drainFrames_spec (Nat.le_refl body.buffered)
      rw [callFrom, List.flatten_nil, List.append_nil]
      generalize drainFrames body.buffered body = drained at messages after
      obtain ⟨found, result⟩ := drained
      dsimp only at messages
      subst messages
      split at after
      · next outcome isSome =>
        dsimp only at after
        rw [after, isSome]
        rfl
      · next isNone =>
        obtain ⟨rest, isRest, -⟩ := after
        dsimp only at isRest
        rw [isRest, isNone]
        rfl
  | cons value later ih =>
      obtain ⟨messages, after⟩ := drainFrames_spec (Nat.le_refl (body.push value).buffered)
      rw [flatten_push] at messages after
      rw [callFrom, List.flatten_cons, ← List.append_assoc, Framing.frames_append, consume_append]
      generalize drainFrames (body.push value).buffered (body.push value) = drained
        at messages after
      obtain ⟨found, result⟩ := drained
      dsimp only at messages
      subst messages
      split at after
      · next outcome isSome =>
        dsimp only at after
        rw [after, isSome, Option.isSome_some, if_pos rfl, isSome]
        rfl
      · next isNone =>
        obtain ⟨rest, isRest, left⟩ := after
        dsimp only at isRest
        rw [isRest, isNone, Option.isSome_none, if_neg Bool.false_ne_true, ← left]
        dsimp only
        rw [ih]

/-- The same for a call. -/
theorem call_eq (chunks : List (List UInt8)) :
    call chunks = ((consume (grpcWeb.frames chunks.flatten)).1,
      (consume (grpcWeb.frames chunks.flatten)).2.getD .truncated) :=
  callFrom_eq .empty chunks

/-! ## Responses that were encoded -/

/-- The messages of a response and its trailers. -/
def responseFrames (messages : List (List UInt8)) (trailers : List UInt8) :
    List (UInt8 × List UInt8) :=
  messages.map (fun message => (0, message)) ++ [(0x80, trailers)]

def encodeResponse (messages : List (List UInt8)) (trailers : List UInt8) : List UInt8 :=
  messages.flatMap grpcWebBody ++ frameOf 0x80 trailers

section Response

variable {messages : List (List UInt8)} {trailers : List UInt8}

theorem encodeResponse_eq (messages : List (List UInt8)) (trailers : List UInt8) :
    encodeResponse messages trailers =
      (responseFrames messages trailers).flatMap grpcWeb.encode := by
  rw [responseFrames, List.flatMap_append, List.flatMap_map, List.flatMap_singleton]
  rfl

theorem responseFrames_fit (fit : ∀ message ∈ messages, message.length < 2 ^ 32)
    (fits : trailers.length < 2 ^ 32) :
    ∀ frame ∈ responseFrames messages trailers, grpcWeb.Fits frame := by
  intro frame mem
  rcases List.mem_append.mp mem with isMessage | isTrailer
  · obtain ⟨message, inside, rfl⟩ := List.mem_map.mp isMessage
    exact fit message inside
  · rw [List.mem_singleton.mp isTrailer]
    exact fits

theorem consume_messages (later : List (UInt8 × List UInt8)) :
    consume (messages.map (fun message => (0, message)) ++ later) =
      (messages ++ (consume later).1, (consume later).2) := by
  induction messages with
  | nil => rfl
  | cons message rest ih =>
      rw [List.map_cons, List.cons_append, consume, if_neg (by decide), ih]
      rfl

/-- The whole response yields its messages, whatever chunks it arrives in. -/
theorem call_response (fit : ∀ message ∈ messages, message.length < 2 ^ 32)
    (fits : trailers.length < 2 ^ 32) {chunks : List (List UInt8)}
    (isBody : chunks.flatten = encodeResponse messages trailers) :
    call chunks = (messages, readTrailers trailers) := by
  have whole := Framing.frames_encode (responseFrames_fit fit fits) []
  rw [List.append_nil, ← encodeResponse_eq, ← isBody] at whole
  rw [call_eq, whole, responseFrames, List.append_assoc, consume_messages, List.singleton_append,
    consume, if_pos (by decide), List.append_nil]
  rfl

/-- A response that ends before its trailers do is refused, after the messages that are whole. -/
theorem call_cut (fit : ∀ message ∈ messages, message.length < 2 ^ 32)
    (fits : trailers.length < 2 ^ 32) {chunks : List (List UInt8)} {gone : List UInt8}
    (some' : gone ≠ []) (isBody : chunks.flatten ++ gone = encodeResponse messages trailers) :
    (call chunks).2 = .truncated ∧ (call chunks).1 <+: messages := by
  rw [encodeResponse_eq] at isBody
  obtain ⟨whole, lost, missing, same, read⟩ :=
    Framing.frames_cut (responseFrames_fit fit fits) some' isBody
  have inside : whole <+: messages.map fun message => (0, message) := by
    rw [responseFrames] at same
    obtain ⟨before, last, rfl⟩ := (List.eq_nil_or_concat lost).resolve_left missing
    rw [List.concat_eq_append, ← List.append_assoc] at same
    exact ⟨before, (List.append_inj_left' same rfl).symm⟩
  obtain ⟨rest, isAll⟩ := inside
  obtain ⟨first, second, rfl, rfl, -⟩ := List.map_eq_append_iff.mp isAll.symm
  have none' := @consume_messages first []
  rw [List.append_nil] at none'
  rw [call_eq, read, none', consume, List.append_nil]
  exact ⟨rfl, List.prefix_append _ _⟩

end Response

end Icegres.FlightWeb
