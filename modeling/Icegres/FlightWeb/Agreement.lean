import Icegres.FlightWeb.Strict

/-!
# Writer and reader

What the writer puts into a message the reader yields again, exactly if no payload has `2^31`
bytes: its length is then read as a negative number. The client finds what it reads of a message
between any other fields.
-/

namespace Icegres.FlightWeb

open Base128

/-! ## Messages as they are written -/

/-- A field as the writer is given it. Fields of fixed width come from other writers only. -/
inductive Entry where
  | data (fieldNo : Nat) (payload : List UInt8)
  | text (fieldNo : Nat) (content : String)
  | number (fieldNo value : Nat)
  | fixed32 (fieldNo : Nat) (payload : Vector UInt8 4)
  | fixed64 (fieldNo : Nat) (payload : Vector UInt8 8)

namespace Entry

def encode : Entry → List UInt8
  | data fieldNo payload => ldField fieldNo payload
  | text fieldNo content => ldField fieldNo (utf8 content)
  | number fieldNo value => vField fieldNo value
  | fixed32 fieldNo payload => varint (fieldKey fieldNo 5) ++ payload.toList
  | fixed64 fieldNo payload => varint (fieldKey fieldNo 1) ++ payload.toList

/-- What the reader should yield for it. -/
def field : Entry → Field
  | data fieldNo payload => ⟨fieldNo, 2, .bytes payload⟩
  | text fieldNo content => ⟨fieldNo, 2, .bytes (utf8 content)⟩
  | number fieldNo value => ⟨fieldNo, 0, .number value⟩
  | fixed32 fieldNo payload => ⟨fieldNo, 5, .bytes payload.toList⟩
  | fixed64 fieldNo payload => ⟨fieldNo, 1, .bytes payload.toList⟩

/-- The payload that is written behind its length. -/
def delimited : Entry → Option (List UInt8)
  | data _ payload => some payload
  | text _ content => some (utf8 content)
  | number .. | fixed32 .. | fixed64 .. => none

/-- The field number fits the key. -/
def Numbered (entry : Entry) : Prop :=
  entry.field.fieldNo < 2 ^ 29

/-- The length of the payload is not read as a negative number. -/
def Short (entry : Entry) : Prop :=
  ∀ payload ∈ entry.delimited, payload.length < 2 ^ 31

end Entry

def encodeAll (entries : List Entry) : List UInt8 :=
  entries.flatMap Entry.encode

/-- A field that holds some payload under the number. -/
def Field.Has (field : Field) (fieldNo : Nat) : Prop :=
  field.fieldNo = fieldNo ∧ field.wire = 2

instance (field : Field) (fieldNo : Nat) : Decidable (field.Has fieldNo) :=
  inferInstanceAs (Decidable (_ ∧ _))

/-- The payload is held by one field under its number; one that is empty may be left out. -/
def Carries (entries : List Entry) (fieldNo : Nat) (payload : List UInt8) : Prop :=
  let held := (entries.map Entry.field).filter fun field => field.Has fieldNo
  held = [⟨fieldNo, 2, .bytes payload⟩] ∨ held = [] ∧ payload = []

/-- The payload is in the first field that holds one under the number. -/
def First (entries : List Entry) (fieldNo : Nat) (payload : List UInt8) : Prop :=
  ((entries.map Entry.field).filter fun field => field.Has fieldNo).head? =
    some ⟨fieldNo, 2, .bytes payload⟩

/-! ## Keys and numbers -/

variable {buf rest : List UInt8} {fieldNo wire k : Nat}

theorem varint_natCast (number : Nat) : varint number = septets number := by
  rw [varint]
  split
  · rw [Int.toNat_natCast]
  · next small =>
    have same : ((number : Int) % 2 ^ 32).toNat = number := by omega
    rw [same]

theorem toInt_toInt32 (number : UInt32) :
    number.toInt32.toInt = (number.toNat : Int).bmod (2 ^ 32) :=
  BitVec.toInt_eq_toNat_bmod number.toBitVec

/-- The sign of a key is of no matter. -/
theorem varint_fieldKey (small : fieldNo < 2 ^ 29) (known : wire < 8) :
    varint (fieldKey fieldNo wire) = septets (8 * fieldNo + wire) := by
  have isNat : (UInt32.ofNat (8 * fieldNo + wire)).toNat = 8 * fieldNo + wire := by
    rw [UInt32.toNat_ofNat']
    omega
  have signed := toInt_toInt32 (UInt32.ofNat (8 * fieldNo + wire))
  have again := @Int.bmod_emod (8 * fieldNo + wire : Nat) (2 ^ 32)
  have below := (UInt32.ofNat (8 * fieldNo + wire)).toInt32.toInt_lt
  rw [isNat] at signed
  rw [← signed] at again
  rw [fieldKey, varint, if_neg (by omega)]
  congr 1
  omega

/-- A key is read as it was written. -/
theorem key_split (small : fieldNo < 2 ^ 29) (known : wire < 8)
    (isBytes : buf.drop k = varint (fieldKey fieldNo wire) ++ rest) :
    splitNumber (buf.drop k) = some (varint (fieldKey fieldNo wire), rest) ∧
      fieldNoOf (buf.drop k) = fieldNo ∧ wireOf (buf.drop k) = wire := by
  rw [varint_fieldKey small known] at isBytes ⊢
  have number := (@varintLoop_septets (8 * fieldNo + wire) (by omega) rest).1
  rw [isBytes, fieldNoOf, wireOf]
  refine ⟨splitNumber_septets _ _, ?_⟩
  generalize (varintLoop pushInt32 (septets (8 * fieldNo + wire) ++ rest) 0 0).1 = key at number
  constructor
  · rw [UInt32.toNat_shiftRight, number]
    have three : (3 : UInt32).toNat % 32 = 3 := rfl
    rw [three, Nat.shiftRight_eq_div_pow]
    omega
  · rw [UInt32.toNat_and, number]
    have seven : (7 : UInt32).toNat = 2 ^ 3 - 1 := rfl
    rw [seven, Nat.and_two_pow_sub_one_eq_mod]
    omega

/-- A length below `2^31` is read as it was written. -/
theorem signedLength_septets {length : Nat} (short : length < 2 ^ 31) :
    signedLength (septets length) = length := by
  have number := (@varintLoop_septets length (by omega) []).1
  rw [varintLoop_of_split (splitNumber_septets length [])] at number
  rw [signedLength, toInt_toInt32, number]
  exact Int.bmod_eq_of_le (by omega) (by omega)

theorem signedLength_bounds (size : List UInt8) :
    -2 ^ 31 ≤ signedLength size ∧ signedLength size < 2 ^ 31 :=
  ⟨Int32.le_toInt _, Int32.toInt_lt _⟩

/-! ## One field -/

theorem subarray_drop {payload : List UInt8} (isPayload : buf.drop k = payload ++ rest) :
    subarray buf k (k + payload.length) = payload := by
  have front : (buf.drop k).take payload.length = payload := by
    rw [isPayload, List.take_left]
  have first : relativeIndex buf.length k = min k buf.length := by
    rw [relativeIndex, if_neg (by omega)]
    rfl
  have last : relativeIndex buf.length (k + payload.length) =
      min (k + payload.length) buf.length := by
    rw [← Int.natCast_add, relativeIndex, if_neg (by omega)]
    rfl
  have length : (buf.drop k).length = payload.length + rest.length := by
    rw [isPayload, List.length_append]
  rw [List.length_drop] at length
  rw [subarray, first, last, List.drop_take]
  rcases Nat.le_total k buf.length with inside | past
  · rw [Nat.min_eq_left inside, Nat.min_eq_left (by omega), Nat.add_sub_cancel_left, front]
  · have empty : payload = [] := List.length_eq_zero_iff.mp (by omega)
    rw [Nat.min_eq_right past, Nat.min_eq_right (by omega), Nat.sub_self, List.take_zero, empty]

/-- A payload behind its length, whatever the length is read as. -/
theorem readField_ldField {payload : List UInt8} (small : fieldNo < 2 ^ 29)
    (isBytes : buf.drop k = ldField fieldNo payload ++ rest) :
    ∃ valueAt : Nat, valueAt + payload.length = k + (ldField fieldNo payload).length ∧
      buf.drop valueAt = payload ++ rest ∧
      readField buf k = .yield ⟨fieldNo, 2, .bytes (subarray buf valueAt
          (valueAt + signedLength (septets payload.length)))⟩
        valueAt (valueAt + signedLength (septets payload.length)) := by
  rw [ldField, List.append_assoc, List.append_assoc, varint_natCast] at isBytes
  obtain ⟨isKey, isNo, isWire⟩ := key_split small (by decide) isBytes
  have yields := readField_delimited isKey isWire (splitNumber_septets _ _)
  rw [isNo, ← Int.natCast_add, ← Int.natCast_add] at yields
  refine ⟨_, ?_, drop_add (drop_add isBytes), yields⟩
  rw [ldField, varint_natCast, List.length_append, List.length_append]
  omega

theorem readField_short {payload : List UInt8} (small : fieldNo < 2 ^ 29)
    (short : payload.length < 2 ^ 31) (isBytes : buf.drop k = ldField fieldNo payload ++ rest) :
    ∃ valueAt, readField buf k = .yield ⟨fieldNo, 2, .bytes payload⟩ valueAt
      (k + (ldField fieldNo payload).length : Nat) := by
  obtain ⟨valueAt, ends, isPayload, yields⟩ := readField_ldField small isBytes
  rw [signedLength_septets short, subarray_drop isPayload, ← Int.natCast_add, ends] at yields
  exact ⟨valueAt, yields⟩

/-- A payload of fixed width. -/
theorem readField_width {payload : List UInt8} (small : fieldNo < 2 ^ 29) (known : wire < 8)
    (isWidth : fixedWidth wire = some payload.length)
    (isBytes : buf.drop k = varint (fieldKey fieldNo wire) ++ payload ++ rest) :
    ∃ valueAt, readField buf k = .yield ⟨fieldNo, wire, .bytes payload⟩ valueAt
      (k + (varint (fieldKey fieldNo wire) ++ payload).length : Nat) := by
  rw [List.append_assoc] at isBytes
  obtain ⟨isKey, isNo, isWire⟩ := key_split small known isBytes
  have yields := readField_fixed isKey (isWire.symm ▸ isWidth)
  rw [isNo, isWire, ← Int.natCast_add, subarray_drop (drop_add isBytes), ← Int.natCast_add,
    Nat.add_assoc, ← List.length_append] at yields
  exact ⟨_, yields⟩

/-- A field that is short is yielded, and the next one begins behind it. -/
theorem readField_entry {entry : Entry} (numbered : entry.Numbered) (short : entry.Short)
    (isBytes : buf.drop k = entry.encode ++ rest) :
    ∃ valueAt, readField buf k =
      .yield entry.field valueAt (k + entry.encode.length : Nat) := by
  cases entry with
  | data fieldNo payload => exact readField_short numbered (short payload rfl) isBytes
  | text fieldNo content => exact readField_short numbered (short _ rfl) isBytes
  | number fieldNo value =>
      rw [Entry.encode, vField, varint_natCast, List.append_assoc] at isBytes
      obtain ⟨isKey, isNo, isWire⟩ := key_split numbered (by decide) isBytes
      have yields := readField_number isKey isWire
      rw [varintLoop_bigInt (splitNumber_septets _ _), isNo, spelled_septets, ← Int.natCast_add,
        ← Int.natCast_add, Nat.add_assoc, ← List.length_append, ← varint_natCast] at yields
      exact ⟨_, yields⟩
  | fixed32 fieldNo payload =>
      exact readField_width numbered (by decide) (by rw [Vector.length_toList]; rfl) isBytes
  | fixed64 fieldNo payload =>
      exact readField_width numbered (by decide) (by rw [Vector.length_toList]; rfl) isBytes

/-- A key and a number or a length take two bytes. -/
theorem Entry.two_le_length (entry : Entry) : 2 ≤ entry.encode.length := by
  have positive (number : Int) : 0 < (varint number).length := by
    rw [varint]
    split <;> exact List.length_pos_iff.mpr (septets_ne_nil _)
  have field (fieldNo : Nat) (payload : List UInt8) : 2 ≤ (ldField fieldNo payload).length := by
    have key := positive (fieldKey fieldNo 2)
    have size := positive payload.length
    simp only [ldField, List.length_append]
    omega
  cases entry with
  | data fieldNo payload => exact field fieldNo payload
  | text fieldNo content => exact field fieldNo (utf8 content)
  | number fieldNo value =>
      have key := positive (fieldKey fieldNo 0)
      have number := positive value
      simp only [encode, vField, List.length_append]
      omega
  | fixed32 fieldNo payload =>
      have key := positive (fieldKey fieldNo 5)
      simp only [encode, List.length_append, Vector.length_toList]
      omega
  | fixed64 fieldNo payload =>
      have key := positive (fieldKey fieldNo 1)
      simp only [encode, List.length_append, Vector.length_toList]
      omega

/-! ## Whole messages -/

theorem fieldsFrom_entries {entries : List Entry} (numbered : ∀ entry ∈ entries, entry.Numbered)
    (short : ∀ entry ∈ entries, entry.Short) (isBytes : buf.drop k = encodeAll entries) :
    fieldsFrom buf (entries.length + 1) k = some (entries.map Entry.field, none) := by
  induction entries generalizing k with
  | nil =>
      rw [fieldsFrom, readField_done (List.drop_eq_nil_iff.mp isBytes)]
      rfl
  | cons entry later ih =>
      rw [encodeAll, List.flatMap_cons] at isBytes
      obtain ⟨valueAt, yields⟩ := readField_entry (numbered _ List.mem_cons_self)
        (short _ List.mem_cons_self) isBytes
      rw [fieldsFrom, List.length_cons, yields]
      dsimp only
      rw [ih (fun other mem => numbered other (List.mem_cons_of_mem _ mem))
        (fun other mem => short other (List.mem_cons_of_mem _ mem)) (drop_add isBytes)]
      rfl

/-- Before the front of the buffer nothing is, and a key and a number without bits are read. -/
theorem readField_behind {m : Nat} (behind : 2 ≤ m) :
    ∃ field valueAt, readField buf (-(m : Int)) =
      .yield field valueAt (-((m - 2 : Nat) : Int)) := by
  have nothing {i : Int} (before : i < 0) : bytesFrom buf i = [] := if_pos before
  have isKey : varintLoop pushInt32 [] 0 0 = (0, 1) := rfl
  have next : -(m : Int) + (1 : Nat) + (1 : Nat) = -((m - 2 : Nat) : Int) := by omega
  rw [readField, if_neg (by omega), nothing (by omega), isKey]
  dsimp only
  have isWire : ((0 : UInt32) &&& 7).toNat = 0 := rfl
  rw [if_pos isWire, nothing (by omega)]
  refine ⟨⟨0, 0, .number 0⟩, -(m : Int) + (1 : Nat), ?_⟩
  rw [← next]
  rfl

/-- From before the front on a field is yielded for every two positions. -/
theorem fields_from_behind (some' : buf ≠ []) {fuel m : Nat} {fields : List Field}
    (ends : fieldsFrom buf fuel (-(m : Int)) = some (fields, none)) :
    m < 2 * fields.length := by
  induction fuel generalizing m fields with
  | zero => cases ends
  | succ fuel ih =>
      have inside := List.length_pos_iff.mpr some'
      rw [fieldsFrom] at ends
      split at ends
      · next isDone =>
        rw [readField, if_neg (by omega)] at isDone
        dsimp only at isDone
        split_ifs at isDone
      · cases ends
      · next field valueAt next yields =>
        obtain ⟨later, isLater, same⟩ := Option.map_eq_some_iff.mp ends
        obtain ⟨rfl, isNone⟩ := Prod.mk.inj same
        rw [List.length_cons]
        rcases Nat.lt_or_ge m 2 with few | behind
        · omega
        · obtain ⟨_, _, again⟩ := @readField_behind buf m behind
          rw [again] at yields
          cases yields
          have rest := @ih (m - 2) later.1 (by rw [isLater, ← isNone])
          omega

theorem length_encodeAll (entries : List Entry) :
    2 * entries.length ≤ (encodeAll entries).length := by
  induction entries with
  | nil => simp
  | cons entry later ih =>
      have two := entry.two_le_length
      rw [encodeAll] at ih ⊢
      rw [List.flatMap_cons, List.length_append, List.length_cons]
      omega

/-- A payload that is too long is yielded with other bytes, or the position goes back so far that
too many fields follow. -/
theorem not_long {payload : List UInt8} (small : fieldNo < 2 ^ 29)
    (long : 2 ^ 31 ≤ payload.length) {later : List Entry} {fields : List Field} {fuel : Nat}
    (isBytes : buf.drop k = ldField fieldNo payload ++ encodeAll later)
    (ends : fieldsFrom buf fuel k = some (⟨fieldNo, 2, .bytes payload⟩ :: fields, none))
    (same : fields.length = later.length) : False := by
  obtain ⟨valueAt, -, isPayload, yields⟩ := readField_ldField small isBytes
  obtain ⟨lower, upper⟩ := signedLength_bounds (septets payload.length)
  generalize signedLength (septets payload.length) = length at yields lower upper
  cases fuel with
  | zero => cases ends
  | succ fuel =>
      rw [fieldsFrom, yields] at ends
      obtain ⟨rest, isRest, isAll⟩ := Option.map_eq_some_iff.mp ends
      obtain ⟨isFirst, isNone⟩ := Prod.mk.inj isAll
      obtain ⟨isField, rfl⟩ := List.cons.inj isFirst
      have isValue : (subarray buf valueAt (valueAt + length)).length = payload.length := by
        injection isField with _ _ isValue
        injection isValue with isValue
        rw [isValue]
      have whole := congrArg List.length isPayload
      have two := length_encodeAll later
      rw [List.length_append, List.length_drop] at whole
      rw [subarray, List.length_drop, List.length_take, relativeIndex, relativeIndex] at isValue
      rw [if_neg (show ¬ (valueAt : Int) < 0 by omega), Int.toNat_natCast] at isValue
      split at isValue
      · have back : (valueAt : Int) + length = -((encodeAll later).length : Int) := by omega
        have many := @fields_from_behind buf (by rintro rfl; simp at whole; omega) fuel
          (encodeAll later).length rest.1 (by rw [← back, isRest, ← isNone])
        omega
      · omega

/-- Of a message whose fields are all yielded again none is too long. -/
theorem short_of_fieldsFrom {entries : List Entry}
    (numbered : ∀ entry ∈ entries, entry.Numbered) {fuel : Nat}
    (isBytes : buf.drop k = encodeAll entries)
    (ends : fieldsFrom buf fuel k = some (entries.map Entry.field, none)) :
    ∀ entry ∈ entries, entry.Short := by
  induction entries generalizing k fuel with
  | nil => simp
  | cons entry later ih =>
      have small := numbered entry List.mem_cons_self
      rw [encodeAll, List.flatMap_cons] at isBytes
      by_cases short : entry.Short
      · obtain ⟨valueAt, yields⟩ := readField_entry small short isBytes
        cases fuel with
        | zero => cases ends
        | succ fuel =>
            rw [fieldsFrom, yields] at ends
            obtain ⟨⟨rest, why⟩, isRest, isAll⟩ := Option.map_eq_some_iff.mp ends
            cases isAll
            have others := ih (fun other mem => numbered other (List.mem_cons_of_mem _ mem))
              (drop_add isBytes) isRest
            exact List.forall_mem_cons.mpr ⟨short, others⟩
      · rw [Entry.Short] at short
        push Not at short
        obtain ⟨payload, isPayload, long⟩ := short
        have same : (later.map Entry.field).length = later.length := List.length_map ..
        cases entry with
        | data fieldNo content =>
            cases isPayload
            exact (not_long small long isBytes ends same).elim
        | text fieldNo content =>
            cases isPayload
            exact (not_long small long isBytes ends same).elim
        | number | fixed32 | fixed64 => cases isPayload

/-! ## The messages of the client -/

/-- The payload of a field, or what was found before. -/
def Field.payloadOr (before : List UInt8) (field : Field) : List UInt8 :=
  match field.value with
  | .bytes val => val
  | .number _ => before

theorem FlightData.set_eq (data : FlightData) (field : Field) :
    data.set field =
      ⟨if field.Has 2 then field.payloadOr data.dataHeader else data.dataHeader,
        if field.Has 1000 then field.payloadOr data.dataBody else data.dataBody⟩ := by
  obtain ⟨fieldNo, wire, value⟩ := field
  cases value with
  | number value => simp only [set, Field.payloadOr, ite_self]
  | bytes val =>
      by_cases isHeader : fieldNo = 2 ∧ wire = 2
      · obtain ⟨rfl, rfl⟩ := isHeader
        rfl
      · by_cases isBody : fieldNo = 1000 ∧ wire = 2
        · obtain ⟨rfl, rfl⟩ := isBody
          rfl
        · simp only [set, Field.Has, Field.payloadOr, isHeader, isBody, if_false]

theorem foldl_set (fields : List Field) (data : FlightData) :
    fields.foldl FlightData.set data =
      ⟨(fields.filter fun field => field.Has 2).foldl Field.payloadOr data.dataHeader,
        (fields.filter fun field => field.Has 1000).foldl Field.payloadOr data.dataBody⟩ := by
  induction fields generalizing data with
  | nil => rfl
  | cons field later ih =>
      rw [List.foldl_cons, ih, FlightData.set_eq, List.filter_cons, List.filter_cons]
      by_cases isHeader : field.Has 2 <;> by_cases isBody : field.Has 1000 <;>
        simp [isHeader, isBody]

theorem Carries.foldl {entries : List Entry} {payload : List UInt8}
    (carries : Carries entries fieldNo payload) :
    ((entries.map Entry.field).filter fun field => field.Has fieldNo).foldl
      Field.payloadOr [] = payload := by
  rcases carries with held | ⟨held, rfl⟩
  · rw [held]
    rfl
  · rw [held]
    rfl

/-- The loop returns what its body does for the first payload. -/
theorem forFields_first {Result : Type}
    {body : List UInt8 → Option (Except String (Option Result))} {entries : List Entry}
    (numbered : ∀ entry ∈ entries, entry.Numbered) (short : ∀ entry ∈ entries, entry.Short)
    (isBytes : buf.drop k = encodeAll entries) {payload : List UInt8}
    (first : First entries fieldNo payload) {returned : Except String (Option Result)}
    (returns : body payload = some returned) (some' : returned ≠ .ok none) {fuel : Nat}
    (enough : entries.length ≤ fuel) :
    forFields (onPayload fieldNo body) buf fuel k = some returned := by
  induction entries generalizing k fuel with
  | nil => cases first
  | cons entry later ih =>
      obtain ⟨fuel, rfl⟩ : ∃ less, fuel = less + 1 := ⟨fuel - 1, by simp at enough; omega⟩
      rw [encodeAll, List.flatMap_cons] at isBytes
      obtain ⟨valueAt, yields⟩ := readField_entry (numbered _ List.mem_cons_self)
        (short _ List.mem_cons_self) isBytes
      rw [First, List.map_cons, List.filter_cons] at first
      rw [forFields, yields]
      dsimp only
      by_cases has : entry.field.Has fieldNo
      · rw [if_pos (by simpa using has)] at first
        rw [Option.some.inj first, onPayload]
        dsimp only
        rw [if_pos ⟨rfl, rfl⟩, returns]
        rcases returned with why | _ | found
        · rfl
        · exact absurd rfl some'
        · rfl
      · rw [if_neg (by simpa using has)] at first
        have passes : onPayload fieldNo body entry.field = some (.ok none) := by
          rw [onPayload]
          split
          · exact if_neg has
          · rfl
        rw [passes]
        exact ih (fun other mem => numbered other (List.mem_cons_of_mem _ mem))
          (fun other mem => short other (List.mem_cons_of_mem _ mem)) (drop_add isBytes) first
          (by simpa using enough)

theorem Entry.length_delimited {entry : Entry} {payload : List UInt8}
    (isPayload : payload ∈ entry.delimited) : payload.length ≤ entry.encode.length := by
  cases entry with
  | data fieldNo content | text fieldNo content =>
      cases isPayload
      rw [encode, ldField, List.length_append]
      omega
  | number | fixed32 | fixed64 => cases isPayload

theorem length_encode_le {entries : List Entry} {entry : Entry} (mem : entry ∈ entries) :
    entry.encode.length ≤ (encodeAll entries).length := by
  obtain ⟨before, after, rfl⟩ := List.append_of_mem mem
  rw [encodeAll, List.flatMap_append, List.flatMap_cons, List.length_append, List.length_append]
  omega

theorem Entry.delimited_of_field {entry : Entry} {payload : List UInt8}
    (isField : entry.field = ⟨fieldNo, 2, .bytes payload⟩) : payload ∈ entry.delimited := by
  cases entry with
  | data no content | text no content =>
      injection isField with _ _ same
      injection same with same
      exact congrArg some same
  | number | fixed32 | fixed64 =>
      injection isField with _ isWire
      cases isWire

/-- What is inside of a short payload is short. -/
theorem First.short {entries inner : List Entry} (short : ∀ entry ∈ entries, entry.Short)
    (first : First entries fieldNo (encodeAll inner)) : ∀ entry ∈ inner, entry.Short := by
  have mem := List.mem_of_head? first
  obtain ⟨entry, isEntry, isField⟩ := List.mem_map.mp (List.mem_filter.mp mem).1
  have isPayload := Entry.delimited_of_field isField
  intro other mem' payload hasPayload
  have outer := short entry isEntry _ isPayload
  have length := Entry.length_delimited hasPayload
  have inside := length_encode_le mem'
  omega

/-- The reader agrees with the writer on a message: its fields are yielded as they were written,
and the client finds its header and its body, or the ticket of its first endpoint. -/
structure Agrees (entries : List Entry) : Prop where
  fields : Yields (encodeAll entries) (entries.map Entry.field)
  flightData : ∀ header body, Carries entries 2 header → Carries entries 1000 body →
    ∃ fuel, decodeFlightData fuel (encodeAll entries) = some (.ok ⟨header, body⟩)
  ticket : ∀ endpoint inner ticket, (∀ entry ∈ endpoint ++ inner, entry.Numbered) →
    First entries 3 (encodeAll endpoint) → First endpoint 1 (encodeAll inner) →
    First inner 1 ticket →
    ∃ fuel, decodeFlightInfoTicket fuel (encodeAll entries) = some (.ok (some ticket))

/-- A header and a body are found in a message of short fields. -/
theorem decodeFlightData_entries {entries : List Entry}
    (numbered : ∀ entry ∈ entries, entry.Numbered) (short : ∀ entry ∈ entries, entry.Short)
    {header body : List UInt8} (isHeader : Carries entries 2 header)
    (isBody : Carries entries 1000 body) {fuel : Nat} (enough : entries.length < fuel) :
    decodeFlightData fuel (encodeAll entries) = some (.ok ⟨header, body⟩) := by
  have ends := fieldsFrom_mono enough
    (@fieldsFrom_entries (encodeAll entries) 0 entries numbered short rfl)
  rw [decodeFlightData, show (0 : Int) = (0 : Nat) from rfl, ends]
  simp only [Option.map_some, foldl_set, isHeader.foldl, isBody.foldl]

theorem agrees_of_short {entries : List Entry} (numbered : ∀ entry ∈ entries, entry.Numbered)
    (short : ∀ entry ∈ entries, entry.Short) : Agrees entries where
  fields := ⟨_, fieldsFrom_entries numbered short rfl⟩
  flightData header body isHeader isBody :=
    ⟨_, decodeFlightData_entries numbered short isHeader isBody (Nat.lt_succ_self _)⟩
  ticket endpoint inner ticket numbered' first second third := by
    have shortEndpoint := first.short short
    have shortInner := second.short shortEndpoint
    let fuel := entries.length + endpoint.length + inner.length
    have inInner := @forFields_first (encodeAll inner) 1 0 _ (fun tval => some (.ok (some tval)))
      inner (fun entry mem => numbered' entry (List.mem_append_right _ mem)) shortInner rfl ticket
      third (.ok (some ticket)) rfl (by simp) fuel (by omega)
    have inEndpoint := @forFields_first (encodeAll endpoint) 1 0 _
      (inFields 1 (fun tval => some (.ok (some tval))) fuel) endpoint (fun entry mem => numbered' entry (List.mem_append_left _ mem)) shortEndpoint rfl _
      second (.ok (some ticket)) inInner (by simp) fuel (by omega)
    exact ⟨fuel, @forFields_first (encodeAll entries) 3 0 _
      (inFields 1 (inFields 1 (fun tval => some (.ok (some tval))) fuel) fuel) entries numbered short rfl _
      first (.ok (some ticket)) inEndpoint (by simp) fuel (by omega)⟩

/-- Reader and writer agree on a message exactly if none of its payloads has `2^31` bytes. -/
theorem agrees_iff {entries : List Entry} (numbered : ∀ entry ∈ entries, entry.Numbered) :
    Agrees entries ↔ ∀ entry ∈ entries, entry.Short := by
  constructor
  · rintro ⟨⟨fuel, ends⟩, -, -⟩
    exact short_of_fieldsFrom numbered rfl ends
  · exact agrees_of_short numbered

theorem agrees_iff_query : Agrees [.text 1 "select 1", .number 2 (2 ^ 53 - 1)] := by
  refine (agrees_iff (by simp [Entry.Numbered, Entry.field])).mpr ?_
  rintro entry mem payload isPayload
  rcases List.mem_pair.mp mem with rfl | rfl
  · cases isPayload
    decide +kernel
  · cases isPayload

theorem not_agrees_of_long {payload : List UInt8} (long : 2 ^ 31 ≤ payload.length) :
    ¬ Agrees [.data 1 payload] := by
  rintro ⟨⟨fuel, ends⟩, -, -⟩
  have numbered : ∀ entry ∈ [Entry.data 1 payload], entry.Numbered :=
    List.forall_mem_singleton.mpr (show 1 < 2 ^ 29 by decide)
  have short := @short_of_fieldsFrom (encodeAll [.data 1 payload]) 0 _ numbered _ rfl ends _
    List.mem_cons_self payload rfl
  omega

/-- Two gigabytes in a field are not read back. -/
theorem large_not_agrees : ¬ Agrees [.data 1 (List.replicate (2 ^ 31) 0)] :=
  not_agrees_of_long (Nat.le_of_eq List.length_replicate.symm)

end Icegres.FlightWeb
