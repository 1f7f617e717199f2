import Mathlib.Tactic.Ring
import Icegres.Base128

/-!
# Protobuf messages in the browser

The writer and the reader of the fields of a message. The writer computes on unsigned 32-bit
numbers, and on numbers of any size above them. The reader collects keys and lengths in 32-bit
numbers, of which a length is taken as a signed one, and advances its position by it.
-/

namespace Icegres.FlightWeb

open Base128

/-! ## Writer -/

/-- A number below `2^32`, after the conversion to an unsigned one, or a larger one. Both loops
push groups of seven bits. -/
def varint (n : Int) : List UInt8 :=
  if 0xffffffff < n then septets n.toNat else septets (n % 2 ^ 32).toNat

/-- `(fieldNo << 3) | wire`, a signed 32-bit number. -/
def fieldKey (fieldNo wire : Nat) : Int :=
  (UInt32.ofNat (8 * fieldNo + wire)).toInt32.toInt

/-- A length-delimited field. -/
def ldField (fieldNo : Nat) (payload : List UInt8) : List UInt8 :=
  varint (fieldKey fieldNo 2) ++ varint payload.length ++ payload

/-- The UTF-8 bytes of a string. -/
def utf8 (text : String) : List UInt8 :=
  text.toUTF8.toList

def vField (fieldNo : Nat) (value : Int) : List UInt8 :=
  varint (fieldKey fieldNo 0) ++ varint value

/-! ## Reader -/

/-- The bytes from a position on. Outside of the buffer there are none, and what is read there
has no bit set. -/
def bytesFrom (buf : List UInt8) (i : Int) : List UInt8 :=
  if i < 0 then [] else buf.drop i.toNat

/-- The loop that reads a number group by group, and how many bytes it goes ahead. -/
def varintLoop {Acc : Type} (push : Acc → Nat → Nat → Acc) :
    List UInt8 → Nat → Acc → Acc × Nat
  | [], shift, acc => (push acc 0 shift, 1)
  | b :: rest, shift, acc =>
    let acc := push acc (b.toNat % 128) shift
    if b.toNat < 128 then
      (acc, 1)
    else
      let (acc, count) := varintLoop push rest (shift + 7) acc
      (acc, count + 1)

/-- `acc |= bits << shift` on 32 bits, of which the shift counts modulo 32. -/
def pushInt32 (acc : UInt32) (bits shift : Nat) : UInt32 :=
  acc ||| (UInt32.ofNat bits <<< UInt32.ofNat shift)

/-- The same on a number of any size. -/
def pushBigInt (acc bits shift : Nat) : Nat :=
  acc ||| (bits <<< shift)

/-- An index of a typed array, counted from the end where it is negative. -/
def relativeIndex (length : Nat) (i : Int) : Nat :=
  if i < 0 then (length + i).toNat else min i.toNat length

/-- `buf.subarray(from, to)`. -/
def subarray (buf : List UInt8) (first last : Int) : List UInt8 :=
  (buf.take (relativeIndex buf.length last)).drop (relativeIndex buf.length first)

inductive Value where
  | number (value : Nat)
  | bytes (data : List UInt8)
  deriving DecidableEq

/-- What the iteration yields. -/
structure Field where
  fieldNo : Nat
  wire : Nat
  value : Value
  deriving DecidableEq

/-- One round of the iteration. A round that yields has gone from its position to where the value
begins, and goes on at `next`. -/
inductive Round where
  | done
  | throw (why : String)
  | yield (field : Field) (valueAt next : Int)
  deriving DecidableEq

def readField (buf : List UInt8) (i : Int) : Round :=
  if buf.length ≤ i then
    .done
  else
    let (key, count) := varintLoop pushInt32 (bytesFrom buf i) 0 0
    let i := i + count
    let fieldNo := (key >>> 3).toNat
    let wire := (key &&& 7).toNat
    if wire = 0 then
      let (val, count) := varintLoop pushBigInt (bytesFrom buf i) 0 0
      .yield ⟨fieldNo, wire, .number val⟩ i (i + count)
    else if wire = 2 then
      let (len, count) := varintLoop pushInt32 (bytesFrom buf i) 0 0
      let i := i + count
      let len := len.toInt32.toInt
      .yield ⟨fieldNo, wire, .bytes (subarray buf i (i + len))⟩ i (i + len)
    else if wire = 5 then
      .yield ⟨fieldNo, wire, .bytes (subarray buf i (i + 4))⟩ i (i + 4)
    else if wire = 1 then
      .yield ⟨fieldNo, wire, .bytes (subarray buf i (i + 8))⟩ i (i + 8)
    else
      .throw s!"unsupported protobuf wire type {wire}"

/-- The fields that are yielded from a position on and the error at the end, or nothing when
`fuel` rounds are too few. -/
def fieldsFrom (buf : List UInt8) : Nat → Int → Option (List Field × Option String)
  | 0, _ => none
  | fuel + 1, i =>
    match readField buf i with
    | .done => some ([], none)
    | .throw why => some ([], some why)
    | .yield field _ next =>
      (fieldsFrom buf fuel next).map fun later => (field :: later.1, later.2)

/-- The iteration yields these fields and ends. -/
def Yields (buf : List UInt8) (fields : List Field) : Prop :=
  ∃ fuel, fieldsFrom buf fuel 0 = some (fields, none)

/-! ## Flight messages -/

/-- A loop over the fields whose body may return, or throw, or do neither. -/
def forFields {Result : Type} (body : Field → Option (Except String (Option Result)))
    (buf : List UInt8) : Nat → Int → Option (Except String (Option Result))
  | 0, _ => none
  | fuel + 1, i =>
    match readField buf i with
    | .done => some (.ok none)
    | .throw why => some (.error why)
    | .yield field _ next =>
      (body field).bind fun
        | .ok none => forFields body buf fuel next
        | returned => some returned

/-- A body that is run for the payloads of one field only. -/
def onPayload {Result : Type} (fieldNo : Nat)
    (body : List UInt8 → Option (Except String (Option Result))) (field : Field) :
    Option (Except String (Option Result)) :=
  match field.value with
  | .bytes val => if field.fieldNo = fieldNo ∧ field.wire = 2 then body val else some (.ok none)
  | .number _ => some (.ok none)

def inFields {Result : Type} (fieldNo : Nat)
    (body : List UInt8 → Option (Except String (Option Result))) (fuel : Nat)
    (buf : List UInt8) : Option (Except String (Option Result)) :=
  forFields (onPayload fieldNo body) buf fuel 0

/-- The ticket of the first endpoint that has one. An endpoint is in field 3, its ticket in
field 1, and the bytes of this in field 1 again. -/
def decodeFlightInfoTicket (fuel : Nat) (buf : List UInt8) :
    Option (Except String (Option (List UInt8))) :=
  inFields 3 (inFields 1 (inFields 1 (fun tval => some (.ok (some tval))) fuel) fuel) fuel buf

structure FlightData where
  dataHeader : List UInt8
  dataBody : List UInt8
  deriving DecidableEq

/-- A later field takes the place of an earlier one. -/
def FlightData.set (data : FlightData) (field : Field) : FlightData :=
  match field.value with
  | .bytes val =>
    if field.fieldNo = 2 ∧ field.wire = 2 then { data with dataHeader := val }
    else if field.fieldNo = 1000 ∧ field.wire = 2 then { data with dataBody := val }
    else data
  | .number _ => data

def decodeFlightData (fuel : Nat) (buf : List UInt8) : Option (Except String FlightData) :=
  (fieldsFrom buf fuel 0).map fun
    | (_, some why) => .error why
    | (fields, none) => .ok (fields.foldl FlightData.set ⟨[], []⟩)

/-! ## Numbers -/

section Loop

variable {Acc : Type} (push : Acc → Nat → Nat → Acc)

/-- The groups of a number one after the other. -/
def pushAll : List UInt8 → Nat → Acc → Acc
  | [], _, acc => acc
  | b :: rest, shift, acc => pushAll rest (shift + 7) (push acc (b.toNat % 128) shift)

variable {push} {bytes own rest : List UInt8}

/-- A number that ends in the buffer is read up to its end. -/
theorem varintLoop_of_split (splits : splitNumber bytes = some (own, rest)) (shift : Nat)
    (acc : Acc) : varintLoop push bytes shift acc = (pushAll push own shift acc, own.length) := by
  induction bytes generalizing own shift acc with
  | nil => cases splits
  | cons b later ih =>
      rw [splitNumber] at splits
      rw [varintLoop]
      split at splits
      · next ends =>
        cases splits
        rw [if_pos ends]
        rfl
      · next continues =>
        obtain ⟨⟨found, left⟩, isFound, same⟩ := Option.map_eq_some_iff.mp splits
        cases same
        rw [if_neg continues, ih isFound]
        rfl

end Loop

theorem pushBigInt_eq {acc shift : Nat} (below : acc < 2 ^ shift) (bits : Nat) :
    pushBigInt acc bits shift = acc + bits * 2 ^ shift := by
  rw [pushBigInt, Nat.or_comm, ← Nat.shiftLeft_add_eq_or_of_lt below, Nat.shiftLeft_eq,
    Nat.add_comm]

theorem pushAll_bigInt (own : List UInt8) {shift acc : Nat} (below : acc < 2 ^ shift) :
    pushAll pushBigInt own shift acc = acc + spelled own * 2 ^ shift := by
  induction own generalizing shift acc with
  | nil => simp [pushAll, spelled]
  | cons b rest ih =>
      have bits : b.toNat % 128 ≤ 127 := by omega
      have grown : 2 ^ (shift + 7) = 128 * 2 ^ shift := by
        rw [Nat.pow_add, Nat.mul_comm]
      have next : acc + b.toNat % 128 * 2 ^ shift < 2 ^ (shift + 7) := by
        have product := Nat.mul_le_mul_right (2 ^ shift) bits
        omega
      rw [pushAll, pushBigInt_eq below, ih next, spelled, grown]
      ring

/-- A group that stays below `2^32` is added. -/
theorem pushInt32_toNat {acc : UInt32} {bits shift : Nat} (below : acc.toNat < 2 ^ shift)
    (narrow : shift < 32) (fits : acc.toNat + bits * 2 ^ shift < 2 ^ 32) :
    (pushInt32 acc bits shift).toNat = acc.toNat + bits * 2 ^ shift := by
  have positive : 0 < 2 ^ shift := Nat.two_pow_pos shift
  have small : bits < 2 ^ 32 := by
    have product := Nat.le_mul_of_pos_right bits positive
    omega
  have isBits : (UInt32.ofNat bits).toNat = bits := by
    rw [UInt32.toNat_ofNat']
    exact Nat.mod_eq_of_lt small
  have isShift : (UInt32.ofNat shift).toNat % 32 = shift := by
    rw [UInt32.toNat_ofNat']
    omega
  have shifted : (UInt32.ofNat bits <<< UInt32.ofNat shift).toNat = bits <<< shift := by
    rw [UInt32.toNat_shiftLeft, isBits, isShift, Nat.shiftLeft_eq]
    exact Nat.mod_eq_of_lt (by omega)
  rw [pushInt32, UInt32.toNat_or, shifted]
  exact pushBigInt_eq below bits

/-- Up to five groups of a number below `2^32` are read as that number. -/
theorem pushAll_int32 (own : List UInt8) {shift : Nat} {acc : UInt32}
    (below : acc.toNat < 2 ^ shift) (narrow : shift + 7 * own.length < 39)
    (fits : acc.toNat + spelled own * 2 ^ shift < 2 ^ 32) :
    (pushAll pushInt32 own shift acc).toNat = acc.toNat + spelled own * 2 ^ shift := by
  induction own generalizing shift acc with
  | nil => simp [pushAll, spelled]
  | cons b rest ih =>
      have bits : b.toNat % 128 ≤ 127 := by omega
      have grown : 2 ^ (shift + 7) = 128 * 2 ^ shift := by
        rw [Nat.pow_add, Nat.mul_comm]
      have parts : spelled (b :: rest) * 2 ^ shift =
          b.toNat % 128 * 2 ^ shift + spelled rest * 2 ^ (shift + 7) := by
        rw [spelled, grown]
        ring
      rw [List.length_cons] at narrow
      have first := @pushInt32_toNat acc (b.toNat % 128) shift below (by omega) (by omega)
      have next : (pushInt32 acc (b.toNat % 128) shift).toNat < 2 ^ (shift + 7) := by
        have product := Nat.mul_le_mul_right (2 ^ shift) bits
        omega
      rw [pushAll, ih next (by omega) (by omega), first, parts, Nat.add_assoc]

/-- A number below `2^32` is read as it was written. -/
theorem varintLoop_septets {number : Nat} (fits : number < 2 ^ 32) (rest : List UInt8) :
    (varintLoop pushInt32 (septets number ++ rest) 0 0).1.toNat = number ∧
      (varintLoop pushInt32 (septets number ++ rest) 0 0).2 = (septets number).length := by
  have groups := @length_septets_le number 5 (by decide) (by omega)
  rw [varintLoop_of_split (splitNumber_septets number rest)]
  refine ⟨?_, rfl⟩
  have value := @pushAll_int32 (septets number) 0 0 (by decide) (by omega) (by
    rw [spelled_septets]
    simpa using fits)
  rw [value, spelled_septets]
  simp

theorem varintLoop_bigInt {bytes own rest : List UInt8}
    (splits : splitNumber bytes = some (own, rest)) :
    varintLoop pushBigInt bytes 0 0 = (spelled own, own.length) := by
  rw [varintLoop_of_split splits, pushAll_bigInt own (by decide)]
  simp

end Icegres.FlightWeb
