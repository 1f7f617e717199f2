import Icegres.FlightWeb.Protobuf

/-!
# Hostile messages

The iteration over the fields of a buffer goes forward, ends, and refuses what runs past the end
exactly if the buffer consists of whole fields up to its end, or up to a key it does not know:
a missing byte is taken for one without bits, and a large length for a negative one.
-/

namespace Icegres.FlightWeb

open Base128

variable {buf : List UInt8}

/-! ## What the reader should do -/

/-- The positions the iteration gets to from `start`. -/
inductive ReachedFrom (buf : List UInt8) (start : Int) : Int → Prop where
  | start : ReachedFrom buf start start
  | next {i valueAt next : Int} {field : Field} (reached : ReachedFrom buf start i)
      (yields : readField buf i = .yield field valueAt next) : ReachedFrom buf start next

/-- The wire type in the key at the front. -/
def wireOf (bytes : List UInt8) : Nat :=
  ((varintLoop pushInt32 bytes 0 0).1 &&& 7).toNat

/-- The field number in the key at the front. -/
def fieldNoOf (bytes : List UInt8) : Nat :=
  ((varintLoop pushInt32 bytes 0 0).1 >>> 3).toNat

/-- A payload of fixed width. -/
def fixedWidth (wire : Nat) : Option Nat :=
  if wire = 5 then some 4 else if wire = 1 then some 8 else none

/-- The key, the number or the payload of the field at the front does not end in the bytes. -/
def RunsPast (bytes : List UInt8) : Prop :=
  ∀ key rest, splitNumber bytes = some (key, rest) →
    (wireOf bytes = 0 ∧ splitNumber rest = none) ∨
    (wireOf bytes = 2 ∧ ∀ size body, splitNumber rest = some (size, body) →
      body.length < spelled size) ∨
    ∃ width, fixedWidth (wireOf bytes) = some width ∧ rest.length < width

/-- From `start` on the iteration takes at most one round for every byte, never goes back, and
throws instead of yielding what runs past the end. -/
structure StrictFrom (buf : List UInt8) (start : Nat) : Prop where
  ends : (fieldsFrom buf (buf.length - start + 1) start).isSome
  forward : ∀ i, ReachedFrom buf start i → ∀ field valueAt next,
    readField buf i = .yield field valueAt next → i ≤ valueAt ∧ valueAt ≤ next
  refuses : ∀ i, ReachedFrom buf start i → i < buf.length → RunsPast (bytesFrom buf i) →
    ∃ why, readField buf i = .throw why

/-- A length as the reader takes it. -/
def signedLength (size : List UInt8) : Int :=
  (pushAll pushInt32 size 0 0).toInt32.toInt

/-- Whole fields, up to the end or to a key of a wire type the reader does not know. -/
inductive Orderly : List UInt8 → Prop where
  | nil : Orderly []
  | refused {bytes} (some' : bytes ≠ []) (unknown : wireOf bytes ∉ [0, 1, 2, 5]) : Orderly bytes
  | number {bytes key rest value later} (isKey : splitNumber bytes = some (key, rest))
      (wire : wireOf bytes = 0) (isValue : splitNumber rest = some (value, later))
      (orderly : Orderly later) : Orderly bytes
  | fixed {bytes key rest width} (isKey : splitNumber bytes = some (key, rest))
      (wire : fixedWidth (wireOf bytes) = some width) (whole : width ≤ rest.length)
      (orderly : Orderly (rest.drop width)) : Orderly bytes
  | delimited {bytes key rest size body} (isKey : splitNumber bytes = some (key, rest))
      (wire : wireOf bytes = 2) (isSize : splitNumber rest = some (size, body))
      (whole : spelled size ≤ body.length) (natural : 0 ≤ signedLength size)
      (orderly : Orderly (body.drop (signedLength size).toNat)) : Orderly bytes

/-! ## One round -/

@[simp] theorem bytesFrom_natCast (k : Nat) : bytesFrom buf k = buf.drop k := by
  rw [bytesFrom, if_neg (by omega)]
  rfl

theorem drop_add {k : Nat} {own rest : List UInt8} (isRest : buf.drop k = own ++ rest) :
    buf.drop (k + own.length) = rest := by
  rw [← List.drop_drop, isRest, List.drop_left]

theorem readField_done {k : Nat} (past : buf.length ≤ k) : readField buf k = .done := by
  rw [readField, if_pos (by omega)]

/-- A key of an unknown wire type is refused. -/
theorem readField_refused {k : Nat} (inside : k < buf.length)
    (unknown : wireOf (buf.drop k) ∉ [0, 1, 2, 5]) : ∃ why, readField buf k = .throw why := by
  simp only [List.mem_cons, List.not_mem_nil, or_false, not_or, wireOf] at unknown
  obtain ⟨not0, not1, not2, not5⟩ := unknown
  rw [readField, if_neg (by omega), bytesFrom_natCast]
  dsimp only
  rw [if_neg not0, if_neg not2, if_neg not5, if_neg not1]
  exact ⟨_, rfl⟩

section Round

variable {k : Nat} {key rest : List UInt8}

theorem lt_of_split (isKey : splitNumber (buf.drop k) = some (key, rest)) : k < buf.length := by
  have parts := splitNumber_eq_some isKey
  by_contra past
  rw [List.drop_eq_nil_of_le (by omega)] at parts
  exact parts.2 (List.append_eq_nil_iff.mp parts.1.symm).1

/-- A number is yielded, and the next field begins behind it. -/
theorem readField_number (isKey : splitNumber (buf.drop k) = some (key, rest))
    (wire : wireOf (buf.drop k) = 0) :
    readField buf k =
      .yield ⟨fieldNoOf (buf.drop k), 0, .number (varintLoop pushBigInt rest 0 0).1⟩
        (k + key.length) (k + key.length + (varintLoop pushBigInt rest 0 0).2) := by
  have inside := lt_of_split isKey
  have isRest := drop_add (splitNumber_eq_some isKey).1
  have loop := @varintLoop_of_split _ pushInt32 _ _ _ isKey 0 0
  rw [wireOf] at wire
  rw [readField, if_neg (by omega), bytesFrom_natCast]
  dsimp only
  rw [if_pos wire, wire, fieldNoOf, loop]
  dsimp only
  rw [← Int.natCast_add, bytesFrom_natCast, isRest]

theorem readField_fixed (isKey : splitNumber (buf.drop k) = some (key, rest)) {width : Nat}
    (wire : fixedWidth (wireOf (buf.drop k)) = some width) :
    readField buf k =
      .yield ⟨fieldNoOf (buf.drop k), wireOf (buf.drop k),
          .bytes (subarray buf (k + key.length) (k + key.length + width))⟩
        (k + key.length) (k + key.length + width) := by
  have inside := lt_of_split isKey
  have loop := @varintLoop_of_split _ pushInt32 _ _ _ isKey 0 0
  rw [readField, if_neg (by omega), bytesFrom_natCast]
  dsimp only
  rw [wireOf, fixedWidth] at wire
  rw [fieldNoOf, wireOf]
  split at wire
  · next is5 =>
    cases wire
    rw [if_neg (by omega), if_neg (by omega), if_pos is5, loop]
    rfl
  · split at wire
    · next is1 =>
      cases wire
      rw [if_neg (by omega), if_neg (by omega), if_neg (by omega), if_pos is1, loop]
      rfl
    · cases wire

theorem readField_delimited (isKey : splitNumber (buf.drop k) = some (key, rest))
    (wire : wireOf (buf.drop k) = 2) {size body : List UInt8}
    (isSize : splitNumber rest = some (size, body)) :
    readField buf k =
      .yield ⟨fieldNoOf (buf.drop k), 2, .bytes (subarray buf (k + key.length + size.length)
          (k + key.length + size.length + signedLength size))⟩
        (k + key.length + size.length) (k + key.length + size.length + signedLength size) := by
  have inside := lt_of_split isKey
  have isRest := drop_add (splitNumber_eq_some isKey).1
  have loop := @varintLoop_of_split _ pushInt32 _ _ _ isKey 0 0
  have sizeLoop := @varintLoop_of_split _ pushInt32 _ _ _ isSize 0 0
  rw [wireOf] at wire
  rw [readField, if_neg (by omega), bytesFrom_natCast]
  dsimp only
  rw [if_neg (by omega), if_pos wire, wire, fieldNoOf, loop]
  dsimp only
  rw [← Int.natCast_add, bytesFrom_natCast, isRest, sizeLoop]
  rfl

end Round

/-! ## Several rounds -/

theorem ReachedFrom.head {start i : Int} (reached : ReachedFrom buf start i) :
    i = start ∨ ∃ field valueAt next, readField buf start = .yield field valueAt next ∧
      ReachedFrom buf next i := by
  induction reached with
  | start => exact .inl rfl
  | next _ yields ih =>
      rcases ih with rfl | ⟨field, valueAt, after, first, later⟩
      · exact .inr ⟨_, _, _, yields, .start⟩
      · exact .inr ⟨field, valueAt, after, first, later.next yields⟩

theorem ReachedFrom.cons {start i valueAt next : Int} {field : Field}
    (yields : readField buf start = .yield field valueAt next) (reached : ReachedFrom buf next i) :
    ReachedFrom buf start i := by
  induction reached with
  | start => exact .next .start yields
  | next _ again ih => exact .next ih again

/-- More rounds than it takes change nothing. -/
theorem fieldsFrom_mono {fuel more : Nat} (le : fuel ≤ more) {i : Int}
    {found : List Field × Option String} (ends : fieldsFrom buf fuel i = some found) :
    fieldsFrom buf more i = some found := by
  induction fuel generalizing more i found with
  | zero => cases ends
  | succ fuel ih =>
      obtain ⟨more, rfl⟩ : ∃ less, more = less + 1 := ⟨more - 1, by omega⟩
      rw [fieldsFrom] at ends ⊢
      split at ends
      · exact ends
      · exact ends
      · next field valueAt next _ =>
        obtain ⟨later, isLater, same⟩ := Option.map_eq_some_iff.mp ends
        rw [ih (by omega) isLater]
        exact congrArg some same

theorem strictFrom_end {k : Nat} (past : buf.length ≤ k) : StrictFrom buf k := by
  have isDone := readField_done past
  have only {i : Int} (reached : ReachedFrom buf k i) : i = k := by
    rcases reached.head with rfl | ⟨_, _, _, yields, -⟩
    · rfl
    · rw [isDone] at yields
      cases yields
  refine ⟨?_, fun i reached field valueAt next yields => ?_, fun i reached inside _ => ?_⟩
  · rw [fieldsFrom, isDone]
    rfl
  · rw [only reached, isDone] at yields
    cases yields
  · rw [only reached] at inside
    omega

theorem strictFrom_refused {k : Nat} {why : String} (throws : readField buf k = .throw why) :
    StrictFrom buf k := by
  have only {i : Int} (reached : ReachedFrom buf k i) : i = k := by
    rcases reached.head with rfl | ⟨_, _, _, yields, -⟩
    · rfl
    · rw [throws] at yields
      cases yields
  refine ⟨?_, fun i reached field valueAt next yields => ?_, fun i reached _ _ => ?_⟩
  · rw [fieldsFrom, throws]
    rfl
  · rw [only reached, throws] at yields
    cases yields
  · rw [only reached]
    exact ⟨why, throws⟩

/-- One round forward over a whole field. -/
theorem strictFrom_yield {k next : Nat} {valueAt : Int} {field : Field}
    (yields : readField buf k = .yield field valueAt next) (inside : k < buf.length)
    (ahead : k < next) (atValue : k ≤ valueAt ∧ valueAt ≤ next)
    (whole : ¬ RunsPast (buf.drop k)) (later : StrictFrom buf next) : StrictFrom buf k := by
  have cases' {i : Int} (reached : ReachedFrom buf k i) : i = k ∨ ReachedFrom buf next i := by
    rcases reached.head with rfl | ⟨_, _, _, first, rest⟩
    · exact .inl rfl
    · rw [yields] at first
      cases first
      exact .inr rest
  refine ⟨?_, fun i reached other at' next' found => ?_, fun i reached inside' past => ?_⟩
  · obtain ⟨found, ends⟩ := Option.isSome_iff_exists.mp later.ends
    have enough := fieldsFrom_mono (show buf.length - next + 1 ≤ buf.length - k by omega) ends
    rw [fieldsFrom, yields]
    dsimp only
    rw [enough]
    rfl
  · rcases cases' reached with rfl | rest
    · rw [yields] at found
      cases found
      exact atValue
    · exact later.forward i rest other at' next' found
  · rcases cases' reached with rfl | rest
    · rw [bytesFrom_natCast] at past
      exact absurd past whole
    · exact later.refuses i rest inside' past

/-! ## Whole fields -/

/-- Over whole fields the iteration is strict. The induction is over the fields. -/
theorem Orderly.strictFrom {bytes : List UInt8} (orderly : Orderly bytes) {k : Nat}
    (isBytes : buf.drop k = bytes) : StrictFrom buf k := by
  induction orderly generalizing k with
  | nil => exact strictFrom_end (List.drop_eq_nil_iff.mp isBytes)
  | refused some' unknown =>
      subst isBytes
      have inside : k < buf.length := Nat.lt_of_not_le (mt List.drop_eq_nil_iff.mpr some')
      obtain ⟨why, throws⟩ := readField_refused inside unknown
      exact strictFrom_refused throws
  | @number bytes key rest value later isKey wire isValue _ ih =>
      subst isBytes
      obtain ⟨isRest, some'⟩ := splitNumber_eq_some isKey
      have isLater := (splitNumber_eq_some isValue).1
      have atRest := drop_add isRest
      rw [isLater] at atRest
      have yields := readField_number isKey wire
      rw [varintLoop_bigInt isValue, ← Int.natCast_add, ← Int.natCast_add] at yields
      have positive := List.length_pos_iff.mpr some'
      refine strictFrom_yield yields (lt_of_split isKey) (by omega) (by omega) ?_
        (ih (drop_add atRest))
      intro past
      rcases past key rest isKey with ⟨-, opens⟩ | ⟨is2, -⟩ | ⟨width, isWidth, -⟩
      · rw [isValue] at opens
        cases opens
      · omega
      · rw [wire] at isWidth
        cases isWidth
  | @fixed bytes key rest width isKey wire whole _ ih =>
      subst isBytes
      obtain ⟨isRest, some'⟩ := splitNumber_eq_some isKey
      have atRest := drop_add isRest
      have yields := readField_fixed isKey wire
      rw [← Int.natCast_add, ← Int.natCast_add] at yields
      have positive := List.length_pos_iff.mpr some'
      refine strictFrom_yield yields (lt_of_split isKey) (by omega) (by omega) ?_
        (ih (by rw [← List.drop_drop, atRest]))
      intro past
      rcases past key rest isKey with ⟨is0, -⟩ | ⟨is2, -⟩ | ⟨other, isWidth, short⟩
      · rw [is0] at wire
        cases wire
      · rw [is2] at wire
        cases wire
      · rw [wire] at isWidth
        cases isWidth
        omega
  | @delimited bytes key rest size body isKey wire isSize whole natural _ ih =>
      subst isBytes
      obtain ⟨isRest, some'⟩ := splitNumber_eq_some isKey
      have isBody := (splitNumber_eq_some isSize).1
      have atRest := drop_add isRest
      rw [isBody] at atRest
      have atBody := drop_add atRest
      have yields := readField_delimited isKey wire isSize
      generalize signedLength size = length at natural yields ih
      obtain ⟨len, rfl⟩ := Int.eq_ofNat_of_zero_le natural
      rw [Int.toNat_natCast] at ih
      rw [← Int.natCast_add, ← Int.natCast_add, ← Int.natCast_add] at yields
      have positive := List.length_pos_iff.mpr some'
      refine strictFrom_yield yields (lt_of_split isKey) (by omega) (by omega) ?_
        (ih (by rw [← List.drop_drop, atBody]))
      intro past
      rcases past key rest isKey with ⟨is0, -⟩ | ⟨-, short⟩ | ⟨width, isWidth, -⟩
      · omega
      · exact absurd (short size body isSize) (Nat.not_lt.mpr whole)
      · rw [wire] at isWidth
        cases isWidth

theorem exists_yield {k : Nat} (inside : k < buf.length)
    (known : wireOf (buf.drop k) ∈ [0, 1, 2, 5]) :
    ∃ field valueAt next, readField buf k = .yield field valueAt next := by
  simp only [List.mem_cons, List.not_mem_nil, or_false, wireOf] at known
  rw [readField, if_neg (by omega), bytesFrom_natCast]
  dsimp only
  rcases known with is0 | is1 | is2 | is5
  · rw [if_pos is0]
    exact ⟨_, _, _, rfl⟩
  · rw [if_neg (by omega), if_neg (by omega), if_neg (by omega), if_pos is1]
    exact ⟨_, _, _, rfl⟩
  · rw [if_neg (by omega), if_pos is2]
    exact ⟨_, _, _, rfl⟩
  · rw [if_neg (by omega), if_neg (by omega), if_pos is5]
    exact ⟨_, _, _, rfl⟩

/-- A strict iteration goes over whole fields. The induction is on the number of bytes that are
left. -/
theorem orderly_of_strict {k : Nat}
    (forward : ∀ i, ReachedFrom buf k i → ∀ field valueAt next,
      readField buf i = .yield field valueAt next → i ≤ valueAt ∧ valueAt ≤ next)
    (refuses : ∀ i, ReachedFrom buf k i → i < buf.length → RunsPast (bytesFrom buf i) →
      ∃ why, readField buf i = .throw why) : Orderly (buf.drop k) := by
  induction left : buf.length - k using Nat.strongRecOn generalizing k with
  | ind count ih =>
      by_cases past : buf.length ≤ k
      · rw [List.drop_eq_nil_of_le past]
        exact .nil
      · have inside : k < buf.length := Nat.lt_of_not_le past
        have some' : buf.drop k ≠ [] := by
          rw [Ne, List.drop_eq_nil_iff]
          exact past
        by_cases known : wireOf (buf.drop k) ∈ [0, 1, 2, 5]
        · -- the field is yielded, so it does not run past the end
          have ahead {next' : Nat} {other : Field} {at' : Int} (further : k < next')
              (again : readField buf k = .yield other at' next') : Orderly (buf.drop next') :=
            ih (buf.length - next') (by omega)
              (fun i reached => forward i (reached.cons again))
              (fun i reached => refuses i (reached.cons again)) rfl
          obtain ⟨field, valueAt, next, yields⟩ := exists_yield inside known
          have whole : ¬ RunsPast (buf.drop k) := by
            intro past
            obtain ⟨why, throws⟩ := refuses k .start (by omega) (by rwa [bytesFrom_natCast])
            rw [yields] at throws
            cases throws
          simp only [RunsPast, Classical.not_forall, not_or, not_exists, not_and] at whole
          obtain ⟨key, rest, isKey, number, delimited, fixed⟩ := whole
          obtain ⟨isRest, someKey⟩ := splitNumber_eq_some isKey
          have atRest := drop_add isRest
          have positive := List.length_pos_iff.mpr someKey
          simp only [List.mem_cons, List.not_mem_nil, or_false] at known
          have widths (width : Nat) (wire : fixedWidth (wireOf (buf.drop k)) = some width) :
              Orderly (buf.drop k) := by
            have again := readField_fixed isKey wire
            rw [← Int.natCast_add, ← Int.natCast_add] at again
            refine .fixed isKey wire (Nat.not_lt.mp (fixed width wire)) ?_
            rw [← atRest, List.drop_drop]
            exact ahead (by omega) again
          rcases known with is0 | is1 | is2 | is5
          · obtain ⟨⟨value, later⟩, isValue⟩ := Option.ne_none_iff_exists'.mp (number is0)
            have isLater := (splitNumber_eq_some isValue).1
            have again := readField_number isKey is0
            rw [varintLoop_bigInt isValue, ← Int.natCast_add, ← Int.natCast_add] at again
            refine .number isKey is0 isValue ?_
            rw [← drop_add (atRest.trans isLater)]
            exact ahead (by omega) again
          · exact widths 8 (by rw [is1]; rfl)
          · obtain ⟨size, body, isSize, inside'⟩ := delimited is2
            have isBody := (splitNumber_eq_some isSize).1
            have again := readField_delimited isKey is2 isSize
            have natural : 0 ≤ signedLength size := by
              have onward := (forward k .start _ _ _ again).2
              omega
            refine .delimited isKey is2 isSize (Nat.not_lt.mp inside') natural ?_
            generalize signedLength size = length at natural again ⊢
            obtain ⟨len, rfl⟩ := Int.eq_ofNat_of_zero_le natural
            rw [← Int.natCast_add, ← Int.natCast_add, ← Int.natCast_add] at again
            rw [Int.toNat_natCast, ← drop_add (atRest.trans isBody), List.drop_drop]
            exact ahead (by omega) again
          · exact widths 4 (by rw [is5]; rfl)
        · exact .refused some' known

/-- The iteration over a buffer is total and strict exactly if the buffer consists of whole
fields, up to its end or to a key of an unknown wire type. -/
theorem strictFrom_iff (buf : List UInt8) : StrictFrom buf 0 ↔ Orderly buf := by
  constructor
  · intro strict
    have orderly := orderly_of_strict strict.forward strict.refuses
    rwa [List.drop_zero] at orderly
  · intro orderly
    exact orderly.strictFrom List.drop_zero

/-- A payload whose length reads as minus six. -/
def backward : List UInt8 := [0x0a, 0xfa, 0xff, 0xff, 0xff, 0x0f]

/-- It is yielded, and the next field begins where this one did: the iteration does not end. -/
theorem backward_not_strict :
    readField backward 0 = .yield ⟨1, 2, .bytes []⟩ 6 0 ∧
      (∀ fuel, fieldsFrom backward fuel 0 = none) ∧ ¬ StrictFrom backward 0 := by
  have first : readField backward 0 = .yield ⟨1, 2, .bytes []⟩ 6 0 := by decide +kernel
  have never (fuel : Nat) : fieldsFrom backward fuel 0 = none := by
    induction fuel with
    | zero => rfl
    | succ fuel ih =>
        rw [fieldsFrom, first]
        dsimp only
        rw [ih]
        rfl
  refine ⟨first, never, fun strict => ?_⟩
  have ends := strict.ends
  rw [Nat.cast_zero, never] at ends
  cases ends

end Icegres.FlightWeb
