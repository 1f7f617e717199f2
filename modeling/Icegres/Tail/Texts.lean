import Mathlib.Tactic.IntervalCases
import Mathlib.Tactic.Ring
import Icegres.Tail.Scan

/-!
# Names and markers as they are written

The id of a segment and the numbers of its poison marker are written as text, and read back as
they were.
-/

namespace Icegres.Tail

/-- The file of a segment. With sixteen digits the order of the names is that of the ids. -/
def segmentName (id : Nat) : String :=
  String.ofList (List.leftpad 16 '0' (Nat.toDigits 16 id)) ++ ".seg"

/-- The last durable length, and the sequence numbering resumes at. -/
def poisonMarkerText (syncedLen nextSeq : Nat) : String :=
  s!"{syncedLen} {nextSeq}"

/-! ## Digits -/

section Digits

variable {base : Nat}

/-- One more digit is read. -/
def readDigit (base value : Nat) (char : Char) : Option Nat :=
  (digitValue base char).map fun digit => value * base + digit

theorem digitValue_digitChar (bounded : base ≤ 16) {digit : Nat} (isDigit : digit < base) :
    digitValue base (Nat.digitChar digit) = some digit := by
  have small : digit < 16 := Nat.lt_of_lt_of_le isDigit bounded
  unfold digitValue
  interval_cases digit <;> simp [isDigit, Nat.digitChar]

/-- The digits of a number behind those read so far. -/
theorem foldlM_toDigits (positive : 1 < base) (bounded : base ≤ 16) (number value : Nat) :
    (Nat.toDigits base number).foldlM (readDigit base) value =
      some (value * base ^ (Nat.toDigits base number).length + number) := by
  induction number using Nat.strongRecOn generalizing value with
  | ind number ih =>
      by_cases small : number < base
      · rw [Nat.toDigits_of_lt_base small, List.foldlM_cons, readDigit,
          digitValue_digitChar bounded small]
        simp
      · have large : base ≤ number := Nat.not_lt.mp small
        have less : number / base < number := Nat.div_lt_self (by omega) positive
        have digit : number % base < base := Nat.mod_lt _ (by omega)
        rw [Nat.toDigits_of_base_le positive large, List.foldlM_append, ih _ less,
          List.length_append, List.length_singleton, Nat.pow_succ]
        simp only [Option.bind_eq_bind, Option.bind_some, List.foldlM_cons, readDigit,
          digitValue_digitChar bounded digit, Option.map_some, List.foldlM_nil]
        have parts := Nat.div_add_mod number base
        refine congrArg some ?_
        calc (value * base ^ (Nat.toDigits base (number / base)).length + number / base) * base +
              number % base
            = value * (base ^ (Nat.toDigits base (number / base)).length * base) +
                (base * (number / base) + number % base) := by ring
          _ = _ := by rw [parts]

theorem exists_digit_of_mem (positive : 1 < base) {number : Nat} {char : Char}
    (mem : char ∈ Nat.toDigits base number) : ∃ digit < base, char = Nat.digitChar digit := by
  induction number using Nat.strongRecOn with
  | ind number ih =>
      by_cases small : number < base
      · rw [Nat.toDigits_of_lt_base small] at mem
        exact ⟨number, small, List.mem_singleton.mp mem⟩
      · rw [Nat.toDigits_of_base_le positive (Nat.not_lt.mp small)] at mem
        rcases List.mem_append.mp mem with front | last
        · exact ih _ (Nat.div_lt_self (by omega) positive) front
        · exact ⟨number % base, Nat.mod_lt _ (by omega), List.mem_singleton.mp last⟩

/-- A digit is neither a sign nor white space. -/
theorem digitChar_plain : ∀ digit < 16,
    Nat.digitChar digit ≠ '+' ∧ isWhitespace (Nat.digitChar digit) = false := by
  decide

/-- Zeros in front of a number are read over. -/
theorem foldlM_zeros (bounded : base ≤ 16) (positive : 0 < base) (count : Nat) :
    (List.replicate count '0').foldlM (readDigit base) 0 = some 0 := by
  induction count with
  | zero => rfl
  | succ count ih =>
      have zero : digitValue base '0' = some 0 := digitValue_digitChar bounded positive
      rw [List.replicate_succ, List.foldlM_cons, readDigit, zero]
      simpa using ih

theorem parseU64_eq (text : List Char) (plain : text.head? ≠ some '+') :
    parseU64 base text =
      if text = [] then none
      else (text.foldlM (readDigit base) 0).bind fun value =>
        if value < 2 ^ 64 then some value else none := by
  have step : (fun value char => do
      return value * base + (← digitValue base char) : Nat → Char → Option Nat) =
        readDigit base := by
    funext value char
    cases read : digitValue base char <;> simp [readDigit, read]
  unfold parseU64
  split
  · exact absurd rfl plain
  · rw [step]
    rfl

/-- A number is read back from its digits. -/
theorem parseU64_toDigits (positive : 1 < base) (bounded : base ≤ 16) {number : Nat} (zeros : Nat) :
    parseU64 base (List.replicate zeros '0' ++ Nat.toDigits base number) =
      if number < 2 ^ 64 then some number else none := by
  have plain : (List.replicate zeros '0' ++ Nat.toDigits base number).head? ≠ some '+' := by
    intro first
    rcases List.mem_append.mp (List.mem_of_mem_head? first) with zero | digit
    · exact absurd (List.eq_of_mem_replicate zero) (by decide)
    · obtain ⟨value, small, isChar⟩ := exists_digit_of_mem positive digit
      exact (digitChar_plain value (Nat.lt_of_lt_of_le small bounded)).1 isChar.symm
  rw [parseU64_eq _ plain, if_neg (by simp), List.foldlM_append, foldlM_zeros bounded (by omega)]
  simp [foldlM_toDigits positive bounded]

end Digits

/-! ## The id in a name -/

theorem segmentName_digits (id : Nat) :
    (segmentName id).toList.take ((segmentName id).toList.length - ".seg".length) =
      List.replicate (16 - (Nat.toDigits 16 id).length) '0' ++ Nat.toDigits 16 id := by
  have chars : (segmentName id).toList =
      (List.replicate (16 - (Nat.toDigits 16 id).length) '0' ++ Nat.toDigits 16 id) ++
        ".seg".toList := by
    simp [segmentName]
  rw [chars, List.length_append]
  exact (congrArg (List.take · _) (Nat.add_sub_cancel _ _)).trans List.take_left

theorem segmentId_segmentName {id : Nat} (fits : id < 2 ^ 64) :
    segmentId (segmentName id) = some id := by
  rw [segmentId, segmentName_digits, parseU64_toDigits (by decide) (by decide), if_pos fits]

/-- Segments with different ids have different files. -/
theorem segmentName_inj {id other : Nat} (same : segmentName id = segmentName other) :
    id = other := by
  have digits : (List.replicate (16 - (Nat.toDigits 16 id).length) '0' ++
      Nat.toDigits 16 id).foldlM (readDigit 16) 0 =
        (List.replicate (16 - (Nat.toDigits 16 other).length) '0' ++
          Nat.toDigits 16 other).foldlM (readDigit 16) 0 := by
    rw [← segmentName_digits, ← segmentName_digits, same]
  simpa [List.foldlM_append, foldlM_zeros, foldlM_toDigits] using digits

/-! ## The numbers of a marker -/

theorem splitWhitespace_word {word rest : List Char} (some' : word ≠ [])
    (noSpace : ∀ char ∈ word, isWhitespace char = false) :
    splitWhitespace (word ++ ' ' :: rest) = word :: splitWhitespace rest := by
  induction word with
  | nil => exact absurd rfl some'
  | cons char word ih =>
      have space : isWhitespace ' ' = true := by decide
      have plain := noSpace char List.mem_cons_self
      cases word with
      | nil => simp [splitWhitespace, plain, space]
      | cons next word =>
          have after := ih (by simp) fun char mem => noSpace char (List.mem_cons_of_mem _ mem)
          have nextPlain := noSpace next (by simp)
          simp only [List.cons_append] at after ⊢
          rw [splitWhitespace.eq_def]
          simp [plain, nextPlain, after]

theorem splitWhitespace_last {word : List Char} (some' : word ≠ [])
    (noSpace : ∀ char ∈ word, isWhitespace char = false) : splitWhitespace word = [word] := by
  induction word with
  | nil => exact absurd rfl some'
  | cons char word ih =>
      have plain := noSpace char List.mem_cons_self
      cases word with
      | nil => simp [splitWhitespace, plain]
      | cons next word =>
          have after := ih (by simp) fun char mem => noSpace char (List.mem_cons_of_mem _ mem)
          have nextPlain := noSpace next (by simp)
          rw [splitWhitespace]
          simp [plain, nextPlain, after]

theorem noSpace_toDigits (number : Nat) :
    ∀ char ∈ Nat.toDigits 10 number, isWhitespace char = false := by
  intro char mem
  obtain ⟨digit, small, rfl⟩ := exists_digit_of_mem (by decide) mem
  exact (digitChar_plain digit (by omega)).2

/-- A marker is read as it was written, unless its numbers are too large to be read at all. -/
theorem readPoisonMarker_text (syncedLen nextSeq : Nat) :
    readPoisonMarker (poisonMarkerText syncedLen nextSeq) =
      if syncedLen < 2 ^ 64 then
        some ⟨syncedLen, if nextSeq < 2 ^ 64 then some nextSeq else none⟩
      else none := by
  have chars : (poisonMarkerText syncedLen nextSeq).toList =
      Nat.toDigits 10 syncedLen ++ ' ' :: Nat.toDigits 10 nextSeq := by
    simp [poisonMarkerText, toString]
  have words : splitWhitespace (poisonMarkerText syncedLen nextSeq).toList =
      [Nat.toDigits 10 syncedLen, Nat.toDigits 10 nextSeq] := by
    rw [chars, splitWhitespace_word Nat.toDigits_ne_nil (noSpace_toDigits _),
      splitWhitespace_last Nat.toDigits_ne_nil (noSpace_toDigits _)]
  have first := @parseU64_toDigits 10 (by decide) (by decide) syncedLen 0
  have second := @parseU64_toDigits 10 (by decide) (by decide) nextSeq 0
  rw [List.replicate_zero, List.nil_append] at first second
  simp only [readPoisonMarker, words, first, List.head?_cons, Option.bind_some, second]
  by_cases fits : syncedLen < 2 ^ 64
  · rw [if_pos fits, if_pos fits, Option.map_some]
  · rw [if_neg fits, if_neg fits, Option.map_none]

end Icegres.Tail
