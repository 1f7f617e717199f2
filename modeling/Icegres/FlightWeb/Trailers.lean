import Mathlib.Data.List.TakeWhile
import Icegres.FlightWeb.Call

/-!
# Trailers

The status that the client reads in the text of the trailers is the first one that is mentioned
there. This is the one that the trailers carry, unless a line before mentions another one.
-/

namespace Icegres.FlightWeb

/-! ## What trailers are -/

def statusName : List Char := "grpc-status".toList

/-- A character of a header's name: visible, and no colon. -/
def isNameChar (c : Char) : Bool :=
  '!' ≤ c && c ≤ '~' && c ≠ ':'

/-- A character of a header's value. -/
def isValueChar (c : Char) : Bool :=
  c = '\t' || (' ' ≤ c && c ≤ '~')

/-- The header lines of the trailers, each a name and a value. The value of a status is a number,
with blanks around it. -/
structure Trailers where
  lines : List (List Char × List Char)
  names : ∀ line ∈ lines, ∀ c ∈ line.1, isNameChar c
  values : ∀ line ∈ lines, ∀ c ∈ line.2, isValueChar c
  statuses : ∀ line ∈ lines, line.1 = statusName →
    ∃ before digits after, line.2 = before ++ digits ++ after ∧
      (∀ c ∈ before ++ after, c = ' ' ∨ c = '\t') ∧ digits ≠ [] ∧ ∀ c ∈ digits, c.isDigit

namespace Trailers

def lineText (line : List Char × List Char) : List Char :=
  line.1 ++ ':' :: line.2 ++ ['\r', '\n']

def text (trailers : Trailers) : List Char :=
  trailers.lines.flatMap lineText

def payload (trailers : Trailers) : List UInt8 :=
  trailers.text.map fun c => UInt8.ofNat c.toNat

/-- The status that the trailers carry; without one a call was in order. -/
def status (trailers : Trailers) : Nat :=
  match trailers.lines.find? fun line => line.1 = statusName with
  | some line => numberOf ((line.2.filter Char.isDigit))
  | none => 0

end Trailers

/-- The text mentions a status behind `before`: its name, whitespace, and all digits of a
number. -/
def Mention (text before digits : List Char) : Prop :=
  ∃ spaces after, text = before ++ statusName ++ ':' :: spaces ++ digits ++ after ∧
    (∀ c ∈ spaces, isSpace c) ∧ digits ≠ [] ∧ (∀ c ∈ digits, c.isDigit) ∧
    ∀ c ∈ after.head?, ¬ c.isDigit

/-- The digits of the first status that is mentioned. -/
def FirstMention (text digits : List Char) : Prop :=
  ∃ before, Mention text before digits ∧
    ∀ other digits', Mention text other digits' → before.length ≤ other.length

/-- The first mention of a status in the trailers is zero exactly if their status is. -/
def Trailers.Clear (trailers : Trailers) : Prop :=
  ∀ digits, FirstMention trailers.text digits → (numberOf digits = 0 ↔ trailers.status = 0)

/-! ## What the expression finds -/

/-- What a match at some place of a text says, and that there is none before. -/
theorem firstMatch_eq_some {Match : Type} {here : List Char → Option Match} {text : List Char}
    {found : Match} (isFound : firstMatch here text = some found) :
    ∃ before rest, text = before ++ rest ∧ here rest = some found ∧
      ∀ other rest', text = other ++ rest' → other.length < before.length →
        here rest' = none := by
  induction text with
  | nil => exact ⟨[], [], rfl, isFound, fun _ _ _ shorter => absurd shorter (Nat.not_lt_zero _)⟩
  | cons c later ih =>
      rw [firstMatch] at isFound
      cases first : here (c :: later) with
      | some other =>
          rw [first, Option.some_or] at isFound
          cases isFound
          exact ⟨[], c :: later, rfl, first, fun _ _ _ shorter => absurd shorter (Nat.not_lt_zero _)⟩
      | none =>
          rw [first, Option.none_or] at isFound
          obtain ⟨before, rest, same, matches', earlier⟩ := ih isFound
          refine ⟨c :: before, rest, by rw [same, List.cons_append], matches', ?_⟩
          rintro (_ | ⟨d, other⟩) rest' split shorter
          · rw [List.nil_append] at split
            rw [← split, first]
          · rw [List.cons_append] at split
            exact earlier other rest' (List.cons.inj split).2 (Nat.lt_of_succ_lt_succ shorter)

theorem firstMatch_eq_none {Match : Type} {here : List Char → Option Match} {text : List Char}
    (none' : firstMatch here text = none) {before rest : List Char}
    (same : text = before ++ rest) : here rest = none := by
  induction text generalizing before with
  | nil =>
      obtain ⟨rfl, rfl⟩ := List.append_eq_nil_iff.mp same.symm
      exact none'
  | cons c later ih =>
      rw [firstMatch, Option.or_eq_none_iff] at none'
      cases before with
      | nil =>
          rw [List.nil_append] at same
          rw [← same]
          exact none'.1
      | cons d before => exact ih none'.2 (List.cons.inj same).2

theorem head?_dropWhile {test : Char → Bool} {text : List Char} {c : Char}
    (first : c ∈ (text.dropWhile test).head?) : ¬ test c := by
  have stops := List.head?_dropWhile_not test text
  rw [first] at stops
  exact Bool.eq_false_iff.mp stops

/-- A text before which everything passes the test. -/
theorem span_eq {test : Char → Bool} {front rest : List Char} (passes : ∀ c ∈ front, test c)
    (stops : ∀ c ∈ rest.head?, ¬ test c) :
    (front ++ rest).takeWhile test = front ∧ (front ++ rest).dropWhile test = rest := by
  rw [List.takeWhile_append_of_pos passes, List.dropWhile_append_of_pos passes]
  cases rest with
  | nil => simp
  | cons c later =>
      have not := stops c rfl
      rw [List.takeWhile_cons_of_neg not, List.dropWhile_cons_of_neg not]
      simp

theorem not_isSpace_of_isDigit {c : Char} (isDigit : c.isDigit) : ¬ isSpace c := by
  have low : 48 ≤ c.val.toNat := by
    simp only [Char.isDigit, Bool.and_eq_true, decide_eq_true_eq] at isDigit
    exact UInt32.le_iff_toNat_le.mp isDigit.1
  have high : c.val.toNat ≤ 57 := by
    simp only [Char.isDigit, Bool.and_eq_true, decide_eq_true_eq] at isDigit
    exact UInt32.le_iff_toNat_le.mp isDigit.2
  simp only [isSpace, List.mem_cons, List.not_mem_nil, or_false, Bool.or_eq_true,
    Bool.and_eq_true, decide_eq_true_eq, UInt32.le_iff_toNat_le, ← UInt32.toNat_inj]
  simp only [UInt32.reduceToNat]
  omega

/-- The expression matches where a status is mentioned. -/
theorem statusAt_eq_some_iff {text digits : List Char} :
    statusAt text = some digits ↔ Mention text [] digits := by
  have isName : "grpc-status:".toList = statusName ++ [':'] := by decide
  constructor
  · intro found
    rw [statusAt, behind, isName] at found
    split at found
    · next atFront =>
      obtain ⟨tail, rfl⟩ := atFront
      rw [List.drop_left, Option.bind_some] at found
      split at found
      · cases found
      · next some' =>
        cases found
        refine ⟨tail.takeWhile isSpace, (tail.dropWhile isSpace).dropWhile Char.isDigit, ?_, ?_,
          some', ?_, fun c first => head?_dropWhile first⟩
        · simp only [List.nil_append, List.append_assoc, List.cons_append,
            List.takeWhile_append_dropWhile]
        · exact fun c mem => (List.mem_takeWhile_imp mem)
        · exact fun c mem => (List.mem_takeWhile_imp mem)
    · cases found
  · rintro ⟨spaces, after, rfl, areSpaces, some', areDigits, stops⟩
    have isText : [] ++ statusName ++ ':' :: spaces ++ digits ++ after =
        (statusName ++ [':']) ++ (spaces ++ (digits ++ after)) := by
      simp
    have noSpace : ∀ c ∈ (digits ++ after).head?, ¬ isSpace c := by
      intro c first
      rcases digits with _ | ⟨d, rest⟩
      · exact absurd rfl some'
      · cases first
        exact not_isSpace_of_isDigit (areDigits _ List.mem_cons_self)
    rw [statusAt, behind, isName, isText, if_pos (List.prefix_append _ _), List.drop_left,
      (span_eq areSpaces noSpace).2, Option.bind_some, (span_eq areDigits stops).1, if_neg some']

/-- What the client reads is the first mention of a status. -/
theorem firstMatch_status {text : List Char} :
    (∀ digits, firstMatch statusAt text = some digits → FirstMention text digits) ∧
      (firstMatch statusAt text = none → ∀ before digits, ¬ Mention text before digits) := by
  have shift {before rest digits : List Char} (mention : Mention rest [] digits) :
      Mention (before ++ rest) before digits := by
    obtain ⟨spaces, after, rfl, others⟩ := mention
    exact ⟨spaces, after, by simp, others⟩
  have atPlace {text before digits : List Char} (mention : Mention text before digits) :
      ∃ rest, text = before ++ rest ∧ statusAt rest = some digits := by
    obtain ⟨spaces, after, rfl, others⟩ := mention
    refine ⟨statusName ++ ':' :: spaces ++ digits ++ after, by simp, ?_⟩
    exact statusAt_eq_some_iff.mpr ⟨spaces, after, by simp, others⟩
  constructor
  · intro digits found
    obtain ⟨before, rest, rfl, matches', earlier⟩ := firstMatch_eq_some found
    refine ⟨before, shift (statusAt_eq_some_iff.mp matches'), fun other digits' mention => ?_⟩
    obtain ⟨rest', same, again⟩ := atPlace mention
    by_contra shorter
    rw [earlier other rest' same (by omega)] at again
    cases again
  · intro none' before digits mention
    obtain ⟨rest, same, again⟩ := atPlace mention
    rw [firstMatch_eq_none none' same] at again
    cases again

/-- The first mention has one number. -/
theorem FirstMention.unique {text digits other : List Char} (first : FirstMention text digits)
    (again : FirstMention text other) : digits = other := by
  obtain ⟨before, ⟨spaces, after, isText, areSpaces, some', areDigits, stops⟩, least⟩ := first
  obtain ⟨before', ⟨spaces', after', isText', areSpaces', some'', areDigits', stops'⟩, least'⟩ :=
    again
  have length := least before' other ⟨spaces', after', isText', areSpaces', some'', areDigits', stops'⟩
  have length' := least' before digits ⟨spaces, after, isText, areSpaces, some', areDigits, stops⟩
  have same := isText.symm.trans isText'
  simp only [List.append_assoc, List.cons_append] at same
  obtain ⟨-, rest⟩ := List.append_inj same (by omega)
  have found : statusAt (statusName ++ ':' :: (spaces ++ (digits ++ after))) = some digits :=
    statusAt_eq_some_iff.mpr ⟨spaces, after, by simp, areSpaces, some', areDigits, stops⟩
  have found' : statusAt (statusName ++ ':' :: (spaces' ++ (other ++ after'))) = some other :=
    statusAt_eq_some_iff.mpr ⟨spaces', after', by simp, areSpaces', some'', areDigits', stops'⟩
  rw [rest, found'] at found
  exact (Option.some.inj found).symm

/-! ## What the client reads -/

namespace Trailers

variable (trailers : Trailers)

theorem toNat_lt_of_isNameChar {c : Char} (isName : isNameChar c) : c.toNat < 128 := by
  simp only [isNameChar, Bool.and_eq_true, decide_eq_true_eq] at isName
  have high := UInt32.le_iff_toNat_le.mp (Char.le_def.mp isName.1.2)
  exact Nat.lt_of_le_of_lt high (by decide)

theorem toNat_lt_of_isValueChar {c : Char} (isValue : isValueChar c) : c.toNat < 128 := by
  simp only [isValueChar, Bool.or_eq_true, Bool.and_eq_true, decide_eq_true_eq] at isValue
  rcases isValue with rfl | ⟨-, isHigh⟩
  · decide
  · have high := UInt32.le_iff_toNat_le.mp (Char.le_def.mp isHigh)
    exact Nat.lt_of_le_of_lt high (by decide)

theorem text_ascii : ∀ c ∈ trailers.text, c.toNat < 128 := by
  intro c mem
  obtain ⟨line, isLine, inside⟩ := List.mem_flatMap.mp mem
  simp only [lineText, List.mem_append, List.mem_cons, List.not_mem_nil, or_false] at inside
  rcases inside with (inName | rfl | inValue) | rfl | rfl
  · exact toNat_lt_of_isNameChar (trailers.names line isLine c inName)
  · decide
  · exact toNat_lt_of_isValueChar (trailers.values line isLine c inValue)
  · decide
  · decide

theorem decodeFrom_ascii {text : List Char} (ascii : ∀ c ∈ text, c.toNat < 128) :
    decodeFrom none (text.map fun c => UInt8.ofNat c.toNat) = text := by
  induction text with
  | nil => rfl
  | cons c rest ih =>
      have small := ascii c List.mem_cons_self
      have isByte : (UInt8.ofNat c.toNat).toNat = c.toNat := by
        rw [UInt8.toNat_ofNat']
        omega
      rw [List.map_cons, decodeFrom, isByte, startChar, if_pos small,
        ih fun d mem => ascii d (List.mem_cons_of_mem _ mem), Char.ofNat_toNat]
      rfl

theorem textDecode_payload : textDecode trailers.payload = trailers.text := by
  have ascii := trailers.text_ascii
  rw [textDecode, payload, decodeFrom_ascii ascii]
  split
  · next rest isText =>
    rw [isText] at ascii
    exact absurd (ascii _ List.mem_cons_self) (by decide)
  · rfl

/-- A status other than zero is mentioned. -/
theorem exists_mention (some' : trailers.status ≠ 0) :
    ∃ before digits, Mention trailers.text before digits := by
  rw [status] at some'
  split at some'
  · next line isFound =>
    have isName : line.1 = statusName := by simpa using List.find?_some isFound
    have mem := List.mem_of_find?_eq_some isFound
    obtain ⟨spaces, digits, after, isValue, blanks, someDigits, areDigits⟩ :=
      trailers.statuses line mem isName
    obtain ⟨first, last, isLines⟩ := List.append_of_mem mem
    refine ⟨first.flatMap lineText, digits, spaces,
      after ++ ['\r', '\n'] ++ last.flatMap lineText, ?_, ?_, someDigits, areDigits, ?_⟩
    · rw [text, isLines, List.flatMap_append, List.flatMap_cons, lineText, isName, isValue]
      simp
    · intro c inSpaces
      rcases blanks c (List.mem_append_left _ inSpaces) with rfl | rfl <;> decide
    · intro c isFirst
      rcases after with _ | ⟨d, rest⟩
      · cases isFirst
        decide
      · cases isFirst
        rcases blanks _ (List.mem_append_right _ List.mem_cons_self) with rfl | rfl <;> decide
  · exact absurd rfl some'

/-- The client ends as the status says exactly if the first mention of a status does. -/
theorem readTrailers_iff :
    (readTrailers trailers.payload = .ended ↔ trailers.status = 0) ↔ trailers.Clear := by
  have reads : readTrailers trailers.payload = .ended ↔
      ((firstMatch statusAt trailers.text).map numberOf).getD 0 = 0 := by
    rw [readTrailers, textDecode_payload]
    split
    · next nonzero =>
      split <;> simp [nonzero]
    · next zero => simpa using zero
  obtain ⟨mentions, none'⟩ := @firstMatch_status trailers.text
  rw [reads]
  cases found : firstMatch statusAt trailers.text with
  | some digits =>
      have first := mentions digits found
      constructor
      · intro same digits' again
        rw [← first.unique again]
        exact same
      · intro clear
        exact clear digits first
  | none =>
      have nowhere := none' found
      have zero : trailers.status = 0 := by
        by_contra some'
        obtain ⟨before, digits, mention⟩ := trailers.exists_mention some'
        exact nowhere before digits mention
      constructor
      · rintro - digits ⟨before, mention, -⟩
        exact absurd mention (nowhere before digits)
      · intro _
        simp [zero]

end Trailers

end Icegres.FlightWeb
