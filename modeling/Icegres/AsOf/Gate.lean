import Icegres.AsOf.Splice
import Mathlib.Data.List.TakeDrop
import Mathlib.Data.List.TakeWhile

/-!
# The gate before the tokens

The gate lets exactly the texts through in which the letters of the two words stand with ASCII
whitespace, and nothing else, between them. For the tokenizer a comment separates them just as well.
-/

namespace Icegres.AsOf

/-! ## The scan -/

/-- The word `AS`, whitespace, and the word `OF`. -/
def Spaced (b : List UInt8) : Prop :=
  ∃ before a s blanks o f after, b = before ++ a :: s :: (blanks ++ o :: f :: after) ∧
    isLetter a 0x61 ∧ isLetter s 0x73 ∧ isLetter o 0x6f ∧ isLetter f 0x66 ∧
    blanks ≠ [] ∧ (∀ c ∈ blanks, isAsciiWhitespace c) ∧
    (∀ c ∈ before.getLast?, ¬ isWord c) ∧ ∀ c ∈ after.head?, ¬ isWord c

theorem not_isWord_of_isAsciiWhitespace {c : UInt8} (blank : isAsciiWhitespace c) :
    ¬ isWord c := by
  have listed : c ∈ [0x20, 0x09, 0x0a, 0x0c, 0x0d] := by simpa [isAsciiWhitespace] using blank
  simp only [List.mem_cons, List.not_mem_nil, or_false] at listed
  rcases listed with rfl | rfl | rfl | rfl | rfl <;> decide

theorem isWord_of_isLetter {c : UInt8} (letter : isLetter c 0x6f) :
    isWord c ∧ ¬ isAsciiWhitespace c := by
  have either : c = 0x6f ∨ c = 0x4f := by simpa [isLetter] using letter
  rcases either with rfl | rfl <;> decide

theorem ofBehind_iff {rest : List UInt8} :
    ofBehind rest ↔ ∃ blanks o f after, rest = blanks ++ o :: f :: after ∧
      isLetter o 0x6f ∧ isLetter f 0x66 ∧ blanks ≠ [] ∧ (∀ c ∈ blanks, isAsciiWhitespace c) ∧
      ∀ c ∈ after.head?, ¬ isWord c := by
  constructor
  · intro behind
    rw [ofBehind, Bool.and_eq_true] at behind
    obtain ⟨ends, behind⟩ := behind
    split at behind
    · next o f after isRest =>
      simp only [Bool.and_eq_true] at behind
      have parts : rest = rest.takeWhile isAsciiWhitespace ++ o :: f :: after := by
        rw [← isRest, List.takeWhile_append_dropWhile]
      refine ⟨rest.takeWhile isAsciiWhitespace, o, f, after, parts, behind.1.1, behind.1.2, ?_,
        fun c mem => List.mem_takeWhile_imp mem, ?_⟩
      · intro none'
        rw [none', List.nil_append] at parts
        rw [parts, List.head?_cons, Option.all_some, (isWord_of_isLetter behind.1.1).1] at ends
        cases ends
      · intro c head
        have free := behind.2
        rw [Option.mem_def.mp head] at free
        simpa using free
    · cases behind
  · rintro ⟨blanks, o, f, after, rfl, isO, isF, some', blank, free⟩
    obtain ⟨c, more, rfl⟩ := List.exists_cons_of_ne_nil some'
    have first := not_isWord_of_isAsciiWhitespace (blank c List.mem_cons_self)
    have isRest : (c :: more ++ o :: f :: after).dropWhile isAsciiWhitespace = o :: f :: after := by
      rw [List.dropWhile_append_of_pos blank, List.dropWhile_cons_of_neg (isWord_of_isLetter isO).2]
    rw [ofBehind, isRest]
    cases after with
    | nil => simp [isO, isF, first]
    | cons d later => simpa [isO, isF, first] using free

/-- From a place on, the byte before it known. -/
theorem gateFrom_iff {prev : Option UInt8} {b : List UInt8} :
    gateFrom prev b ↔ ∃ before a s rest, b = before ++ a :: s :: rest ∧
      isLetter a 0x61 ∧ isLetter s 0x73 ∧ ofBehind rest ∧
      ∀ c ∈ before.getLast?.or prev, ¬ isWord c := by
  induction b generalizing prev with
  | nil =>
      refine iff_of_false (by simp [gateFrom]) ?_
      rintro ⟨before, a, s, rest, isNil, -⟩
      simp at isNil
  | cons a tail ih =>
      cases tail with
      | nil =>
          refine iff_of_false (by simp [gateFrom]) ?_
          rintro ⟨before, a', s, rest, isOne, -⟩
          have length := congrArg List.length isOne
          simp at length
          omega
      | cons s rest =>
          rw [gateFrom, Bool.or_eq_true, ih]
          constructor
          · rintro (here | ⟨before, a', s', rest', isTail, isA, isS, behind, free⟩)
            · simp only [Bool.and_eq_true] at here
              refine ⟨[], a, s, rest, rfl, here.1.1.1, here.1.1.2, here.2, fun c isPrev => ?_⟩
              have free := here.1.2
              rw [List.getLast?_nil, Option.none_or, Option.mem_def] at isPrev
              rw [isPrev] at free
              simpa using free
            · refine ⟨a :: before, a', s', rest', by rw [isTail]; rfl, isA, isS, behind, ?_⟩
              intro c last
              refine free c ?_
              rw [List.getLast?_cons] at last
              cases isLast : before.getLast? <;> simpa [isLast] using last
          · rintro ⟨before, a', s', rest', isList, isA, isS, behind, free⟩
            cases before with
            | nil =>
                cases isList
                refine .inl ?_
                rw [List.getLast?_nil, Option.none_or] at free
                cases prev <;> simp_all
            | cons c before =>
                obtain ⟨rfl, isTail⟩ := List.cons.inj isList
                refine .inr ⟨before, a', s', rest', isTail, isA, isS, behind, ?_⟩
                intro d last
                refine free d ?_
                rw [List.getLast?_cons]
                cases isLast : before.getLast? <;> simpa [isLast] using last

/-- The gate lets the texts through that have the two words with whitespace between them. -/
theorem mightContainAsOf_iff {sql : List Char} : mightContainAsOf sql ↔ Spaced (bytes sql) := by
  rw [mightContainAsOf, gateFrom_iff]
  constructor
  · rintro ⟨before, a, s, rest, isText, isA, isS, behind, free⟩
    obtain ⟨blanks, o, f, after, rfl, isO, isF, some', blank, ends⟩ := ofBehind_iff.mp behind
    rw [Option.or_none] at free
    exact ⟨before, a, s, blanks, o, f, after, isText, isA, isS, isO, isF, some', blank, free, ends⟩
  · rintro ⟨before, a, s, blanks, o, f, after, isText, isA, isS, isO, isF, some', blank, free, ends⟩
    refine ⟨before, a, s, _, isText, isA, isS,
      ofBehind_iff.mpr ⟨blanks, o, f, after, rfl, isO, isF, some', blank, ends⟩, ?_⟩
    rwa [Option.or_none]

/-! ## Bytes of characters -/

theorem toNat_le_of_isWord {byte : UInt8} (isWord' : isWord byte) : byte.toNat ≤ 0x7a := by
  simp only [isWord, isAsciiAlphanumeric, Bool.or_eq_true, Bool.and_eq_true, decide_eq_true_eq,
    UInt8.le_iff_toNat_le] at isWord'
  rcases isWord' with (alphanumeric | rfl) | rfl
  · have below : byte.toNat ≤ 0x39 ∨ byte.toNat ≤ 0x5a ∨ byte.toNat ≤ 0x7a := by
      rcases alphanumeric with (digit | upper) | lower
      · exact .inl digit.2
      · exact .inr (.inl upper.2)
      · exact .inr (.inr lower.2)
    omega
  · decide
  · decide

/-- The bytes of a character that is not ASCII are not either. -/
theorem le_toNat_of_mem {c : Char} {byte : UInt8} (notAscii : ¬ c.val.toNat ≤ 0x7f)
    (mem : byte ∈ String.utf8EncodeChar c) : 0x80 ≤ byte.toNat := by
  rw [String.utf8EncodeChar, if_neg notAscii] at mem
  split at mem
  · simp only [List.mem_cons, List.not_mem_nil, or_false] at mem
    rcases mem with rfl | rfl <;> simp only [UInt8.toNat_ofNat'] <;> omega
  · split at mem
    · simp only [List.mem_cons, List.not_mem_nil, or_false] at mem
      rcases mem with rfl | rfl | rfl <;> simp only [UInt8.toNat_ofNat'] <;> omega
    · simp only [List.mem_cons, List.not_mem_nil, or_false] at mem
      rcases mem with rfl | rfl | rfl | rfl <;> simp only [UInt8.toNat_ofNat'] <;> omega

/-- A byte of a word is a character of a word. -/
theorem isWordChar_of_mem {c : Char} {byte : UInt8} (mem : byte ∈ String.utf8EncodeChar c)
    (isWord' : isWord byte) : isWordChar c := by
  by_cases ascii : c.val.toNat ≤ 0x7f
  · have single : String.utf8EncodeChar c = [UInt8.ofNat c.toNat] := if_pos ascii
    rw [single, List.mem_singleton] at mem
    have all : ∀ n ≤ 0x7f, isWord (UInt8.ofNat n) → isWordChar (Char.ofNat n) := by
      decide +kernel
    have isChar := all c.toNat ascii (mem ▸ isWord')
    rwa [Char.ofNat_toNat] at isChar
  · have high := le_toNat_of_mem ascii mem
    have low := toNat_le_of_isWord isWord'
    omega

theorem utf8EncodeChar_ne_nil (c : Char) : String.utf8EncodeChar c ≠ [] := by
  have length := String.length_utf8EncodeChar c
  have positive := c.utf8Size_pos
  intro none'
  rw [none', List.length_nil] at length
  omega

theorem not_isWord_of_head {text : List Char} (ends : ∀ c ∈ text.head?, ¬ isWordChar c) :
    ∀ byte ∈ (bytes text).head?, ¬ isWord byte := by
  intro byte head isWord'
  cases text with
  | nil => cases head
  | cons c rest =>
      obtain ⟨first, more, isBytes⟩ := List.exists_cons_of_ne_nil (utf8EncodeChar_ne_nil c)
      rw [bytes, List.flatMap_cons, isBytes] at head
      cases head
      exact ends c rfl (isWordChar_of_mem (isBytes ▸ List.mem_cons_self) isWord')

theorem not_isWord_of_getLast {text : List Char} (ends : ∀ c ∈ text.getLast?, ¬ isWordChar c) :
    ∀ byte ∈ (bytes text).getLast?, ¬ isWord byte := by
  intro byte last isWord'
  rcases List.eq_nil_or_concat text with rfl | ⟨front, c, rfl⟩
  · cases last
  · rw [List.concat_eq_append, bytes_append, List.getLast?_append] at last
    have single : bytes [c] = String.utf8EncodeChar c := List.flatMap_singleton ..
    rw [List.concat_eq_append, List.getLast?_append] at ends
    rw [single] at last
    obtain ⟨byte', isLast⟩ := Option.ne_none_iff_exists'.mp
      (mt List.getLast?_eq_none_iff.mp (utf8EncodeChar_ne_nil c))
    rw [isLast] at last
    cases last
    exact ends c rfl (isWordChar_of_mem (List.mem_of_getLast? isLast) isWord')

/-! ## Words among the tokens -/

/-- The letters of a word, each as it is or in upper case. -/
def InAnyCase (word piece : List Char) : Prop :=
  List.Forall₂ (fun letter c => c = letter ∨ c = letter.toUpper) word piece

/-- The two words are spelled in letters, and there is ASCII whitespace and nothing else between
them. -/
structure PlainPair (tokens : List TokenWithSpan) (pieces : List (List Char)) (k : Nat) : Prop where
  isPair : ∃ one other, (significant tokens)[k]? = some one ∧
    (significant tokens)[k + 1]? = some other ∧
    (∃ piece, pieces[one.2]? = some piece ∧ InAnyCase ['a', 's'] piece) ∧
    (∃ piece, pieces[other.2]? = some piece ∧ InAnyCase ['o', 'f'] piece) ∧
    ∀ i piece, one.2 < i → i < other.2 → pieces[i]? = some piece →
      ∀ c ∈ piece, c ∈ [' ', '\t', '\n', '\x0c', '\r']

variable {sql : List Char} {tokens : List TokenWithSpan} {pieces : List (List Char)} {k : Nat}

/-- The token before a significant one is the significant one before it, or whitespace. -/
theorem raw_before {one one' : TokenWithSpan × Nat} {token : TokenWithSpan} {i : Nat}
    (isOne : (significant tokens)[k + 1]? = some one)
    (isOne' : (significant tokens)[k]? = some one') (isToken : tokens[i]? = some token)
    (next : one.2 = i + 1) : token.token = .whitespace ∨ token = one'.1 := by
  refine or_iff_not_imp_left.mpr fun shown => ?_
  have mem : (token, i) ∈ significant tokens :=
    List.mem_filter.mpr ⟨List.mk_mem_zipIdx_iff_getElem?.mpr isToken, by simpa using shown⟩
  obtain ⟨pos, isPos⟩ := List.mem_iff_getElem?.mp mem
  have apart : pos ≠ k + 1 := by
    rintro rfl
    rw [isPos] at isOne
    cases isOne
    omega
  have notLater : ¬ k + 1 < pos := fun lt => by
    have later := significant_lt isOne isPos lt
    omega
  have notEarlier : ¬ pos < k := fun lt => by
    have earlier := significant_lt isPos isOne' lt
    have inOrder := significant_lt isOne' isOne (Nat.lt_succ_self k)
    omega
  have same : pos = k := by omega
  subst same
  rw [isPos] at isOne'
  cases isOne'
  rfl

/-- What stands before a word behind an identifier does not end like a word. -/
theorem ends_before (tiling : Tiling sql tokens pieces) {one : TokenWithSpan × Nat} {w : Word}
    {piece : List Char} (isOne : (significant tokens)[k + 1]? = some one)
    (isIdent : identAt (significant tokens) k = some w) (isPiece : pieces[one.2]? = some piece)
    (begins : ∃ c ∈ piece.head?, isWordChar c) :
    ∀ c ∈ (pieces.take one.2).flatten.getLast?, ¬ isWordChar c := by
  intro c last
  cases place : one.2 with
  | zero =>
      rw [place] at last
      cases last
  | succ i =>
      obtain ⟨one', isOne', isWord'⟩ := Option.map_eq_some_iff.mp (identAt_spec isIdent).1
      have inside := (List.getElem?_eq_some_iff.mp (significant_get isOne).1).1
      have isToken := List.getElem?_eq_getElem (l := tokens) (i := i) (by omega)
      have isBefore := List.getElem?_eq_getElem (l := pieces) (i := i) (by rw [tiling.length]; omega)
      have some' := tiling.filled _ (List.mem_of_getElem? isBefore)
      rw [place] at isPiece last
      rw [List.take_succ_eq_append_getElem (by rw [tiling.length]; omega), List.flatten_append,
        List.flatten_singleton, List.getLast?_append_of_ne_nil _ some'] at last
      rcases raw_before isOne isOne' isToken place with isSpace | isIdent'
      · exact tiling.ends i _ _ _ isToken (.inl isSpace) isBefore isPiece c last
      · rw [isIdent'] at isToken
        by_cases plain : w.quoteStyle = none
        · obtain ⟨d, head, isChar⟩ := begins
          exact absurd isChar (tiling.munch i _ w _ isToken isWord' plain isPiece d head)
        · exact tiling.ends i _ _ _ isToken (.inr ⟨w, isWord', plain⟩) isBefore isPiece c last

/-- What stands behind an unquoted word does not begin like one. -/
theorem begins_behind (tiling : Tiling sql tokens pieces) {j : Nat} {token : TokenWithSpan} {w : Word}
    (isToken : tokens[j]? = some token) (isWord' : token.token = .word w)
    (plain : w.quoteStyle = none) :
    ∀ c ∈ (pieces.drop (j + 1)).flatten.head?, ¬ isWordChar c := by
  intro c head
  cases isNext : pieces[j + 1]? with
  | none =>
      rw [List.drop_eq_nil_of_le (List.getElem?_eq_none_iff.mp isNext)] at head
      cases head
  | some next =>
      obtain ⟨inside, rfl⟩ := List.getElem?_eq_some_iff.mp isNext
      have some' := tiling.filled _ (List.getElem_mem inside)
      rw [List.drop_eq_getElem_cons inside, List.flatten_cons,
        List.head?_append_of_ne_nil _ some'] at head
      exact tiling.munch j token w _ isToken isWord' plain isNext c head

/-- The pieces before two of them, between them and behind them. -/
theorem flatten_around {i j : Nat} {piece piece' : List Char} (lt : i < j)
    (isPiece : pieces[i]? = some piece) (isPiece' : pieces[j]? = some piece') :
    pieces.flatten = (pieces.take i).flatten ++ piece ++
      (((pieces.take j).drop (i + 1)).flatten ++ piece' ++ (pieces.drop (j + 1)).flatten) := by
  obtain ⟨inside, rfl⟩ := List.getElem?_eq_some_iff.mp isPiece
  obtain ⟨inside', rfl⟩ := List.getElem?_eq_some_iff.mp isPiece'
  have taken : (pieces.take j).take (i + 1) = pieces.take i ++ [pieces[i]] := by
    rw [List.take_take, Nat.min_eq_left lt, List.take_succ_eq_append_getElem inside]
  have front : (pieces.take j).flatten =
      (pieces.take i).flatten ++ pieces[i] ++ ((pieces.take j).drop (i + 1)).flatten := by
    rw [← List.flatten_singleton (l := pieces[i]), ← List.flatten_append, ← taken,
      ← List.flatten_append, List.take_append_drop]
  have back : (pieces.drop j).flatten = pieces[j] ++ (pieces.drop (j + 1)).flatten := by
    rw [List.drop_eq_getElem_cons inside', List.flatten_cons]
  have all : pieces.flatten = (pieces.take j).flatten ++ (pieces.drop j).flatten := by
    rw [← List.flatten_append, List.take_append_drop]
  rw [all, front, back]
  simp only [List.append_assoc]

theorem bytes_inAnyCase {x y : Char} {first second : UInt8} {piece : List Char}
    (letters : ∀ c, (c = x ∨ c = x.toUpper) → ∃ byte, bytes [c] = [byte] ∧ isLetter byte first)
    (letters' : ∀ c, (c = y ∨ c = y.toUpper) → ∃ byte, bytes [c] = [byte] ∧ isLetter byte second)
    (spelled : InAnyCase [x, y] piece) :
    ∃ a b, bytes piece = [a, b] ∧ isLetter a first ∧ isLetter b second := by
  cases spelled with
  | @cons _ c _ rest isX spelled =>
      cases spelled with
      | @cons _ d _ rest isY spelled =>
          cases spelled
          obtain ⟨a, isA, letter⟩ := letters c isX
          obtain ⟨b, isB, letter'⟩ := letters' d isY
          refine ⟨a, b, ?_, letter, letter'⟩
          rw [← List.singleton_append, bytes_append, isA, isB]
          rfl

/-- A word in the text begins with a character of a word. -/
theorem InAnyCase.begins {letter : Char} {word piece : List Char}
    (spelled : InAnyCase (letter :: word) piece) (isChar : isWordChar letter)
    (isChar' : isWordChar letter.toUpper) : ∃ c ∈ piece.head?, isWordChar c := by
  cases spelled with
  | cons first rest =>
      rcases first with rfl | rfl
      · exact ⟨_, rfl, isChar⟩
      · exact ⟨_, rfl, isChar'⟩

theorem isAsciiWhitespace_of_mem {text : List Char}
    (blank : ∀ c ∈ text, c ∈ [' ', '\t', '\n', '\x0c', '\r']) :
    ∀ byte ∈ bytes text, isAsciiWhitespace byte := by
  intro byte mem
  obtain ⟨c, inside, isByte⟩ := List.mem_flatMap.mp mem
  have listed := blank c inside
  simp only [List.mem_cons, List.not_mem_nil, or_false] at listed
  rcases listed with rfl | rfl | rfl | rfl | rfl <;> cases isByte <;>
    first | rfl | contradiction

/-- Where the two words of an occurrence are plain, they are found by the scan. -/
theorem spaced_of_plainPair (tiling : Tiling sql tokens pieces) {w : Word}
    (isIdent : identAt (significant tokens) k = some w)
    (isAs : wordKw (significant tokens) (k + 1) .asWord)
    (isOf : wordKw (significant tokens) (k + 2) .ofWord)
    (plain : PlainPair tokens pieces (k + 1)) : Spaced (bytes sql) := by
  obtain ⟨one, other, isOne, isOther, ⟨piece, isPiece, spelled⟩, ⟨piece', isPiece', spelled'⟩,
    between⟩ := plain.isPair
  obtain ⟨wordA, tokenA, -, plainA⟩ := wordKw_spec isAs
  obtain ⟨wordO, tokenO, -, plainO⟩ := wordKw_spec isOf
  have isWordA : one.1.token = .word wordA := by
    rw [tokenAt, isOne] at tokenA
    exact Option.some.inj tokenA
  have isWordO : other.1.token = .word wordO := by
    rw [tokenAt, isOther] at tokenO
    exact Option.some.inj tokenO
  have lt := significant_lt isOne isOther (Nat.lt_succ_self _)
  obtain ⟨a, s, isAS, isA, isS⟩ := @bytes_inAnyCase 'a' 's' 0x61 0x73 piece
    (by rintro c (rfl | rfl) <;> exact ⟨_, rfl, rfl⟩)
    (by rintro c (rfl | rfl) <;> exact ⟨_, rfl, rfl⟩) spelled
  obtain ⟨o, f, isOF, isO, isF⟩ := @bytes_inAnyCase 'o' 'f' 0x6f 0x66 piece'
    (by rintro c (rfl | rfl) <;> exact ⟨_, rfl, rfl⟩)
    (by rintro c (rfl | rfl) <;> exact ⟨_, rfl, rfl⟩) spelled'
  have isChar := spelled.begins (by decide) (by decide)
  obtain ⟨first, head, isFirst⟩ := spelled'.begins (by decide) (by decide)
  -- the two words do not touch, since the first one would have gone on
  have further : one.2 + 1 ≠ other.2 := by
    intro next
    rw [← next] at isPiece'
    exact tiling.munch one.2 one.1 wordA piece' (significant_get isOne).1 isWordA plainA isPiece'
      first head isFirst
  have inside := (List.getElem?_eq_some_iff.mp isPiece').1
  have blank : ∀ c ∈ ((pieces.take other.2).drop (one.2 + 1)).flatten,
      c ∈ [' ', '\t', '\n', '\x0c', '\r'] := by
    intro c mem
    obtain ⟨part, isPart, mem⟩ := List.mem_flatten.mp mem
    obtain ⟨n, isNth⟩ := List.mem_iff_getElem?.mp isPart
    rw [List.getElem?_drop, List.getElem?_take] at isNth
    split at isNth
    · next before => exact between _ part (by omega) before isNth c mem
    · cases isNth
  have some' : bytes ((pieces.take other.2).drop (one.2 + 1)).flatten ≠ [] := by
    have isNext := List.getElem?_eq_getElem (l := pieces) (i := one.2 + 1) (by omega)
    have mem : pieces[one.2 + 1] ∈ (pieces.take other.2).drop (one.2 + 1) := by
      refine List.mem_iff_getElem?.mpr ⟨0, ?_⟩
      rw [List.getElem?_drop, List.getElem?_take, if_pos (by omega)]
      exact isNext
    obtain ⟨c, rest, isCons⟩ :=
      List.exists_cons_of_ne_nil (tiling.filled _ (List.mem_of_getElem? isNext))
    obtain ⟨byte, more, isBytes⟩ := List.exists_cons_of_ne_nil (utf8EncodeChar_ne_nil c)
    refine List.ne_nil_of_mem (List.mem_flatMap.mpr ⟨c, ?_, isBytes ▸ List.mem_cons_self⟩)
    exact List.mem_flatten.mpr ⟨_, mem, isCons ▸ List.mem_cons_self⟩
  have text := flatten_around lt isPiece isPiece'
  rw [tiling.flatten] at text
  refine ⟨bytes (pieces.take one.2).flatten, a, s,
    bytes ((pieces.take other.2).drop (one.2 + 1)).flatten, o, f,
    bytes (pieces.drop (other.2 + 1)).flatten, ?_, isA, isS, isO, isF, some',
    isAsciiWhitespace_of_mem blank,
    not_isWord_of_getLast (ends_before tiling isOne isIdent isPiece isChar),
    not_isWord_of_head (begins_behind tiling (significant_get isOther).1 isWordO plainO)⟩
  rw [text]
  simp only [bytes_append, isAS, isOF, List.append_assoc, List.cons_append, List.nil_append]

/-! ## Completeness -/

theorem identAt_of_relationAt {sig : List (TokenWithSpan × Nat)}
    (relation : relationAt sig k ≠ .ok none) : k ≠ 0 ∧ ∃ w, identAt sig (k - 1) = some w := by
  rw [relationAt] at relation
  by_cases first : k = 0
  · rw [if_pos first] at relation
    exact absurd rfl relation
  · refine ⟨first, Option.ne_none_iff_exists'.mp fun none' => ?_⟩
    rw [if_neg first, none'] at relation
    exact absurd rfl relation

variable (services : Services)

/-- Where something is found, or fails, the two words stand behind an identifier. -/
theorem words_of_occurrenceAt (found : occurrenceAt services sql tokens k ≠ .ok none) :
    wordKw (significant tokens) k .asWord ∧ wordKw (significant tokens) (k + 1) .ofWord ∧
      k ≠ 0 ∧ ∃ w, identAt (significant tokens) (k - 1) = some w := by
  rw [occurrenceAt] at found
  split at found
  · exact absurd rfl found
  · next pair =>
    simp only [not_or, not_not, Nat.not_le] at pair
    refine ⟨pair.1, pair.2.2, identAt_of_relationAt fun none' => ?_⟩
    split at found
    · exact absurd rfl found
    · rw [none'] at found
      exact absurd rfl found

/-- No text with an occurrence, or with one that fails, is kept from the tokenizer exactly if such
a text has the two words with ASCII whitespace between them; and it has, where an occurrence is
spelled so. -/
theorem gate_complete_iff :
    ((findOccurrences services sql ≠ .ok [] → mightContainAsOf sql) ↔
      (findOccurrences services sql ≠ .ok [] → Spaced (bytes sql))) ∧
    ∀ tokens pieces, services.tokenize sql = some tokens → Tiling sql tokens pieces →
      ∀ k, occurrenceAt services sql tokens k ≠ .ok none → PlainPair tokens pieces k →
        Spaced (bytes sql) := by
  refine ⟨imp_congr_right fun _ => mightContainAsOf_iff, ?_⟩
  intro tokens pieces _ tiling k found plain
  obtain ⟨isAs, isOf, some', w, isIdent⟩ := words_of_occurrenceAt services found
  obtain ⟨k, rfl⟩ := Nat.exists_eq_succ_of_ne_zero some'
  exact spaced_of_plainPair tiling isIdent isAs isOf plain

/-- A version behind `AS` and `OF` with something between the two words. -/
def separatedBy (blank : String) : List (Token × List Char) :=
  [(.word ⟨"SELECT", none, .other⟩, "SELECT".toList), (.whitespace, [' ']), (.other, ['*']),
    (.whitespace, [' ']), (.word ⟨"FROM", none, .fromWord⟩, "FROM".toList), (.whitespace, [' ']),
    (.word ⟨"t", none, .noKeyword⟩, ['t']), (.whitespace, [' ']),
    (.word ⟨"AS", none, .asWord⟩, "AS".toList), (.whitespace, blank.toList),
    (.word ⟨"OF", none, .ofWord⟩, "OF".toList), (.whitespace, [' ']), (.number "5", ['5'])]

/-- The services about one text. -/
def servicesOf (lexemes : List (Token × List Char)) : Services :=
  ⟨cutting lexemes, fun name => name, fun _ => .ok none, fun _ _ => .error "no such table"⟩

theorem gate_complete_iff_spaced : mightContainAsOf (textOf (separatedBy " \t")) := by
  have plain : PlainPair (layOut (separatedBy " \t")) ((separatedBy " \t").map Prod.snd) 4 := by
    refine ⟨_, _, rfl, rfl, ⟨_, rfl, ?_⟩, ⟨_, rfl, ?_⟩, fun i piece after before isPiece => ?_⟩
    · exact .cons (.inr rfl) (.cons (.inr rfl) .nil)
    · exact .cons (.inr rfl) (.cons (.inr rfl) .nil)
    · change 8 < i at after
      change i < 10 at before
      obtain rfl : i = 9 := by omega
      cases isPiece
      change ∀ c ∈ [' ', '\t'], _
      simp
  have tiling : Tiling (textOf (separatedBy " \t")) _ _ :=
    tiling_layOut (by decide) (by decide +kernel)
  have cut : cutting (separatedBy " \t") (textOf (separatedBy " \t")) = some _ := if_pos rfl
  have found : occurrenceAt (servicesOf (separatedBy " \t")) (textOf (separatedBy " \t"))
      (layOut (separatedBy " \t")) 4 ≠ .ok none := by decide +kernel
  exact mightContainAsOf_iff.mpr ((gate_complete_iff _).2 _ _ cut tiling 4 found plain)

/-- A comment between the words, and a vertical tab, are for the tokenizer alone. -/
theorem gate_misses_comment :
    ¬ (∀ sql, findOccurrences (servicesOf (separatedBy "/**/")) sql ≠ .ok [] →
      mightContainAsOf sql) ∧
    ¬ (∀ sql, findOccurrences (servicesOf (separatedBy "\x0b")) sql ≠ .ok [] →
      mightContainAsOf sql) := by
  constructor
  · intro complete
    have passed := complete (textOf (separatedBy "/**/")) (by decide +kernel)
    have blocked : ¬ mightContainAsOf (textOf (separatedBy "/**/")) := by decide +kernel
    exact blocked passed
  · intro complete
    have passed := complete (textOf (separatedBy "\x0b")) (by decide +kernel)
    have blocked : ¬ mightContainAsOf (textOf (separatedBy "\x0b")) := by decide +kernel
    exact blocked passed

end Icegres.AsOf
