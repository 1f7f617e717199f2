import Icegres.AsOf.Rewrite
import Mathlib.Data.List.Chain

/-!
# Tokens in their text

The tokens of a text are told by the tokenizer with their line and column. They stand for pieces
that make up the text, and the byte at which a piece begins is found again from its location.
-/

namespace Icegres.AsOf

/-- The location behind a character. -/
def advance (loc : Nat × Nat) (ch : Char) : Nat × Nat :=
  if ch = '\n' then (loc.1 + 1, 1) else (loc.1, loc.2 + 1)

/-- The location behind a text. -/
def locate (text : List Char) : Nat × Nat :=
  text.foldl advance (1, 1)

/-- A character of an unquoted word. -/
def isWordChar (c : Char) : Bool :=
  c.isAlphanum || c = '_' || c = '$'

/-- What the tokenizer promises: every token stands for a piece of the text, and is located where
the piece begins; a word goes on as long as it can, and neither whitespace nor a comment nor a
quoted word ends like one. -/
structure Tiling (sql : List Char) (tokens : List TokenWithSpan) (pieces : List (List Char)) :
    Prop where
  length : pieces.length = tokens.length
  flatten : pieces.flatten = sql
  filled : ∀ piece ∈ pieces, piece ≠ []
  located : ∀ i token, tokens[i]? = some token →
    (token.line, token.column) = locate (pieces.take i).flatten
  munch : ∀ i token w next, tokens[i]? = some token → token.token = .word w →
    w.quoteStyle = none → pieces[i + 1]? = some next → ∀ c ∈ next.head?, ¬ isWordChar c
  ends : ∀ i token piece next, tokens[i]? = some token →
    (token.token = .whitespace ∨ ∃ w, token.token = .word w ∧ w.quoteStyle ≠ none) →
    pieces[i]? = some piece → pieces[i + 1]? = some next → ∀ c ∈ piece.getLast?, ¬ isWordChar c

/-! ## Locations -/

@[simp] theorem bytes_nil : bytes [] = [] := rfl

@[simp] theorem bytes_append (front rest : List Char) :
    bytes (front ++ rest) = bytes front ++ bytes rest :=
  List.flatMap_append

theorem length_bytes_cons (c : Char) (rest : List Char) :
    (bytes (c :: rest)).length = c.utf8Size + (bytes rest).length := by
  rw [bytes, List.flatMap_cons, List.length_append, String.length_utf8EncodeChar]
  rfl

/-- A location is never come back to. -/
theorem advances {text : List Char} (some' : text ≠ []) (loc : Nat × Nat) :
    loc.1 < (text.foldl advance loc).1 ∨
      loc.1 = (text.foldl advance loc).1 ∧ loc.2 < (text.foldl advance loc).2 := by
  induction text generalizing loc with
  | nil => exact absurd rfl some'
  | cons c rest ih =>
      rw [List.foldl_cons]
      have first : loc.1 < (advance loc c).1 ∨
          loc.1 = (advance loc c).1 ∧ loc.2 < (advance loc c).2 := by
        rw [advance]
        split
        · exact .inl (Nat.lt_succ_self _)
        · exact .inr ⟨rfl, Nat.lt_succ_self _⟩
      by_cases last : rest = []
      · rw [last]
        exact first
      · have later := ih last (advance loc c)
        omega

theorem offsetFrom_eq (before after : List Char) (loc : Nat × Nat) (idx : Nat) :
    offsetFrom (before.foldl advance loc).1 (before.foldl advance loc).2 loc.1 loc.2 idx
      (before ++ after) = some (idx + (bytes before).length) := by
  induction before generalizing loc idx with
  | nil =>
      rw [List.nil_append, List.foldl_nil]
      cases after with
      | nil => rw [offsetFrom, if_pos ⟨rfl, rfl⟩]; rfl
      | cons c rest => rw [offsetFrom, if_pos ⟨rfl, rfl⟩]; rfl
  | cons c rest ih =>
      have ahead := @advances (c :: rest) (List.cons_ne_nil _ _) loc
      have next := ih (advance loc c) (idx + c.utf8Size)
      rw [List.foldl_cons] at ahead ⊢
      rw [List.cons_append, offsetFrom, if_neg (by omega), length_bytes_cons, ← Nat.add_assoc]
      by_cases newline : c = '\n'
      · have step : advance loc c = (loc.1 + 1, 1) := if_pos newline
        rw [if_pos newline]
        rw [step] at next ⊢
        exact next
      · have step : advance loc c = (loc.1, loc.2 + 1) := if_neg newline
        rw [if_neg newline]
        rw [step] at next ⊢
        exact next

/-- From the location behind some characters the number of their bytes is found. -/
theorem byteOffset_locate (before after : List Char) :
    byteOffset (before ++ after) (locate before).1 (locate before).2 =
      some (bytes before).length := by
  have found := offsetFrom_eq before after (1, 1) 0
  rwa [Nat.zero_add] at found

/-! ## Pieces -/

section Pieces

variable {sql : List Char} {tokens : List TokenWithSpan} {pieces : List (List Char)}

/-- The bytes before a piece. -/
def bytesBefore (pieces : List (List Char)) (i : Nat) : Nat :=
  (bytes (pieces.take i).flatten).length

theorem bytesBefore_mono {i j : Nat} (le : i ≤ j) : bytesBefore pieces i ≤ bytesBefore pieces j := by
  obtain ⟨more, rfl⟩ := Nat.exists_eq_add_of_le le
  rw [bytesBefore, bytesBefore, List.take_add, List.flatten_append, bytes_append,
    List.length_append]
  omega

/-- A text before which some pieces stand begins at a boundary of characters. -/
def IsBoundary (sql : List Char) (offset : Nat) : Prop :=
  ∃ before after, sql = before ++ after ∧ offset = (bytes before).length

theorem Tiling.isBoundary (tiling : Tiling sql tokens pieces) (i : Nat) :
    IsBoundary sql (bytesBefore pieces i) := by
  refine ⟨(pieces.take i).flatten, (pieces.drop i).flatten, ?_, rfl⟩
  rw [← List.flatten_append, List.take_append_drop, tiling.flatten]

/-- The offset of a token is that of its piece. -/
theorem Tiling.byteOffset_eq (tiling : Tiling sql tokens pieces) {i : Nat} {token : TokenWithSpan}
    (isToken : tokens[i]? = some token) :
    byteOffset sql token.line token.column = some (bytesBefore pieces i) := by
  have located := tiling.located i token isToken
  have found := byteOffset_locate (pieces.take i).flatten (pieces.drop i).flatten
  rw [← List.flatten_append, List.take_append_drop, tiling.flatten, ← located] at found
  exact found

theorem Tiling.bytesBefore_length (tiling : Tiling sql tokens pieces) :
    bytesBefore pieces tokens.length = (bytes sql).length := by
  rw [bytesBefore, ← tiling.length, List.take_length, tiling.flatten]

end Pieces

/-! ## Cutting -/

/-- A word that is cut off ends before the next piece, and whitespace or a quoted word not like
one. -/
def apart (one next : Token × List Char) : Bool :=
  match one.1 with
  | .word w =>
    if w.quoteStyle = none then !(next.2.head?.any isWordChar) else !(one.2.getLast?.any isWordChar)
  | .whitespace => !(one.2.getLast?.any isWordChar)
  | _ => true

def textOf (lexemes : List (Token × List Char)) : List Char :=
  (lexemes.map Prod.snd).flatten

/-- The tokens of a text that is cut into pieces. -/
def layOut (lexemes : List (Token × List Char)) : List TokenWithSpan :=
  lexemes.zipIdx.map fun lexeme =>
    let loc := locate ((lexemes.map Prod.snd).take lexeme.2).flatten
    ⟨lexeme.1.1, loc.1, loc.2⟩

theorem layOut_get {lexemes : List (Token × List Char)} {i : Nat} {token : TokenWithSpan}
    (isToken : (layOut lexemes)[i]? = some token) :
    ∃ piece, lexemes[i]? = some (token.token, piece) ∧
      (token.line, token.column) = locate ((lexemes.map Prod.snd).take i).flatten := by
  rw [layOut, List.getElem?_map, List.getElem?_zipIdx] at isToken
  cases isLexeme : lexemes[i]? with
  | none =>
      rw [isLexeme] at isToken
      cases isToken
  | some lexeme =>
      rw [isLexeme, Nat.zero_add] at isToken
      cases isToken
      exact ⟨lexeme.2, rfl, rfl⟩

theorem apart_of_chain {lexemes : List (Token × List Char)}
    (chain : lexemes.IsChain fun one next => apart one next) {i : Nat}
    {one next : Token × List Char} (isOne : lexemes[i]? = some one)
    (isNext : lexemes[i + 1]? = some next) : apart one next := by
  obtain ⟨inside, rfl⟩ := List.getElem?_eq_some_iff.mp isOne
  obtain ⟨inside', rfl⟩ := List.getElem?_eq_some_iff.mp isNext
  exact List.isChain_iff_getElem.mp chain i inside'

/-- A text that is cut into pieces keeps the promise. -/
theorem tiling_layOut {lexemes : List (Token × List Char)}
    (filled : ∀ lexeme ∈ lexemes, lexeme.2 ≠ [])
    (chain : lexemes.IsChain fun one next => apart one next) :
    Tiling (textOf lexemes) (layOut lexemes) (lexemes.map Prod.snd) where
  length := by rw [layOut, List.length_map, List.length_map, List.length_zipIdx]
  flatten := rfl
  filled := by
    intro piece mem
    obtain ⟨lexeme, inside, rfl⟩ := List.mem_map.mp mem
    exact filled lexeme inside
  located := fun i token isToken => (layOut_get isToken).choose_spec.2
  munch := by
    intro i token w next isToken isWord' plain isNext c head
    obtain ⟨piece, isOne, -⟩ := layOut_get isToken
    rw [List.getElem?_map] at isNext
    obtain ⟨other, isOther, rfl⟩ := Option.map_eq_some_iff.mp isNext
    have cut := apart_of_chain chain isOne isOther
    rw [isWord', apart] at cut
    dsimp only at cut
    rw [if_pos plain, Option.mem_def.mp head] at cut
    simpa using cut
  ends := by
    intro i token piece next isToken shape isPiece isNext c last
    obtain ⟨piece', isOne, -⟩ := layOut_get isToken
    rw [List.getElem?_map] at isNext isPiece
    obtain ⟨other, isOther, rfl⟩ := Option.map_eq_some_iff.mp isNext
    rw [isOne] at isPiece
    cases isPiece
    have cut := apart_of_chain chain isOne isOther
    rcases shape with isSpace | ⟨w, isWord', quoted⟩
    · rw [isSpace, apart] at cut
      dsimp only at cut
      rw [Option.mem_def.mp last] at cut
      simpa using cut
    · rw [isWord', apart] at cut
      dsimp only at cut
      rw [if_neg quoted, Option.mem_def.mp last] at cut
      simpa using cut

/-- The promise of the tokenizer. -/
def Services.Tiles (services : Services) : Prop :=
  ∀ sql tokens, services.tokenize sql = some tokens → ∃ pieces, Tiling sql tokens pieces

/-- A tokenizer that knows how one text is cut. -/
def cutting (lexemes : List (Token × List Char)) (sql : List Char) : Option (List TokenWithSpan) :=
  if sql = textOf lexemes then some (layOut lexemes) else none

theorem tiles_cutting {lexemes : List (Token × List Char)}
    (filled : ∀ lexeme ∈ lexemes, lexeme.2 ≠ [])
    (chain : lexemes.IsChain fun one next => apart one next)
    {services : Services} (isCutting : services.tokenize = cutting lexemes) : services.Tiles := by
  intro sql tokens isTokens
  rw [isCutting, cutting] at isTokens
  split at isTokens
  · next same =>
    cases isTokens
    subst same
    exact ⟨_, tiling_layOut filled chain⟩
  · cases isTokens

/-! ## Significant tokens -/

theorem significant_get {tokens : List TokenWithSpan} {pos : Nat} {token : TokenWithSpan × Nat}
    (found : (significant tokens)[pos]? = some token) :
    tokens[token.2]? = some token.1 ∧ token.1.token ≠ .whitespace := by
  have mem := List.mem_of_getElem? found
  obtain ⟨inside, shown⟩ := List.mem_filter.mp mem
  exact ⟨List.mk_mem_zipIdx_iff_getElem?.mp inside, by simpa using shown⟩

theorem significant_sorted (tokens : List TokenWithSpan) :
    (significant tokens).Pairwise fun one other => one.2 < other.2 := by
  refine List.Pairwise.filter _ (List.pairwise_iff_getElem.mpr fun i j _ _ lt => ?_)
  rw [List.getElem_zipIdx, List.getElem_zipIdx]
  omega

theorem significant_lt {tokens : List TokenWithSpan} {pos pos' : Nat}
    {token token' : TokenWithSpan × Nat} (found : (significant tokens)[pos]? = some token)
    (found' : (significant tokens)[pos']? = some token') (lt : pos < pos') :
    token.2 < token'.2 := by
  obtain ⟨inside, rfl⟩ := List.getElem?_eq_some_iff.mp found
  obtain ⟨inside', rfl⟩ := List.getElem?_eq_some_iff.mp found'
  exact List.pairwise_iff_getElem.mp (significant_sorted tokens) pos pos' inside inside' lt

end Icegres.AsOf
