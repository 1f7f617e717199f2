import Icegres.Fallible
import Mathlib.Algebra.Ring.Nat
import Mathlib.Data.List.Basic

/-!
# Rows, keys and the flusher's key predicate

A row is its column values, a key the values of its primary-key columns. The read path
compares keys by their row encoding, which is modelled by the values themselves: it is equal
exactly when they are. The write path renders the keys of a flush as one SQL predicate; the
predicate is kept as the literals and comparisons the SQL text spells out, and a lemma says
that it is true of the same rows.
-/

namespace Icegres.Buffer

/-- A column value. The first five types may be part of a key. -/
inductive Scalar where
  | null
  | bool (value : Bool)
  | int (value : Int)
  | text (value : String)
  /-- Days since the epoch. -/
  | date (days : Int)
  /-- A value of a type the keyed path does not support. -/
  | other (value : String)
  deriving DecidableEq

/-- The values of one row in the table's canonical column order. -/
abbrev Row := List Scalar

/-- The rows of one record batch. -/
abbrev Batch := List Row

/-- The encoded primary-key values of one row. -/
abbrev Key := List Scalar

instance : LawfulBEq Key := inferInstance

/-- The primary-key columns of a row. -/
def projectKeyRow (pkCols : List Nat) (row : Row) : List Scalar :=
  pkCols.map fun column => row.getD column .null

/-- The encoded key of a row. -/
def encodeKey (pkCols : List Nat) (row : Row) : Key :=
  projectKeyRow pkCols row

/-- Drop every row whose key is in `keys`. -/
def suppressBatch (batch : Batch) (pkCols : List Nat) (keys : List Key) : Batch :=
  batch.filter fun row => encodeKey pkCols row ∉ keys

/-- The character that delimits SQL strings. -/
def quoteChar : Char := Char.ofNat 39

/-- A SQL literal as the flusher spells it. -/
inductive SqlLiteral where
  /-- Decimal digits, which SQL reads as the same number. -/
  | number (value : Int)
  | boolean (spelling : String)
  /-- The text with its quotes. -/
  | string (spelling : List Char)
  /-- `DATE` with the day's text between quotes, which SQL reads as the same day. -/
  | date (days : Int)

/-- Double every quote. -/
def escapeQuotes : List Char → List Char
  | [] => []
  | char :: rest =>
    if char = quoteChar then char :: char :: escapeQuotes rest else char :: escapeQuotes rest

/-- What a SQL string literal stands for, read from behind its opening quote. -/
def readQuoted : List Char → Option (List Char)
  | [] => none
  | [char] => if char = quoteChar then some [] else none
  | char :: next :: rest =>
    if char = quoteChar then
      if next = quoteChar then (readQuoted rest).map (quoteChar :: ·) else none
    else
      (readQuoted (next :: rest)).map (char :: ·)

theorem readQuoted_escapeQuotes (chars : List Char) :
    readQuoted (escapeQuotes chars ++ [quoteChar]) = some chars := by
  induction chars with
  | nil => rfl
  | cons char rest ih =>
      by_cases isQuote : char = quoteChar
      · simp [escapeQuotes, isQuote, readQuoted, ih]
      · obtain ⟨next, more, shape⟩ : ∃ next more,
            escapeQuotes rest ++ [quoteChar] = next :: more :=
          List.exists_cons_of_ne_nil (by simp)
        rw [shape] at ih
        simp [escapeQuotes, isQuote, shape, readQuoted, ih]

/-- Render one key value as an unambiguous SQL literal. -/
def renderSqlLiteral : Scalar → Except String SqlLiteral
  | .null => .error "keyed op holds a NULL key component"
  | .int value => .ok (.number value)
  | .bool value => .ok (.boolean (if value then "TRUE" else "FALSE"))
  | .text value => .ok (.string (quoteChar :: (escapeQuotes value.toList ++ [quoteChar])))
  | .date days => .ok (.date days)
  | .other value => .error s!"unsupported keyed PK literal type {value} (activation bug)"

/-- The value a literal stands for. -/
def SqlLiteral.value : SqlLiteral → Option Scalar
  | .number value => some (.int value)
  | .boolean spelling =>
      if spelling = "TRUE" then some (.bool true)
      else if spelling = "FALSE" then some (.bool false)
      else none
  | .string (_ :: spelling) => (readQuoted spelling).map fun chars => .text (String.ofList chars)
  | .string [] => none
  | .date days => some (.date days)

/-- A rendered literal stands for the value it was rendered from, which is not null. -/
theorem value_of_renderSqlLiteral {scalar : Scalar} {literal : SqlLiteral}
    (rendered : renderSqlLiteral scalar = .ok literal) :
    literal.value = some scalar ∧ scalar ≠ .null := by
  cases scalar with
  | null => cases rendered
  | other value => cases rendered
  | bool value =>
      cases rendered
      cases value <;> exact ⟨rfl, by simp⟩
  | int value =>
      cases rendered
      exact ⟨rfl, by simp⟩
  | text value =>
      cases rendered
      exact ⟨by simp [SqlLiteral.value, readQuoted_escapeQuotes], by simp⟩
  | date days =>
      cases rendered
      exact ⟨rfl, by simp⟩

/-- The key predicate of one flush: `column IN (..)` for a key of one column, otherwise a
disjunction with one conjunction of equalities for each key. -/
inductive KeysPredicate where
  | isIn (column : Nat) (literals : List SqlLiteral)
  | anyOf (rows : List (List (Nat × SqlLiteral)))

/-- Render the coalesced key predicate over the key rows of a flush. -/
def renderKeysPredicate (pkCols : List Nat) (keys : List (List Scalar)) :
    Except String KeysPredicate :=
  if keys = [] then
    .error "empty keyed predicate"
  else
    match pkCols with
    | [column] => do
        let literals ← keys.mapM fun key => renderSqlLiteral (key.getD 0 .null)
        return .isIn column literals
    | _ => do
        let rows ← keys.mapM fun key => do
          let literals ← key.mapM renderSqlLiteral
          return pkCols.zip literals
        return .anyOf rows

/-- A comparison with a literal is true when the values are equal; with a null it is not. -/
def comparesTrue (value : Scalar) (literal : SqlLiteral) : Bool :=
  value ≠ .null && literal.value = some value

/-- The rows the predicate is true of. A disjunction is true when one of its parts is, a
conjunction when all are. -/
def KeysPredicate.isTrue (row : Row) : KeysPredicate → Bool
  | .isIn column literals => literals.any fun literal => comparesTrue (row.getD column .null) literal
  | .anyOf rows => rows.any fun conjuncts => conjuncts.all fun (column, literal) =>
      comparesTrue (row.getD column .null) literal

/-- Comparing with the literal of a value is comparing with the value. -/
theorem comparesTrue_of_render {scalar value : Scalar} {literal : SqlLiteral}
    (rendered : renderSqlLiteral scalar = .ok literal) :
    comparesTrue value literal = decide (value = scalar) := by
  obtain ⟨stands, notNull⟩ := value_of_renderSqlLiteral rendered
  by_cases same : value = scalar
  · subst same
    simp [comparesTrue, stands, notNull]
  · simp [comparesTrue, stands, same, Ne.symm same]

/-- All conjuncts of a key hold of a row exactly when its key columns carry the key. -/
private theorem conjuncts_true (row : Row) {pkCols : List Nat} {key : List Scalar}
    {literals : List SqlLiteral} (sized : key.length = pkCols.length)
    (rendered : List.Forall₂ (fun scalar literal => renderSqlLiteral scalar = .ok literal) key
      literals) :
    ((pkCols.zip literals).all fun (column, literal) =>
      comparesTrue (row.getD column .null) literal) = decide (projectKeyRow pkCols row = key) := by
  induction rendered generalizing pkCols with
  | nil =>
      rw [List.length_eq_zero_iff.mp sized.symm]
      rfl
  | cons first rest ih =>
      cases pkCols with
      | nil => simp at sized
      | cons column columns =>
          have sized : _ = columns.length := Nat.succ.inj sized
          rw [List.zip_cons_cons, List.all_cons, ih sized, Bool.eq_iff_iff]
          simp [projectKeyRow, comparesTrue_of_render first]

/-- The predicate of a flush is true of exactly the rows whose key is one of the flushed
keys. -/
theorem isTrue_of_renderKeysPredicate {pkCols : List Nat} {keys : List (List Scalar)}
    {predicate : KeysPredicate} (rendered : renderKeysPredicate pkCols keys = .ok predicate)
    (sized : ∀ key ∈ keys, key.length = pkCols.length) (row : Row) :
    predicate.isTrue row = decide (encodeKey pkCols row ∈ keys) := by
  have some : keys ≠ [] := by
    rintro rfl
    cases rendered
  unfold renderKeysPredicate at rendered
  rw [if_neg some] at rendered
  split at rendered
  · rename_i column
    obtain ⟨literals, each, isPredicate⟩ := bind_eq_ok rendered
    cases isPredicate
    have matched := mapM_eq_ok each
    clear each rendered some
    induction matched with
    | nil => simp [KeysPredicate.isTrue]
    | @cons key literal keys literals first rest ih =>
        obtain ⟨value, rfl⟩ := List.length_eq_one_iff.mp (sized key List.mem_cons_self)
        have later := ih fun other mem => sized other (List.mem_cons_of_mem _ mem)
        simp only [KeysPredicate.isTrue, List.any_cons, comparesTrue_of_render first] at later ⊢
        rw [later, Bool.eq_iff_iff]
        simp [encodeKey, projectKeyRow]
  · obtain ⟨rows, each, isPredicate⟩ := bind_eq_ok rendered
    cases isPredicate
    have matched := mapM_eq_ok each
    clear each rendered some
    induction matched with
    | nil => simp [KeysPredicate.isTrue]
    | @cons key conjuncts keys rows first rest ih =>
        have later := ih fun other mem => sized other (List.mem_cons_of_mem _ mem)
        obtain ⟨literals, spelled, first⟩ := bind_eq_ok first
        cases first
        have own := conjuncts_true row (sized key List.mem_cons_self) (mapM_eq_ok spelled)
        simp only [KeysPredicate.isTrue, List.any_cons] at later ⊢
        rw [own, later, Bool.eq_iff_iff]
        simp only [encodeKey, Bool.or_eq_true, decide_eq_true_eq, List.mem_cons]
        exact or_congr_right decide_eq_true_iff

end Icegres.Buffer
