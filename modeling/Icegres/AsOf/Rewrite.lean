import Mathlib.Algebra.Ring.Int.Defs
import Mathlib.Algebra.Ring.Nat
import Mathlib.Data.List.Basic

/-!
# Time travel in the text of a statement

`<table> AS OF <version>` is not SQL to the parser. It is found among the tokens of a statement's
text and replaced there by a reference to the table at a snapshot. A scan of the bytes tells which
texts are not even tokenized.
-/

namespace Icegres.AsOf

/-! ## Tokens -/

/-- The keywords that are told apart. -/
inductive Keyword where
  | asWord
  | ofWord
  | timestamp
  | fromWord
  | joinWord
  | noKeyword
  | other
  deriving DecidableEq

structure Word where
  value : String
  quoteStyle : Option Char
  keyword : Keyword
  deriving DecidableEq

/-- A comment is whitespace. -/
inductive Token where
  | word (word : Word)
  | number (text : String)
  | singleQuotedString (text : String)
  | whitespace
  | comma
  | period
  | other
  deriving DecidableEq

/-- A token and where it begins, its line and its column counted from one. -/
structure TokenWithSpan where
  token : Token
  line : Nat
  column : Nat
  deriving DecidableEq

/-- The bytes of a text. -/
def bytes (text : List Char) : List UInt8 :=
  text.flatMap String.utf8EncodeChar

/-! ## The gate -/

def isAsciiAlphanumeric (c : UInt8) : Bool :=
  (0x30 ≤ c && c ≤ 0x39) || (0x41 ≤ c && c ≤ 0x5a) || (0x61 ≤ c && c ≤ 0x7a)

def isWord (c : UInt8) : Bool :=
  isAsciiAlphanumeric c || c = 0x5f || c = 0x24

def isAsciiWhitespace (c : UInt8) : Bool :=
  c ∈ [0x20, 0x09, 0x0a, 0x0c, 0x0d]

/-- Whether a byte is a lower case letter, or the same in upper case. -/
def isLetter (c letter : UInt8) : Bool :=
  c = letter || c = letter - 0x20

/-- The word `OF` behind whitespace. -/
def ofBehind (rest : List UInt8) : Bool :=
  !(rest.head?.all isWord) &&
    match rest.dropWhile isAsciiWhitespace with
    | o :: f :: after => isLetter o 0x6f && isLetter f 0x66 && !(after.head?.any isWord)
    | _ => false

/-- The scan from a place on, whose byte before is known. -/
def gateFrom : Option UInt8 → List UInt8 → Bool
  | before, a :: s :: rest =>
    (isLetter a 0x61 && isLetter s 0x73 && !(before.any isWord) && ofBehind rest) ||
      gateFrom (some a) (s :: rest)
  | _, _ => false

def mightContainAsOf (sql : List Char) : Bool :=
  gateFrom none (bytes sql)

/-! ## Occurrences -/

/-- The version behind `AS OF`. -/
inductive AsOfSpec where
  | timestamp (literal : String)
  | snapshotId (id : Int)
  deriving DecidableEq

/-- A relation with a version, from its first byte to the one behind the version. -/
structure Occurrence where
  start : Nat
  stop : Nat
  ns : Option String
  table : String
  spec : AsOfSpec
  deriving DecidableEq

structure TableMetadata where
  /-- The snapshot log, each entry a time in milliseconds and a snapshot. -/
  history : List (Int × Int)
  /-- The snapshots that are in the metadata. -/
  snapshots : List Int

/-- What the rewriting asks of others: the tokenizer, Unicode, the caster of timestamps to
microseconds, and the catalog. -/
structure Services where
  tokenize : List Char → Option (List TokenWithSpan)
  toLowercase : String → String
  castMicros : String → Except String (Option Int)
  loadTable : String → String → Except String TableMetadata

variable (services : Services)

def normIdent (w : Word) : String :=
  if w.quoteStyle.isSome then w.value else services.toLowercase w.value

/-- The walk over the characters to a location. -/
def offsetFrom (line column : Nat) : Nat → Nat → Nat → List Char → Option Nat
  | curLine, curCol, idx, [] => if curLine = line ∧ curCol = column then some idx else none
  | curLine, curCol, idx, ch :: rest =>
    if curLine = line ∧ curCol = column then some idx
    else if ch = '\n' then offsetFrom line column (curLine + 1) 1 (idx + ch.utf8Size) rest
    else offsetFrom line column curLine (curCol + 1) (idx + ch.utf8Size) rest

def byteOffset (sql : List Char) (line column : Nat) : Option Nat :=
  offsetFrom line column 1 1 0 sql

/-- A decimal number that fits 64 bits. -/
def parseI64 (text : String) : Option Int :=
  let (negative, digits) :=
    match text.toList with
    | '-' :: digits => (true, digits)
    | '+' :: digits => (false, digits)
    | digits => (false, digits)
  if digits = [] ∨ ¬ digits.all Char.isDigit then none
  else
    let magnitude : Int :=
      digits.foldl (fun number digit => 10 * number + (digit.toNat - '0'.toNat)) 0
    let value := if negative then -magnitude else magnitude
    if -2 ^ 63 ≤ value ∧ value < 2 ^ 63 then some value else none

/-- The tokens that are no whitespace, each with its index among all of them. -/
def significant (tokens : List TokenWithSpan) : List (TokenWithSpan × Nat) :=
  tokens.zipIdx.filter fun token => token.1.token ≠ .whitespace

section Sig

variable (sig : List (TokenWithSpan × Nat))

def tokenAt (pos : Nat) : Option Token :=
  sig[pos]?.map fun token => token.1.token

def wordKw (pos : Nat) (kw : Keyword) : Bool :=
  match tokenAt sig pos with
  | some (.word w) => w.keyword = kw && w.quoteStyle = none
  | _ => false

def identAt (pos : Nat) : Option Word :=
  match tokenAt sig pos with
  | some (.word w) => if w.quoteStyle.isSome ∨ w.keyword = .noKeyword then some w else none
  | _ => none

/-- The version behind the word `AS` and its last token. -/
def versionAt (k : Nat) : Option (AsOfSpec × Nat) :=
  if k + 3 < sig.length ∧ wordKw sig (k + 2) .timestamp then
    match tokenAt sig (k + 3) with
    | some (.singleQuotedString s) => some (.timestamp s, k + 3)
    | _ => none
  else if k + 2 < sig.length then
    match tokenAt sig (k + 2) with
    | some (.number n) => (parseI64 n).map fun id => (.snapshotId id, k + 2)
    | _ => none
  else
    none

/-- The table before the word `AS`, its namespace, and their first token. -/
def relationAt (k : Nat) : Except String (Option (Word × Option Word × Nat)) :=
  if k = 0 then .ok none
  else
    match identAt sig (k - 1) with
    | none => .ok none
    | some tableWord =>
      if 3 ≤ k ∧ tokenAt sig (k - 2) = some .period then
        match identAt sig (k - 3) with
        | none => .ok (some (tableWord, none, k - 1))
        | some nsWord =>
          if 5 ≤ k ∧ tokenAt sig (k - 4) = some .period then
            .error ("AS OF supports <table> or <namespace>.<table> relations only " ++
              "(got a 3-part name before AS OF)")
          else
            .ok (some (tableWord, some nsWord, k - 3))
      else
        .ok (some (tableWord, none, k - 1))

/-- What is before a table factor. -/
def isTableContext (chainStart : Nat) : Bool :=
  chainStart ≠ 0 &&
    match tokenAt sig (chainStart - 1) with
    | some .comma => true
    | some (.word w) => w.quoteStyle = none && (w.keyword = .fromWord || w.keyword = .joinWord)
    | _ => false

/-- From the first token of a relation to the one behind its version. -/
def byteRange (sql : List Char) (tokens : List TokenWithSpan) (chainStart lastSig : Nat) :
    Option (Nat × Nat) :=
  (sig[chainStart]?).bind fun first =>
    (byteOffset sql first.1.line first.1.column).bind fun start =>
      (sig[lastSig]?).bind fun last =>
        match tokens[last.2 + 1]? with
        | some next => (byteOffset sql next.line next.column).map fun stop => (start, stop)
        | none => some (start, (bytes sql).length)

end Sig

def occurrenceAt (sql : List Char) (tokens : List TokenWithSpan) (k : Nat) :
    Except String (Option Occurrence) :=
  let sig := significant tokens
  if ¬ wordKw sig k .asWord ∨ sig.length ≤ k + 1 ∨ ¬ wordKw sig (k + 1) .ofWord then .ok none
  else
    match versionAt sig k with
    | none => .ok none
    | some (spec, lastSig) =>
      match relationAt sig k with
      | .error why => .error why
      | .ok none => .ok none
      | .ok (some (tableWord, nsWord, chainStart)) =>
        if ¬ isTableContext sig chainStart then .ok none
        else
          match byteRange sig sql tokens chainStart lastSig with
          | none => .error "AS OF rewrite: token location out of range"
          | some (start, stop) =>
            .ok (some ⟨start, stop, nsWord.map (normIdent services), normIdent services tableWord,
              spec⟩)

/-- A text that is not tokenized has no occurrence. -/
def findOccurrences (sql : List Char) : Except String (List Occurrence) :=
  match services.tokenize sql with
  | none => .ok []
  | some tokens =>
    ((List.range (significant tokens).length).mapM (occurrenceAt services sql tokens)).map
      fun found => found.filterMap id

/-! ## Snapshots -/

def parseTimestampMs (literal : String) : Except String Int :=
  match services.castMicros literal with
  | .error why => .error s!"cannot parse AS OF TIMESTAMP \"{literal}\": {why}"
  | .ok none =>
    .error (s!"cannot parse AS OF TIMESTAMP \"{literal}\": use an ISO-8601 timestamp like " ++
      "'2026-07-01 12:00:00' (naive timestamps are read as UTC)")
  | .ok (some micros) => .ok (micros.tdiv 1000)

/-- The last entry of the log at or before a time. -/
def entryAt (log : List (Int × Int)) (tsMs : Int) : Option (Int × Int) :=
  log.reverse.find? fun entry => entry.1 ≤ tsMs

def snapshotAt (log : List (Int × Int)) (known : Int → Bool) (tsMs : Int) (what : String) :
    Except String Int :=
  match entryAt log tsMs with
  | none =>
    let earliest :=
      match log.head? with
      | some (t, id) => s!"{id} at epoch-ms {t}"
      | none => "absent (empty snapshot log)"
    .error (s!"no snapshot of {what} exists at or before the requested time: the table's first " ++
      s!"snapshot is {earliest} — AS OF cannot read before a table's history begins")
  | some (entryTs, id) =>
    if known id then .ok id
    else .error (s!"the snapshot of {what} at the requested time (snapshot {id}, committed at " ++
      s!"epoch-ms {entryTs}) has been expired out of table metadata; expired history is not " ++
      "readable")

/-- The snapshot of an occurrence. -/
def snapshotOf (ns table : String) (metadata : TableMetadata) : AsOfSpec → Except String Int
  | .snapshotId id =>
    if id ∈ metadata.snapshots then .ok id
    else .error (s!"AS OF {id}: snapshot {id} does not exist in table {ns}.{table} " ++
      "(expired, or never committed)")
  | .timestamp literal =>
    (parseTimestampMs services literal).bind fun tsMs =>
      snapshotAt metadata.history (fun id => id ∈ metadata.snapshots) tsMs s!"{ns}.{table}"

/-! ## The rewriting -/

def quoteIdent (ident : String) : String :=
  "\"" ++ ident.replace "\"" "\"\"" ++ "\""

def defaultSchema : String := "demo"

/-- The reference that an occurrence is replaced by. -/
def replacement (occ : Occurrence) : Except String String :=
  let ns := occ.ns.getD defaultSchema
  match services.loadTable ns occ.table with
  | .error why => .error s!"AS OF: failed to load table {ns}.{occ.table}: {why}"
  | .ok metadata =>
    (snapshotOf services ns occ.table metadata occ.spec).map fun snapshotId =>
      match occ.ns with
      | some ns => quoteIdent ns ++ "." ++ quoteIdent s!"{occ.table}@{snapshotId}"
      | none => quoteIdent s!"{occ.table}@{snapshotId}"

/-- `String::replace_range` -/
def replaceRange (text : List UInt8) (start stop : Nat) (new : List UInt8) : List UInt8 :=
  text.take start ++ new ++ text.drop stop

/-- The loop over the occurrences, the last one first. -/
def spliceBack : List Occurrence → List UInt8 → Except String (List UInt8)
  | [], rewritten => .ok rewritten
  | occ :: earlier, rewritten =>
    (replacement services occ).bind fun new =>
      spliceBack earlier
        (replaceRange rewritten occ.start occ.stop (bytes (new ++ " ").toList))

/-- Nothing, when no occurrence is found. -/
def rewriteAsOf (sql : List Char) : Except String (Option (List UInt8)) :=
  if ¬ mightContainAsOf sql then .ok none
  else
    (findOccurrences services sql).bind fun occurrences =>
      if occurrences = [] then .ok none
      else
        let sorted := occurrences.mergeSort fun one other => one.start ≤ other.start
        (spliceBack services sorted.reverse (bytes sql)).map some

end Icegres.AsOf
