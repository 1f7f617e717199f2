import Icegres.Tail.TableNames

/-!
# Tail tickets

A client asks for a table's tail with a ticket that names the table in one dotted text. The text
is split at its dots when the ticket is read, so it names the same table exactly if no part of
the identifier is empty or has a dot in it.
-/

namespace Icegres.Tail

/-- A decoded ticket. -/
inductive TailTicket where
  | tables
  | snapshot (table : TableIdent)
  | subscribe (table : TableIdent) (fromSeq : UInt64)
  deriving DecidableEq

def TailTicket.table : TailTicket → Option TableIdent
  | .tables => none
  | .snapshot table | .subscribe table _ => some table

inductive JsonValue where
  | string (text : String)
  | number (value : UInt64)
  deriving DecidableEq

def JsonValue.asStr : JsonValue → Option String
  | .string text => some text
  | .number _ => none

def JsonValue.asU64 : JsonValue → Option UInt64
  | .string _ => none
  | .number value => some value

/-- A type url with a JSON object. The wire form of both is read back as it was written. -/
structure AnyMessage where
  typeUrl : String
  value : List (String × JsonValue)
  deriving DecidableEq

def AnyMessage.get (message : AnyMessage) (key : String) : Option JsonValue :=
  message.value.lookup key

def ticketTables : String := "icegres.tail.v1.Tables"
def ticketSnapshot : String := "icegres.tail.v1.Snapshot"
def ticketSubscribe : String := "icegres.tail.v1.Subscribe"

/-- Writing an identifier as text is the catalog library's. -/
def TailTicket.encode (display : TableIdent → String) : TailTicket → AnyMessage
  | .tables => ⟨ticketTables, []⟩
  | .snapshot table => ⟨ticketSnapshot, [("table", .string (display table))]⟩
  | .subscribe table fromSeq =>
    ⟨ticketSubscribe, [("table", .string (display table)), ("from_seq", .number fromSeq)]⟩

/-- The pieces of a text between dots, without the empty ones. -/
def dottedParts (text : String) : List String :=
  ((text.toList.splitOn '.').filter fun part => !part.isEmpty).map String.ofList

section FromAny

variable (fromStrs : List String → Except String TableIdent)

def parseTable (message : AnyMessage) : Except String (TableIdent × Option UInt64) :=
  match (message.get "table").bind JsonValue.asStr with
  | none => .error "tail ticket lacks a \"table\" string"
  | some table => do
    let parts := dottedParts table
    if parts.length < 2 then
      .error s!"tail ticket table {table.quote} is not of the form namespace.table"
    else
      let ident ← fromStrs parts
      return (ident, (message.get "from_seq").bind JsonValue.asU64)

/-- Another type url is no tail ticket. -/
def TailTicket.fromAny (message : AnyMessage) : Except String (Option TailTicket) :=
  if message.typeUrl = ticketTables then
    .ok (some .tables)
  else if message.typeUrl = ticketSnapshot then do
    let (table, _) ← parseTable fromStrs message
    return some (.snapshot table)
  else if message.typeUrl = ticketSubscribe then do
    let (table, fromSeq) ← parseTable fromStrs message
    return some (.subscribe table (fromSeq.getD 0))
  else
    .ok none

end FromAny

/-! ## Dotted texts -/

/-- The namespace and the name with dots between them. -/
def TableIdent.dotted (ident : TableIdent) : String :=
  String.ofList (['.'].intercalate (ident.inner.map String.toList) ++ '.' :: ident.name.toList)

/-- No part is empty or has a dot. -/
def TableIdent.Plain (ident : TableIdent) : Prop :=
  ident.inner ≠ [] ∧ ∀ part ∈ ident.strs, part ≠ "" ∧ '.' ∉ part.toList

theorem dottedParts_dotted {ident : TableIdent} (inNamespace : ident.inner ≠ []) :
    dottedParts ident.dotted =
      ((ident.strs.flatMap fun part => part.toList.splitOn '.').filter
        fun part => !part.isEmpty).map String.ofList := by
  have some' : ident.inner.map String.toList ≠ [] := by simpa using inNamespace
  rw [dottedParts, TableIdent.dotted, String.toList_ofList, List.splitOn_append_cons_self,
    splitOn_intercalate_eq_flatMap some', TableIdent.strs]
  simp [List.flatMap_map]

theorem parts_plain {text part : String} (mem : part ∈ dottedParts text) :
    part ≠ "" ∧ '.' ∉ part.toList := by
  obtain ⟨chars, isPiece, rfl⟩ := List.mem_map.mp mem
  obtain ⟨piece, filled⟩ := List.mem_filter.mp isPiece
  rw [String.toList_ofList]
  refine ⟨fun empty => ?_, (mem_piece piece).1⟩
  have none' := congrArg String.toList empty
  rw [String.toList_ofList] at none'
  rw [none'] at filled
  cases filled

/-- The parts are read back exactly if they are plain. -/
theorem dottedParts_eq_iff {ident : TableIdent} (inNamespace : ident.inner ≠ []) :
    dottedParts ident.dotted = ident.strs ↔ ident.Plain := by
  constructor
  · intro same
    exact ⟨inNamespace, fun part mem => parts_plain (same ▸ mem)⟩
  · rintro ⟨-, plain⟩
    rw [dottedParts_dotted inNamespace]
    generalize ident.strs = strs at plain
    induction strs with
    | nil => rfl
    | cons part strs ih =>
        obtain ⟨filled, apart⟩ := plain part List.mem_cons_self
        have some' : part.toList ≠ [] := by
          rwa [Ne, String.toList_eq_nil_iff]
        have stays : (!part.toList.isEmpty) = true := by simpa using some'
        have rest := ih fun other mem => plain other (List.mem_cons_of_mem _ mem)
        rw [List.flatMap_cons, List.splitOn_eq_singleton apart, List.singleton_append,
          List.filter_cons, if_pos stays, List.map_cons, rest, String.ofList_toList]

/-! ## Round trips -/

section RoundTrip

variable {fromStrs : List String → Except String TableIdent} {display : TableIdent → String}

/-- The dotted text of a table is read as that table exactly if its parts are plain. -/
theorem parseTable_iff (displays : ∀ ident, display ident = ident.dotted)
    (makes : ∀ strs ident, fromStrs strs = .ok ident ↔ ident.inner ≠ [] ∧ strs = ident.strs)
    {message : AnyMessage} {table : TableIdent}
    (names : message.get "table" = some (.string (display table))) {fromSeq : Option UInt64} :
    parseTable fromStrs message = .ok (table, fromSeq) ↔
      table.Plain ∧ (message.get "from_seq").bind JsonValue.asU64 = fromSeq := by
  have isText : (message.get "table").bind JsonValue.asStr = some table.dotted := by
    rw [names, ← displays table]
    rfl
  unfold parseTable
  rw [isText]
  dsimp only
  constructor
  · intro parses
    split at parses
    · cases parses
    · obtain ⟨ident, isIdent, same⟩ := bind_eq_ok parses
      cases same
      obtain ⟨inNamespace, strs⟩ := (makes _ _).mp isIdent
      exact ⟨(dottedParts_eq_iff inNamespace).mp strs, rfl⟩
  · rintro ⟨plain, rfl⟩
    have strs := (dottedParts_eq_iff plain.1).mpr plain
    have several : ¬ table.strs.length < 2 := by
      have some' := List.length_pos_iff.mpr plain.1
      simp only [TableIdent.strs, List.length_append, List.length_singleton]
      omega
    rw [strs, if_neg several, (makes _ _).mpr ⟨plain.1, rfl⟩]
    rfl

/-- A ticket is read back as it was written exactly if it names no table, or one in a namespace
with neither an empty part nor a dot in a part. -/
theorem fromAny_encode_iff (displays : ∀ ident, display ident = ident.dotted)
    (makes : ∀ strs ident, fromStrs strs = .ok ident ↔ ident.inner ≠ [] ∧ strs = ident.strs)
    (ticket : TailTicket) :
    TailTicket.fromAny fromStrs (ticket.encode display) = .ok (some ticket) ↔
      ∀ table, ticket.table = some table → table.Plain := by
  cases ticket with
  | tables => simp [TailTicket.encode, TailTicket.fromAny, TailTicket.table]
  | snapshot table =>
      have names : ((TailTicket.snapshot table).encode display).get "table" =
          some (.string (display table)) := rfl
      have isSnapshot : ((TailTicket.snapshot table).encode display).typeUrl = ticketSnapshot := rfl
      rw [TailTicket.fromAny, isSnapshot, if_neg (by decide), if_pos rfl]
      constructor
      · rintro reads _ ⟨⟩
        obtain ⟨⟨found, seq⟩, parses, same⟩ := bind_eq_ok reads
        cases same
        exact ((parseTable_iff displays makes names).mp parses).1
      · intro plain
        rw [(parseTable_iff displays makes names).mpr ⟨plain table rfl, rfl⟩]
        rfl
  | subscribe table fromSeq =>
      have names : ((TailTicket.subscribe table fromSeq).encode display).get "table" =
          some (.string (display table)) := rfl
      have isSubscribe : ((TailTicket.subscribe table fromSeq).encode display).typeUrl =
          ticketSubscribe := rfl
      rw [TailTicket.fromAny, isSubscribe, if_neg (by decide), if_neg (by decide), if_pos rfl]
      constructor
      · rintro reads _ ⟨⟩
        obtain ⟨⟨found, seq⟩, parses, same⟩ := bind_eq_ok reads
        cases same
        exact ((parseTable_iff displays makes names).mp parses).1
      · intro plain
        rw [(parseTable_iff displays makes names).mpr ⟨plain table rfl, rfl⟩]
        rfl

end RoundTrip

/-- The parts as an identifier. -/
def tableOfStrs (strs : List String) : Except String TableIdent :=
  match identOfStrs strs with
  | some ident => .ok ident
  | none => .error "a table identifier has a namespace and a name"

theorem tableOfStrs_eq_ok (strs : List String) (ident : TableIdent) :
    tableOfStrs strs = .ok ident ↔ ident.inner ≠ [] ∧ strs = ident.strs := by
  unfold tableOfStrs identOfStrs
  constructor
  · intro made
    cases reversed : strs.reverse with
    | nil =>
        rw [reversed] at made
        cases made
    | cons name inner =>
        rw [reversed] at made
        by_cases none' : inner = []
        · simp [none'] at made
        · simp only [none', if_false, Except.ok.injEq] at made
          subst made
          refine ⟨by simpa using none', ?_⟩
          rw [← List.reverse_reverse strs, reversed]
          simp [TableIdent.strs]
  · rintro ⟨inNamespace, rfl⟩
    simp [TableIdent.strs, inNamespace]

theorem fromAny_encode_iff_plain :
    TailTicket.fromAny tableOfStrs
        ((TailTicket.subscribe ⟨["demo"], "trips"⟩ 7).encode TableIdent.dotted) =
        .ok (some (.subscribe ⟨["demo"], "trips"⟩ 7)) := by
  refine (fromAny_encode_iff (fun _ => rfl) tableOfStrs_eq_ok _).mpr fun table isTable => ?_
  cases isTable
  exact ⟨by decide, by decide⟩

/-- Two tables share a ticket, which is read as the first of them. -/
theorem ticket_shared :
    (TailTicket.snapshot ⟨["a"], "b.c"⟩).encode TableIdent.dotted =
        (TailTicket.snapshot ⟨["a", "b"], "c"⟩).encode TableIdent.dotted ∧
      TailTicket.fromAny tableOfStrs
          ((TailTicket.snapshot ⟨["a"], "b.c"⟩).encode TableIdent.dotted) =
        .ok (some (.snapshot ⟨["a", "b"], "c"⟩)) := by
  exact ⟨by decide, rfl⟩

end Icegres.Tail
