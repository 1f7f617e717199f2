import Icegres.Fallible
import Icegres.Pieces
import Icegres.Tail.Segments

/-!
# The directory of a table

A table's log is kept under one name made of the parts of its identifier. A part is escaped so
that no dot and no slash is left in it, and the parts are joined by dots.
-/

namespace Icegres.Tail

/-- A table in a namespace of several parts. -/
structure TableIdent where
  inner : List String
  name : String
  deriving DecidableEq

/-- The namespace and then the name. -/
def TableIdent.strs (ident : TableIdent) : List String :=
  ident.inner ++ [ident.name]

theorem TableIdent.eq_of_strs {ident other : TableIdent} (same : ident.strs = other.strs) :
    ident = other := by
  obtain ⟨inner, name⟩ := List.append_inj' same rfl
  cases ident
  cases other
  cases inner
  cases name
  rfl

/-! ## Escapes -/

def encodeChar (c : Char) : List Char :=
  if c = '%' then ['%', '2', '5']
  else if c = '.' then ['%', '2', 'e']
  else if c = '/' then ['%', '2', 'f']
  else [c]

/-- One part of an identifier as part of a file name. -/
def encodeComponent (part : String) : Except String String :=
  if Char.ofNat 0 ∈ part.toList then
    .error s!"table name component {part.quote} contains a NUL byte"
  else
    .ok (String.ofList (part.toList.flatMap encodeChar))

/-- Undo the escapes. A percent sign takes two hexadecimal digits. -/
def decodeChars : List Char → Option (List Char)
  | [] => some []
  | '%' :: first :: second :: rest =>
    let hex := [first, second]
    if (String.ofList hex).utf8ByteSize ≠ 2 then
      none
    else do
      let byte ← parseU64 16 hex
      let later ← decodeChars rest
      return Char.ofNat byte :: later
  | '%' :: _ => none
  | c :: rest => (decodeChars rest).map fun later => c :: later

def decodeComponent (part : List Char) : Option String :=
  (decodeChars part).map String.ofList

/-- `<ns>.<table>` with every part escaped. -/
def tableDirName (ident : TableIdent) : Except String String := do
  let parts ← ident.inner.mapM encodeComponent
  let name ← encodeComponent ident.name
  return String.ofList (['.'].intercalate ((parts ++ [name]).map String.toList))

/-- Undo `tableDirName`. Making an identifier of its parts is the catalog library's. -/
def parseTableDirName (fromStrs : List String → Option TableIdent) (name : String) :
    Option TableIdent := do
  let parts ← (name.toList.splitOn '.').mapM decodeComponent
  if parts.length < 2 ∨ "" ∈ parts then none else fromStrs parts

/-! ## One part -/

theorem decodeChars_plain {c : Char} (plain : c ≠ '%') (rest : List Char) :
    decodeChars (c :: rest) = (decodeChars rest).map fun later => c :: later := by
  rw [decodeChars]
  · rintro first second later rfl
    exact absurd rfl plain
  · rintro rfl
    exact absurd rfl plain

/-- Two digits are one character. -/
theorem decodeChars_escape {first second c : Char}
    (width : (String.ofList [first, second]).utf8ByteSize = 2)
    (byte : (parseU64 16 [first, second]).map Char.ofNat = some c) (rest : List Char) :
    decodeChars ('%' :: first :: second :: rest) =
      (decodeChars rest).map fun later => c :: later := by
  obtain ⟨value, isValue, rfl⟩ := Option.map_eq_some_iff.mp byte
  rw [decodeChars]
  simp only [width, isValue, ne_eq, not_true_eq_false, if_false]
  cases decodeChars rest <;> rfl

theorem decodeChars_encodeChar (c : Char) (rest : List Char) :
    decodeChars (encodeChar c ++ rest) = (decodeChars rest).map fun later => c :: later := by
  unfold encodeChar
  split
  · next isPercent =>
    subst isPercent
    exact decodeChars_escape (by decide) (by decide) rest
  · split
    · next isDot =>
      subst isDot
      exact decodeChars_escape (by decide) (by decide) rest
    · split
      · next isSlash =>
        subst isSlash
        exact decodeChars_escape (by decide) (by decide) rest
      · next plain _ _ => exact decodeChars_plain plain rest

theorem decodeChars_flatMap (chars : List Char) :
    decodeChars (chars.flatMap encodeChar) = some chars := by
  induction chars with
  | nil => rfl
  | cons c rest ih =>
      rw [List.flatMap_cons, decodeChars_encodeChar, ih]
      rfl

/-- An escaped part has neither a dot nor a slash. -/
theorem not_mem_encodeChar (c : Char) : '.' ∉ encodeChar c ∧ '/' ∉ encodeChar c := by
  unfold encodeChar
  split
  · decide
  · split
    · decide
    · split
      · decide
      · next _ noDot noSlash => simp [Ne.symm noDot, Ne.symm noSlash]

theorem encodeComponent_eq_ok {part encoded : String}
    (encodes : encodeComponent part = .ok encoded) :
    encoded.toList = part.toList.flatMap encodeChar := by
  unfold encodeComponent at encodes
  split at encodes
  · cases encodes
  · cases encodes
    exact String.toList_ofList

/-- What is written for a part can be read, and stays one piece. -/
theorem decodeComponent_encodeComponent {part encoded : String}
    (encodes : encodeComponent part = .ok encoded) :
    decodeComponent encoded.toList = some part ∧ '.' ∉ encoded.toList ∧ '/' ∉ encoded.toList := by
  rw [encodeComponent_eq_ok encodes]
  refine ⟨?_, fun mem => ?_, fun mem => ?_⟩
  · rw [decodeComponent, decodeChars_flatMap, Option.map_some, String.ofList_toList]
  · obtain ⟨c, -, inChar⟩ := List.mem_flatMap.mp mem
    exact (not_mem_encodeChar c).1 inChar
  · obtain ⟨c, -, inChar⟩ := List.mem_flatMap.mp mem
    exact (not_mem_encodeChar c).2 inChar

/-! ## The whole name -/

/-- No part has a NUL character. -/
def TableIdent.NulFree (ident : TableIdent) : Prop :=
  ∀ part ∈ ident.strs, Char.ofNat 0 ∉ part.toList

theorem mapM_encodeComponent {parts : List String}
    (free : ∀ part ∈ parts, Char.ofNat 0 ∉ part.toList) :
    ∃ encoded, parts.mapM encodeComponent = .ok encoded := by
  induction parts with
  | nil => exact ⟨[], rfl⟩
  | cons part parts ih =>
      obtain ⟨later, encodes⟩ := ih fun other mem => free other (List.mem_cons_of_mem _ mem)
      have first : encodeComponent part =
          .ok (String.ofList (part.toList.flatMap encodeChar)) :=
        if_neg (free part List.mem_cons_self)
      rw [List.mapM_cons, first, encodes]
      exact ⟨_, rfl⟩

theorem exists_tableDirName {ident : TableIdent} (free : ident.NulFree) :
    ∃ key, tableDirName ident = .ok key := by
  obtain ⟨parts, inner⟩ := mapM_encodeComponent fun part mem =>
    free part (List.mem_append_left _ mem)
  have name : encodeComponent ident.name =
      .ok (String.ofList (ident.name.toList.flatMap encodeChar)) :=
    if_neg (free ident.name (by simp [TableIdent.strs]))
  unfold tableDirName
  rw [inner, name]
  exact ⟨_, rfl⟩

/-- The name of a table is its escaped parts with dots between them. -/
theorem tableDirName_eq_ok {ident : TableIdent} {key : String}
    (named : tableDirName ident = .ok key) : ∃ encoded : List String,
      List.Forall₂ (fun part written => encodeComponent part = .ok written) ident.strs encoded ∧
      key.toList = ['.'].intercalate (encoded.map String.toList) := by
  obtain ⟨parts, inner, rest⟩ := bind_eq_ok named
  obtain ⟨name, last, isKey⟩ := bind_eq_ok rest
  cases isKey
  refine ⟨parts ++ [name], ?_, String.toList_ofList⟩
  exact List.rel_append (mapM_eq_ok inner) (.cons last .nil)

section Pieces

variable {parts encoded : List String}

theorem splitOn_encoded
    (encodes : List.Forall₂ (fun part written => encodeComponent part = .ok written) parts encoded)
    (some' : parts ≠ []) :
    (['.'].intercalate (encoded.map String.toList)).splitOn '.' = encoded.map String.toList := by
  have written : encoded.map String.toList ≠ [] := by
    cases encodes with
    | nil => exact absurd rfl some'
    | cons first rest => simp
  rw [splitOn_intercalate_eq_flatMap written]
  clear written some'
  induction encodes with
  | nil => rfl
  | cons first rest ih =>
      rw [List.map_cons, List.flatMap_cons, ih,
        List.splitOn_eq_singleton (decodeComponent_encodeComponent first).2.1]
      rfl

theorem mapM_decodeComponent
    (encodes : List.Forall₂ (fun part written => encodeComponent part = .ok written)
      parts encoded) :
    (encoded.map String.toList).mapM decodeComponent = some parts := by
  induction encodes with
  | nil => rfl
  | cons first rest ih =>
      rw [List.map_cons, List.mapM_cons, (decodeComponent_encodeComponent first).1, ih]
      rfl

theorem not_mem_intercalate
    (encodes : List.Forall₂ (fun part written => encodeComponent part = .ok written)
      parts encoded) :
    '/' ∉ ['.'].intercalate (encoded.map String.toList) := by
  induction encodes with
  | nil => simp
  | @cons part written parts encoded first rest ih =>
      have noSlash := (decodeComponent_encodeComponent first).2.2
      cases rest with
      | nil => simpa using noSlash
      | cons second rest =>
          rw [List.map_cons] at ih
          rw [List.map_cons, List.map_cons, List.intercalate_cons_cons, List.mem_append,
            List.mem_append]
          rintro ((inFirst | inDot) | inRest)
          · exact noSlash inFirst
          · simp at inDot
          · exact ih inRest

end Pieces

/-- The name of a table tells its parts. -/
theorem strs_of_tableDirName {ident : TableIdent} {key : String}
    (named : tableDirName ident = .ok key) :
    (key.toList.splitOn '.').mapM decodeComponent = some ident.strs := by
  obtain ⟨encoded, encodes, isKey⟩ := tableDirName_eq_ok named
  rw [isKey, splitOn_encoded encodes (by simp [TableIdent.strs])]
  exact mapM_decodeComponent encodes

/-- Different tables have different names. -/
theorem tableDirName_inj {ident other : TableIdent} {key : String}
    (named : tableDirName ident = .ok key) (named' : tableDirName other = .ok key) :
    other = ident := by
  have strs := strs_of_tableDirName named
  rw [strs_of_tableDirName named'] at strs
  exact TableIdent.eq_of_strs (Option.some.inj strs)

/-- A name of dots only is no table's. -/
theorem parseTableDirName_dots (fromStrs : List String → Option TableIdent) :
    parseTableDirName fromStrs "." = none ∧ parseTableDirName fromStrs ".." = none := by
  constructor <;> rfl

/-- A table that has a namespace and no empty part is known by one directory, which is told from
that of every other table. -/
theorem parseTableDirName_tableDirName {fromStrs : List String → Option TableIdent}
    (makes : ∀ ident : TableIdent, ident.inner ≠ [] → fromStrs ident.strs = some ident)
    {ident : TableIdent} (inNamespace : ident.inner ≠ []) (filled : "" ∉ ident.strs)
    (free : ident.NulFree) :
    ∃ key, tableDirName ident = .ok key ∧ parseTableDirName fromStrs key = some ident ∧
      '/' ∉ key.toList ∧ key ≠ "." ∧ key ≠ ".." ∧
      ∀ other, tableDirName other = .ok key → other = ident := by
  obtain ⟨key, named⟩ := exists_tableDirName free
  have parses : parseTableDirName fromStrs key = some ident := by
    have several : ¬ (ident.strs.length < 2 ∨ "" ∈ ident.strs) := by
      have some' := List.length_pos_iff.mpr inNamespace
      rintro (short | empty)
      · simp only [TableIdent.strs, List.length_append, List.length_singleton] at short
        omega
      · exact filled empty
    unfold parseTableDirName
    rw [strs_of_tableDirName named]
    exact (if_neg several).trans (makes ident inNamespace)
  have dots := parseTableDirName_dots fromStrs
  refine ⟨key, named, parses, ?_, ?_, ?_, fun other named' => tableDirName_inj named named'⟩
  · obtain ⟨encoded, encodes, isKey⟩ := tableDirName_eq_ok named
    rw [isKey]
    exact not_mem_intercalate encodes
  · rintro rfl
    rw [dots.1] at parses
    cases parses
  · rintro rfl
    rw [dots.2] at parses
    cases parses

/-- The last part is the name, the ones before it the namespace. -/
def identOfStrs (strs : List String) : Option TableIdent :=
  match strs.reverse with
  | [] => none
  | name :: inner => if inner = [] then none else some ⟨inner.reverse, name⟩

theorem parseTableDirName_tableDirName_dotted :
    ∃ key, tableDirName ⟨["a"], "b.c%/"⟩ = .ok key ∧
      parseTableDirName identOfStrs key = some ⟨["a"], "b.c%/"⟩ ∧
      '/' ∉ key.toList ∧ key ≠ "." ∧ key ≠ ".." ∧
      ∀ other, tableDirName other = .ok key → other = ⟨["a"], "b.c%/"⟩ := by
  refine parseTableDirName_tableDirName (fun ident some' => ?_) (by decide) (by decide) ?_
  · simp [identOfStrs, TableIdent.strs, some']
  · unfold TableIdent.NulFree
    decide

end Icegres.Tail
