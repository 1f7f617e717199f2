import Icegres.Fallible
import Icegres.AsOf.Tiling

/-!
# The rewritten text

The ranges that are replaced begin and end where tokens do, follow each other, and every other
byte of the text stays.
-/

namespace Icegres.AsOf

variable (services : Services) {sql : List Char} {tokens : List TokenWithSpan}
  {pieces : List (List Char)}

/-! ## One occurrence -/

section Sig

variable {sig : List (TokenWithSpan × Nat)} {k : Nat}

/-- A word in its plain spelling is not quoted. -/
theorem wordKw_spec {pos : Nat} {kw : Keyword} (isWord' : wordKw sig pos kw) :
    ∃ w, tokenAt sig pos = some (.word w) ∧ w.keyword = kw ∧ w.quoteStyle = none := by
  rw [wordKw] at isWord'
  split at isWord'
  · next w isToken => exact ⟨w, isToken, by simpa using isWord'⟩
  · cases isWord'

theorem identAt_spec {pos : Nat} {w : Word} (isIdent : identAt sig pos = some w) :
    tokenAt sig pos = some (.word w) ∧ (w.quoteStyle ≠ none ∨ w.keyword = .noKeyword) := by
  rw [identAt] at isIdent
  split at isIdent
  · next w' isToken =>
    split at isIdent
    · next named =>
      cases isIdent
      exact ⟨isToken, named.imp_left fun quoted => Option.isSome_iff_ne_none.mp quoted⟩
    · cases isIdent
  · cases isIdent

/-- The version stands behind `OF`, and its last token is no word and no period. -/
theorem versionAt_spec {spec : AsOfSpec} {lastSig : Nat}
    (isVersion : versionAt sig k = some (spec, lastSig)) :
    (lastSig = k + 2 ∨ lastSig = k + 3 ∧ wordKw sig (k + 2) .timestamp) ∧
      ∃ token, tokenAt sig lastSig = some token ∧ (∀ w, token ≠ .word w) ∧ token ≠ .period := by
  rw [versionAt] at isVersion
  split at isVersion
  · next timestamp =>
    split at isVersion
    · next s isToken =>
      cases isVersion
      exact ⟨.inr ⟨rfl, timestamp.2⟩, _, isToken, nofun, nofun⟩
    · cases isVersion
  · split at isVersion
    · split at isVersion
      · next n isToken =>
        obtain ⟨id, -, same⟩ := Option.map_eq_some_iff.mp isVersion
        cases same
        exact ⟨.inl rfl, _, isToken, nofun, nofun⟩
      · cases isVersion
    · cases isVersion

/-- The relation stands right before `AS`: a table, or a namespace, a period and a table. -/
theorem relationAt_spec {table : Word} {ns : Option Word} {chainStart : Nat}
    (isRelation : relationAt sig k = .ok (some (table, ns, chainStart))) :
    0 < k ∧ identAt sig (k - 1) = some table ∧
      (chainStart = k - 1 ∨ 3 ≤ k ∧ chainStart = k - 3 ∧ tokenAt sig (k - 2) = some .period ∧
        ∃ w, identAt sig (k - 3) = some w) := by
  rw [relationAt] at isRelation
  split at isRelation
  · cases isRelation
  · next some' =>
    split at isRelation
    · cases isRelation
    · next tableWord isTable =>
      split at isRelation
      · next dotted =>
        split at isRelation
        · cases isRelation
          exact ⟨Nat.pos_of_ne_zero some', isTable, .inl rfl⟩
        · next nsWord isNs =>
          split at isRelation
          · cases isRelation
          · cases isRelation
            exact ⟨Nat.pos_of_ne_zero some', isTable, .inr ⟨dotted.1, rfl, dotted.2, _, isNs⟩⟩
      · cases isRelation
        exact ⟨Nat.pos_of_ne_zero some', isTable, .inl rfl⟩

end Sig

/-- An occurrence at a word `AS`: from the first token of the relation to the one behind the
version. -/
structure OccursAt (tokens : List TokenWithSpan) (pieces : List (List Char)) (k : Nat)
    (occ : Occurrence) : Prop where
  isAs : wordKw (significant tokens) k .asWord
  isOf : wordKw (significant tokens) (k + 1) .ofWord
  parts : ∃ lastSig chainStart table ns first last,
    versionAt (significant tokens) k = some (occ.spec, lastSig) ∧
    relationAt (significant tokens) k = .ok (some (table, ns, chainStart)) ∧
    (significant tokens)[chainStart]? = some first ∧
    (significant tokens)[lastSig]? = some last ∧
    occ.start = bytesBefore pieces first.2 ∧ occ.stop = bytesBefore pieces (last.2 + 1)

theorem byteRange_spec (tiling : Tiling sql tokens pieces) {chainStart lastSig : Nat}
    {first last : TokenWithSpan × Nat} (isFirst : (significant tokens)[chainStart]? = some first)
    (isLast : (significant tokens)[lastSig]? = some last) :
    byteRange (significant tokens) sql tokens chainStart lastSig =
      some (bytesBefore pieces first.2, bytesBefore pieces (last.2 + 1)) := by
  rw [byteRange, isFirst, Option.bind_some, tiling.byteOffset_eq (significant_get isFirst).1,
    Option.bind_some, isLast, Option.bind_some]
  split
  · next next isNext => rw [tiling.byteOffset_eq isNext]; rfl
  · next none' =>
    have inside := (List.getElem?_eq_some_iff.mp (significant_get isLast).1).1
    have past := List.getElem?_eq_none_iff.mp none'
    have isLength : last.2 + 1 = tokens.length := by omega
    rw [isLength, tiling.bytesBefore_length]

/-- What is found at a place is an occurrence there. -/
theorem occursAt_of_occurrenceAt (tiling : Tiling sql tokens pieces) {k : Nat} {occ : Occurrence}
    (found : occurrenceAt services sql tokens k = .ok (some occ)) :
    OccursAt tokens pieces k occ := by
  rw [occurrenceAt] at found
  split at found
  · cases found
  · next pair =>
    simp only [not_or, not_not, Nat.not_le] at pair
    split at found
    · cases found
    · next spec lastSig isVersion =>
      split at found
      · cases found
      · cases found
      · next table ns chainStart isRelation =>
        split at found
        · cases found
        · obtain ⟨token, isToken, -⟩ := (versionAt_spec isVersion).2
          obtain ⟨last, isLast, -⟩ := Option.map_eq_some_iff.mp isToken
          obtain ⟨some', isTable, chain⟩ := relationAt_spec isRelation
          obtain ⟨first, isFirst⟩ : ∃ first, (significant tokens)[chainStart]? = some first := by
            rcases chain with rfl | ⟨-, rfl, -, w, isNs⟩
            · obtain ⟨first, isFirst, -⟩ := Option.map_eq_some_iff.mp (identAt_spec isTable).1
              exact ⟨first, isFirst⟩
            · obtain ⟨first, isFirst, -⟩ := Option.map_eq_some_iff.mp (identAt_spec isNs).1
              exact ⟨first, isFirst⟩
          rw [byteRange_spec tiling isFirst isLast] at found
          cases found
          exact ⟨pair.1, pair.2.2, lastSig, chainStart, table, ns, first, last, isVersion,
            isRelation, isFirst, isLast, rfl, rfl⟩

/-- A token is at one place once. -/
theorem pos_ne_of_token {sig : List (TokenWithSpan × Nat)} {pos pos' : Nat} {token token' : Token}
    (isToken : tokenAt sig pos = some token) (isToken' : tokenAt sig pos' = some token')
    (apart : token ≠ token') : pos ≠ pos' := by
  rintro rfl
  rw [isToken] at isToken'
  exact apart (Option.some.inj isToken')

/-- An occurrence ends before a later one begins. -/
theorem OccursAt.le {k k' : Nat} {occ occ' : Occurrence} (occurs : OccursAt tokens pieces k occ)
    (occurs' : OccursAt tokens pieces k' occ') (lt : k < k') : occ.stop ≤ occ'.start := by
  obtain ⟨lastSig, -, -, -, -, last, isVersion, -, -, isLast, -, stop⟩ := occurs.parts
  obtain ⟨-, chainStart, table, ns, first, -, -, isRelation, isFirst, -, start, -⟩ := occurs'.parts
  obtain ⟨place, token, isToken, noWord, noPeriod⟩ := versionAt_spec isVersion
  obtain ⟨some', isTable, chain⟩ := relationAt_spec isRelation
  obtain ⟨w, isAs, asKeyword, -⟩ := wordKw_spec occurs'.isAs
  obtain ⟨w', isOf, ofKeyword, -⟩ := wordKw_spec occurs.isOf
  have words {kw kw' : Keyword} {one other : Word} (isOne : one.keyword = kw)
      (isOther : other.keyword = kw') (apart : kw ≠ kw') : Token.word one ≠ .word other := by
    rintro ⟨⟩
    exact apart (isOne.symm.trans isOther)
  have notOf := pos_ne_of_token isAs isOf (words asKeyword ofKeyword nofun)
  have notLast := pos_ne_of_token isAs isToken fun same => noWord w same.symm
  have notLast' := pos_ne_of_token (identAt_spec isTable).1 isToken fun same =>
    noWord table same.symm
  have behind : lastSig < k' := by
    rcases place with rfl | ⟨rfl, isTimestamp⟩
    · omega
    · obtain ⟨w'', isTime, timeKeyword, -⟩ := wordKw_spec isTimestamp
      have notTime := pos_ne_of_token isAs isTime (words asKeyword timeKeyword nofun)
      omega
  have before : lastSig < chainStart := by
    rcases chain with rfl | ⟨three, rfl, isPeriod, nsWord, isNs⟩
    · omega
    · have notPeriod := pos_ne_of_token isPeriod isToken fun same => noPeriod same.symm
      have notNs := pos_ne_of_token (identAt_spec isNs).1 isToken fun same =>
        noWord nsWord same.symm
      omega
  rw [start, stop]
  exact bytesBefore_mono (significant_lt isLast isFirst before)

theorem bytesBefore_lt (tiling : Tiling sql tokens pieces) {i j : Nat} (le : i ≤ j)
    (inside : j < tokens.length) : bytesBefore pieces i < bytesBefore pieces (j + 1) := by
  have inside' : j < pieces.length := by rw [tiling.length]; exact inside
  have mono := @bytesBefore_mono pieces i j le
  obtain ⟨c, rest, isPiece⟩ := List.exists_cons_of_ne_nil
    (tiling.filled pieces[j] (List.getElem_mem inside'))
  have positive := c.utf8Size_pos
  have step : bytesBefore pieces (j + 1) = bytesBefore pieces j + (bytes pieces[j]).length := by
    rw [bytesBefore, List.take_succ_eq_append_getElem inside', List.flatten_append, bytes_append,
      List.length_append, List.flatten_singleton]
    rfl
  rw [step, isPiece, length_bytes_cons]
  omega

theorem OccursAt.bounds (tiling : Tiling sql tokens pieces) {k : Nat} {occ : Occurrence}
    (occurs : OccursAt tokens pieces k occ) :
    occ.start < occ.stop ∧ IsBoundary sql occ.start ∧ IsBoundary sql occ.stop := by
  obtain ⟨lastSig, chainStart, table, ns, first, last, isVersion, isRelation, isFirst, isLast,
    start, stop⟩ := occurs.parts
  obtain ⟨place, -⟩ := versionAt_spec isVersion
  obtain ⟨some', -, chain⟩ := relationAt_spec isRelation
  have before := significant_lt isFirst isLast (by omega)
  have inside := (List.getElem?_eq_some_iff.mp (significant_get isLast).1).1
  rw [start, stop]
  exact ⟨bytesBefore_lt tiling (Nat.le_of_lt before) inside, tiling.isBoundary _,
    tiling.isBoundary _⟩

/-! ## All occurrences -/

/-- The places of the occurrences among the places that are tried. -/
theorem exists_places (tiling : Tiling sql tokens pieces) {places : List Nat}
    {found : List (Option Occurrence)}
    (tried : List.Forall₂ (fun k occ => occurrenceAt services sql tokens k = .ok occ)
      places found) :
    ∃ places', places'.Sublist places ∧
      List.Forall₂ (OccursAt tokens pieces) places' (found.filterMap id) := by
  induction tried with
  | nil => exact ⟨[], List.nil_sublist _, .nil⟩
  | @cons k occ places found first _ ih =>
      obtain ⟨places', inside, occur⟩ := ih
      cases occ with
      | none => exact ⟨places', inside.cons k, occur⟩
      | some occ =>
          exact ⟨k :: places', inside.cons_cons k,
            .cons (occursAt_of_occurrenceAt services tiling first) occur⟩

theorem pairwise_of_places {places : List Nat} {occs : List Occurrence}
    (occur : List.Forall₂ (OccursAt tokens pieces) places occs)
    (sorted : places.Pairwise (· < ·)) :
    occs.Pairwise fun occ later => occ.stop ≤ later.start := by
  induction occur with
  | nil => exact .nil
  | @cons k occ places occs first rest ih =>
      obtain ⟨below, others⟩ := List.pairwise_cons.mp sorted
      refine .cons (fun later mem => ?_) (ih others)
      obtain ⟨k', inside, occurs'⟩ : ∃ k' ∈ places, OccursAt tokens pieces k' later := by
        obtain ⟨i, inside, rfl⟩ := List.getElem_of_mem mem
        have both := List.forall₂_iff_get.mp rest
        exact ⟨_, List.getElem_mem (by rw [both.1]; exact inside),
          both.2 i (by rw [both.1]; exact inside) inside⟩
      exact first.le occurs' (below k' inside)

/-- The ranges that are replaced follow each other, and begin and end between characters. -/
structure Ranges (sql : List Char) (occs : List Occurrence) : Prop where
  inOrder : occs.Pairwise fun occ later => occ.stop ≤ later.start
  bounds : ∀ occ ∈ occs,
    occ.start < occ.stop ∧ IsBoundary sql occ.start ∧ IsBoundary sql occ.stop

theorem ranges_of_findOccurrences (tiles : services.Tiles) {occs : List Occurrence}
    (found : findOccurrences services sql = .ok occs) : Ranges sql occs := by
  rw [findOccurrences] at found
  split at found
  · cases found
    exact ⟨.nil, by simp⟩
  · next tokens isTokens =>
    obtain ⟨pieces, tiling⟩ := tiles sql tokens isTokens
    cases tried : (List.range (significant tokens).length).mapM
        (occurrenceAt services sql tokens) with
    | error why =>
        rw [tried] at found
        cases found
    | ok values =>
        rw [tried] at found
        cases found
        obtain ⟨places, inside, occur⟩ := exists_places services tiling (mapM_eq_ok tried)
        refine ⟨pairwise_of_places occur (List.pairwise_lt_range.sublist inside), ?_⟩
        intro occ mem
        obtain ⟨i, at', rfl⟩ := List.getElem_of_mem mem
        have both := List.forall₂_iff_get.mp occur
        exact (both.2 i (by rw [both.1]; exact at') at').bounds tiling

/-! ## The text with its ranges replaced -/

/-- The text from a position on, with the ranges replaced by what is given for them. -/
def spliced (text : List UInt8) : Nat → List (Occurrence × List UInt8) → List UInt8
  | pos, [] => text.drop pos
  | pos, (occ, new) :: rest =>
    (text.drop pos).take (occ.start - pos) ++ new ++ spliced text occ.stop rest

/-- What an occurrence is replaced by: the reference and a space. -/
def replacedBy (new : String) : List UInt8 :=
  bytes (new ++ " ").toList

theorem spliceBack_append (later earlier : List Occurrence) (text : List UInt8) :
    spliceBack services (later ++ earlier) text =
      (spliceBack services later text).bind fun text => spliceBack services earlier text := by
  induction later generalizing text with
  | nil => rfl
  | cons occ rest ih =>
      rw [List.cons_append, spliceBack, spliceBack]
      cases replacement services occ with
      | error why => rfl
      | ok new => exact ih _

theorem length_le_of_isBoundary {offset : Nat} (isBoundary : IsBoundary sql offset) :
    offset ≤ (bytes sql).length := by
  obtain ⟨before, after, rfl, rfl⟩ := isBoundary
  rw [bytes_append, List.length_append]
  omega

/-- Replaced from the last range to the first, the text is the one with all ranges replaced. The
induction is over the occurrences; the text before the first one stays as it is. -/
theorem spliceBack_spec {occs : List Occurrence} (ranges : Ranges sql occs)
    {rewritten : List UInt8} (splices : spliceBack services occs.reverse (bytes sql) = .ok rewritten)
    {pos : Nat} (ahead : ∀ occ ∈ occs, pos ≤ occ.start) :
    ∃ news, List.Forall₂ (fun occ new => replacement services occ = .ok new) occs news ∧
      rewritten = (bytes sql).take pos ++ spliced (bytes sql) pos
        (occs.zip (news.map replacedBy)) := by
  induction occs generalizing rewritten pos with
  | nil =>
      cases splices
      exact ⟨[], .nil, (List.take_append_drop pos (bytes sql)).symm⟩
  | cons occ rest ih =>
      obtain ⟨below, inOrder⟩ := List.pairwise_cons.mp ranges.inOrder
      obtain ⟨lt, -, isBoundary⟩ := ranges.bounds occ List.mem_cons_self
      have length := length_le_of_isBoundary isBoundary
      have le := ahead occ List.mem_cons_self
      rw [List.reverse_cons, spliceBack_append] at splices
      cases behind : spliceBack services rest.reverse (bytes sql) with
      | error why =>
          rw [behind] at splices
          cases splices
      | ok text =>
          rw [behind] at splices
          obtain ⟨news, refer, isText⟩ := ih
            ⟨inOrder, fun other mem => ranges.bounds other (List.mem_cons_of_mem _ mem)⟩ behind below
          cases isNew : replacement services occ with
          | error why =>
              simp only [Except.bind, spliceBack, isNew] at splices
              cases splices
          | ok new =>
              simp only [Except.bind, spliceBack, isNew] at splices
              cases splices
              refine ⟨new :: news, .cons isNew refer, ?_⟩
              have stop : ((bytes sql).take occ.stop).length = occ.stop := by
                rw [List.length_take]
                omega
              have front : text.take occ.start =
                  (bytes sql).take pos ++ ((bytes sql).drop pos).take (occ.start - pos) := by
                rw [isText, List.take_append_of_le_length (by omega), List.take_take,
                  Nat.min_eq_left (Nat.le_of_lt lt), ← List.take_add, Nat.add_sub_cancel' le]
              have back : text.drop occ.stop =
                  spliced (bytes sql) occ.stop (rest.zip (news.map replacedBy)) := by
                rw [isText, List.drop_left' stop]
              rw [replaceRange, front, back, List.map_cons, List.zip_cons_cons, spliced, replacedBy]
              simp only [List.append_assoc]

/-- A rewritten text is the original with the ranges replaced. -/
theorem rewriteAsOf_spec (tiles : services.Tiles) {rewritten : List UInt8}
    (rewrites : rewriteAsOf services sql = .ok (some rewritten)) :
    ∃ occs news, findOccurrences services sql = .ok occs ∧
      List.Forall₂ (fun occ new => replacement services occ = .ok new) occs news ∧
      rewritten = spliced (bytes sql) 0 (occs.zip (news.map replacedBy)) := by
  rw [rewriteAsOf] at rewrites
  split at rewrites
  · cases rewrites
  · obtain ⟨occs, found, rest⟩ := bind_eq_ok rewrites
    split at rest
    · cases rest
    · have ranges := ranges_of_findOccurrences services tiles found
      have sorted : occs.mergeSort (fun one other => one.start ≤ other.start) = occs := by
        refine List.mergeSort_of_pairwise (ranges.inOrder.imp_of_mem fun {one other} mem _ le => ?_)
        have lt := (ranges.bounds one mem).1
        simp only [decide_eq_true_eq]
        omega
      dsimp only at rest
      rw [sorted] at rest
      cases splices : spliceBack services occs.reverse (bytes sql) with
      | error why =>
          rw [splices] at rest
          cases rest
      | ok text =>
          rw [splices] at rest
          cases rest
          obtain ⟨news, refer, isText⟩ :=
            spliceBack_spec services ranges splices fun _ _ => Nat.zero_le _
          exact ⟨occs, news, found, refer, isText⟩

end Icegres.AsOf
