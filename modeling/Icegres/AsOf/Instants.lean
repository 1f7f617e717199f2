import Icegres.AsOf.Splice
import Mathlib.Data.Int.Lemmas

/-!
# The snapshot of a time

A time is asked for in microseconds and looked up in milliseconds, rounded toward zero. Before the
epoch this is up: a snapshot less than a millisecond later is taken for one that is not later.
-/

namespace Icegres.AsOf

/-! ## The log -/

/-- The entry of a log with the latest time at or before a time in microseconds; without one no
entry is that early. -/
def IsLatest (log : List (Int × Int)) (micros : Int) : Option (Int × Int) → Prop
  | some entry => entry ∈ log ∧ 1000 * entry.1 ≤ micros ∧
      ∀ other ∈ log, 1000 * other.1 ≤ micros → other.1 ≤ entry.1
  | none => ∀ other ∈ log, ¬ 1000 * other.1 ≤ micros

variable {log : List (Int × Int)} {tsMs micros : Int}

/-- In a log in the order of time the last entry that is early enough is the latest such entry. -/
theorem entryAt_eq_some {entry : Int × Int}
    (sorted : log.Pairwise fun one other => one.1 ≤ other.1)
    (found : entryAt log tsMs = some entry) :
    entry ∈ log ∧ entry.1 ≤ tsMs ∧ ∀ other ∈ log, other.1 ≤ tsMs → other.1 ≤ entry.1 := by
  obtain ⟨early, later, earlier, isLog, none'⟩ := List.find?_eq_some_iff_append.mp found
  have split : log = earlier.reverse ++ entry :: later.reverse := by
    rw [← List.reverse_reverse log, isLog, List.reverse_append, List.reverse_cons,
      List.append_assoc]
    rfl
  subst split
  obtain ⟨-, -, before⟩ := List.pairwise_append.mp sorted
  refine ⟨List.mem_append_right _ List.mem_cons_self, by simpa using early, ?_⟩
  intro other mem inTime
  rcases List.mem_append.mp mem with isEarlier | isLater
  · exact before other isEarlier entry List.mem_cons_self
  · rcases List.mem_cons.mp isLater with rfl | isLater
    · exact Int.le_refl _
    · have late := none' other (List.mem_reverse.mp isLater)
      simp only [inTime, decide_true, Bool.not_true] at late
      cases late

theorem entryAt_eq_none (found : entryAt log tsMs = none) : ∀ other ∈ log, ¬ other.1 ≤ tsMs := by
  intro other mem
  have late := List.find?_eq_none.mp found other (List.mem_reverse.mpr mem)
  simpa using late

/-! ## Rounding -/

/-- The time is not rounded past. -/
def Whole (micros : Int) : Prop :=
  0 ≤ micros ∨ 1000 ∣ micros

theorem le_tdiv_of_whole (whole : Whole micros) (t : Int) :
    t ≤ micros.tdiv 1000 ↔ 1000 * t ≤ micros := by
  have exact' : 0 ≤ micros ∨ (1000 : Int) ∣ micros := whole
  rw [Int.tdiv_eq_ediv, if_pos exact']
  omega

/-- A time before the epoch is rounded up to the next millisecond. -/
theorem tdiv_of_not_whole (notWhole : ¬ Whole micros) :
    micros < 1000 * micros.tdiv 1000 ∧ 1000 * micros.tdiv 1000 < micros + 1000 := by
  have inexact : ¬ (0 ≤ micros ∨ (1000 : Int) ∣ micros) := notWhole
  obtain ⟨negative, noMultiple⟩ := not_or.mp inexact
  have sign : Int.sign 1000 = 1 := rfl
  rw [Int.tdiv_eq_ediv, if_neg inexact, sign]
  omega

theorem isLatest_of_iff {found : Option (Int × Int)}
    (sorted : log.Pairwise fun one other => one.1 ≤ other.1) (isFound : entryAt log tsMs = found)
    (same : ∀ other ∈ log, other.1 ≤ tsMs ↔ 1000 * other.1 ≤ micros) :
    IsLatest log micros found := by
  cases found with
  | none => exact fun other mem early => entryAt_eq_none isFound other mem ((same other mem).mpr early)
  | some entry =>
      obtain ⟨mem, early, latest⟩ := entryAt_eq_some sorted isFound
      exact ⟨mem, (same entry mem).mp early, fun other inside early' =>
        latest other inside ((same other inside).mpr early')⟩

/-- The entry that is found is the latest one, unless the time is rounded up to the very time of an
entry. -/
theorem isLatest_entryAt_iff (sorted : log.Pairwise fun one other => one.1 ≤ other.1) :
    IsLatest log micros (entryAt log (micros.tdiv 1000)) ↔
      Whole micros ∨ ∀ entry ∈ log, entry.1 ≠ micros.tdiv 1000 := by
  constructor
  · intro latest
    refine or_iff_not_imp_left.mpr fun notWhole entry mem isTime => ?_
    obtain ⟨late, -⟩ := tdiv_of_not_whole notWhole
    cases found : entryAt log (micros.tdiv 1000) with
    | none => exact entryAt_eq_none found entry mem (Int.le_of_eq isTime)
    | some other =>
        obtain ⟨-, early, last⟩ := entryAt_eq_some sorted found
        have above := last entry mem (Int.le_of_eq isTime)
        rw [found] at latest
        have inTime := latest.2.1
        omega
  · rintro (whole | none')
    · exact isLatest_of_iff sorted rfl fun other _ => le_tdiv_of_whole whole other.1
    · by_cases whole : Whole micros
      · exact isLatest_of_iff sorted rfl fun other _ => le_tdiv_of_whole whole other.1
      · obtain ⟨late, near⟩ := tdiv_of_not_whole whole
        refine isLatest_of_iff sorted rfl fun other mem => ?_
        have apart := none' other mem
        omega

/-! ## The rewriting -/

variable (services : Services) {sql : List Char}

/-- The reference to a table at a snapshot, in quotes. -/
def reference (occ : Occurrence) (snapshotId : Int) : String :=
  match occ.ns with
  | some ns => quoteIdent ns ++ "." ++ quoteIdent s!"{occ.table}@{snapshotId}"
  | none => quoteIdent s!"{occ.table}@{snapshotId}"

/-- The snapshot that an occurrence is rewritten to. -/
structure Resolves (occ : Occurrence) (metadata : TableMetadata) (snapshotId : Int) : Prop where
  loaded : services.loadTable (occ.ns.getD defaultSchema) occ.table = .ok metadata
  known : snapshotId ∈ metadata.snapshots
  byId : ∀ id, occ.spec = .snapshotId id → snapshotId = id
  byTime : ∀ literal, occ.spec = .timestamp literal → ∃ micros entry,
    services.castMicros literal = .ok (some micros) ∧
    entryAt metadata.history (micros.tdiv 1000) = some entry ∧ snapshotId = entry.2

theorem snapshotAt_spec {known : Int → Bool} {what : String} {id : Int}
    (found : snapshotAt log known tsMs what = .ok id) :
    known id ∧ ∃ entry, entryAt log tsMs = some entry ∧ id = entry.2 := by
  rw [snapshotAt] at found
  split at found
  · cases found
  · next time id' isEntry =>
    split at found
    · next isKnown =>
      cases found
      exact ⟨isKnown, _, isEntry, rfl⟩
    · cases found

theorem parseTimestampMs_spec {literal : String}
    (parsed : parseTimestampMs services literal = .ok tsMs) :
    ∃ micros, services.castMicros literal = .ok (some micros) ∧ tsMs = micros.tdiv 1000 := by
  rw [parseTimestampMs] at parsed
  split at parsed
  · cases parsed
  · cases parsed
  · next micros cast =>
    cases parsed
    exact ⟨micros, cast, rfl⟩

theorem replacement_spec {occ : Occurrence} {new : String}
    (isNew : replacement services occ = .ok new) :
    ∃ metadata id, Resolves services occ metadata id ∧ new = reference occ id := by
  rw [replacement] at isNew
  split at isNew
  · cases isNew
  · next metadata loaded =>
    cases resolved : snapshotOf services (occ.ns.getD defaultSchema) occ.table metadata occ.spec with
    | error why =>
        rw [resolved] at isNew
        cases isNew
    | ok id =>
        rw [resolved] at isNew
        have isReference : new = reference occ id := (Except.ok.inj isNew).symm
        refine ⟨metadata, id, ?_, isReference⟩
        cases isSpec : occ.spec with
        | snapshotId asked =>
            rw [isSpec, snapshotOf] at resolved
            split at resolved
            · next isKnown =>
              cases resolved
              exact ⟨loaded, isKnown, fun other same => AsOfSpec.snapshotId.inj (isSpec ▸ same),
                fun literal same => (nomatch isSpec.symm.trans same)⟩
            · cases resolved
        | timestamp literal =>
            rw [isSpec, snapshotOf] at resolved
            obtain ⟨ms, parsed, found⟩ := bind_eq_ok resolved
            obtain ⟨isKnown, entry, isEntry, isId⟩ := snapshotAt_spec found
            obtain ⟨micros, cast, rfl⟩ := parseTimestampMs_spec services parsed
            refine ⟨loaded, by simpa using isKnown,
              fun other same => (nomatch isSpec.symm.trans same), fun other same => ?_⟩
            cases isSpec.symm.trans same
            exact ⟨micros, entry, cast, isEntry, isId⟩

/-- What is asked of the rewriting of a text: locations are found again, the ranges of the
occurrences are apart, a text that is rewritten has these ranges replaced by references and no
other byte changed, and the entry that is found for a time is the latest one. -/
structure Splices (services : Services) (sql : List Char) : Prop where
  inverts : ∀ before after, sql = before ++ after →
    byteOffset sql (locate before).1 (locate before).2 = some (bytes before).length
  ranges : ∀ occs, findOccurrences services sql = .ok occs → Ranges sql occs
  rewritten : ∀ text, rewriteAsOf services sql = .ok (some text) →
    ∃ occs news, findOccurrences services sql = .ok occs ∧
      List.Forall₂ (fun occ new => ∃ metadata id,
        Resolves services occ metadata id ∧ new = reference occ id) occs news ∧
      text = spliced (bytes sql) 0 (occs.zip (news.map replacedBy))
  latest : ∀ occs, findOccurrences services sql = .ok occs → ∀ occ ∈ occs, ∀ literal micros metadata,
    occ.spec = .timestamp literal → services.castMicros literal = .ok (some micros) →
    services.loadTable (occ.ns.getD defaultSchema) occ.table = .ok metadata →
    IsLatest metadata.history micros (entryAt metadata.history (micros.tdiv 1000))

/-- No time that is asked for is before the epoch, between two milliseconds, and in the millisecond
before that of a snapshot in the log. -/
def NotRounded (services : Services) (sql : List Char) : Prop :=
  ∀ occs, findOccurrences services sql = .ok occs → ∀ occ ∈ occs, ∀ literal micros metadata,
    occ.spec = .timestamp literal → services.castMicros literal = .ok (some micros) →
    services.loadTable (occ.ns.getD defaultSchema) occ.table = .ok metadata →
    Whole micros ∨ ∀ entry ∈ metadata.history, entry.1 ≠ micros.tdiv 1000

/-- The log of a table is in the order of time. -/
def Services.Chronological (services : Services) : Prop :=
  ∀ ns table metadata, services.loadTable ns table = .ok metadata →
    metadata.history.Pairwise fun one other => one.1 ≤ other.1

/-- The text is spliced as asked exactly if no time is rounded up to that of a snapshot. -/
theorem splices_iff (tiles : services.Tiles) (chronological : services.Chronological) :
    Splices services sql ↔ NotRounded services sql := by
  constructor
  · intro splices occs found occ mem literal micros metadata isSpec cast loaded
    exact (isLatest_entryAt_iff (chronological _ _ _ loaded)).mp
      (splices.latest occs found occ mem literal micros metadata isSpec cast loaded)
  · intro notRounded
    refine ⟨?_, ?_, ?_, ?_⟩
    · rintro before after rfl
      exact byteOffset_locate before after
    · exact fun occs found => ranges_of_findOccurrences services tiles found
    · intro text rewrites
      obtain ⟨occs, news, found, refer, isText⟩ := rewriteAsOf_spec services tiles rewrites
      exact ⟨occs, news, found, refer.imp fun occ new => replacement_spec services, isText⟩
    · intro occs found occ mem literal micros metadata isSpec cast loaded
      exact (isLatest_entryAt_iff (chronological _ _ _ loaded)).mpr
        (notRounded occs found occ mem literal micros metadata isSpec cast loaded)

/-- Half a millisecond before the epoch is asked for. -/
def preEpoch : List (Token × List Char) :=
  [(.word ⟨"SELECT", none, .other⟩, "SELECT".toList), (.whitespace, [' ']), (.other, ['*']),
    (.whitespace, [' ']), (.word ⟨"FROM", none, .fromWord⟩, "FROM".toList), (.whitespace, [' ']),
    (.word ⟨"t", none, .noKeyword⟩, ['t']), (.whitespace, [' ']),
    (.word ⟨"AS", none, .asWord⟩, "AS".toList), (.whitespace, [' ']),
    (.word ⟨"OF", none, .ofWord⟩, "OF".toList), (.whitespace, [' ']),
    (.word ⟨"TIMESTAMP", none, .timestamp⟩, "TIMESTAMP".toList), (.whitespace, [' ']),
    (.singleQuotedString "1969-12-31 23:59:59.9995", "'1969-12-31 23:59:59.9995'".toList)]

/-- The one table has a snapshot of the epoch. -/
def preEpochServices : Services :=
  ⟨cutting preEpoch, fun name => name, fun _ => .ok (some (-500)),
    fun _ _ => .ok ⟨[(0, 10)], [10]⟩⟩

/-- Its one table has a snapshot of five milliseconds before the epoch. -/
def earlierServices : Services :=
  { preEpochServices with loadTable := fun _ _ => .ok ⟨[(-5, 10)], [10]⟩ }

theorem splices_iff_earlier : Splices earlierServices (textOf preEpoch) := by
  refine (splices_iff _ (tiles_cutting (by decide) (by decide +kernel) rfl) ?_).mpr ?_
  · intro ns table metadata loaded
    cases loaded
    exact List.pairwise_singleton _ _
  · intro occs found occ mem literal micros metadata isSpec cast loaded
    cases cast
    cases loaded
    exact .inr (by decide)

theorem preEpoch_not_splices : ¬ Splices preEpochServices (textOf preEpoch) := by
  intro splices
  have found : findOccurrences preEpochServices (textOf preEpoch) =
      .ok [⟨14, 58, none, "t", .timestamp "1969-12-31 23:59:59.9995"⟩] := by decide +kernel
  have latest := splices.latest _ found _ List.mem_cons_self _ _ _ rfl rfl rfl
  have late : ¬ 1000 * (0 : Int) ≤ -500 := by decide
  exact late latest.2.1

end Icegres.AsOf
