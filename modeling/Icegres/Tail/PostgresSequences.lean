import Icegres.Tail.Postgres
import Mathlib.Data.List.Dedup
import Mathlib.Data.List.Induction

/-!
# The sequences of a Postgres tail

The frames of a table enter the database in increasing order of their sequences, whichever process
sends them, and a process that opens the tail has every sequence of its predecessors below its own.
-/

namespace Icegres.Tail

/-- The identifier of a table that the catalog can have. -/
def TableIdent.Named (ident : TableIdent) : Prop :=
  ident.inner ≠ [] ∧ "" ∉ ident.strs

theorem TableIdent.Named.parse {fromStrs : List String → Option TableIdent}
    (makes : ∀ ident : TableIdent, ident.inner ≠ [] → fromStrs ident.strs = some ident)
    {ident : TableIdent} (named : ident.Named) {key : String} (isKey : tableDirName ident = .ok key) :
    parseTableDirName fromStrs key = some ident := by
  have several : ¬ (ident.strs.length < 2 ∨ "" ∈ ident.strs) := by
    have some' := List.length_pos_iff.mpr named.1
    rintro (short | empty)
    · simp only [TableIdent.strs, List.length_append, List.length_singleton] at short
      omega
    · exact named.2 empty
  unfold parseTableDirName
  rw [strs_of_tableDirName isKey]
  exact (if_neg several).trans (makes ident named.1)

namespace Postgres

variable {Batches : Type} {encodeIpc : Batches → Except String (List UInt8)}
  {collate : String → String → Bool} {fromStrs : List String → Option TableIdent}
  {parsesUuid : String → Bool}

theorem forall_mem_concat {α : Type} {holds : α → Prop} {items : List α} {last : α}
    (front : ∀ item ∈ items, holds item) (back : holds last) :
    ∀ item ∈ items ++ [last], holds item :=
  List.forall_mem_append.mpr ⟨front, List.forall_mem_singleton.mpr back⟩

/-! ## Watermark rows -/

section Watermarks

variable {key : String} {seq : Int} {rows : List (String × Int)}

/-- The row of the key rises, or there was none. -/
theorem upsertWatermark_cases (key : String) (seq : Int) (rows : List (String × Int)) :
    (∃ before mark after, rows = before ++ (key, mark) :: after ∧
        upsertWatermark key seq rows = before ++ (key, max mark seq) :: after) ∨
      key ∉ rows.map Prod.fst ∧ upsertWatermark key seq rows = rows ++ [(key, seq)] := by
  induction rows with
  | nil => exact .inr ⟨List.not_mem_nil, rfl⟩
  | cons row rest ih =>
      unfold upsertWatermark
      by_cases own : row.1 = key
      · rw [if_pos own, ← own]
        exact .inl ⟨[], row.2, rest, rfl, rfl⟩
      · rw [if_neg own]
        rcases ih with ⟨before, mark, after, rfl, is⟩ | ⟨fresh, is⟩
        · exact .inl ⟨row :: before, mark, after, rfl, by rw [is]; rfl⟩
        · refine .inr ⟨?_, by rw [is]; rfl⟩
          rw [List.map_cons, List.mem_cons, not_or]
          exact ⟨Ne.symm own, fresh⟩

theorem upsertWatermark_nodup (nodup : (rows.map Prod.fst).Nodup) :
    ((upsertWatermark key seq rows).map Prod.fst).Nodup := by
  rcases upsertWatermark_cases key seq rows with ⟨before, mark, after, rfl, is⟩ | ⟨fresh, is⟩
  · simpa [is] using nodup
  · rw [is, List.map_append]
    exact nodup.append (List.nodup_singleton key) (List.disjoint_singleton.mpr fresh)

/-- A watermark row never falls, and other keys keep theirs. -/
theorem exists_upsertWatermark {other : String × Int} (mem : other ∈ rows) :
    ∃ mark, (other.1, mark) ∈ upsertWatermark key seq rows ∧ other.2 ≤ mark := by
  rcases upsertWatermark_cases key seq rows with ⟨before, mark, after, rfl, is⟩ | ⟨-, is⟩
  · rcases List.mem_append.mp mem with front | back
    · exact ⟨other.2, by simp [is, front], Int.le_refl _⟩
    · rcases List.mem_cons.mp back with rfl | later
      · exact ⟨max mark seq, by simp [is], Int.le_max_left _ _⟩
      · exact ⟨other.2, by simp [is, later], Int.le_refl _⟩
  · exact ⟨other.2, by simp [is, mem], Int.le_refl _⟩

/-- The key has a row at least as high as what was written. -/
theorem upsertWatermark_marks (key : String) (seq : Int) (rows : List (String × Int)) :
    ∃ mark, (key, mark) ∈ upsertWatermark key seq rows ∧ seq ≤ mark := by
  rcases upsertWatermark_cases key seq rows with ⟨before, mark, after, -, is⟩ | ⟨-, is⟩
  · exact ⟨max mark seq, by simp [is], Int.le_max_right _ _⟩
  · exact ⟨seq, by simp [is], Int.le_refl _⟩

theorem mem_upsertWatermark {row : String × Int} (mem : row ∈ upsertWatermark key seq rows) :
    row ∈ rows ∨ row.1 = key := by
  rcases upsertWatermark_cases key seq rows with ⟨before, mark, after, rfl, is⟩ | ⟨-, is⟩
  · rw [is, List.mem_append, List.mem_cons] at mem
    rcases mem with front | rfl | back
    · exact .inl (List.mem_append_left _ front)
    · exact .inr rfl
    · exact .inl (List.mem_append_right _ (List.mem_cons_of_mem _ back))
  · rw [is] at mem
    exact (List.mem_append.mp mem).imp_right fun last =>
      congrArg Prod.fst (List.mem_singleton.mp last)

end Watermarks

/-! ## What a new process starts from -/

/-- Every row of a key is below a sequence. -/
def Below (schema : Schema) (key : String) (seq : Nat) : Prop :=
  (∀ row ∈ schema.frames, row.tableKey = key → row.seq < seq) ∧
    ∀ mark, (key, mark) ∈ schema.watermarks → mark < seq

/-- The largest frame of a key leaves the sequence behind it. -/
theorem frames_below {schema : Schema} {key : String} {floor : Option Nat}
    (isMax : ((schema.frames.filter (·.tableKey = key)).map (·.seq)).max?.map (·.toNat + 1) = floor)
    {row : FrameRow} (mem : row ∈ schema.frames) (own : row.tableKey = key) :
    ∃ seq, floor = some seq ∧ row.seq < seq := by
  have inside : row.seq ∈ (schema.frames.filter (·.tableKey = key)).map (·.seq) :=
    List.mem_map_of_mem (List.mem_filter.mpr ⟨mem, decide_eq_true own⟩)
  obtain ⟨top, isTop⟩ := Option.isSome_iff_exists.mp (List.isSome_max?_of_mem inside)
  have le : row.seq ≤ top := (List.max?_le_iff isTop).mp (Int.le_refl _) row.seq inside
  rw [isTop] at isMax
  refine ⟨top.toNat + 1, isMax.symm, ?_⟩
  omega

theorem lookup_of_nodup {rows : List (String × Int)} (nodup : (rows.map Prod.fst).Nodup)
    {key : String} {mark : Int} (mem : (key, mark) ∈ rows) : rows.lookup key = some mark := by
  obtain ⟨before, after, rfl⟩ := List.append_of_mem mem
  refine List.lookup_eq_some_iff.mpr ⟨before, after, rfl, fun row isBefore => ?_⟩
  rw [List.map_append, List.map_cons] at nodup
  have apart := (List.nodup_append.mp nodup).2.2 row.1 (List.mem_map_of_mem isBefore) key
    List.mem_cons_self
  simpa using apart.symm

theorem below_seedOf {schema : Schema} {key : String} {floor : Nat}
    (nodup : (schema.watermarks.map Prod.fst).Nodup) (isSeed : seedOf schema key = some floor) :
    Below schema key floor := by
  unfold seedOf at isSeed
  generalize isFrames : ((schema.frames.filter (·.tableKey = key)).map (·.seq)).max?.map
    (·.toNat + 1) = frames at isSeed
  generalize isMark : (schema.watermarks.lookup key).map (·.toNat + 1) = mark at isSeed
  have marked (top : Int) (mem : (key, top) ∈ schema.watermarks) : mark = some (top.toNat + 1) := by
    rw [← isMark, lookup_of_nodup nodup mem]
    rfl
  refine ⟨fun row mem own => ?_, fun top mem => ?_⟩
  · obtain ⟨seq, rfl, less⟩ := frames_below isFrames mem own
    cases mark with
    | none =>
        cases isSeed
        exact less
    | some other =>
        cases isSeed
        omega
  · obtain rfl := marked top mem
    cases frames with
    | none =>
        cases isSeed
        omega
    | some other =>
        cases isSeed
        omega

/-- A key with rows has a seed. -/
theorem exists_seedOf {schema : Schema} {key : String}
    (nodup : (schema.watermarks.map Prod.fst).Nodup)
    (used : (∃ row ∈ schema.frames, row.tableKey = key) ∨
      ∃ mark, (key, mark) ∈ schema.watermarks) : ∃ floor, (key, floor) ∈ seeds schema := by
  have isKey : key ∈
      (schema.frames.map (·.tableKey) ++ schema.watermarks.map Prod.fst).dedup := by
    rw [List.mem_dedup, List.mem_append]
    refine used.imp ?_ ?_
    · rintro ⟨row, mem, rfl⟩
      exact List.mem_map_of_mem mem
    · rintro ⟨mark, mem⟩
      exact List.mem_map_of_mem mem
  have isSeed : ∃ floor, seedOf schema key = some floor := by
    unfold seedOf
    rcases used with ⟨row, mem, own⟩ | ⟨mark, mem⟩
    · obtain ⟨seq, isFloor, -⟩ := frames_below rfl mem own
      rw [isFloor]
      cases schema.watermarks.lookup key with
      | none => exact ⟨_, rfl⟩
      | some mark => exact ⟨_, rfl⟩
    · rw [lookup_of_nodup nodup mem]
      cases ((schema.frames.filter (·.tableKey = key)).map (·.seq)).max? with
      | none => exact ⟨_, rfl⟩
      | some top => exact ⟨_, rfl⟩
  obtain ⟨floor, isFloor⟩ := isSeed
  refine ⟨floor, List.mem_filterMap.mpr ⟨key, isKey, ?_⟩⟩
  rw [isFloor]
  rfl

/-- The last seed of a table counts. -/
theorem seeded_nextSeq {identity : String} {found : List (String × Nat)} {ident : TableIdent}
    (Good : Nat → Prop)
    (good : ∀ seed ∈ found, parseTableDirName fromStrs seed.1 = some ident → Good seed.2)
    (some' : ∃ seed ∈ found, parseTableDirName fromStrs seed.1 = some ident) :
    Good ((PgTail.seeded fromStrs identity found).next ident) := by
  unfold PgTail.next PgTail.seeded
  induction found using List.reverseRecOn with
  | nil =>
      obtain ⟨seed, mem, -⟩ := some'
      cases mem
  | append_singleton front last ih =>
      rw [List.foldl_append, List.foldl_cons, List.foldl_nil]
      by_cases own : parseTableDirName fromStrs last.1 = some ident
      · rw [own]
        simp only [Function.update_self, Option.getD_some]
        exact good last (by simp) own
      · have before := ih (fun seed mem => good seed (List.mem_append_left _ mem)) (by
          obtain ⟨seed, mem, parses⟩ := some'
          rcases List.mem_append.mp mem with mem | mem
          · exact ⟨seed, mem, parses⟩
          · rw [List.mem_singleton.mp mem] at parses
            exact absurd parses own)
        cases isOther : parseTableDirName fromStrs last.1 with
        | none => exact before
        | some other =>
            have apart : ident ≠ other := by
              rintro rfl
              exact own isOther
            simp only [Function.update_of_ne apart]
            exact before

/-- The keys of the rows are those of tables. -/
structure Keyed (schema : Schema) : Prop where
  frames : ∀ row ∈ schema.frames, ∃ ident : TableIdent, ident.Named ∧
    tableDirName ident = .ok row.tableKey
  marks : ∀ row ∈ schema.watermarks, ∃ ident : TableIdent, ident.Named ∧
    tableDirName ident = .ok row.1
  nodup : (schema.watermarks.map Prod.fst).Nodup

/-- A tail starts above every row of a table. -/
theorem below_seeded
    (makes : ∀ ident : TableIdent, ident.inner ≠ [] → fromStrs ident.strs = some ident)
    {schema : Schema} (keyed : Keyed schema) {ident : TableIdent} (named : ident.Named)
    {key : String} (isKey : tableDirName ident = .ok key) (identity : String)
    (used : (∃ row ∈ schema.frames, row.tableKey = key) ∨
      ∃ mark, (key, mark) ∈ schema.watermarks) :
    Below schema key ((PgTail.seeded fromStrs identity (seeds schema)).next ident) := by
  have own {seed : String × Nat} (mem : seed ∈ seeds schema)
      (parses : parseTableDirName fromStrs seed.1 = some ident) : seed.1 = key := by
    obtain ⟨other, isOther, isSeed⟩ := List.mem_filterMap.mp mem
    obtain ⟨floor, -, rfl⟩ := Option.map_eq_some_iff.mp isSeed
    rw [List.mem_dedup, List.mem_append] at isOther
    have ofTable : ∃ table : TableIdent, table.Named ∧ tableDirName table = .ok other := by
      rcases isOther with mem | mem
      · obtain ⟨row, isRow, rfl⟩ := List.mem_map.mp mem
        exact keyed.frames row isRow
      · obtain ⟨row, isRow, rfl⟩ := List.mem_map.mp mem
        exact keyed.marks row isRow
    obtain ⟨table, tableNamed, isTable⟩ := ofTable
    obtain rfl : table = ident := Option.some.inj ((tableNamed.parse makes isTable).symm.trans parses)
    exact Except.ok.inj (isTable.symm.trans isKey)
  refine seeded_nextSeq (Below schema key) (fun seed mem parses => ?_) ?_
  · obtain ⟨other, -, isSeed⟩ := List.mem_filterMap.mp mem
    obtain ⟨floor, isFloor, rfl⟩ := Option.map_eq_some_iff.mp isSeed
    obtain rfl := own mem parses
    exact below_seedOf keyed.nodup isFloor
  · obtain ⟨floor, mem⟩ := exists_seedOf keyed.nodup used
    exact ⟨(key, floor), mem, named.parse makes isKey⟩

/-! ## The invariant -/

/-- What the statement puts into the database. -/
def Entry.Sends (encodeIpc : Batches → Except String (List UInt8)) (entry : Entry Batches)
    (key : String) (payload : List UInt8) : Prop :=
  tableDirName entry.ident = .ok key ∧
    encodeOpPayload encodeIpc entry.op.kind entry.op.batches = .ok payload

/-- The table has a watermark row at least as high. -/
def Marked (schema : Option Schema) (ident : TableIdent) (seq : Nat) : Prop :=
  ∃ found key mark, schema = some found ∧ tableDirName ident = .ok key ∧
    (key, mark) ∈ found.watermarks ∧ (seq : Int) ≤ mark

theorem Marked.weaken {schema : Option Schema} {ident : TableIdent} {seq low : Nat}
    (marked : Marked schema ident seq) (le : low ≤ seq) : Marked schema ident low := by
  obtain ⟨found, key, mark, isFound, isKey, isRow, below⟩ := marked
  exact ⟨found, key, mark, isFound, isKey, isRow, (Int.ofNat_le.mpr le).trans below⟩

/-- The rows of the table tell that the sequence is used. -/
def Kept (schema : Option Schema) (ident : TableIdent) (seq : Nat) : Prop :=
  Marked schema ident seq ∨
    ∃ found key, schema = some found ∧ tableDirName ident = .ok key ∧
      ∃ row ∈ found.frames, row.tableKey = key ∧ (seq : Int) ≤ row.seq

def Wire.Appends (wire : Wire Batches) (entry : Entry Batches) : Prop :=
  (∃ job, wire = .asked (.append entry) job) ∨ ∃ reply, wire = .answered (.append entry) reply

/-- What is known of the request a session waits for. -/
def Waits (encodeIpc : Batches → Except String (List UInt8)) (sys : Sys Batches) (id : Nat) :
    Wire Batches → Prop
  | .idle => True
  | .asked (.append entry) job =>
      entry.session = id ∧ entry.ident.Named ∧
        ∃ key payload, entry.Sends encodeIpc key payload ∧ job = .append key entry.seq payload
  | .asked .replay job => job = .replay
  | .asked (.record ident seq) job =>
      ident.Named ∧ ∃ key, tableDirName ident = .ok key ∧ job = .recordWatermark key seq
  | .asked (.truncate ident seq) job =>
      Marked sys.schema ident seq ∧
        ∃ key, tableDirName ident = .ok key ∧ job = .truncate key seq
  | .answered (.append entry) .done =>
      entry.session = id ∧ entry ∈ sys.inserted ∧ entry ∉ sys.acked
  | .answered (.record ident seq) .done => Marked sys.schema ident seq
  | .answered _ _ => True

/-- The process that holds the lock starts above every sequence, but the one it waits for. -/
structure Leads (sys : Sys Batches) (session : Session Batches) (tail : PgTail) : Prop where
  below : ∀ entry ∈ sys.inserted, entry.seq < tail.next entry.ident ∨
    session.wire = .answered (.append entry) .done
  pending : ∀ entry, session.wire.Appends entry → entry.seq = tail.next entry.ident

structure Fits (encodeIpc : Batches → Except String (List UInt8)) (sys : Sys Batches) (id : Nat)
    (session : Session Batches) : Prop where
  isOpened : session.wire = .idle ∨ ∃ tail, session.stage = .opened tail
  waits : Waits encodeIpc sys id session.wire
  holds : session.serving = true → session.stage.Locked → sys.holder = some id
  leads : session.serving = true → ∀ tail, session.stage = .opened tail → Leads sys session tail

/-- What holds in every state that is reached. -/
structure Inv (encodeIpc : Batches → Except String (List UInt8)) (sys : Sys Batches) : Prop where
  fits : ∀ id session, sys.sessions id = some session → Fits encodeIpc sys id session
  keyed : ∀ schema, sys.schema = some schema → Keyed schema
  named : ∀ entry ∈ sys.inserted, entry.ident.Named
  kept : ∀ entry ∈ sys.inserted, Kept sys.schema entry.ident entry.seq
  ordered : sys.inserted.Pairwise fun left right => left.ident = right.ident → left.seq < right.seq
  isAcked : ∀ entry ∈ sys.acked, entry ∈ sys.inserted
  once : sys.acked.Nodup

/-- What a step of one session leaves of the others. -/
structure Spares (id : Nat) (sys after : Sys Batches) : Prop where
  sessions : ∀ other, other ≠ id → after.sessions other = sys.sessions other
  holder : ∀ other, other ≠ id → sys.holder = some other → after.holder = some other
  inserted : after.inserted = sys.inserted ∨
    sys.holder = some id ∧ ∀ entry ∈ sys.inserted, entry ∈ after.inserted
  acked : ∀ entry ∈ after.acked, entry ∈ sys.acked ∨ entry.session = id
  marked : ∀ ident seq, Marked sys.schema ident seq → Marked after.schema ident seq

section Spares

variable {sys after : Sys Batches} {id other : Nat} {session : Session Batches}

theorem Spares.mem (spares : Spares id sys after) {entry : Entry Batches}
    (mem : entry ∈ sys.inserted) : entry ∈ after.inserted := by
  rcases spares.inserted with same | ⟨-, more⟩
  · rwa [same]
  · exact more entry mem

/-- What is known of a request stays known while the marks and the inserted frames do, and no
append of its session returns. -/
theorem Waits.carry {wire : Wire Batches} (waits : Waits encodeIpc sys id wire)
    (marked : ∀ ident seq, Marked sys.schema ident seq → Marked after.schema ident seq)
    (inserted : ∀ entry ∈ sys.inserted, entry ∈ after.inserted)
    (acked : ∀ entry ∈ after.acked, entry ∈ sys.acked ∨ entry.session ≠ id) :
    Waits encodeIpc after id wire := by
  cases wire with
  | idle => trivial
  | asked call job =>
      cases call with
      | append entry => exact waits
      | replay => exact waits
      | record ident seq => exact waits
      | truncate ident seq => exact ⟨marked _ _ waits.1, waits.2⟩
  | answered call reply =>
      cases reply with
      | done =>
          cases call with
          | append entry =>
              obtain ⟨own, mem, fresh⟩ := waits
              exact ⟨own, inserted entry mem, fun isAcked =>
                (acked entry isAcked).elim fresh fun apart => apart own⟩
          | record ident seq => exact marked _ _ waits
          | replay => trivial
          | truncate ident seq => trivial
      | duplicate => cases call <;> trivial
      | rows raw => cases call <;> trivial

theorem Spares.waits (spares : Spares id sys after) (apart : other ≠ id) {wire : Wire Batches}
    (waits : Waits encodeIpc sys other wire) : Waits encodeIpc after other wire :=
  waits.carry spares.marked (fun _ mem => spares.mem mem) fun entry isAcked =>
    (spares.acked entry isAcked).imp_right fun own same => apart (same.symm.trans own)

theorem Spares.fits (spares : Spares id sys after) (apart : other ≠ id)
    (fits : Fits encodeIpc sys other session) : Fits encodeIpc after other session := by
  refine ⟨fits.isOpened, spares.waits apart fits.waits,
    fun serving locked => spares.holder other apart (fits.holds serving locked),
    fun serving tail isStage => ?_⟩
  have leads := fits.leads serving tail isStage
  have held : sys.holder = some other := fits.holds serving (by rw [isStage]; trivial)
  rcases spares.inserted with same | ⟨holds, -⟩
  · exact ⟨fun entry mem => leads.below entry (same ▸ mem), leads.pending⟩
  · exact absurd (Option.some.inj (held.symm.trans holds)) apart

/-- The invariant after a step of one session. -/
theorem Inv.of_spares (inv : Inv encodeIpc sys) (spares : Spares id sys after)
    (own : ∀ session, after.sessions id = some session → Fits encodeIpc after id session)
    (keyed : ∀ schema, after.schema = some schema → Keyed schema)
    (named : ∀ entry ∈ after.inserted, entry.ident.Named)
    (kept : ∀ entry ∈ after.inserted, Kept after.schema entry.ident entry.seq)
    (ordered : after.inserted.Pairwise fun left right =>
      left.ident = right.ident → left.seq < right.seq)
    (isAcked : ∀ entry ∈ after.acked, entry ∈ after.inserted) (once : after.acked.Nodup) :
    Inv encodeIpc after := by
  refine ⟨fun id' session isSession => ?_, keyed, named, kept, ordered, isAcked, once⟩
  by_cases same : id' = id
  · subst same
    exact own session isSession
  · rw [spares.sessions id' same] at isSession
    exact spares.fits same (inv.fits id' session isSession)

end Spares

/-! ## What a step keeps -/

/-- What is known of the rows stays known. -/
structure Covers (schema after : Option Schema) : Prop where
  keyed : (∀ found, schema = some found → Keyed found) → ∀ found, after = some found → Keyed found
  marked : ∀ ident seq, Marked schema ident seq → Marked after ident seq
  kept : ∀ ident seq, Kept schema ident seq → Kept after ident seq
  row : ∀ found row, schema = some found → found.metaRow = some row →
    ∃ next, after = some next ∧ next.metaRow = some row

theorem Covers.refl (schema : Option Schema) : Covers schema schema :=
  ⟨fun keyed => keyed, fun _ _ marked => marked, fun _ _ kept => kept,
    fun found _ isFound isRow => ⟨found, isFound, isRow⟩⟩

/-- The rows lose what a watermark covers, or their watermark rises. -/
theorem Covers.of_rows {schema next : Schema} (keyed : Keyed schema → Keyed next)
    (marks : ∀ row ∈ schema.watermarks, ∃ mark, (row.1, mark) ∈ next.watermarks ∧ row.2 ≤ mark)
    (frames : ∀ row ∈ schema.frames, row ∈ next.frames ∨
      ∃ mark, (row.tableKey, mark) ∈ next.watermarks ∧ row.seq ≤ mark)
    (row : ∀ row, schema.metaRow = some row → next.metaRow = some row) :
    Covers (some schema) (some next) := by
  have marked (ident : TableIdent) (seq : Nat) (marked : Marked (some schema) ident seq) :
      Marked (some next) ident seq := by
    obtain ⟨found, key, mark, isFound, isKey, mem, le⟩ := marked
    cases isFound
    obtain ⟨mark', mem', le'⟩ := marks _ mem
    exact ⟨_, key, mark', rfl, isKey, mem', le_trans le le'⟩
  refine ⟨fun known => ?_, marked, fun ident seq kept => ?_, ?_⟩
  · rintro _ ⟨⟩
    exact keyed (known schema rfl)
  · rcases kept with isMarked | ⟨found, key, isFound, isKey, row, mem, rfl, le⟩
    · exact .inl (marked _ _ isMarked)
    · cases isFound
      rcases frames row mem with stays | ⟨mark, isRow, le'⟩
      · exact .inr ⟨_, _, rfl, isKey, row, stays, rfl, le⟩
      · exact .inl ⟨_, _, mark, rfl, isKey, isRow, le_trans le le'⟩
  · rintro _ found ⟨⟩ isRow
    exact ⟨next, rfl, row found isRow⟩

/-- The tables are created, unless they exist. -/
theorem Covers.created (schema : Option Schema) :
    Covers schema (some (schema.getD ⟨none, [], []⟩)) := by
  cases schema with
  | some found => exact .refl _
  | none =>
      refine ⟨?_, ?_, ?_, by rintro _ _ ⟨⟩⟩
      · rintro _ _ ⟨⟩
        exact ⟨by rintro _ ⟨⟩, by rintro _ ⟨⟩, List.nodup_nil⟩
      · rintro _ _ ⟨_, _, _, ⟨⟩, _⟩
      · rintro _ _ (⟨_, _, _, ⟨⟩, _⟩ | ⟨_, _, ⟨⟩, _⟩)

/-- A tail was opened with the identity in the database. -/
def Mints (sys : Sys Batches) (entry : Nat × String) : Prop :=
  ∃ schema row, sys.schema = some schema ∧ schema.metaRow = some row ∧
    entry.2 = tailSeqPropertyPrefix ++ row.identity.trimAscii.toString

/-- What a step does to the backends and the identity, and whose frame it inserts. -/
structure Executed (sys after : Sys Batches) : Prop where
  ended : ∀ id session, sys.sessions id = some session → session.serving = false →
    ∃ next, after.sessions id = some next ∧ next.serving = false
  inserted : ∀ entry ∈ after.inserted, entry ∈ sys.inserted ∨
    ∃ session, sys.sessions entry.session = some session ∧ session.serving = true
  opened : ∀ entry ∈ after.opened, entry ∈ sys.opened ∨ Mints sys entry
  row : ∀ schema row, sys.schema = some schema → schema.metaRow = some row →
    ∃ next, after.schema = some next ∧ next.metaRow = some row

section Quiet

variable {sys after : Sys Batches} {id : Nat} {session next : Session Batches} {tail : PgTail}

/-- A backend does not come back. -/
theorem ended_update (sessions : after.sessions = Function.update sys.sessions id (some next))
    (serving : ∀ session, sys.sessions id = some session → next.serving = true →
      session.serving = true) (other : Nat) (found : Session Batches)
    (isFound : sys.sessions other = some found) (ended : found.serving = false) :
    ∃ next, after.sessions other = some next ∧ next.serving = false := by
  by_cases own : other = id
  · subst own
    refine ⟨next, by rw [sessions, Function.update_self], Bool.eq_false_iff.mpr fun isServing => ?_⟩
    rw [serving found isFound isServing] at ended
    cases ended
  · exact ⟨found, by rw [sessions, Function.update_of_ne own, isFound], ended⟩

/-- A step that inserts nothing. -/
theorem Inv.quiet (inv : Inv encodeIpc sys)
    (sessions : after.sessions = Function.update sys.sessions id (some next))
    (serving : ∀ session, sys.sessions id = some session → next.serving = true →
      session.serving = true)
    (opened : ∀ entry ∈ after.opened, entry ∈ sys.opened ∨ Mints sys entry)
    (holder : ∀ other, other ≠ id → sys.holder = some other → after.holder = some other)
    (covers : Covers sys.schema after.schema) (inserted : after.inserted = sys.inserted)
    (acked : after.acked = sys.acked) (own : Fits encodeIpc after id next) :
    Inv encodeIpc after ∧ Executed sys after := by
  have spares : Spares id sys after := by
    refine ⟨fun other apart => ?_, holder, .inl inserted, fun entry mem => .inl (acked ▸ mem),
      covers.marked⟩
    rw [sessions, Function.update_of_ne apart]
  refine ⟨inv.of_spares spares (fun session isSession => ?_) (covers.keyed inv.keyed) ?_ ?_ ?_ ?_ ?_,
    ended_update sessions serving, fun _ mem => .inl (inserted ▸ mem), opened, covers.row⟩
  · rw [sessions, Function.update_self] at isSession
    cases isSession
    exact own
  · rw [inserted]
    exact inv.named
  · rw [inserted]
    exact fun entry mem => covers.kept _ _ (inv.kept entry mem)
  · rw [inserted]
    exact inv.ordered
  · rw [inserted, acked]
    exact inv.isAcked
  · rw [acked]
    exact inv.once

theorem not_appends_of_idle {wire : Wire Batches} (isIdle : wire = .idle) (entry : Entry Batches) :
    ¬ wire.Appends entry := by
  subst isIdle
  rintro (⟨_, asks⟩ | ⟨_, answers⟩)
  · cases asks
  · cases answers

/-- A session that waits for nothing and does not hold an opened tail. -/
theorem fits_idle (isIdle : next.wire = .idle)
    (holds : next.serving = true → next.stage.Locked → sys.holder = some id)
    (leads : next.serving = true → ∀ tail, next.stage = .opened tail → Leads sys next tail) :
    Fits encodeIpc sys id next :=
  ⟨.inl isIdle, by rw [isIdle]; trivial, holds, leads⟩

theorem serving_of (isSession : sys.sessions id = some session)
    (same : next.serving = session.serving) (found : Session Batches)
    (isFound : sys.sessions id = some found) (serving : next.serving = true) :
    found.serving = true := by
  cases isSession.symm.trans isFound
  exact same ▸ serving

/-- The process or the backend is gone. -/
theorem Inv.leaves (inv : Inv encodeIpc sys) (isSession : sys.sessions id = some session)
    (sessions : after.sessions = Function.update sys.sessions id (some next))
    (opened : after.opened = sys.opened)
    (holder : ∀ other, other ≠ id → sys.holder = some other → after.holder = some other)
    (schema : after.schema = sys.schema) (inserted : after.inserted = sys.inserted)
    (acked : after.acked = sys.acked) (stage : next.stage = session.stage)
    (wire : next.wire = session.wire)
    (serving : next.serving = true → session.serving = true ∧ after.holder = sys.holder) :
    Inv encodeIpc after ∧ Executed sys after := by
  have fits := inv.fits id session isSession
  refine inv.quiet sessions (fun _ found isServing => ?_) (fun _ mem => .inl (opened ▸ mem)) holder
    (schema ▸ Covers.refl _) inserted acked
    ⟨?_, ?_, fun isServing locked => ?_, fun isServing tail isStage => ?_⟩
  · cases isSession.symm.trans found
    exact (serving isServing).1
  · rw [stage, wire]
    exact fits.isOpened
  · rw [wire]
    exact fits.waits.carry (fun _ _ marked => schema ▸ marked) (fun _ mem => inserted ▸ mem)
      fun _ mem => .inl (acked ▸ mem)
  · obtain ⟨before, same⟩ := serving isServing
    rw [stage] at locked
    rw [same]
    exact fits.holds before locked
  · obtain ⟨before, -⟩ := serving isServing
    rw [stage] at isStage
    have leads := fits.leads before tail isStage
    refine ⟨fun entry mem => ?_, fun entry appends => ?_⟩
    · rw [inserted] at mem
      rw [wire]
      exact leads.below entry mem
    · rw [wire] at appends
      exact leads.pending entry appends

end Quiet

/-! ## Opening -/

section Opening

variable {sys after : Sys Batches} {id : Nat} {session : Session Batches} {minted : String}

theorem Fits.idle (fits : Fits encodeIpc sys id session)
    (notOpened : ∀ tail, session.stage ≠ .opened tail) : session.wire = .idle := by
  rcases fits.isOpened with isIdle | ⟨tail, isStage⟩
  · exact isIdle
  · exact absurd isStage (notOpened tail)

theorem Inv.close (inv : Inv encodeIpc sys) (isSession : sys.sessions id = some session) :
    Inv encodeIpc (sys.close id session) ∧ Executed sys (sys.close id session) := by
  refine inv.leaves isSession rfl rfl (fun other apart held => ?_) rfl rfl rfl rfl rfl (by rintro ⟨⟩)
  have notOwn : sys.holder ≠ some id := by
    rw [held]
    exact fun same => apart (Option.some.inj same)
  exact (if_neg notOwn).trans held

/-- A tail that is opened starts above every sequence. -/
theorem Inv.leads_seeded (inv : Inv encodeIpc sys)
    (makes : ∀ ident : TableIdent, ident.inner ≠ [] → fromStrs ident.strs = some ident)
    {schema : Schema} (isSchema : sys.schema = some schema) (identity : String)
    {next : Session Batches} (isIdle : next.wire = .idle) :
    Leads sys next (PgTail.seeded fromStrs identity (seeds schema)) := by
  refine ⟨fun entry mem => .inl ?_,
    fun entry appends => absurd appends (not_appends_of_idle isIdle entry)⟩
  have keyed := inv.keyed schema isSchema
  have named := inv.named entry mem
  rcases inv.kept entry mem with ⟨found, key, mark, isFound, isKey, isRow, le⟩ |
    ⟨found, key, isFound, isKey, row, isRow, own, le⟩
  · obtain rfl := Option.some.inj (isSchema.symm.trans isFound)
    have below := below_seeded makes keyed named isKey identity (.inr ⟨mark, isRow⟩)
    have less := below.2 mark isRow
    omega
  · obtain rfl := Option.some.inj (isSchema.symm.trans isFound)
    have below := below_seeded makes keyed named isKey identity (.inl ⟨row, isRow, own⟩)
    have less := below.1 row isRow own
    omega

theorem Inv.openNext (inv : Inv encodeIpc sys)
    (makes : ∀ ident : TableIdent, ident.inner ≠ [] → fromStrs ident.strs = some ident)
    (isSession : sys.sessions id = some session)
    (opens : sys.openNext fromStrs parsesUuid id minted session = some after) :
    Inv encodeIpc after ∧ Executed sys after := by
  have fits := inv.fits id session isSession
  unfold Sys.openNext at opens
  cases isStage : session.stage with
  | connected =>
      rw [isStage] at opens
      have isIdle := fits.idle (by rw [isStage]; rintro _ ⟨⟩)
      dsimp only at opens
      split at opens
      · next free =>
        cases opens
        exact inv.quiet rfl (serving_of isSession rfl) (fun _ mem => .inl mem)
          (fun other _ held => by rw [free] at held; cases held) (.refl _) rfl rfl
          (fits_idle isIdle (fun _ _ => rfl) (by rintro _ _ ⟨⟩))
      · cases opens
        exact inv.close isSession
  | locked =>
      rw [isStage] at opens
      have isIdle := fits.idle (by rw [isStage]; rintro _ ⟨⟩)
      cases opens
      refine inv.quiet rfl (serving_of isSession rfl) (fun _ mem => .inl mem)
        (fun _ _ held => held) (.created _) rfl rfl
        (fits_idle isIdle (fun serving _ => ?_) (by rintro _ _ ⟨⟩))
      exact fits.holds serving (by rw [isStage]; trivial)
  | prepared =>
      rw [isStage] at opens
      have isIdle := fits.idle (by rw [isStage]; rintro _ ⟨⟩)
      obtain ⟨schema, isSchema, rfl⟩ := Option.map_eq_some_iff.mp opens
      refine inv.quiet rfl (serving_of isSession rfl) (fun _ mem => .inl mem)
        (fun _ _ held => held) ?_ rfl rfl
        (fits_idle isIdle (fun serving _ => ?_) (by rintro _ _ ⟨⟩))
      · rw [isSchema]
        exact .of_rows (fun keyed => ⟨keyed.frames, keyed.marks, keyed.nodup⟩)
          (fun row mem => ⟨row.2, mem, Int.le_refl _⟩) (fun _ mem => .inl mem)
          fun row isRow => by rw [isRow]; rfl
      · exact fits.holds serving (by rw [isStage]; trivial)
  | minted =>
      rw [isStage] at opens
      have isIdle := fits.idle (by rw [isStage]; rintro _ ⟨⟩)
      obtain ⟨schema, isSchema, made⟩ := Option.bind_eq_some_iff.mp opens
      obtain ⟨row, isRow, rfl⟩ := Option.map_eq_some_iff.mp made
      dsimp only
      split
      · exact inv.close isSession
      · refine inv.quiet rfl (serving_of isSession rfl)
          (forall_mem_concat (fun _ mem => .inl mem) (.inr ⟨schema, row, isSchema, isRow, rfl⟩))
          (fun _ _ held => held) (.refl _) rfl rfl
          (fits_idle isIdle (fun serving _ => ?_) (fun _ tail isTail => ?_))
        · exact fits.holds serving (by rw [isStage]; trivial)
        · cases isTail
          have leads : Leads sys session _ :=
            inv.leads_seeded makes isSchema row.identity.trimAscii.toString isIdle
          exact ⟨leads.below, leads.pending⟩
  | opened tail =>
      rw [isStage] at opens
      cases opens

end Opening

/-! ## Requests and answers -/

section Requests

variable {sys after : Sys Batches} {id : Nat} {session : Session Batches} {tail : PgTail}

/-- What a call sends fits the call. -/
theorem start_spec {request : Request Batches} {call : Call Batches} {job : Job}
    (named : ∀ ident kind batches, request = .append ident kind batches → ident.Named)
    (covered : ∀ ident seq, request = .tailTruncateCovered ident seq → ident.Named)
    (starts : start encodeIpc id tail request = .ok (call, job)) :
    Waits encodeIpc sys id (.asked call job) ∧
      ∀ entry, call = .append entry → entry.seq = tail.next entry.ident := by
  cases request with
  | append ident kind batches =>
      obtain ⟨key, isKey, rest⟩ := bind_eq_ok starts
      obtain ⟨payload, encodes, rest⟩ := bind_eq_ok rest
      dsimp only at rest
      split at rest
      · cases rest
      · cases rest
        refine ⟨⟨rfl, named ident kind batches rfl, key, payload, ⟨isKey, encodes⟩, rfl⟩, ?_⟩
        rintro entry ⟨⟩
        rfl
  | replay =>
      cases starts
      exact ⟨rfl, by rintro _ ⟨⟩⟩
  | tailTruncateCovered ident seq =>
      obtain ⟨key, isKey, rest⟩ := bind_eq_ok starts
      split at rest
      · cases rest
      · cases rest
        exact ⟨⟨covered ident seq rfl, key, isKey, rfl⟩, by rintro _ ⟨⟩⟩

/-- The session asks for something else than it did. -/
theorem Inv.asks (inv : Inv encodeIpc sys) (isSession : sys.sessions id = some session)
    (isStage : session.stage = .opened tail) {wire : Wire Batches}
    (before : ∀ entry, session.wire ≠ .answered (.append entry) .done)
    (waits : Waits encodeIpc sys id wire)
    (answered : ∀ entry reply, wire ≠ .answered (.append entry) reply)
    (pending : ∀ entry job, wire = .asked (.append entry) job → entry.seq = tail.next entry.ident) :
    Inv encodeIpc (sys.setSession id { session with wire := wire }) ∧
      Executed sys (sys.setSession id { session with wire := wire }) := by
  have fits := inv.fits id session isSession
  refine inv.quiet rfl (serving_of isSession rfl) (fun _ mem => .inl mem) (fun _ _ held => held)
    (.refl _) rfl rfl ⟨.inr ⟨tail, isStage⟩, ?_, fits.holds, fun serving tail' isStage' => ?_⟩
  · exact waits.carry (fun _ _ marked => marked) (fun _ mem => mem) fun _ mem => .inl mem
  · have leads := fits.leads serving tail' isStage'
    obtain rfl : tail' = tail := Stage.opened.inj (isStage'.symm.trans isStage)
    refine ⟨fun entry mem => ?_, fun entry appends => ?_⟩
    · rcases leads.below entry mem with less | waiting
      · exact .inl less
      · exact absurd waiting (before entry)
    · rcases appends with ⟨job, asks⟩ | ⟨reply, answers⟩
      · exact pending entry job asks
      · exact absurd answers (answered entry reply)

theorem Inv.starts (inv : Inv encodeIpc sys) (isSession : sys.sessions id = some session)
    (isStage : session.stage = .opened tail) (isIdle : session.wire = .idle)
    {request : Request Batches}
    (named : ∀ ident kind batches, request = .append ident kind batches → ident.Named)
    (covered : ∀ ident seq, request = .tailTruncateCovered ident seq → ident.Named)
    (isNext : after = sys.setSession id
      { session with wire := asked (start encodeIpc id tail request) }) :
    Inv encodeIpc after ∧ Executed sys after := by
  subst isNext
  have before : ∀ entry, session.wire ≠ .answered (.append entry) .done := by
    rw [isIdle]
    rintro _ ⟨⟩
  cases starts : start encodeIpc id tail request with
  | error why =>
      exact inv.asks isSession isStage before trivial (by rintro _ _ ⟨⟩)
        (by rintro _ _ ⟨⟩)
  | ok sent =>
      obtain ⟨call, job⟩ := sent
      obtain ⟨waits, pending⟩ : Waits encodeIpc sys id (.asked call job) ∧ _ :=
        start_spec named covered starts
      refine inv.asks isSession isStage before waits (by rintro _ _ ⟨⟩) ?_
      rintro entry _ ⟨⟩
      exact pending entry rfl

theorem Inv.ensureSeqFloor (inv : Inv encodeIpc sys) (isSession : sys.sessions id = some session)
    (isStage : session.stage = .opened tail) (isIdle : session.wire = .idle) (ident : TableIdent)
    (floor : Nat) (isNext : after = sys.setSession id
      { session with stage := .opened (tail.ensureSeqFloor ident floor) }) :
    Inv encodeIpc after ∧ Executed sys after := by
  subst isNext
  have fits := inv.fits id session isSession
  refine inv.quiet rfl (serving_of isSession rfl) (fun _ mem => .inl mem) (fun _ _ held => held)
    (.refl _) rfl rfl
    (fits_idle isIdle (fun serving _ => fits.holds serving (by rw [isStage]; trivial))
      fun serving next isNext => ?_)
  cases isNext
  have leads := fits.leads serving tail isStage
  refine ⟨fun entry mem => ?_,
    fun entry appends => absurd appends (not_appends_of_idle isIdle entry)⟩
  rcases leads.below entry mem with less | waiting
  · refine .inl (lt_of_lt_of_le less ?_)
    by_cases own : entry.ident = ident
    · rw [own, PgTail.ensureSeqFloor, PgTail.next_setNext]
      exact Nat.le_max_left _ _
    · exact (tail.next_setNext_of_ne own _).ge
  · rw [isIdle] at waiting
    cases waiting

end Requests

/-! ## What the database executes -/

section Executes

variable {sys after : Sys Batches} {id : Nat} {session : Session Batches} {schema : Schema}

/-- The answer of a call that appends nothing. -/
theorem Leads.answered {tail : PgTail} {call : Call Batches} {job : Job} {reply : JobReply}
    (leads : Leads sys session tail) (asks : session.wire = .asked call job)
    (inserted : after.inserted = sys.inserted) :
    Leads after { session with wire := .answered call reply } tail := by
  refine ⟨fun entry mem => ?_, fun entry appends => ?_⟩
  · rw [inserted] at mem
    rcases leads.below entry mem with less | waiting
    · exact .inl less
    · rw [asks] at waiting
      cases waiting
  · rcases appends with ⟨_, asks'⟩ | ⟨_, answers⟩
    · cases asks'
    · cases answers
      exact leads.pending entry (.inl ⟨job, asks⟩)

/-- The frame is inserted, above every other of its table. -/
theorem Inv.inserts (inv : Inv encodeIpc sys) (isSession : sys.sessions id = some session)
    (isSchema : sys.schema = some schema) (serving : session.serving = true) {tail : PgTail}
    (isStage : session.stage = .opened tail) {entry : Entry Batches} {job : Job}
    (asks : session.wire = .asked (.append entry) job) {row : FrameRow}
    (isKey : tableDirName entry.ident = .ok row.tableKey) (isSeq : row.seq = entry.seq)
    (sessions : after.sessions = Function.update sys.sessions id
      (some { session with wire := .answered (.append entry) .done }))
    (holder : after.holder = sys.holder)
    (isNext : after.schema = some { schema with frames := schema.frames ++ [row] })
    (inserted : after.inserted = sys.inserted ++ [entry]) (acked : after.acked = sys.acked)
    (opened : after.opened = sys.opened) : Inv encodeIpc after ∧ Executed sys after := by
  have fits := inv.fits id session isSession
  have leads := fits.leads serving tail isStage
  have held : sys.holder = some id := fits.holds serving (by rw [isStage]; trivial)
  have waits := fits.waits
  rw [asks] at waits
  obtain ⟨own, named, -⟩ := waits
  have isPending := leads.pending entry (.inl ⟨job, asks⟩)
  have below (other : Entry Batches) (mem : other ∈ sys.inserted) :
      other.seq < tail.next other.ident := by
    rcases leads.below other mem with less | waiting
    · exact less
    · rw [asks] at waiting
      cases waiting
  have above (other : Entry Batches) (mem : other ∈ sys.inserted)
      (same : other.ident = entry.ident) : other.seq < entry.seq := by
    rw [isPending, ← same]
    exact below other mem
  have covers : Covers sys.schema after.schema := by
    rw [isSchema, isNext]
    exact .of_rows (fun keyed => ⟨forall_mem_concat keyed.frames ⟨entry.ident, named, isKey⟩,
      keyed.marks, keyed.nodup⟩) (fun other mem => ⟨other.2, mem, Int.le_refl _⟩)
      (fun _ mem => .inl (List.mem_append_left _ mem)) fun _ isRow => isRow
  have spares : Spares id sys after := by
    refine ⟨fun other apart => ?_, fun other _ held => holder.trans held,
      .inr ⟨held, fun _ mem => ?_⟩, fun _ mem => .inl (acked ▸ mem), covers.marked⟩
    · rw [sessions, Function.update_of_ne apart]
    · rw [inserted]
      exact List.mem_append_left _ mem
  refine ⟨inv.of_spares spares ?_ (covers.keyed inv.keyed) ?_ ?_ ?_ ?_ ?_,
    ended_update sessions (serving_of isSession rfl), ?_, fun _ mem => .inl (opened ▸ mem),
    covers.row⟩
  · intro next isUpdate
    rw [sessions, Function.update_self] at isUpdate
    cases isUpdate
    refine ⟨.inr ⟨tail, isStage⟩, ⟨own, ?_, fun isAcked => ?_⟩,
      fun _ _ => holder.trans held, fun _ tail' isStage' => ?_⟩
    · rw [inserted]
      simp
    · rw [acked] at isAcked
      exact Nat.lt_irrefl _ (above entry (inv.isAcked entry isAcked) rfl)
    · obtain rfl : tail' = tail := Stage.opened.inj (isStage'.symm.trans isStage)
      refine ⟨?_, fun other appends => ?_⟩
      · rw [inserted]
        exact forall_mem_concat (fun other mem => .inl (below other mem)) (.inr rfl)
      · rcases appends with ⟨_, asks'⟩ | ⟨_, answers⟩
        · cases asks'
        · cases answers
          exact isPending
  · rw [inserted]
    exact forall_mem_concat inv.named named
  · rw [inserted]
    exact forall_mem_concat (fun other mem => covers.kept _ _ (inv.kept other mem))
      (.inr ⟨_, row.tableKey, isNext, isKey, row, by simp, rfl, isSeq.ge⟩)
  · rw [inserted]
    refine List.pairwise_append.mpr ⟨inv.ordered, List.pairwise_singleton _ _, ?_⟩
    intro other mem last isLast same
    rw [List.mem_singleton.mp isLast] at same ⊢
    exact above other mem same
  · rw [inserted, acked]
    exact fun other mem => List.mem_append_left _ (inv.isAcked other mem)
  · rw [acked]
    exact inv.once
  · rw [inserted]
    exact forall_mem_concat (fun _ mem => .inl mem) (.inr ⟨session, own ▸ isSession, serving⟩)

/-- A statement that inserts no frame is executed. -/
theorem Inv.covers (inv : Inv encodeIpc sys) (isSession : sys.sessions id = some session)
    (covers : Covers sys.schema after.schema) {call : Call Batches} {job : Job} {reply : JobReply}
    (asks : session.wire = .asked call job)
    (sessions : after.sessions =
      Function.update sys.sessions id (some { session with wire := .answered call reply }))
    (holder : after.holder = sys.holder) (inserted : after.inserted = sys.inserted)
    (acked : after.acked = sys.acked) (opened : after.opened = sys.opened)
    (waits : Waits encodeIpc after id (.answered call reply)) :
    Inv encodeIpc after ∧ Executed sys after := by
  have fits := inv.fits id session isSession
  have isOpened := fits.isOpened.resolve_left (by rw [asks]; rintro ⟨⟩)
  exact inv.quiet sessions (serving_of isSession rfl) (fun _ mem => .inl (opened ▸ mem))
    (fun _ _ held => holder.trans held) covers inserted acked
    ⟨.inr isOpened, waits, fun serving locked => holder.trans (fits.holds serving locked),
      fun serving tail isStage => (fits.leads serving tail isStage).answered asks inserted⟩

theorem covers_upsert {key : String} {ident : TableIdent} (named : ident.Named)
    (isKey : tableDirName ident = .ok key) (seq : Int) (schema : Schema) :
    Covers (some schema)
      (some { schema with watermarks := upsertWatermark key seq schema.watermarks }) := by
  refine .of_rows
    (fun keyed => ⟨keyed.frames, fun row mem => ?_, upsertWatermark_nodup keyed.nodup⟩)
    (fun _ mem => exists_upsertWatermark mem) (fun _ mem => .inl mem) fun _ isRow => isRow
  rcases mem_upsertWatermark mem with before | own
  · exact keyed.marks row before
  · rw [own]
    exact ⟨ident, named, isKey⟩

theorem covers_filter {key : String} {upto : Int} {mark : Int}
    (isRow : (key, mark) ∈ schema.watermarks) (le : upto ≤ mark) :
    Covers (some schema) (some { schema with
      frames := schema.frames.filter fun row => ¬ (row.tableKey = key ∧ row.seq ≤ upto) }) := by
  refine .of_rows (fun keyed => ⟨fun row mem => keyed.frames row (List.mem_filter.mp mem).1,
    keyed.marks, keyed.nodup⟩) (fun row mem => ⟨row.2, mem, Int.le_refl _⟩) (fun row mem => ?_)
    fun _ isRow => isRow
  by_cases gone : row.tableKey = key ∧ row.seq ≤ upto
  · obtain ⟨rfl, below⟩ := gone
    exact .inr ⟨mark, isRow, le_trans below le⟩
  · exact .inl (List.mem_filter.mpr ⟨mem, decide_eq_true gone⟩)

theorem Inv.executeNext (inv : Inv encodeIpc sys) (isSession : sys.sessions id = some session)
    (serving : session.serving = true)
    (executes : sys.executeNext collate id session = some after) :
    Inv encodeIpc after ∧ Executed sys after := by
  have fits := inv.fits id session isSession
  have waits := fits.waits
  unfold Sys.executeNext at executes
  split at executes
  · next call job schema asks isSchema =>
    rw [asks] at waits
    cases executes
    cases call with
    | append entry =>
        obtain ⟨own, named, key, payload, sends, rfl⟩ := waits
        by_cases taken : schema.frames.any fun row => row.tableKey = key ∧ row.seq = entry.seq
        · have isDone : runJob collate schema (.append key entry.seq payload) =
              (schema, .duplicate) := if_pos taken
          rw [isDone]
          exact inv.covers isSession (isSchema ▸ .refl _) asks rfl rfl rfl rfl rfl trivial
        · obtain ⟨tail, isStage⟩ : ∃ tail, session.stage = .opened tail := by
            rcases fits.isOpened with isIdle | isOpened
            · rw [asks] at isIdle
              cases isIdle
            · exact isOpened
          have isDone : runJob collate schema (.append key entry.seq payload) =
              ({ schema with frames := schema.frames ++ [⟨key, entry.seq, payload⟩] }, .done) :=
            if_neg taken
          rw [isDone]
          exact inv.inserts isSession isSchema serving isStage asks sends.1 rfl rfl rfl rfl rfl
            rfl rfl
    | replay =>
        cases waits
        exact inv.covers isSession (isSchema ▸ .refl _) asks rfl rfl rfl rfl rfl trivial
    | record ident seq =>
        obtain ⟨named, key, isKey, rfl⟩ := waits
        refine inv.covers isSession (isSchema ▸ covers_upsert named isKey seq schema) asks rfl rfl
          rfl rfl rfl ?_
        obtain ⟨mark, isRow, le⟩ := upsertWatermark_marks key (seq : Int) schema.watermarks
        exact ⟨_, key, mark, rfl, isKey, isRow, le⟩
    | truncate ident seq =>
        obtain ⟨⟨found, key, mark, isFound, isKey, isRow, le⟩, key', isKey', rfl⟩ := waits
        obtain rfl := Option.some.inj (isSchema.symm.trans isFound)
        obtain rfl := Except.ok.inj (isKey.symm.trans isKey')
        exact inv.covers isSession (isSchema ▸ covers_filter isRow le) asks rfl rfl rfl rfl rfl trivial
  · cases executes

end Executes

/-! ## What a process reads -/

section Receives

variable {sys after : Sys Batches} {id : Nat} {session : Session Batches} {tail : PgTail}

/-- An append returns, and its sequence is consumed. -/
theorem Inv.acknowledges (inv : Inv encodeIpc sys) (isSession : sys.sessions id = some session)
    (isStage : session.stage = .opened tail) {entry : Entry Batches}
    (answers : session.wire = .answered (.append entry) .done)
    (isNext : after = { sys.setSession id { session with
      stage := .opened (tail.setNext entry.ident (entry.seq + 1)), wire := .idle } with
        acked := sys.acked ++ [entry] }) : Inv encodeIpc after ∧ Executed sys after := by
  subst isNext
  have fits := inv.fits id session isSession
  have waits := fits.waits
  rw [answers] at waits
  obtain ⟨own, mem, fresh⟩ := waits
  have spares : Spares id sys { sys.setSession id { session with
      stage := .opened (tail.setNext entry.ident (entry.seq + 1)), wire := .idle } with
        acked := sys.acked ++ [entry] } := by
    exact ⟨fun other apart => Function.update_of_ne apart _ _, fun _ _ held => held, .inl rfl,
      forall_mem_concat (fun _ isAcked => .inl isAcked) (.inr own), fun _ _ marked => marked⟩
  refine ⟨inv.of_spares spares ?_ inv.keyed inv.named inv.kept inv.ordered ?_ ?_,
    ended_update rfl (serving_of isSession rfl), fun _ mem => .inl mem, fun _ mem => .inl mem,
    (Covers.refl _).row⟩
  · intro next isUpdate
    cases (Function.update_self _ _ _).symm.trans isUpdate
    refine fits_idle rfl (fun serving _ => fits.holds serving (by rw [isStage]; trivial))
      fun serving next isNext => ?_
    cases isNext
    have leads := fits.leads serving tail isStage
    have isPending := leads.pending entry (.inr ⟨.done, answers⟩)
    refine ⟨fun other isOther => .inl ?_,
      fun other appends => absurd appends (not_appends_of_idle rfl other)⟩
    rcases leads.below other isOther with less | waiting
    · by_cases same : other.ident = entry.ident
      · rw [same, ← isPending] at less
        rw [same, PgTail.next_setNext]
        omega
      · rwa [PgTail.next_setNext_of_ne _ same]
    · rw [answers] at waiting
      cases waiting
      rw [PgTail.next_setNext]
      exact Nat.lt_succ_self _
  · exact forall_mem_concat inv.isAcked mem
  · refine List.nodup_append.mpr ⟨inv.once, List.pairwise_singleton _ _, ?_⟩
    rintro other isAcked last isLast rfl
    rw [List.mem_singleton.mp isLast] at isAcked
    exact fresh isAcked

theorem Inv.receiveNext (inv : Inv encodeIpc sys) (isSession : sys.sessions id = some session)
    (isStage : session.stage = .opened tail)
    (receives : sys.receiveNext id session tail = some after) :
    Inv encodeIpc after ∧ Executed sys after := by
  have waits := (inv.fits id session isSession).waits
  unfold Sys.receiveNext at receives
  split at receives
  · next entry answers =>
    cases receives
    exact inv.acknowledges isSession isStage answers rfl
  · next ident seq answers =>
    cases receives
    rw [answers] at waits
    refine inv.asks isSession isStage (by rw [answers]; rintro _ ⟨⟩) ?_ ?_ ?_
    · cases sent : startTruncate ident seq with
      | error why => trivial
      | ok both =>
          obtain ⟨key, isKey, rest⟩ := bind_eq_ok sent
          cases rest
          exact ⟨waits.weaken (Nat.min_le_left _ _), key, isKey, rfl⟩
    · cases startTruncate ident seq with
      | error why => rintro _ _ ⟨⟩
      | ok both => rintro _ _ ⟨⟩
    · intro entry job asks
      cases sent : startTruncate ident seq with
      | error why =>
          rw [sent] at asks
          cases asks
      | ok both =>
          obtain ⟨key, isKey, rest⟩ := bind_eq_ok sent
          rw [sent] at asks
          cases rest
          cases asks
  · next call reply notAppend _ answers =>
    cases receives
    refine inv.asks isSession isStage ?_ trivial (by rintro _ _ ⟨⟩) (by rintro _ _ ⟨⟩)
    intro entry answers'
    rw [answers] at answers'
    cases answers'
    exact notAppend entry rfl rfl
  · cases receives

end Receives

/-! ## Runs -/

/-- The tables of the calls have identifiers that the catalog can have. -/
def Calls (_ : Sys Batches) : Action Batches → Prop
  | .starts _ (.append ident _ _) => ident.Named
  | .starts _ (.tailTruncateCovered ident _) => ident.Named
  | _ => True

instance (ident : TableIdent) : Decidable ident.Named :=
  inferInstanceAs (Decidable (_ ∧ _))

instance (sys : Sys Batches) (action : Action Batches) : Decidable (Calls sys action) :=
  match action with
  | .starts _ (.append ident _ _) => inferInstanceAs (Decidable ident.Named)
  | .starts _ (.tailTruncateCovered ident _) => inferInstanceAs (Decidable ident.Named)
  | .starts _ .replay | .connects _ | .opens _ _ | .ensureSeqFloor _ _ _ | .executes _
  | .receives _ | .detaches _ | .ends _ => isTrue trivial

section Runs

variable {sys after : Sys Batches}

theorem Inv.init : Inv encodeIpc (Sys.init Batches) where
  fits := by rintro _ _ ⟨⟩
  keyed := by rintro _ ⟨⟩
  named := by rintro _ ⟨⟩
  kept := by rintro _ ⟨⟩
  ordered := .nil
  isAcked := by rintro _ ⟨⟩
  once := .nil

theorem Inv.step (makes : ∀ ident : TableIdent, ident.inner ≠ [] → fromStrs ident.strs = some ident)
    (inv : Inv encodeIpc sys) {action : Action Batches} (calls : Calls sys action)
    (steps : sys.step encodeIpc collate fromStrs parsesUuid action = some after) :
    Inv encodeIpc after ∧ Executed sys after := by
  cases action with
  | connects id =>
      unfold Sys.step at steps
      dsimp only at steps
      split at steps
      · next isNew =>
        cases steps
        exact inv.quiet rfl (fun _ found _ => by rw [isNew] at found; cases found)
          (fun _ mem => .inl mem) (fun _ _ held => held) (.refl _) rfl rfl
          (fits_idle rfl (fun _ locked => locked.elim) (by rintro _ _ ⟨⟩))
      · cases steps
  | opens id minted =>
      obtain ⟨session, isSession, steps⟩ := Option.bind_eq_some_iff.mp steps
      split at steps
      · exact inv.openNext makes isSession steps
      · cases steps
  | ensureSeqFloor id ident floor =>
      obtain ⟨session, isSession, steps⟩ := Option.bind_eq_some_iff.mp steps
      split at steps
      · next tail isStage isIdle =>
        cases steps
        exact inv.ensureSeqFloor isSession isStage isIdle ident floor rfl
      · cases steps
  | starts id request =>
      obtain ⟨session, isSession, steps⟩ := Option.bind_eq_some_iff.mp steps
      split at steps
      · next tail isStage isIdle =>
        split at steps
        · cases steps
          refine inv.starts isSession isStage isIdle ?_ ?_ rfl
          · rintro ident kind batches rfl
            exact calls
          · rintro ident seq rfl
            exact calls
        · cases steps
      · cases steps
  | executes id =>
      obtain ⟨session, isSession, steps⟩ := Option.bind_eq_some_iff.mp steps
      split at steps
      · next serving => exact inv.executeNext isSession serving steps
      · cases steps
  | receives id =>
      obtain ⟨session, isSession, steps⟩ := Option.bind_eq_some_iff.mp steps
      split at steps
      · next tail isStage =>
        split at steps
        · exact inv.receiveNext isSession isStage steps
        · cases steps
      · cases steps
  | detaches id =>
      obtain ⟨session, isSession, rfl⟩ := Option.map_eq_some_iff.mp steps
      exact inv.leaves isSession rfl rfl (fun _ _ held => held) rfl rfl rfl rfl rfl
        fun serving => ⟨serving, rfl⟩
  | ends id =>
      obtain ⟨session, isSession, rfl⟩ := Option.map_eq_some_iff.mp steps
      refine inv.leaves isSession rfl rfl (fun other apart held => ?_) rfl rfl rfl rfl rfl
        (by rintro ⟨⟩)
      have notOwn : sys.holder ≠ some id := by
        rw [held]
        exact fun same => apart (Option.some.inj same)
      exact (if_neg notOwn).trans held

/-- The invariant holds in every state that is reached. -/
theorem inv_of_run
    (makes : ∀ ident : TableIdent, ident.inner ≠ [] → fromStrs ident.strs = some ident)
    (run : Run (Sys.step encodeIpc collate fromStrs parsesUuid) Calls (Sys.init Batches) sys) :
    Inv encodeIpc sys :=
  run.invariant (fun _ _ _ inv calls steps => (inv.step makes calls steps).1) Inv.init

/-- A frame is told by its table and its sequence. -/
theorem Inv.unique (inv : Inv encodeIpc sys) {left right : Entry Batches}
    (isLeft : left ∈ sys.inserted) (isRight : right ∈ sys.inserted)
    (same : left.ident = right.ident) (isSeq : left.seq = right.seq) : left = right := by
  have told : ∀ first ∈ sys.inserted, ∀ second ∈ sys.inserted,
      (first.ident = second.ident → first.seq = second.seq → first = second) := by
    refine List.Pairwise.forall_of_forall_of_flip (fun _ _ _ _ => rfl) (inv.ordered.imp ?_)
      (inv.ordered.imp ?_)
    · exact fun less same isSeq => absurd isSeq (less same).ne
    · exact fun less same isSeq => absurd isSeq.symm (less same.symm).ne
  exact told left isLeft right isRight same isSeq

/-- The frames of a table enter the database with increasing sequences, whichever process sends
them and whatever was truncated. Every acknowledged frame did, and no two acknowledged frames of a
table have one sequence. The process that can still insert frames is above every sequence. -/
theorem sequences_increase
    (makes : ∀ ident : TableIdent, ident.inner ≠ [] → fromStrs ident.strs = some ident)
    (run : Run (Sys.step encodeIpc collate fromStrs parsesUuid) Calls (Sys.init Batches) sys) :
    (sys.inserted.Pairwise fun left right => left.ident = right.ident → left.seq < right.seq) ∧
      (∀ entry ∈ sys.acked, entry ∈ sys.inserted) ∧
      (sys.acked.Pairwise fun left right => left.ident = right.ident → left.seq ≠ right.seq) ∧
      ∀ id session tail, sys.sessions id = some session → session.serving = true →
        session.stage = .opened tail → session.wire = .idle →
          ∀ entry ∈ sys.inserted, entry.seq < tail.next entry.ident := by
  have inv := inv_of_run makes run
  refine ⟨inv.ordered, inv.isAcked, ?_, fun id session tail isSession serving isStage isIdle => ?_⟩
  · refine inv.once.imp_of_mem fun isLeft isRight differ same isSeq => differ ?_
    exact inv.unique (inv.isAcked _ isLeft) (inv.isAcked _ isRight) same isSeq
  · intro entry mem
    have leads := (inv.fits id session isSession).leads serving tail isStage
    rcases leads.below entry mem with less | waiting
    · exact less
    · rw [isIdle] at waiting
      cases waiting

/-- A system whose statements are bytes. -/
abbrev byteStep : Sys (List UInt8) → Action (List UInt8) → Option (Sys (List UInt8)) :=
  Sys.step Except.ok (fun left right => decide (left ≤ right)) identOfStrs fun _ => true

def opening (id : Nat) : List (Action (List UInt8)) :=
  [.connects id, .opens id "5f", .opens id "5f", .opens id "5f", .opens id "5f"]

/-- The backend of a process ends when it has inserted a second frame, and a new process opens the
tail. -/
def reopening : List (Action (List UInt8)) :=
  opening 0 ++ [.starts 0 (.append ⟨["n"], "t"⟩ .append [1]), .executes 0, .receives 0,
    .starts 0 (.append ⟨["n"], "t"⟩ .append [2]), .executes 0, .ends 0] ++ opening 1

def reopened : Sys (List UInt8) :=
  execute byteStep (fun sys action => decide (Calls sys action)) (Sys.init _) reopening

/-- The new process appends, and only then does the first one read its answer. -/
def takenOver : Sys (List UInt8) :=
  execute byteStep (fun sys action => decide (Calls sys action)) reopened
    [.starts 1 (.append ⟨["n"], "t"⟩ .append [3]), .executes 1, .receives 1, .receives 0]

theorem identOfStrs_makes (ident : TableIdent) (inNamespace : ident.inner ≠ []) :
    identOfStrs ident.strs = some ident := by
  simp [identOfStrs, TableIdent.strs, inNamespace]

theorem run_reopened : Run byteStep Calls (Sys.init _) reopened :=
  run_execute (fun _ _ => of_decide_eq_true) _ _

theorem run_late : Run byteStep Calls reopened takenOver :=
  run_execute (fun _ _ => of_decide_eq_true) _ _

theorem sequences_increase_takenOver :
    takenOver.acked.map (fun entry => (entry.session, entry.seq)) = [(0, 1), (1, 3), (0, 2)] ∧
      (takenOver.inserted.Pairwise fun left right =>
        left.ident = right.ident → left.seq < right.seq) ∧
      (∀ entry ∈ takenOver.acked, entry ∈ takenOver.inserted) ∧
      (takenOver.acked.Pairwise fun left right =>
        left.ident = right.ident → left.seq ≠ right.seq) ∧
      ∀ id session tail, takenOver.sessions id = some session → session.serving = true →
        session.stage = .opened tail → session.wire = .idle →
          ∀ entry ∈ takenOver.inserted, entry.seq < tail.next entry.ident :=
  ⟨rfl, sequences_increase identOfStrs_makes (run_reopened.trans run_late)⟩

end Runs

end Postgres

end Icegres.Tail
