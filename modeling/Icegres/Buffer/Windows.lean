import Icegres.Buffer.Replay

/-!
# Windows between watermarks

The watermarks of a table cut its tail into windows, and what an inserted row does to its key is
decided inside its window: it replaces the key when an earlier keyed frame of the window is on it,
and is added otherwise. The journal of a server whose inserts meet no key in flight is the tail
read that way, for the watermarks so far and for each new one, and every version of the table is
the journal up to its watermark.
-/

namespace Icegres.Buffer

/-! ## Lists in order -/

/-- A list splits where its elements begin to satisfy a condition that all later ones satisfy. -/
theorem filter_not_append_filter {α : Type} {order : α → α → Prop} (holds : α → Bool)
    (mono : ∀ {earlier later}, order earlier later → holds earlier = true → holds later = true)
    {list : List α} (sorted : list.Pairwise order) :
    list.filter (fun item => !holds item) ++ list.filter holds = list := by
  induction list with
  | nil => rfl
  | cons first rest ih =>
      obtain ⟨before, sorted⟩ := List.pairwise_cons.mp sorted
      cases isHigh : holds first with
      | false => simp only [List.filter_cons, isHigh, Bool.not_false, if_true, Bool.false_eq_true,
          if_false, List.cons_append, ih sorted]
      | true =>
          have all : ∀ item ∈ rest, holds item = true := fun item mem =>
            mono (before item mem) isHigh
          have noLow : rest.filter (fun item => !holds item) = [] :=
            List.filter_eq_nil_iff.mpr fun item mem => by simp [all item mem]
          simp only [List.filter_cons, isHigh, Bool.not_true, Bool.false_eq_true, if_false, if_true,
            noLow, List.nil_append, List.filter_eq_self.mpr all]

/-- Blocks of equal lengths that are joined to the same list are the same blocks. -/
theorem eq_of_flatMap_eq {α β : Type} {first second : α → List β} {list : List α}
    (lengths : ∀ item ∈ list, (first item).length = (second item).length)
    (same : list.flatMap first = list.flatMap second) : ∀ item ∈ list, first item = second item := by
  induction list with
  | nil => exact fun item mem => by cases mem
  | cons head rest ih =>
      rw [List.flatMap_cons, List.flatMap_cons] at same
      obtain ⟨own, others⟩ := List.append_inj same (lengths head List.mem_cons_self)
      rintro item mem
      rcases List.mem_cons.mp mem with rfl | later
      · exact own
      · exact ih (fun other isOther => lengths other (List.mem_cons_of_mem _ isOther)) others item
          later

/-- Filtering joined blocks by what is the same in a whole block keeps whole blocks. -/
theorem filter_flatMap_blocks {α β : Type} {block : α → List β} {holds : β → Bool}
    {inside : α → Bool} {list : List α}
    (agree : ∀ item ∈ list, ∀ entry ∈ block item, holds entry = inside item) :
    (list.flatMap block).filter holds = (list.filter inside).flatMap block := by
  induction list with
  | nil => rfl
  | cons item rest ih =>
      have own := agree item List.mem_cons_self
      rw [List.flatMap_cons, List.filter_append, List.filter_cons,
        ih fun other mem => agree other (List.mem_cons_of_mem _ mem)]
      cases isInside : inside item with
      | true =>
          rw [List.filter_eq_self.mpr fun entry mem => (own entry mem).trans isInside]
          rfl
      | false =>
          rw [List.filter_eq_nil_iff.mpr fun entry mem => by simp [own entry mem, isInside]]
          rfl

/-! ## Windows -/

/-- No mark lies between two sequences. -/
def Unseparated (marks : List Nat) (older newer : Nat) : Prop :=
  ∀ mark ∈ marks, mark < older ∨ newer ≤ mark

instance (marks : List Nat) (older newer : Nat) : Decidable (Unseparated marks older newer) :=
  inferInstanceAs (Decidable (∀ mark ∈ marks, mark < older ∨ newer ≤ mark))

/-- The keys of the keyed frames that are earlier in a sequence's window. -/
def touchedBy (pkCols : List Nat) (marks : List Nat) (frames : List Frame) (seq : Nat) : List Key :=
  keysOf pkCols ((frames.filter fun frame =>
    frame.1 < seq ∧ Unseparated marks frame.1 seq).map Prod.snd)

/-- What a frame does in its window, under its sequence. -/
def windowed (pkCols : List Nat) (marks : List Nat) (frames : List Frame) (frame : Frame) :
    List (Option Nat × RowOp) :=
  (frame.2.ops pkCols (touchedBy pkCols marks frames frame.1)).map (some frame.1, ·)

variable {pkCols : List Nat} {marks : List Nat} {frames : List Frame} {seq : Nat}

theorem mem_keysOf {tail : List TailOp} {key : Key} :
    key ∈ keysOf pkCols tail ↔ ∃ op ∈ tail, key ∈ op.keys pkCols :=
  List.mem_flatMap

theorem mem_touchedBy {key : Key} : key ∈ touchedBy pkCols marks frames seq ↔
    ∃ frame ∈ frames, frame.1 < seq ∧ Unseparated marks frame.1 seq ∧ key ∈ frame.2.keys pkCols := by
  rw [touchedBy, mem_keysOf]
  constructor
  · rintro ⟨op, mem, isKey⟩
    obtain ⟨frame, isFrame, rfl⟩ := List.mem_map.mp mem
    obtain ⟨isFrame, passes⟩ := List.mem_filter.mp isFrame
    obtain ⟨earlier, together⟩ := of_decide_eq_true passes
    exact ⟨frame, isFrame, earlier, together, isKey⟩
  · rintro ⟨frame, isFrame, earlier, together, isKey⟩
    exact ⟨frame.2, List.mem_map_of_mem (List.mem_filter.mpr
      ⟨isFrame, decide_eq_true ⟨earlier, together⟩⟩), isKey⟩

theorem windowed_seq {frame : Frame} {entry : Option Nat × RowOp}
    (mem : entry ∈ windowed pkCols marks frames frame) : entry.1 = some frame.1 := by
  obtain ⟨op, -, rfl⟩ := List.mem_map.mp mem
  rfl

/-- How much a frame does does not depend on the frames before it. -/
theorem TailOp.ops_length (op : TailOp) (touched others : List Key) :
    (op.ops pkCols touched).length = (op.ops pkCols others).length := by
  cases op <;> simp only [TailOp.ops, List.length_map]

/-- Frames do the same behind frames of the same keys. -/
theorem TailOp.ops_congr (op : TailOp) {touched others : List Key}
    (same : ∀ key, key ∈ touched ↔ key ∈ others) :
    op.ops pkCols touched = op.ops pkCols others := by
  cases op with
  | append batches => simp only [TailOp.ops, same]
  | upsert batches => rfl
  | delete batches => rfl

/-- The frames behind the last mark are read as boot would replay them. -/
theorem opsOf_above (pkCols : List Nat) {mark : Nat}
    (ordered : frames.Pairwise fun earlier later => earlier.1 < later.1) (isMark : mark ∈ marks)
    (top : ∀ other ∈ marks, other ≤ mark) :
    opsOf pkCols [] ((frames.filter fun frame => mark < frame.1).map Prod.snd) =
      (frames.filter fun frame => mark < frame.1).flatMap fun frame =>
        frame.2.ops pkCols (touchedBy pkCols marks frames frame.1) := by
  suffices split : ∀ rest before, frames.filter (fun frame => mark < frame.1) = before ++ rest →
      opsOf pkCols (keysOf pkCols (before.map Prod.snd)) (rest.map Prod.snd) =
        rest.flatMap fun frame => frame.2.ops pkCols (touchedBy pkCols marks frames frame.1) from
    split _ [] rfl
  intro rest
  induction rest with
  | nil => exact fun _ _ => rfl
  | cons frame rest ih =>
      intro before isSplit
      have sorted := ordered.filter fun frame => decide (mark < frame.1)
      rw [isSplit, List.pairwise_append] at sorted
      obtain ⟨-, sortedRest, across⟩ := sorted
      obtain ⟨behind, -⟩ := List.pairwise_cons.mp sortedRest
      have above : mark < frame.1 := by
        have mem : frame ∈ frames.filter fun frame => decide (mark < frame.1) := by
          rw [isSplit]
          exact List.mem_append_right _ List.mem_cons_self
        exact of_decide_eq_true (List.mem_filter.mp mem).2
      have touched : touchedBy pkCols marks frames frame.1 = keysOf pkCols (before.map Prod.snd) := by
        have earlier : (frames.filter fun other =>
            other.1 < frame.1 ∧ Unseparated marks other.1 frame.1) = before := by
          have window : (frames.filter fun other =>
              other.1 < frame.1 ∧ Unseparated marks other.1 frame.1) =
              (frames.filter fun other => mark < other.1).filter fun other => other.1 < frame.1 := by
            rw [List.filter_filter]
            apply List.filter_congr
            intro other _
            rw [Bool.eq_iff_iff]
            simp only [decide_eq_true_eq, Bool.and_eq_true]
            refine and_congr_right fun _ => ⟨fun together => ?_, fun later other isOther => ?_⟩
            · exact (together mark isMark).resolve_right (Nat.not_le_of_lt above)
            · exact .inl ((top other isOther).trans_lt later)
          rw [window, isSplit, List.filter_append, List.filter_eq_self.mpr,
            List.filter_eq_nil_iff.mpr, List.append_nil]
          · intro other mem
            simp only [decide_eq_true_eq, Nat.not_lt]
            rcases List.mem_cons.mp mem with rfl | later
            · exact le_rfl
            · exact (behind other later).le
          · exact fun other mem => decide_eq_true (across other mem frame List.mem_cons_self)
        rw [touchedBy, earlier]
      have later := ih (before ++ [frame]) (by rw [isSplit, List.append_assoc]; rfl)
      rw [List.map_append, keysOf, List.flatMap_append, ← keysOf] at later
      rw [List.map_cons, opsOf, List.flatMap_cons, touched, ← later]
      simp [keysOf]

/-- A journal that reads its tail in windows. -/
def Reads (pkCols : List Nat) (marks : List Nat) (frames : List Frame)
    (journal : List (Option Nat × RowOp)) : Prop :=
  journal = frames.flatMap (windowed pkCols marks frames)

/-- When the frames above a new mark are read as boot would replay them, the tail is read the same
with the mark. -/
theorem Reads.remark {journal : List (Option Nat × RowOp)} {mark : Nat}
    (reads : Reads pkCols marks frames journal)
    (ordered : frames.Pairwise fun earlier later => earlier.1 < later.1)
    (top : ∀ other ∈ marks, other ≤ mark) {count : Nat}
    (cut : (journal.map Prod.snd).drop count =
      opsOf pkCols [] ((frames.filter fun frame => mark < frame.1).map Prod.snd)) :
    Reads pkCols (mark :: marks) frames journal ∧
      (journal.map Prod.snd).take count =
        (journal.filter fun entry => !(entry.1.any fun seq => mark < seq)).map Prod.snd := by
  have split : frames.filter (fun frame => !decide (mark < frame.1)) ++
      frames.filter (fun frame => mark < frame.1) = frames :=
    filter_not_append_filter (fun frame : Frame => decide (mark < frame.1))
      (fun before above => decide_eq_true ((of_decide_eq_true above).trans before)) ordered
  have high (frame : Frame) (entry) (mem : entry ∈ windowed pkCols marks frames frame) :
      (entry.1.any fun seq => mark < seq) = decide (mark < frame.1) := by
    rw [windowed_seq mem]
    rfl
  have journaled : journal.map Prod.snd =
      ((frames.filter fun frame => !decide (mark < frame.1)).flatMap fun frame =>
        frame.2.ops pkCols (touchedBy pkCols marks frames frame.1)) ++
      (frames.filter fun frame => mark < frame.1).flatMap fun frame =>
        frame.2.ops pkCols (touchedBy pkCols marks frames frame.1) := by
    rw [← List.flatMap_append, split, reads, List.map_flatMap]
    simp [windowed, Function.comp_def]
  have isMark : mark ∈ mark :: marks := List.mem_cons_self
  have again := opsOf_above pkCols ordered isMark (by simpa using top)
  have lengths : ((journal.map Prod.snd).drop count).length =
      ((frames.filter fun frame => mark < frame.1).flatMap fun frame =>
        frame.2.ops pkCols (touchedBy pkCols marks frames frame.1)).length := by
    rw [cut, again]
    simp only [List.length_flatMap]
    congr 1
    apply List.map_congr_left
    intro frame _
    exact frame.2.ops_length _ _
  obtain ⟨taken, dropped⟩ := List.append_inj' ((List.take_append_drop count _).trans journaled)
    lengths
  have blocks := eq_of_flatMap_eq (fun frame _ => frame.2.ops_length _ _)
    (dropped.symm.trans (cut.trans again))
  have same (frame : Frame) (mem : frame ∈ frames) :
      windowed pkCols marks frames frame = windowed pkCols (mark :: marks) frames frame := by
    by_cases above : mark < frame.1
    · rw [windowed, windowed, blocks frame (List.mem_filter.mpr ⟨mem, decide_eq_true above⟩)]
    · rw [windowed, windowed]
      congr 1
      refine frame.2.ops_congr fun key => ?_
      simp only [mem_touchedBy, Unseparated, List.forall_mem_cons]
      refine exists_congr fun other => and_congr_right fun _ => and_congr_right fun _ => ?_
      exact and_congr_left fun _ => ⟨fun each => ⟨.inr (Nat.le_of_not_lt above), each⟩, And.right⟩
  refine ⟨reads.trans ?_, ?_⟩
  · rw [List.flatMap_def, List.flatMap_def, List.map_congr_left same]
  · rw [taken, reads, filter_flatMap_blocks fun frame _ entry mem =>
      congrArg (! ·) (high frame entry mem), List.map_flatMap]
    simp [windowed, Function.comp_def]

/-- What no mark separates from a sequence between two is on the same side of every mark. -/
theorem Unseparated.trans {older between newer : Nat} (first : Unseparated marks older between)
    (second : Unseparated marks between newer) : Unseparated marks older newer := fun mark mem =>
  (first mark mem).imp_right fun reached => (second mark mem).resolve_left (Nat.not_lt_of_le reached)

theorem Unseparated.refl (marks : List Nat) (seq : Nat) : Unseparated marks seq seq := fun mark _ =>
  Nat.lt_or_ge mark seq

/-- What lies between two sequences of one window is in that window. -/
theorem Unseparated.mono {older before after newer : Nat} (together : Unseparated marks older newer)
    (lower : older ≤ before) (upper : after ≤ newer) : Unseparated marks before after :=
  fun mark mem => (together mark mem).imp (fun below => below.trans_le lower) upper.trans

/-- A key is replaced by its keyed frames and by inserts behind them in their window. -/
theorem Reads.keyed_of_put {journal : List (Option Nat × RowOp)}
    (reads : Reads pkCols marks frames journal) {cols : List Nat} {key : Key} {rows : List Row}
    (mem : (some seq, .put cols key rows) ∈ journal) :
    ∃ frame ∈ frames, frame.1 ≤ seq ∧ Unseparated marks frame.1 seq ∧
      key ∈ frame.2.keys pkCols := by
  rw [reads] at mem
  obtain ⟨frame, isFrame, isEntry⟩ := List.mem_flatMap.mp mem
  obtain ⟨op, isOp, isPut⟩ := List.mem_map.mp isEntry
  obtain ⟨isSeq, rfl⟩ := Prod.mk.injEq .. ▸ isPut
  cases isSeq
  obtain ⟨seq, tailOp⟩ := frame
  have own (isKey : key ∈ tailOp.keys pkCols) : ∃ frame ∈ frames, frame.1 ≤ seq ∧
      Unseparated marks frame.1 seq ∧ key ∈ frame.2.keys pkCols :=
    ⟨_, isFrame, le_rfl, .refl marks seq, isKey⟩
  cases tailOp with
  | append batches =>
      obtain ⟨row, -, isRow⟩ := List.mem_map.mp isOp
      split at isRow
      · next touched =>
        cases isRow
        obtain ⟨frame, isEarlier, earlier, rest⟩ := mem_touchedBy.mp touched
        exact ⟨frame, isEarlier, earlier.le, rest⟩
      · cases isRow
  | upsert batches =>
      obtain ⟨row, isRow, isPut⟩ := List.mem_map.mp isOp
      cases isPut
      exact own (List.mem_map_of_mem isRow)
  | delete batches =>
      obtain ⟨deleted, isRow, isPut⟩ := List.mem_map.mp isOp
      cases isPut
      exact own isRow

/-- An inserted row of a key that its window touches replaces the key. -/
theorem Reads.put_of_insert {journal : List (Option Nat × RowOp)}
    (reads : Reads pkCols marks frames journal) {batches : List Batch} {row : Row}
    (isFrame : (seq, .append batches) ∈ frames) (isRow : row ∈ batches.flatten)
    (touched : encodeKey pkCols row ∈ touchedBy pkCols marks frames seq) :
    (some seq, .put pkCols (encodeKey pkCols row) [row]) ∈ journal := by
  rw [reads]
  refine List.mem_flatMap.mpr ⟨_, isFrame, List.mem_map.mpr ⟨_, List.mem_map_of_mem isRow, ?_⟩⟩
  rw [if_pos touched]

/-- Which marks there are matters, not their order. -/
theorem touchedBy_congr {others : List Nat} (same : ∀ mark, mark ∈ others ↔ mark ∈ marks) :
    touchedBy pkCols others frames seq = touchedBy pkCols marks frames seq := by
  rw [touchedBy, touchedBy]
  congr 2
  apply List.filter_congr
  intro frame _
  rw [decide_eq_decide]
  simp only [Unseparated, same]

/-- A later frame does not change what an earlier one does. -/
theorem windowed_append {frame later : Frame} (behind : frame.1 ≤ later.1) :
    windowed pkCols marks (frames ++ [later]) frame = windowed pkCols marks frames frame := by
  have apart : ¬ later.1 < frame.1 := Nat.not_lt_of_le behind
  simp [windowed, touchedBy, List.filter_append, apart]

/-! ## The windows of a server -/

/-- The staged operations that a watermark covers. -/
def Sys.upTo (sys : Sys) (watermark : Option Nat) : List RowOp :=
  (sys.journal.filter fun entry =>
    !(entry.1.any fun seq => watermark.all fun mark => mark < seq)).map Prod.snd

namespace Logged

variable {rows : Multiset Row} {log after : Logged} {sent : List Frame}

/-- What the server's tail has carried so far, and which watermarks it has had. -/
structure Tracked (pkCols : List Nat) (rows : Multiset Row) (log : Logged) (sent : List Frame)
    (marks : List Nat) : Prop where
  ordered : sent.Pairwise fun earlier later => earlier.1 < later.1
  below : ∀ frame ∈ sent, ∃ next, log.sys.nextSeq = some next ∧ frame.1 < next
  staged : ∀ frame ∈ sent, frame.2.Staged pkCols
  above : dropStaleFrames sent log.watermark = dropStaleFrames log.frames log.watermark
  top : ∀ mark ∈ marks, ∃ stamped, log.watermark = some stamped ∧ mark ≤ stamped
  marked : ∀ stamped, log.watermark = some stamped → stamped ∈ marks
  reads : Reads pkCols marks sent log.sys.journal
  versions : ∀ metadata ∈ log.sys.lake.versions,
    metadata.rows = applyRowOps (log.sys.upTo metadata.watermark) rows ∧
      ∀ mark, metadata.watermark = some mark → mark ∈ marks
  landed : ∀ post, log.sys.process.post = some post → post.state = .landed →
    ∀ mark, post.mark = some mark → mark ∈ marks
  covered : ∀ mark, log.covered = some mark → log.Stamped mark → mark ∈ marks

theorem Tracked.congr (tracked : log.Tracked pkCols rows sent marks) {others : List Nat}
    (same : ∀ mark, mark ∈ others ↔ mark ∈ marks) : log.Tracked pkCols rows sent others where
  ordered := tracked.ordered
  below := tracked.below
  staged := tracked.staged
  above := tracked.above
  top mark mem := tracked.top mark ((same mark).mp mem)
  marked stamped isStamped := (same _).mpr (tracked.marked stamped isStamped)
  reads := by
    have reads := tracked.reads
    unfold Reads windowed at reads ⊢
    simp only [touchedBy_congr same]
    exact reads
  versions metadata mem := by
    obtain ⟨isRows, isMark⟩ := tracked.versions metadata mem
    exact ⟨isRows, fun mark stamped => (same mark).mpr (isMark mark stamped)⟩
  landed post isPost isLanded mark isMark :=
    (same mark).mpr (tracked.landed post isPost isLanded mark isMark)
  covered mark isCovered stamped := (same mark).mpr (tracked.covered mark isCovered stamped)

/-- The keys of a new statement's window are those of the frames above the watermark. -/
theorem Tracked.touchedBy_next (tracked : log.Tracked pkCols rows sent marks)
    (replayable : log.Replayable pkCols rows) (isNext : log.sys.nextSeq = some seq) :
    touchedBy pkCols marks sent seq = keysOf pkCols (log.above log.watermark) := by
  have stampedBelow : ∀ stamped, log.watermark = some stamped → stamped < seq := by
    obtain ⟨next, isSeq, below⟩ := replayable.numbered.next
    cases isNext.symm.trans isSeq
    exact below
  have window : (sent.filter fun frame => frame.1 < seq ∧ Unseparated marks frame.1 seq) =
      dropStaleFrames sent log.watermark := by
    cases isStamped : log.watermark with
    | none =>
        rw [dropStaleFrames, List.filter_eq_self]
        intro frame mem
        obtain ⟨next, isSeq, below⟩ := tracked.below frame mem
        cases isNext.symm.trans isSeq
        refine decide_eq_true ⟨below, fun mark isMark => ?_⟩
        obtain ⟨stamped, isSome, -⟩ := tracked.top mark isMark
        cases isStamped.symm.trans isSome
    | some stamped =>
        apply List.filter_congr
        intro frame mem
        obtain ⟨next, isSeq, below⟩ := tracked.below frame mem
        cases isNext.symm.trans isSeq
        rw [Bool.eq_iff_iff]
        simp only [decide_eq_true_eq]
        constructor
        · rintro ⟨-, together⟩
          exact (together stamped (tracked.marked stamped isStamped)).resolve_right
            (Nat.not_le_of_lt (stampedBelow stamped isStamped))
        · refine fun later => ⟨below, fun mark isMark => .inl ?_⟩
          obtain ⟨other, isOther, covers⟩ := tracked.top mark isMark
          cases isStamped.symm.trans isOther
          exact covers.trans_lt later
  rw [touchedBy, window, tracked.above]
  rfl

/-- A statement joins the tail. -/
theorem Tracked.join (tracked : log.Tracked pkCols rows sent marks)
    (replayable : log.Replayable pkCols rows) {op : TailOp} {more : List RowOp}
    (isNext : log.sys.nextSeq = some seq) (nextSeq : after.sys.nextSeq = some (seq + 1))
    (journal : after.sys.journal = log.sys.journal ++ more.map (some seq, ·))
    (frames : after.frames = log.frames ++ [(seq, op)]) (lake : after.sys.lake = log.sys.lake)
    (sidecar : after.sidecar = log.sidecar) (covered : after.covered = log.covered)
    (post : after.sys.process.post = log.sys.process.post) (staged : op.Staged pkCols)
    (agrees : more = op.ops pkCols (keysOf pkCols (log.above log.watermark))) :
    after.Tracked pkCols rows (sent ++ [(seq, op)]) marks := by
  have effective : after.watermark = log.watermark := by
    rw [Logged.watermark, Logged.watermark, table, table, lake, sidecar]
  have stampedBelow : ∀ stamped, log.watermark = some stamped → stamped < seq := by
    obtain ⟨next, isSeq, below⟩ := replayable.numbered.next
    cases isNext.symm.trans isSeq
    exact below
  have before (frame : Frame) (mem : frame ∈ sent) : frame.1 < seq := by
    obtain ⟨next, isSeq, below⟩ := tracked.below frame mem
    cases isNext.symm.trans isSeq
    exact below
  have upTo (watermark : Option Nat) (covers : ∀ mark, watermark = some mark → mark < seq) :
      after.sys.upTo watermark = log.sys.upTo watermark := by
    have above : (watermark.all fun mark => decide (mark < seq)) = true := by
      cases isMark : watermark with
      | none => rfl
      | some mark => exact decide_eq_true (covers mark isMark)
    have none : ((more.map (some seq, ·)).filter fun entry => !(entry.1.any fun seq =>
        watermark.all fun mark => mark < seq)) = [] := by
      rw [List.filter_eq_nil_iff]
      intro entry mem
      obtain ⟨op, -, rfl⟩ := List.mem_map.mp mem
      simp only [Option.any_some, above, Bool.not_true, Bool.false_eq_true, not_false_eq_true]
    rw [Sys.upTo, Sys.upTo, journal, List.filter_append, none, List.append_nil]
  exact
    { ordered := by
        rw [List.pairwise_append]
        refine ⟨tracked.ordered, List.pairwise_singleton _ _, fun earlier old later new => ?_⟩
        rw [List.mem_singleton.mp new]
        exact before earlier old
      below := fun frame mem => by
        refine ⟨seq + 1, nextSeq, ?_⟩
        rcases List.mem_append.mp mem with old | new
        · exact (before frame old).trans (Nat.lt_succ_self _)
        · rw [List.mem_singleton.mp new]
          exact Nat.lt_succ_self _
      staged := fun frame mem => by
        rcases List.mem_append.mp mem with old | new
        · exact tracked.staged frame old
        · rw [List.mem_singleton.mp new]
          exact staged
      above := by
        rw [effective, frames, dropStaleFrames_append, dropStaleFrames_append, tracked.above]
      top := effective ▸ tracked.top
      marked := effective ▸ tracked.marked
      reads := by
        have old : ∀ frame ∈ sent, windowed pkCols marks (sent ++ [(seq, op)]) frame =
            windowed pkCols marks sent frame := fun frame mem => windowed_append (before frame mem).le
        have new : windowed pkCols marks (sent ++ [(seq, op)]) (seq, op) =
            more.map (some seq, ·) := by
          rw [windowed_append le_rfl, windowed, tracked.touchedBy_next replayable isNext, agrees]
        rw [Reads, journal, tracked.reads, List.flatMap_append, List.flatMap_singleton, new,
          List.flatMap_def, List.flatMap_def, List.map_congr_left old]
      versions := fun metadata mem => by
        rw [lake] at mem
        obtain ⟨isRows, isMark⟩ := tracked.versions metadata mem
        refine ⟨?_, isMark⟩
        rw [upTo, isRows]
        intro mark stamped
        obtain ⟨other, isOther, covers⟩ := tracked.top mark (isMark mark stamped)
        exact covers.trans_lt (stampedBelow other isOther)
      landed := post ▸ tracked.landed
      covered := fun mark isCovered stamped => by
        rw [covered] at isCovered
        rw [Stamped, table, lake] at stamped
        exact tracked.covered mark isCovered stamped }

/-- What a later mark covers need not be looked at. -/
theorem dropStaleFrames_later {frames : List Frame} {early : Option Nat} {mark : Nat}
    (covers : ∀ stamped, early = some stamped → stamped ≤ mark) :
    dropStaleFrames (dropStaleFrames frames early) (some mark) =
      dropStaleFrames frames (some mark) := by
  cases early with
  | none => rfl
  | some stamped =>
      simp only [dropStaleFrames, List.filter_filter]
      apply List.filter_congr
      intro frame _
      rw [Bool.eq_iff_iff]
      simp only [Bool.and_eq_true, decide_eq_true_eq, and_iff_left_iff_imp]
      exact (covers stamped rfl).trans_lt

/-- A step without a statement may move the watermark; the new one reads the tail the same way. -/
theorem Tracked.quiet (tracked : log.Tracked pkCols rows sent marks)
    (replayable : after.Replayable pkCols rows) (journal : after.sys.journal = log.sys.journal)
    (nextSeq : after.sys.nextSeq = log.sys.nextSeq)
    (frames : dropStaleFrames after.frames after.watermark =
      dropStaleFrames log.frames after.watermark)
    (grows : ∀ stamped, log.watermark = some stamped →
      ∃ later, after.watermark = some later ∧ stamped ≤ later)
    (versions : ∀ metadata ∈ after.sys.lake.versions,
      (∃ old ∈ log.sys.lake.versions, metadata.rows = old.rows ∧
        metadata.watermark = old.watermark) ∨
      ∃ mark, after.watermark = some mark ∧ metadata.watermark = some mark ∧
        metadata.rows = after.table.rows)
    (landed : ∀ post, after.sys.process.post = some post → post.state = .landed →
      ∀ mark, post.mark = some mark → mark ∈ after.watermark.toList ++ marks)
    (covered : ∀ mark, after.covered = some mark → after.Stamped mark →
      mark ∈ after.watermark.toList ++ marks) :
    after.Tracked pkCols rows sent (after.watermark.toList ++ marks) := by
  have below (mark : Nat) (isMark : after.watermark = some mark) (stamped : Nat)
      (isStamped : log.watermark = some stamped) : stamped ≤ mark := by
    obtain ⟨later, isLater, covers⟩ := grows stamped isStamped
    cases isMark.symm.trans isLater
    exact covers
  have above : dropStaleFrames sent after.watermark = dropStaleFrames after.frames after.watermark := by
    rw [frames]
    cases isMark : after.watermark with
    | none =>
        have unmarked : log.watermark = none := by
          cases isStamped : log.watermark with
          | none => rfl
          | some stamped =>
              obtain ⟨later, isLater, -⟩ := grows stamped isStamped
              cases isMark.symm.trans isLater
        have same := tracked.above
        rwa [unmarked] at same
    | some mark =>
        rw [← dropStaleFrames_later (below mark isMark), tracked.above,
          dropStaleFrames_later (below mark isMark)]
  have upTo (watermark : Option Nat) : after.sys.upTo watermark = log.sys.upTo watermark := by
    rw [Sys.upTo, Sys.upTo, journal]
  -- the new watermark, if there is one, cuts the journal as boot would
  have remark (mark : Nat) (isMark : after.watermark = some mark) :
      Reads pkCols (mark :: marks) sent log.sys.journal ∧
        after.table.rows = applyRowOps (log.sys.upTo (some mark)) rows := by
    obtain ⟨count, cut, isRows⟩ := replayable.grown.committed
    have ops := cut.ops
    rw [Logged.above, ← above, isMark, Sys.ops, journal] at ops
    have top (other : Nat) (mem : other ∈ marks) : other ≤ mark := by
      obtain ⟨stamped, isStamped, covers⟩ := tracked.top other mem
      exact covers.trans (below mark isMark stamped isStamped)
    obtain ⟨reads, taken⟩ := tracked.reads.remark tracked.ordered top ops
    refine ⟨reads, ?_⟩
    rw [Sys.ops, journal, taken] at isRows
    exact isRows.symm
  exact
    { ordered := tracked.ordered
      below := nextSeq ▸ tracked.below
      staged := tracked.staged
      above := above
      top := fun mark mem => by
        rcases List.mem_append.mp mem with new | old
        · exact ⟨mark, Option.mem_toList.mp new, le_rfl⟩
        · obtain ⟨stamped, isStamped, covers⟩ := tracked.top mark old
          obtain ⟨later, isLater, beyond⟩ := grows stamped isStamped
          exact ⟨later, isLater, covers.trans beyond⟩
      marked := fun stamped isStamped => by simp [isStamped]
      reads := by
        rw [journal]
        cases isMark : after.watermark with
        | none => exact tracked.reads
        | some mark => exact (remark mark isMark).1
      versions := fun metadata mem => by
        rcases versions metadata mem with ⟨old, isOld, isRows, isWatermark⟩ |
          ⟨mark, isMark, isWatermark, isRows⟩
        · rw [upTo, isRows, isWatermark]
          obtain ⟨same, each⟩ := tracked.versions old isOld
          exact ⟨same, fun mark stamped => List.mem_append_right _ (each mark stamped)⟩
        · rw [upTo, isRows, isWatermark]
          refine ⟨(remark mark isMark).2, fun other isOther => ?_⟩
          cases isOther
          simp [isMark]
      landed := landed
      covered := covered }

end Logged

/-! ## Steps without a statement -/

/-- The table shows what it showed before, and no posted commit landed. -/
structure Sys.Rests (sys after : Sys) : Prop where
  journal : after.journal = sys.journal
  nextSeq : after.nextSeq = sys.nextSeq
  versions : ∀ metadata ∈ after.lake.versions, ∃ old ∈ sys.lake.versions,
    metadata.rows = old.rows ∧ metadata.watermark = old.watermark
  watermark : after.lake.current.watermark = sys.lake.current.watermark
  post : ∀ post, after.process.post = some post → post.state = .landed →
    sys.process.post = some post

/-- Neither a statement nor the arrival of a commit. -/
def Sys.Action.Aside : Sys.Action → Prop
  | .append _ | .keyed _ | .arrive => False
  | _ => True

/-- Only statements and landing commits change what the table and its tail say. -/
theorem Sys.rests_of_step {sys after : Sys} {action : Action} (definite : sys.Definite action)
    (unexpired : sys.Unexpired action) (aside : action.Aside)
    (taken : sys.step action = some after) : sys.Rests after := by
  have keep (metadata : Metadata) (mem : metadata ∈ sys.lake.versions) :
      ∃ old ∈ sys.lake.versions, metadata.rows = old.rows ∧ metadata.watermark = old.watermark :=
    ⟨metadata, mem, rfl, rfl⟩
  have finish (process : Process) (same : ∀ post, process.post = some post → post.state = .landed →
      sys.process.post = some post) : sys.Rests { sys with process } :=
    ⟨rfl, rfl, keep, rfl, same⟩
  cases took taken with
  | append | keyed | arrive => exact aside.elim
  | fail | error | resolve | stray => exact definite.elim
  | expire => exact unexpired.elim
  | durable | age | gc => exact finish _ fun post isPost _ => isPost
  | scanLoad | scanTake | take => exact ⟨rfl, rfl, keep, rfl, fun post isPost _ => isPost⟩
  | load loads =>
      obtain ⟨snap, window, -, -, -, rfl⟩ := Process.load_cases loads
      exact ⟨rfl, rfl, keep, rfl, fun post isPost _ => isPost⟩
  | giveUp givesUp =>
      obtain ⟨window, -, rfl⟩ := Process.giveUp_cases givesUp
      exact finish _ fun post isPost _ => isPost
  | prepare prepares =>
      obtain ⟨snap, loaded, action, window, -, -, -, ⟨-, rfl, rfl⟩ | ⟨_, _, -, -, rfl, rfl⟩⟩ :=
        Process.prepare_cases prepares
      · exact finish _ fun post isPost _ => isPost
      · refine ⟨rfl, rfl, keep, rfl, fun post isPost isLanded => ?_⟩
        cases isPost
        cases isLanded
  | answer answers =>
      obtain ⟨post, window, -, -, rfl⟩ := Process.answer_cases answers
      exact finish _ fun post isPost _ => by cases isPost
  | foreign others timestamp same =>
      cases same
      refine ⟨rfl, rfl, fun metadata mem => ?_, rfl, fun post isPost _ => isPost⟩
      rcases List.mem_append.mp mem with old | new
      · exact keep metadata old
      · rw [List.mem_singleton.mp new]
        exact ⟨sys.lake.current, List.mem_append_right _ List.mem_cons_self, definite, rfl⟩

namespace Logged

variable {rows : Multiset Row} {log after : Logged} {sent : List Frame}

/-- What a flush announces when its work nets out to nothing is the mark it took. -/
theorem announced_prepare {timestamp mark : Nat}
    (announced : log.sys.announced (.prepare timestamp) = some mark) :
    ∃ snap, log.flusher = .taken snap ∧ snap.tailMark = some mark := by
  simp only [Sys.announced] at announced
  split at announced
  · next snap loaded isTaken isLoaded =>
      refine ⟨snap, isTaken, ?_⟩
      split at announced
      · exact announced
      · split at announced
        · exact announced
        · cases announced
      · cases announced
  · cases announced

/-- A step that leaves what the table shows alone is tracked. -/
theorem Tracked.rest (tracked : log.Tracked pkCols rows sent marks) {action : Sys.Action} {sys : Sys}
    (rests : log.sys.Rests sys)
    (announces : ∀ mark, log.sys.announced action = some mark →
      log.Stamped mark → mark ∈ marks)
    (written : written log.sys action = [])
    (next : Replayable pkCols rows { log with
      sys
      frames := log.frames ++ Logged.written log.sys action
      covered := (log.sys.announced action).or log.covered }) :
    Tracked pkCols rows { log with
      sys
      frames := log.frames ++ Logged.written log.sys action
      covered := (log.sys.announced action).or log.covered } sent
      ((effectiveWatermark sys.lake.current.watermark log.sidecar).toList ++ marks) := by
  have effective : ({ log with
      sys
      frames := log.frames ++ Logged.written log.sys action
      covered := (log.sys.announced action).or log.covered } : Logged).watermark =
        log.watermark := by
    rw [Logged.watermark, Logged.watermark]
    exact congrArg (effectiveWatermark · log.sidecar) rests.watermark
  exact tracked.quiet next rests.journal rests.nextSeq (by simp [written])
    (fun stamped isStamped => ⟨stamped, effective.trans isStamped, le_rfl⟩)
    (fun metadata mem => .inl (rests.versions metadata mem))
    (fun post isPost isLanded mark isMark => List.mem_append_right _
      (tracked.landed post (rests.post post isPost isLanded) isLanded mark isMark))
    fun mark isCovered isStamped => List.mem_append_right _ <| by
      have isStamped : log.Stamped mark := by
        rw [Stamped, table, ← rests.watermark]
        exact isStamped
      have isCovered : (log.sys.announced action).or log.covered = some mark := isCovered
      rcases Option.or_eq_some_iff.mp isCovered with new | ⟨-, old⟩
      · exact announces mark new isStamped
      · exact tracked.covered mark old isStamped

/-- The current watermark is one of the marks already. -/
theorem Tracked.renote (tracked : log.Tracked pkCols rows sent marks) :
    log.Tracked pkCols rows sent (log.watermark.toList ++ marks) :=
  tracked.congr fun mark => by
    rw [List.mem_append, Option.mem_toList, or_iff_right_iff_imp]
    exact tracked.marked mark

/-- A posted commit lands, and its mark becomes the watermark, or it is refused. -/
theorem Tracked.arrive (tracked : log.Tracked pkCols rows sent marks)
    (replayable : log.Replayable pkCols rows)
    (acknowledged : log.Acknowledged pkCols (.flow .arrive))
    (taken : log.step (.flow .arrive) = some after) :
    after.Tracked pkCols rows sent (after.watermark.toList ++ marks) := by
  have next := replayable.arrive acknowledged taken
  obtain ⟨sys, steps, -, rfl⟩ := step_flow_eq_some taken
  simp only [Sys.step, Option.bind_eq_bind, Option.bind_eq_some_iff] at steps
  obtain ⟨⟨process, lake⟩, arrives, isAfter⟩ := steps
  cases isAfter
  obtain ⟨post, isPost, isSent, arrived⟩ := Process.arrive_cases arrives
  obtain ⟨mark, isMark, ⟨isLanded, -⟩ | ⟨-, ready, -⟩⟩ := replayable.posted post isPost
  · cases isSent.symm.trans isLanded
  have idle : log.covered = none := by
    cases isCovered : log.covered with
    | none => rfl
    | some mark =>
        have phase := replayable.view.phase
        unfold Process.Phase at phase
        have isIdle : log.flusher = .idle := (replayable.finished mark isCovered).1
        simp only [Sys.unread, isIdle] at phase
        cases isPost.symm.trans phase.2
  obtain ⟨seq, isNext, -⟩ := replayable.numbered.next
  obtain ⟨high, same, -, isSame, -, -, isStamped, -⟩ :=
    (replayable.view.marks seq isNext).posted post isPost
  cases isMark.symm.trans isSame
  rcases arrived with ⟨-, -, rfl, rfl⟩ | ⟨-, -, rfl, rfl⟩
  · have stamped : (log.sys.lake.current.commit post.prepared).watermark = some mark := by
      simp [Metadata.commit, isStamped]
    have effective : effectiveWatermark
        (log.sys.lake.current.commit post.prepared).watermark log.sidecar = some mark := by
      rw [stamped]
      exact effectiveWatermark_stamped ready.covers
    refine tracked.quiet next rfl rfl (by simp [written]) (fun stamped isStamped =>
      ⟨mark, effective, ready.covers stamped isStamped⟩) (fun metadata mem => ?_)
      (fun other isOther _ own isOwn => ?_) fun own isCovered => ?_
    · rcases List.mem_append.mp mem with old | new
      · exact .inl ⟨metadata, old, rfl, rfl⟩
      · rw [List.mem_singleton.mp new]
        exact .inr ⟨mark, effective, stamped, rfl⟩
    · cases isOther
      cases isMark.symm.trans isOwn
      exact List.mem_append_left _ (Option.mem_toList.mpr effective)
    · have isCovered : (none : Option Nat).or log.covered = some own := isCovered
      rw [idle] at isCovered
      cases isCovered
  · refine tracked.quiet next rfl rfl (by simp [written])
      (fun stamped isStamped => ⟨stamped, isStamped, le_rfl⟩)
      (fun metadata mem => .inl ⟨metadata, mem, rfl, rfl⟩)
      (fun other isOther isLanded => ?_) fun own isCovered => ?_
    · cases isOther
      cases isLanded
    · have isCovered : (none : Option Nat).or log.covered = some own := isCovered
      rw [idle] at isCovered
      cases isCovered

/-- A step of the server is tracked. -/
theorem Tracked.flow (tracked : log.Tracked pkCols rows sent marks)
    (replayable : log.Replayable pkCols rows) {action : Sys.Action}
    (acknowledged : log.Acknowledged pkCols (.flow action))
    (grounded : log.Grounded pkCols (.flow action)) (taken : log.step (.flow action) = some after) :
    after.Tracked pkCols rows (sent ++ written log.sys action)
      (after.watermark.toList ++ marks) := by
  have next := replayable.step acknowledged grounded taken
  obtain ⟨seq, isNext, -⟩ := replayable.numbered.next
  have still (aside : action.Aside) (announces : ∀ mark, log.sys.announced action = some mark →
      log.Stamped mark → mark ∈ marks) :
      after.Tracked pkCols rows (sent ++ written log.sys action)
        (after.watermark.toList ++ marks) := by
    obtain ⟨sys, steps, -, rfl⟩ := step_flow_eq_some taken
    have rests := Sys.rests_of_step acknowledged.1 acknowledged.2.1 aside steps
    have nothing : written log.sys action = [] := by
      cases action with
      | append | keyed => exact aside.elim
      | _ => rfl
    rw [show sent ++ written log.sys action = sent by rw [nothing, List.append_nil]]
    exact tracked.rest rests announces nothing next
  cases action with
  | append batches =>
      obtain ⟨sys, steps, -, rfl⟩ := step_flow_eq_some taken
      by_cases nothing : batches = []
      · subst nothing
        cases Sys.took steps with
        | append moves =>
            have same := tracked.quiet next (List.append_nil _) rfl (by simp [written])
              (fun stamped isStamped => ⟨stamped, isStamped, le_rfl⟩)
              (fun metadata mem => .inl ⟨metadata, mem, rfl, rfl⟩)
              (fun post isPost isLanded mark isMark => List.mem_append_right _
                (tracked.landed post isPost isLanded mark isMark))
              fun mark isCovered isStamped => List.mem_append_right _
                (tracked.covered mark isCovered isStamped)
            simpa [written] using same
      · simp only [Sys.step, if_neg nothing, isNext, Option.bind_eq_bind, Option.bind_eq_some_iff]
          at steps
        obtain ⟨mid, isMoved, isAfter⟩ := steps
        obtain ⟨window, moves, rfl⟩ := Sys.moved_eq_some isMoved
        cases isAfter
        have agrees := insertOps_eq_ops replayable.journaled.declares fun row mem =>
          (replayable.meets grounded row mem).1
        have isWritten : written log.sys (.append batches) = [(seq, .append batches)] := by
          simp [written, nothing, isNext]
        rw [congrArg (sent ++ ·) isWritten]
        refine Tracked.renote ?_
        exact tracked.join replayable isNext rfl rfl (congrArg (log.frames ++ ·) isWritten) rfl rfl
          rfl rfl (.append batches rfl) agrees
  | keyed stmt =>
      obtain ⟨sys, steps, -, rfl⟩ := step_flow_eq_some taken
      simp only [Sys.step, isNext, Option.bind_eq_bind, Option.bind_some, Option.bind_eq_some_iff]
        at steps
      obtain ⟨mid, isMoved, isAfter⟩ := steps
      obtain ⟨window, moves, rfl⟩ := Sys.moved_eq_some isMoved
      cases isAfter
      have declared : stmt.pkCols = pkCols := acknowledged.2.2
      have isWritten : written log.sys (.keyed stmt) = [(seq, stmt.frame)] := by
        simp [written, isNext]
      rw [congrArg (sent ++ ·) isWritten]
      refine Tracked.renote ?_
      exact tracked.join replayable isNext rfl rfl (congrArg (log.frames ++ ·) isWritten) rfl rfl
        rfl rfl (.keyed stmt declared rfl) (by rw [← declared, stmt.frame_ops])
  | arrive =>
      have same := tracked.arrive replayable acknowledged taken
      simpa [written] using same
  | prepare timestamp =>
      refine still trivial fun mark announced isStamped => ?_
      obtain ⟨snap, isTaken, isMark⟩ := announced_prepare announced
      obtain ⟨high, own, -, isOwn, -, -, above⟩ :=
        (replayable.view.marks seq isNext).taken snap isTaken
      cases isMark.symm.trans isOwn
      obtain ⟨stamped, isStamp, covers⟩ := isStamped
      exact absurd (above stamped isStamp) (Nat.not_lt_of_le covers)
  | answer =>
      refine still trivial fun mark announced _ => ?_
      simp only [Sys.announced] at announced
      split at announced
      · next post isPost =>
          split at announced
          · next isLanded => exact tracked.landed post isPost isLanded mark announced
          · cases announced
      · cases announced
  | resolve | fail | error | stray => exact acknowledged.1.elim
  | expire => exact acknowledged.2.1.elim
  | durable | age | gc | load | scanLoad | scanTake | foreign | take | giveUp =>
      exact still trivial fun mark announced => by cases announced

/-- Recording a mark moves the watermark to it or beyond it. -/
theorem effectiveWatermark_grows (property sidecar : Option Nat) (mark : Nat) :
    ∃ later, effectiveWatermark property (some (max (sidecar.getD mark) mark)) = some later ∧
      mark ≤ later ∧ ∀ stamped, effectiveWatermark property sidecar = some stamped →
        stamped ≤ later := by
  cases property with
  | none =>
      refine ⟨_, rfl, le_max_right _ _, fun stamped isStamped => ?_⟩
      cases sidecar with
      | none => cases isStamped
      | some recorded =>
          cases isStamped
          exact le_max_left _ _
  | some property =>
      refine ⟨_, rfl, (le_max_right _ _).trans (le_max_right _ _), fun stamped isStamped => ?_⟩
      cases sidecar with
      | none =>
          cases isStamped
          exact le_max_left _ _
      | some recorded =>
          cases isStamped
          simp only [Option.getD_some]
          omega

/-- The flusher records the mark of a finished flush before it announces it. -/
theorem Tracked.forget (tracked : log.Tracked pkCols rows sent marks)
    (replayable : log.Replayable pkCols rows) {kept : Nat → Bool}
    (taken : log.step (.forget true kept) = some after) :
    ∃ mark, log.covered = some mark ∧ mark ∈ after.watermark.toList ++ marks ∧
      after.Tracked pkCols rows sent (after.watermark.toList ++ marks) := by
  have next := replayable.forget taken
  simp only [step, if_true, Option.bind_eq_bind, Option.bind_eq_some_iff] at taken
  obtain ⟨mark, isCovered, isAfter⟩ := taken
  cases isAfter
  obtain ⟨later, isLater, reached, grows⟩ :=
    effectiveWatermark_grows log.table.watermark log.sidecar mark
  obtain ⟨idle, -, outcome⟩ := replayable.finished mark isCovered
  refine ⟨mark, isCovered, ?_, tracked.quiet next rfl rfl ?_
    (fun stamped isStamped => ⟨later, isLater, grows stamped isStamped⟩)
    (fun metadata mem => .inl ⟨metadata, mem, rfl, rfl⟩)
    (fun post isPost isLanded own isOwn => List.mem_append_right _
      (tracked.landed post isPost isLanded own isOwn))
    fun own isOwn => by cases isOwn⟩
  · rcases outcome with stamped | ⟨ready, -⟩
    · exact List.mem_append_right _ (tracked.covered mark isCovered stamped)
    · have recorded : effectiveWatermark log.table.watermark
          (some (max (log.sidecar.getD mark) mark)) = some mark :=
        effectiveWatermark_recorded ready.covers
      exact List.mem_append_left _ (Option.mem_toList.mpr recorded)
  · have effective : ({ log with
        frames := log.frames.filter fun frame => mark < frame.1 || kept frame.1
        sidecar := some (max (log.sidecar.getD mark) mark)
        covered := none } : Logged).watermark = some later := isLater
    rw [effective]
    exact dropStaleFrames_forget log.frames kept reached

/-- The tail of a server that just started is empty. -/
theorem tracked_initial (pkCols : List Nat) (rows : Multiset Row) (property sidecar : Option Nat) :
    (initial rows property sidecar).Tracked pkCols rows []
      ((effectiveWatermark property sidecar).toList ++ property.toList) where
  ordered := .nil
  below := fun _ mem => by cases mem
  staged := fun _ mem => by cases mem
  above := by
    change dropStaleFrames [] _ = dropStaleFrames [] _
    rfl
  top mark mem := by
    change ∃ stamped, effectiveWatermark property sidecar = some stamped ∧ mark ≤ stamped
    rcases List.mem_append.mp mem with isStamped | isProperty
    · exact ⟨mark, Option.mem_toList.mp isStamped, le_rfl⟩
    · rw [Option.mem_toList.mp isProperty]
      cases sidecar with
      | none => exact ⟨mark, rfl, le_rfl⟩
      | some recorded => exact ⟨_, rfl, le_max_left mark recorded⟩
  marked stamped isStamped := List.mem_append_left _ (Option.mem_toList.mpr isStamped)
  reads := rfl
  versions metadata mem := by
    have isFirst : metadata = (initial rows property sidecar).table := List.mem_singleton.mp mem
    subst isFirst
    exact ⟨rfl, fun mark isMark => List.mem_append_right _ (Option.mem_toList.mpr isMark)⟩
  landed := fun post isPost => by cases isPost
  covered := fun mark isCovered => by cases isCovered

end Logged

end Icegres.Buffer
