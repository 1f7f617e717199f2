import Icegres.Buffer.Appends

/-!
# Operations of a key take effect in tail order

The journal lists what the statements do in the order of their tail sequences. The union view is
the journal applied in order, and so is the table after a flush, up to where the flusher took
its work. Operations on other keys do not matter to a key's rows.
-/

namespace Icegres.Buffer

/-! ## One key -/

/-- The rows of one key. -/
def onKey (pkCols : List Nat) (key : Key) (rows : Multiset Row) : Multiset Row :=
  rows.filter fun row => encodeKey pkCols row = key

namespace RowOp

/-- Whether the operation is on the key. -/
def On (pkCols : List Nat) (key : Key) : RowOp → Bool
  | .append row => encodeKey pkCols row = key
  | .put _ own _ => own = key

/-- A replacement under the table's key columns carries the replaced key. -/
def Declared (pkCols : List Nat) : RowOp → Prop
  | .append _ => True
  | .put cols own replacement => cols = pkCols ∧ ∀ row ∈ replacement, encodeKey pkCols row = own

variable {pkCols : List Nat} {key : Key} {op : RowOp}

/-- An operation on another key leaves the key's rows alone. -/
theorem onKey_apply_of_not_on (declared : op.Declared pkCols) (other : op.On pkCols key = false)
    (rows : Multiset Row) : onKey pkCols key (op.apply rows) = onKey pkCols key rows := by
  cases op with
  | append row =>
      have apart : encodeKey pkCols row ≠ key := of_decide_eq_false other
      simp [RowOp.apply, onKey, Multiset.filter_add, Multiset.filter_singleton, apart]
  | put cols own replacement =>
      obtain ⟨rfl, carries⟩ := declared
      have apart : own ≠ key := of_decide_eq_false other
      have noReplacement : onKey cols key (replacement : Multiset Row) = 0 := by
        rw [onKey, Multiset.filter_eq_nil]
        intro row mem same
        exact apart ((carries row (Multiset.mem_coe.mp mem)).symm.trans same)
      rw [RowOp.apply, onKey, Multiset.filter_add, ← onKey, ← onKey, noReplacement, add_zero, onKey,
        onKey, Layer.outside, Multiset.filter_filter]
      apply Multiset.filter_congr
      intro row _
      rw [Finset.mem_singleton, and_iff_left_iff_imp]
      rintro rfl same
      exact apart same.symm

/-- An operation on the key looks at the key's rows only. -/
theorem onKey_apply_of_on (declared : op.Declared pkCols) (on : op.On pkCols key = true)
    (rows : Multiset Row) :
    onKey pkCols key (op.apply rows) = op.apply (onKey pkCols key rows) := by
  cases op with
  | append row =>
      have same : encodeKey pkCols row = key := of_decide_eq_true on
      simp [RowOp.apply, onKey, Multiset.filter_add, Multiset.filter_singleton, same]
  | put cols own replacement =>
      obtain ⟨rfl, carries⟩ := declared
      have same : own = key := of_decide_eq_true on
      subst same
      have all : onKey cols own (replacement : Multiset Row) = replacement := by
        rw [onKey, Multiset.filter_eq_self]
        exact fun row mem => carries row (Multiset.mem_coe.mp mem)
      rw [RowOp.apply, RowOp.apply, onKey, Multiset.filter_add, ← onKey, ← onKey, all, onKey, onKey,
        Layer.outside, Layer.outside, Multiset.filter_filter, Multiset.filter_filter]
      congr 1
      apply Multiset.filter_congr
      intro row _
      exact and_comm

end RowOp

/-- The rows of a key after operations are those after the operations on the key. -/
theorem onKey_applyRowOps {pkCols : List Nat} {ops : List RowOp}
    (declared : ∀ op ∈ ops, op.Declared pkCols) (key : Key) (rows : Multiset Row) :
    onKey pkCols key (applyRowOps ops rows) =
      applyRowOps (ops.filter (RowOp.On pkCols key)) (onKey pkCols key rows) := by
  induction ops generalizing rows with
  | nil => rfl
  | cons op rest ih =>
      have own := declared op List.mem_cons_self
      have ih := ih fun other mem => declared other (List.mem_cons_of_mem _ mem)
      rw [applyRowOps_cons, ih, List.filter_cons]
      cases on : op.On pkCols key with
      | true =>
          rw [if_pos rfl, applyRowOps_cons, RowOp.onKey_apply_of_on own on]
      | false =>
          rw [if_neg (by simp), RowOp.onKey_apply_of_not_on own on]

/-! ## The declared key columns -/

/-- The live keys are those of the declared columns. -/
def TableBuf.Declares (buf : TableBuf) (pkCols : List Nat) : Prop :=
  buf.keyed = none ∨ buf.pkCols = pkCols

namespace TableBuf.Declares

variable {buf after : TableBuf} {pkCols : List Nat}

/-- Changing the entries does not change the declaration. -/
theorem map (declares : buf.Declares pkCols) (change : KeyedState → KeyedState)
    (same : after.keyed = buf.keyed.map change)
    (keeps : ∀ state, (change state).pkCols = state.pkCols) : after.Declares pkCols := by
  rcases declares with none | declared
  · exact .inl (by rw [same, none]; rfl)
  · cases known : buf.keyed with
    | none => exact .inl (by rw [same, known]; rfl)
    | some state =>
        right
        rw [known] at same
        rw [TableBuf.pkCols_of_keyed same, keeps, ← TableBuf.pkCols_of_keyed known, declared]

theorem congr (declares : buf.Declares pkCols) (same : after.keyed = buf.keyed) :
    after.Declares pkCols :=
  declares.map id (by rw [same, Option.map_id, id]) fun _ => rfl

theorem stageAppend (declares : buf.Declares pkCols) (batches : List Batch)
    (staged replaySeq : Option Nat) :
    (buf.stageAppend batches staged replaySeq).1.Declares pkCols := by
  have noted : (buf.noteStaged staged).Declares pkCols := by
    refine declares.congr ?_
    cases staged <;> rfl
  obtain ⟨ops, routes, -⟩ := routes_routeAppends (buf.noteStaged staged) batches
    (staged.or replaySeq)
  obtain ⟨cols, none, -⟩ := routes.keeps
  rcases noted with unkeyed | declared
  · exact .inl (none.mpr unkeyed)
  · exact .inr (cols.trans declared)

theorem stageKeyed {stmt : KeyedStmt} {result : TableBuf × RoutedStmt} {op : KeyedOp}
    {staged : Option Nat}
    (stages : buf.stageKeyed stmt.pkCols stmt.keyRow op staged = .ok result) :
    result.1.Declares stmt.pkCols := by
  simp only [TableBuf.stageKeyed] at stages
  split at stages
  · cases stages
  · cases stages
    exact .inr rfl

/-- An insert's operations are of the declared columns. -/
theorem insertOps (declares : buf.Declares pkCols) (batches : List Batch) :
    ∀ op ∈ insertOps buf batches, op.Declared pkCols := by
  intro op mem
  obtain ⟨row, -, rfl⟩ := List.mem_map.mp mem
  rw [insertOp]
  split
  · next live =>
      rcases declares with none | declared
      · rw [entries, none] at live
        cases live
      · refine ⟨declared, fun other isOther => ?_⟩
        rw [List.mem_singleton.mp isOther, declared]
  · trivial

end TableBuf.Declares

namespace Window

theorem declares_drop {buf : TableBuf} {pkCols : List Nat} (declares : buf.Declares pkCols)
    (nBatches : Nat) (keyed : List KeyedItem) :
    (buf.dropPendingPrefix nBatches keyed).Declares pkCols :=
  declares.map _ rfl fun _ => rfl

/-- Only keyed statements declare key columns. -/
theorem declares_step {window after : Window} {pkCols : List Nat}
    (declares : window.buf.Declares pkCols) {action : Action}
    (noKeyed : ∀ stmt staged replaySeq, action ≠ .keyed stmt staged replaySeq)
    (taken : window.step action = some after) : after.buf.Declares pkCols := by
  cases took taken with
  | @keyed stmt staged replaySeq _ => exact absurd rfl (noKeyed stmt staged replaySeq)
  | @append batches staged replaySeq => exact declares.stageAppend batches staged replaySeq
  | noteTailHigh | observe | age | durable | gc => exact declares.congr rfl
  | fail =>
      dsimp only [TableBuf.unrouteFailed]
      split
      · exact declares
      · exact declares.map _ rfl fun _ => rfl
  | take => exact declares.map _ rfl fun _ => rfl
  | abandon | settle => exact declares
  | drop => exact declares_drop declares _ _
  | park | move => exact (declares_drop declares _ _).congr rfl
  | requeue =>
      dsimp only [Window.finish, TableBuf.moveFlushedBackToPending]
      split
      · exact declares
      · exact declares.map _ rfl fun _ => rfl

end Window

/-! ## The journal -/

namespace Sys

variable {rows : Multiset Row} {sys : Sys} {pkCols : List Nat}

/-- Keyed statements use the table's primary key. -/
def Declared (pkCols : List Nat) (_ : Sys) : Action → Prop
  | .keyed stmt => stmt.pkCols = pkCols
  | _ => True

/-- The journal is in the order of the tail's sequences, on the table's primary key. -/
structure Journaled (pkCols : List Nat) (sys : Sys) : Prop where
  declares : sys.process.window.buf.Declares pkCols
  declared : ∀ op ∈ sys.ops, op.Declared pkCols
  ordered : sys.journal.Pairwise fun earlier later =>
    ∀ before ∈ earlier.1, ∀ after ∈ later.1, before ≤ after
  below : ∀ entry ∈ sys.journal, ∀ seq ∈ entry.1, ∃ next, sys.nextSeq = some next ∧ seq < next
  /-- With a tail attached every operation has a sequence. -/
  numbered : sys.nextSeq.isSome → ∀ entry ∈ sys.journal, entry.1.isSome

theorem journaled_initial (pkCols : List Nat) (rows : Multiset Row) (watermark : Option Nat)
    (tail : Bool) : (initial rows watermark tail).Journaled pkCols where
  declares := .inl rfl
  declared := by simp [initial, ops]
  ordered := .nil
  below := by simp [initial]
  numbered := by simp [initial]

/-- Operations of one statement join the journal under the next sequence. -/
theorem Journaled.grow (journaled : sys.Journaled pkCols) {after : Sys} (added : List RowOp)
    (declares : after.process.window.buf.Declares pkCols)
    (declared : ∀ op ∈ added, op.Declared pkCols)
    (next : after.nextSeq = sys.nextSeq.map (· + 1))
    (grown : after.journal = sys.journal ++ added.map fun op => (sys.nextSeq, op)) :
    after.Journaled pkCols where
  declares := declares
  declared op mem := by
    rw [ops, grown, List.map_append, List.map_map] at mem
    rcases List.mem_append.mp mem with old | new
    · exact journaled.declared op old
    · obtain ⟨original, isAdded, rfl⟩ := List.mem_map.mp new
      exact declared original isAdded
  ordered := by
    rw [grown, List.pairwise_append]
    refine ⟨journaled.ordered, ?_, fun earlier old later new => ?_⟩
    · rw [List.pairwise_map]
      refine List.pairwise_of_forall fun _ _ before isBefore after isAfter => ?_
      exact (Option.mem_unique isBefore isAfter).le
    · obtain ⟨op, -, rfl⟩ := List.mem_map.mp new
      intro before isBefore after isAfter
      obtain ⟨next, isNext, below⟩ := journaled.below earlier old before isBefore
      rw [isNext] at isAfter
      cases isAfter
      exact below.le
  below entry mem seq isSeq := by
    rw [grown] at mem
    rw [next]
    rcases List.mem_append.mp mem with old | new
    · obtain ⟨next, isNext, below⟩ := journaled.below entry old seq isSeq
      exact ⟨next + 1, by rw [isNext]; rfl, below.trans (Nat.lt_succ_self _)⟩
    · obtain ⟨op, -, rfl⟩ := List.mem_map.mp new
      have isNext : sys.nextSeq = some seq := isSeq
      exact ⟨seq + 1, by rw [isNext]; rfl, Nat.lt_succ_self _⟩
  numbered tailed entry mem := by
    rw [grown] at mem
    rw [next, Option.isSome_map] at tailed
    rcases List.mem_append.mp mem with old | new
    · exact journaled.numbered tailed entry old
    · obtain ⟨op, -, rfl⟩ := List.mem_map.mp new
      exact tailed

theorem Declares.moves {window after : Window} (declares : window.buf.Declares pkCols)
    (moves : Moves window after) : after.buf.Declares pkCols := by
  rcases moves with rfl | ⟨action, noKeyed, taken⟩
  · exact declares
  · exact Window.declares_step declares noKeyed taken

theorem Journaled.step (journaled : sys.Journaled pkCols) {action : Action} {after : Sys}
    (isDeclared : sys.Declared pkCols action) (taken : sys.step action = some after) :
    after.Journaled pkCols := by
  have unkeyed (appends : sys.AppendsOnly action) : after.Journaled pkCols := by
    obtain ⟨moves, journals⟩ := step_moves appends taken
    have declares := Declares.moves journaled.declares moves
    rcases journals with ⟨journal, next⟩ | ⟨batches, next, journal⟩
    · exact
        { declares := declares
          declared := by rw [ops, journal]; exact journaled.declared
          ordered := by rw [journal]; exact journaled.ordered
          below := by rw [journal, next]; exact journaled.below
          numbered := by rw [journal, next]; exact journaled.numbered }
    · exact journaled.grow _ declares (journaled.declares.insertOps batches) next journal
  cases took taken with
  | @keyed stmt seq window isSeq steps =>
      cases Window.took steps with
      | keyed stages =>
          have isColumns : stmt.pkCols = pkCols := isDeclared
          refine journaled.grow [stmt.rowOp] (isColumns ▸ TableBuf.Declares.stageKeyed stages) ?_
            (by rw [isSeq]; rfl) (by rw [isSeq]; rfl)
          intro op mem
          rw [List.mem_singleton.mp mem]
          refine ⟨isColumns, fun row isRow => ?_⟩
          exact isColumns ▸ (stmt.addresses none).upserts row isRow
  | _ => exact unkeyed trivial

/-! ## What a flush covers -/

/-- The work the flusher took is the journal up to where it took it. -/
structure Covers (rows : Multiset Row) (sys : Sys) : Prop where
  bound : sys.taken ≤ sys.ops.length
  taken : ∀ snap, sys.process.window.flusher = .taken snap →
    commitWindows [(snap.batches, snap.keyed)] sys.lake.current.rows =
      .ok (applyRowOps (sys.ops.take sys.taken) rows)
  posted : ∀ post, sys.process.post = some post →
    post.prepared.rows = applyRowOps (sys.ops.take sys.taken) rows

theorem covers_initial (rows : Multiset Row) (watermark : Option Nat) (tail : Bool) :
    (initial rows watermark tail).Covers rows where
  bound := Nat.zero_le _
  taken := by simp [initial, Process.initial, Window.initial]
  posted := by simp [initial, Process.initial]

/-- Statements join the journal behind the taken work. -/
theorem Covers.congr (covers : sys.Covers rows) {after : Sys} (more : List RowOp)
    (grown : after.ops = sys.ops ++ more) (taken : after.taken = sys.taken)
    (flusher : ∀ snap, after.process.window.flusher = .taken snap →
      sys.process.window.flusher = .taken snap ∧ after.lake.current.rows = sys.lake.current.rows)
    (posted : ∀ post, after.process.post = some post → ∃ old, sys.process.post = some old ∧
      post.prepared = old.prepared) : after.Covers rows := by
  have same : after.ops.take after.taken = sys.ops.take sys.taken := by
    rw [grown, taken, List.take_append_of_le_length covers.bound]
  refine ⟨?_, fun snap isTaken => ?_, fun post isPost => ?_⟩
  · rw [grown, taken, List.length_append]
    exact covers.bound.trans (Nat.le_add_right _ _)
  · obtain ⟨wasTaken, sameRows⟩ := flusher snap isTaken
    rw [same, sameRows]
    exact covers.taken snap wasTaken
  · obtain ⟨old, isOld, samePrepared⟩ := posted post isPost
    rw [same, samePrepared]
    exact covers.posted old isOld

/-- A step that leaves the journal, the flusher, the post and the rows alone. -/
theorem Covers.same (covers : sys.Covers rows) {after : Sys} (journal : after.journal = sys.journal)
    (taken : after.taken = sys.taken)
    (flusher : after.process.window.flusher = sys.process.window.flusher)
    (posted : after.process.post = sys.process.post)
    (sameRows : after.lake.current.rows = sys.lake.current.rows) : after.Covers rows :=
  covers.congr [] (by rw [ops, journal, List.append_nil, ops]) taken
    (fun snap isTaken => ⟨flusher ▸ isTaken, sameRows⟩)
    fun post isPost => ⟨post, posted ▸ isPost, rfl⟩

/-- The flusher takes all that the journal holds. -/
theorem covers_take (view : sys.unread.View rows) {after : Sys}
    (taken : sys.step .take = some after) : after.Covers rows := by
  cases took taken with
  | take steps =>
      cases Window.took steps with
      | take idle =>
          have phase := view.phase
          unfold Process.Phase at phase
          simp only [unread, idle] at phase
          have all : sys.ops.take sys.journal.length = sys.ops :=
            List.take_of_length_le (by rw [ops, List.length_map])
          refine ⟨by rw [ops, List.length_map], fun snap isTaken => ?_, fun post isPost => ?_⟩
          · dsimp only at isTaken
            split at isTaken
            · cases isTaken
            · cases isTaken
              have top := view.top
              simp only [Process.base, unread, phase.2] at top
              change _ = Except.ok (applyRowOps (sys.ops.take sys.journal.length) rows)
              rw [all]
              exact (commitWindows_single _ view.flow.sound.well.window _).trans (congrArg _ top)
          · rw [phase.2] at isPost
            cases isPost

/-- The posted rows are those of the taken work. -/
theorem Covers.prepare (covers : sys.Covers rows) (view : sys.unread.View rows) {timestamp : Nat}
    {after : Sys} (taken : sys.step (.prepare timestamp) = some after) : after.Covers rows := by
  simp only [step, Option.bind_eq_bind, Option.bind_eq_some_iff] at taken
  obtain ⟨⟨process, lake⟩, prepares, isAfter⟩ := taken
  cases isAfter
  unfold Process.prepare at prepares
  split at prepares
  · next snap loaded isTaken isLoaded =>
      have phase := view.phase
      unfold Process.Phase at phase
      simp only [unread, isTaken] at phase
      obtain ⟨noPost, fresh⟩ := phase
      obtain ⟨sameRows, -⟩ := fresh loaded isLoaded
      have finished {buf : TableBuf} {lake : Lake} : Covers rows { sys with
          process := { sys.process with window := sys.process.window.finish buf, loaded := none }
          lake := lake } := by
        refine covers.congr [] (List.append_nil _).symm rfl (fun snap isTaken => ?_) fun post isPost => ?_
        · cases isTaken
        · exact ⟨post, isPost, rfl⟩
      split at prepares
      · simp only [Process.move, Window.step, isTaken, Option.bind_eq_bind, Option.bind_some,
          Option.pure_def, Option.some.injEq] at prepares
        cases prepares
        exact finished
      · split at prepares
        · simp only [Process.giveUp, Process.move, Window.step, isTaken, Option.bind_eq_bind,
            Option.bind_some, Option.pure_def, Option.map_some, Option.some.injEq] at prepares
          cases prepares
          exact finished
        · next ops composed =>
            split at prepares
            · simp only [Process.move, Window.step, isTaken, Option.bind_eq_bind, Option.bind_some,
                Option.pure_def, Option.some.injEq] at prepares
              cases prepares
              exact finished
            · next result isPrepared =>
                simp only [Process.move, Window.step, isTaken, Option.bind_eq_bind,
                  Option.bind_some, Option.pure_def, Option.some.injEq] at prepares
                cases prepares
                refine ⟨covers.bound, fun snap isTaken => ?_, fun post isPost => ?_⟩
                · cases isTaken
                · cases isPost
                  have committed := covers.taken snap isTaken
                  rw [commitWindows, List.foldlM_cons, composed] at committed
                  rw [rows_of_prepareCommit isPrepared, sameRows]
                  exact Except.ok.inj committed
  · cases prepares

/-- Whatever a definite step does, the flusher's work stays what the journal says. -/
theorem Covers.step (covers : sys.Covers rows) (view : sys.unread.View rows) {action : Action}
    (definite : sys.Definite action) {after : Sys} (taken : sys.step action = some after) :
    after.Covers rows := by
  cases took taken with
  | fail | error | resolve | stray => exact definite.elim
  | take => exact covers_take view taken
  | prepare => exact covers.prepare view taken
  | append steps =>
      cases steps
      exact covers.congr _ (List.map_append ..) rfl (fun snap isTaken => ⟨isTaken, rfl⟩)
        fun post isPost => ⟨post, isPost, rfl⟩
  | keyed isSeq steps =>
      cases Window.took steps with
      | keyed =>
          exact covers.congr _ (List.map_append ..) rfl (fun snap isTaken => ⟨isTaken, rfl⟩)
            fun post isPost => ⟨post, isPost, rfl⟩
  | durable steps =>
      obtain ⟨stmt, found, isAfter⟩ := Option.bind_eq_some_iff.mp steps
      cases isAfter
      exact covers.same rfl rfl rfl rfl rfl
  | age steps | scanTake _ _ steps =>
      cases steps
      exact covers.same rfl rfl rfl rfl rfl
  | scanLoad | expire => exact covers.same rfl rfl rfl rfl rfl
  | gc steps =>
      cases Window.took steps with
      | gc =>
          exact covers.same rfl rfl rfl rfl rfl
  | load loads =>
      obtain ⟨snap, window, -, -, steps, rfl⟩ := Process.load_cases loads
      cases steps
      exact covers.same rfl rfl rfl rfl rfl
  | giveUp givesUp =>
      obtain ⟨window, steps, rfl⟩ := Process.giveUp_cases givesUp
      cases Window.took steps with
      | abandon =>
          refine covers.congr [] (List.append_nil _).symm rfl (fun snap isTaken => ?_)
            fun post isPost => ⟨post, isPost, rfl⟩
          cases isTaken
  | arrive arrives =>
      obtain ⟨post, isPost, -, arrived⟩ := Process.arrive_cases arrives
      obtain ⟨isPosted, -⟩ := view.post_cases isPost
      rcases arrived with ⟨-, -, rfl, rfl⟩ | ⟨-, -, rfl, rfl⟩
      all_goals
        refine covers.congr [] (List.append_nil _).symm rfl (fun snap isTaken => ?_)
          fun other isOther => ⟨post, isPost, ?_⟩
        · cases (isPosted.symm.trans isTaken : Flusher.posted _ = Flusher.taken _)
        · cases isOther
          rfl
  | answer answers =>
      have finished {buf : TableBuf} : Covers rows { sys with
          process := { sys.process with window := sys.process.window.finish buf, post := none } } := by
        refine covers.congr [] (List.append_nil _).symm rfl (fun snap isTaken => ?_)
          fun post isPost => ?_
        · cases isTaken
        · cases isPost
      obtain ⟨post, window, isPost, answered, rfl⟩ := Process.answer_cases answers
      obtain ⟨isPosted, -⟩ := view.post_cases isPost
      have isPosted : sys.process.window.flusher = .posted post.prepared.snapshotId := isPosted
      rcases answered with ⟨-, steps⟩ | ⟨-, steps⟩
      all_goals
        simp only [Window.step, isPosted] at steps
        cases steps
        exact finished
  | foreign others timestamp same =>
      cases same
      exact covers.same rfl rfl rfl rfl definite

/-! ## The main result -/

/-- The journal is in tail order, and for every key the union view and the table after a flush
hold what the journal's operations on the key leave, as far as the flush took them. -/
theorem key_follows_tail_order {watermark : Option Nat} {tail : Bool}
    (run : Run step (fun sys action => sys.Declared pkCols action ∧ sys.Ordered action)
      (initial rows watermark tail) sys) (key : Key) :
    (sys.journal.Pairwise fun earlier later =>
        ∀ before ∈ earlier.1, ∀ after ∈ later.1, before ≤ after) ∧
      (sys.nextSeq.isSome → ∀ entry ∈ sys.journal, entry.1.isSome) ∧
      (∃ overlay, (sys.process.window.buf.overlayWith sys.lake.current.contains).2 = .ok overlay ∧
        onKey pkCols key (unionRows sys.lake.current.rows overlay) =
          applyRowOps (sys.ops.filter (RowOp.On pkCols key)) (onKey pkCols key rows)) ∧
      ∀ post, sys.process.post = some post → post.state = .landed →
        onKey pkCols key sys.lake.current.rows =
          applyRowOps ((sys.ops.take sys.taken).filter (RowOp.On pkCols key))
            (onKey pkCols key rows) := by
  have kept (sys : Sys) (action : Action) (after : Sys)
      (both : sys.unread.View rows ∧ sys.Covers rows ∧ sys.Journaled pkCols)
      (allowed : sys.Declared pkCols action ∧ sys.Ordered action)
      (taken : sys.step action = some after) :
      after.unread.View rows ∧ after.Covers rows ∧ after.Journaled pkCols := by
    obtain ⟨view, covers, journaled⟩ := both
    obtain ⟨isDeclared, ordered⟩ := allowed
    exact ⟨view.unread_step ordered.definite ordered.apart ordered.expires taken,
      covers.step view ordered.definite taken, journaled.step isDeclared taken⟩
  obtain ⟨view, covers, journaled⟩ := @Run.invariant _ _ _ _
    (fun sys => sys.unread.View rows ∧ sys.Covers rows ∧ sys.Journaled pkCols) kept _ _
    ⟨view_initial rows watermark tail, covers_initial rows watermark tail,
      journaled_initial pkCols rows watermark tail⟩ run
  refine ⟨journaled.ordered, journaled.numbered, ?_, fun post isPost isLanded => ?_⟩
  · obtain ⟨overlay, isOverlay, sees⟩ := view.sees (.inl view.versions.current_readable)
    refine ⟨overlay, isOverlay, ?_⟩
    exact (congrArg (onKey pkCols key) sees).trans
      (onKey_applyRowOps journaled.declared key rows)
  · obtain ⟨-, -, unlanded | landed⟩ := view.post_cases isPost
    · rcases unlanded.state with sent | refused
      · cases sent.symm.trans isLanded
      · cases refused.symm.trans isLanded
    · have isRows : sys.lake.current.rows = post.prepared.rows := landed.rows
      rw [isRows, covers.posted post isPost]
      exact onKey_applyRowOps
        (fun op mem => journaled.declared op (List.mem_of_mem_take mem)) key rows

/-- Statements on the first column only. -/
def onFirstColumn (sys : Sys) (action : Action) : Bool :=
  sys.quiet action && match action with
    | .keyed stmt => stmt.pkCols = [0]
    | _ => true

theorem onFirstColumn_sound {action : Action} (passes : sys.onFirstColumn action = true) :
    sys.Declared [0] action ∧ sys.Ordered action := by
  obtain ⟨isQuiet, first⟩ := Bool.and_eq_true_iff.mp passes
  refine ⟨?_, quiet_sound isQuiet⟩
  cases action with
  | keyed stmt =>
      have isColumns : stmt.pkCols = [0] := of_decide_eq_true first
      exact isColumns
  | _ => trivial

/-- The delete lands at the second attempt, together with the insert of its key. -/
theorem key_follows_tail_order_retriedDelete :
    let sys := execute step onFirstColumn (initial {oldRow} none true) retriedDelete
    sys.process.post.map Post.state = some .landed ∧
      ∀ post, sys.process.post = some post → post.state = .landed →
        onKey [0] [.int 1] sys.lake.current.rows =
          applyRowOps ((sys.ops.take sys.taken).filter (RowOp.On [0] [.int 1]))
            (onKey [0] [.int 1] {oldRow}) :=
  ⟨by decide +kernel, (key_follows_tail_order
    (run_execute (fun _ _ => onFirstColumn_sound) _ retriedDelete) [.int 1]).2.2.2⟩

/-- After a refused delete came back above a younger insert of its key, the union view and the
table after the next flush have no row of the key. -/
theorem not_key_follows_tail_order_refusedDelete :
    ∃ sys, Run step (fun sys action => sys.Definite action ∧ sys.Unexpired action ∧
        sys.CollectsContained action) (initial {oldRow} none true) sys ∧
      sys.journal = [(some 1, .put [0] [.int 1] []), (some 2, .append newRow)] ∧
      applyRowOps sys.ops (onKey [0] [.int 1] {oldRow}) = {newRow} ∧
      (∃ overlay, (sys.process.window.buf.overlayWith sys.lake.current.contains).2 = .ok overlay ∧
        onKey [0] [.int 1] (unionRows sys.lake.current.rows overlay) = 0) ∧
      sys.process.post.map Post.state = some .landed ∧ sys.taken = 2 ∧
      onKey [0] [.int 1] sys.lake.current.rows = 0 :=
  ⟨_, run_execute (fun _ _ => calm_sound) _
      (refusedDelete ++ [.take, .load, .prepare 3, .arrive]),
    by decide +kernel, by decide +kernel, ⟨_, rfl, by decide +kernel⟩, by decide +kernel,
    by decide +kernel, by decide +kernel⟩

end Sys

end Icegres.Buffer
