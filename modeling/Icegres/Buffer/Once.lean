import Icegres.Buffer.Books
import Icegres.Buffer.Flight

/-!
# Each append is committed at most once

A flush whose call failed may have landed. The flusher recognises this by the watermark it
stamped: work at or below the stamped watermark is not posted again. The guard compares the
highest sequence of the work only, so it is right as long as no work lies on both sides of the
stamped watermark.
-/

namespace Icegres.Buffer

/-! ## Sequences in a window -/

/-- The sequence is not above the mark. -/
def UpTo (mark : Option Nat) (seq : Nat) : Prop :=
  ∃ high, mark = some high ∧ seq ≤ high

/-- The batches of a window carry sequences up to its mark. -/
structure Window.Numbered (window : Window) : Prop where
  pending : ∀ pb ∈ window.buf.pending, ∀ seq ∈ pb.seq, UpTo window.buf.tailHigh seq
  flushed : ∀ gen ∈ window.buf.flushed, ∀ batch ∈ gen.batches, ∀ seq ∈ batch.1,
    UpTo window.buf.tailHigh seq
  taken : ∀ snap, window.flusher = .taken snap → snap.nBatches ≤ window.buf.pending.length ∧
    ∀ pb ∈ window.buf.pending.take snap.nBatches, ∀ seq ∈ pb.seq, UpTo snap.tailMark seq

theorem UpTo.mono {mark later : Option Nat} {seq : Nat} (upTo : UpTo mark seq)
    (grows : ∀ high, mark = some high → UpTo later high) : UpTo later seq := by
  obtain ⟨high, isHigh, below⟩ := upTo
  obtain ⟨higher, isHigher, above⟩ := grows high isHigh
  exact ⟨higher, isHigher, below.trans above⟩

theorem mem_restore {id : Nat} {batches : List (Option Nat × Batch)} {pb : PendingBatch}
    (mem : pb ∈ TableBuf.restore id batches) : ∃ batch ∈ batches, pb.seq = batch.1 := by
  induction batches generalizing id with
  | nil => cases mem
  | cons batch rest ih =>
      rcases List.mem_cons.mp mem with rfl | later
      · exact ⟨batch, List.mem_cons_self, rfl⟩
      · obtain ⟨other, isOther, same⟩ := ih later
        exact ⟨other, List.mem_cons_of_mem _ isOther, same⟩

namespace Window

theorem numbered_initial : initial.Numbered where
  pending := by simp [initial, TableBuf.empty]
  flushed := by simp [initial, TableBuf.empty]
  taken := by simp [initial]

/-- Statements are staged above everything before, and none fails. -/
def Rising (window : Window) : Action → Prop
  | .append _ staged replaySeq => replaySeq = none ∧
      ∀ seq, staged = some seq → ∀ high, window.buf.tailHigh = some high → high ≤ seq
  | .keyed _ staged _ =>
      ∀ seq, staged = some seq → ∀ high, window.buf.tailHigh = some high → high ≤ seq
  | .fail _ => False
  | _ => True

theorem upTo_noteStaged {buf : TableBuf} {staged : Option Nat}
    (rising : ∀ seq, staged = some seq → ∀ high, buf.tailHigh = some high → high ≤ seq)
    {high : Nat} (isHigh : buf.tailHigh = some high) :
    UpTo (buf.noteStaged staged).tailHigh high := by
  cases staged with
  | none => exact ⟨high, isHigh, le_rfl⟩
  | some seq => exact ⟨seq, rfl, rising seq rfl high isHigh⟩

/-- A staged statement joins behind what the flusher took. -/
theorem Numbered.staged {window next : Window} (numbered : window.Numbered)
    (added : List PendingBatch) (isPending : next.buf.pending = window.buf.pending ++ added)
    (sequences : ∀ pb ∈ added, ∀ seq ∈ pb.seq, UpTo next.buf.tailHigh seq)
    (grows : ∀ high, window.buf.tailHigh = some high → UpTo next.buf.tailHigh high)
    (flushed : next.buf.flushed = window.buf.flushed) (flusher : next.flusher = window.flusher) :
    next.Numbered where
  pending pb mem seq isSeq := by
    rw [isPending] at mem
    rcases List.mem_append.mp mem with old | new
    · exact (numbered.pending pb old seq isSeq).mono grows
    · exact sequences pb new seq isSeq
  flushed gen mem batch isBatch seq isSeq := by
    rw [flushed] at mem
    exact (numbered.flushed gen mem batch isBatch seq isSeq).mono grows
  taken snap isTaken := by
    obtain ⟨count, upTo⟩ := numbered.taken snap (flusher ▸ isTaken)
    rw [isPending, List.length_append, List.take_append_of_le_length count]
    exact ⟨count.trans (Nat.le_add_right _ _), upTo⟩

/-- The flusher is done: batches move between the pending list and the generations. -/
theorem Numbered.finished {window : Window} (numbered : window.Numbered) {next : Window}
    (tailHigh : next.buf.tailHigh = window.buf.tailHigh)
    (pending : ∀ pb ∈ next.buf.pending, (∃ old ∈ window.buf.pending, pb.seq = old.seq) ∨
      ∃ gen ∈ window.buf.flushed, ∃ batch ∈ gen.batches, pb.seq = batch.1)
    (flushed : ∀ gen ∈ next.buf.flushed, ∀ batch ∈ gen.batches,
      (∃ old ∈ window.buf.flushed, batch ∈ old.batches) ∨
        ∃ pb ∈ window.buf.pending, batch.1 = pb.seq)
    (notTaken : ∀ snap, next.flusher ≠ .taken snap) : next.Numbered where
  pending pb mem seq isSeq := by
    rw [tailHigh]
    rcases pending pb mem with ⟨old, isOld, same⟩ | ⟨gen, isGen, batch, isBatch, same⟩
    · exact numbered.pending old isOld seq (same ▸ isSeq)
    · exact numbered.flushed gen isGen batch isBatch seq (same ▸ isSeq)
  flushed gen mem batch isBatch seq isSeq := by
    rw [tailHigh]
    rcases flushed gen mem batch isBatch with ⟨old, isOld, isOldBatch⟩ | ⟨pb, isPb, same⟩
    · exact numbered.flushed old isOld batch isOldBatch seq isSeq
    · exact numbered.pending pb isPb seq (same ▸ isSeq)
  taken snap isTaken := absurd isTaken (notTaken snap)

theorem Numbered.step {window next : Window} (numbered : window.Numbered) {action : Action}
    (rising : window.Rising action) (taken : window.step action = some next) : next.Numbered := by
  cases took taken with
  | @append batches staged _ =>
      obtain ⟨rfl, rising⟩ := rising
      obtain ⟨ops, routes, -⟩ := routes_routeAppends (window.buf.noteStaged staged) batches
        (staged.or none)
      obtain ⟨added, isPending, sequences⟩ := routes.pending
      obtain ⟨tailHigh, flushed⟩ := routes.frame
      have notedPending : (window.buf.noteStaged staged).pending = window.buf.pending := by
        cases staged <;> rfl
      have notedFlushed : (window.buf.noteStaged staged).flushed = window.buf.flushed := by
        cases staged <;> rfl
      refine numbered.staged added (isPending.trans (by rw [notedPending]))
        (fun pb mem seq isSeq => ?_) (fun high isHigh => ?_) (flushed.trans notedFlushed) rfl
      · rw [sequences pb mem, Option.or_none] at isSeq
        cases isSeq
        exact ⟨seq, tailHigh, le_rfl⟩
      · exact tailHigh.symm ▸ upTo_noteStaged rising isHigh
  | @keyed _ staged _ _ stages =>
      simp only [TableBuf.stageKeyed] at stages
      split at stages
      · cases stages
      · cases stages
        refine numbered.staged [] ?_ (fun _ mem => by cases mem)
          (fun high isHigh => upTo_noteStaged rising isHigh) ?_ rfl
        · rw [List.append_nil]
          cases staged <;> rfl
        · cases staged <;> rfl
  | noteTailHigh =>
      refine numbered.staged [] (List.append_nil _).symm (fun _ mem => by cases mem)
        (fun high isHigh => ?_) rfl rfl
      exact ⟨_, rfl, by rw [isHigh]; exact le_max_left _ _⟩
  | durable => exact ⟨numbered.pending, numbered.flushed, numbered.taken⟩
  | fail => exact rising.elim
  | take =>
      refine ⟨fun pb mem seq isSeq => ?_, numbered.flushed, fun snap isTaken => ?_⟩
      · obtain ⟨old, isOld, rfl⟩ := List.mem_map.mp mem
        exact numbered.pending old isOld seq isSeq
      · dsimp only at isTaken
        split at isTaken
        · cases isTaken
        · cases isTaken
          refine ⟨by simp [TableBuf.snapshotPending], fun pb mem seq isSeq => ?_⟩
          obtain ⟨old, isOld, rfl⟩ := List.mem_map.mp (List.mem_of_mem_take mem)
          exact numbered.pending old isOld seq isSeq
  | abandon | settle => exact ⟨numbered.pending, numbered.flushed, by simp [Window.finish]⟩
  | drop =>
      refine numbered.finished rfl (fun pb mem => .inl ⟨pb, List.mem_of_mem_drop mem, rfl⟩)
        (fun gen mem batch isBatch => .inl ⟨gen, mem, isBatch⟩) (by simp [Window.finish])
  | park | move =>
      refine numbered.finished rfl (fun pb mem => .inl ⟨pb, List.mem_of_mem_drop mem, rfl⟩)
        (fun gen mem batch isBatch => ?_) (by simp [Window.finish])
      rcases List.mem_append.mp mem with old | new
      · exact .inl ⟨gen, old, isBatch⟩
      · cases List.mem_singleton.mp new
        obtain ⟨pb, isPb, rfl⟩ := List.mem_map.mp isBatch
        exact .inr ⟨pb, List.mem_of_mem_take isPb, rfl⟩
  | requeue =>
      dsimp only [Window.finish, TableBuf.moveFlushedBackToPending]
      split
      · exact ⟨numbered.pending, numbered.flushed, by simp⟩
      · next gen found =>
          refine numbered.finished rfl (fun pb mem => ?_) (fun old mem batch isBatch => ?_)
            (by simp)
          · rcases List.mem_append.mp mem with restored | kept
            · obtain ⟨batch, isBatch, same⟩ := mem_restore restored
              exact .inr ⟨gen, List.mem_of_find?_eq_some found, batch, isBatch, same⟩
            · exact .inl ⟨pb, kept, rfl⟩
          · exact .inl ⟨old, List.mem_of_mem_eraseP mem, isBatch⟩
  | observe =>
      refine ⟨numbered.pending, fun gen mem batch isBatch => ?_, numbered.taken⟩
      obtain ⟨old, isOld, rfl⟩ := List.mem_map.mp mem
      exact numbered.flushed old isOld batch isBatch
  | age =>
      refine ⟨numbered.pending, fun gen mem batch isBatch => ?_, numbered.taken⟩
      rcases List.mem_append.mp mem with old | kept
      · obtain ⟨gen, isGen, rfl⟩ := List.mem_map.mp old
        exact numbered.flushed gen (List.mem_of_mem_take isGen) batch isBatch
      · exact numbered.flushed gen (List.mem_of_mem_drop kept) batch isBatch
  | gc =>
      exact ⟨numbered.pending,
        fun gen mem => numbered.flushed gen (List.mem_filter.mp mem).1, numbered.taken⟩

/-- The window has books that are right. -/
def Booked (window : Window) : Prop :=
  ∃ books : Books, books.window = window ∧ books.Kept

theorem Booked.step {window next : Window} (booked : window.Booked) {action : Action}
    (taken : window.step action = some next) : next.Booked := by
  obtain ⟨books, rfl, kept⟩ := booked
  exact ⟨_, rfl, kept.step (Option.map_eq_some_iff.mpr ⟨next, taken, rfl⟩)⟩

/-- A statement that fails leaves what the flusher took. -/
theorem Numbered.fail {window next : Window} (numbered : window.Numbered)
    (booked : window.Booked) {index : Nat} (taken : window.step (.fail index) = some next) :
    next.Numbered ∧ next.buf.tailHigh = window.buf.tailHigh := by
  obtain ⟨books, rfl, kept⟩ := booked
  have front := (kept.step (Option.map_eq_some_iff.mpr ⟨next, taken, rfl⟩)).front
  obtain ⟨stmt, -, isNext⟩ := Option.bind_eq_some_iff.mp taken
  have fewer : next.buf.pending ⊆ books.window.buf.pending ∧
      next.buf.flushed = books.window.buf.flushed ∧
      next.buf.tailHigh = books.window.buf.tailHigh ∧ next.flusher = books.window.flusher := by
    cases isNext
    unfold TableBuf.unrouteFailed
    split
    · exact ⟨List.Subset.refl _, rfl, rfl, rfl⟩
    · exact ⟨fun _ mem => (List.mem_filter.mp mem).1, rfl, rfl, rfl⟩
  obtain ⟨pending, flushed, tailHigh, flusher⟩ := fewer
  refine ⟨⟨fun pb mem => ?_, fun gen mem => ?_, fun snap isTaken => ?_⟩, tailHigh⟩
  · rw [tailHigh]
    exact numbered.pending pb (pending mem)
  · rw [tailHigh]
    exact numbered.flushed gen (flushed ▸ mem)
  · -- both windows begin with the batches of the snapshot
    obtain ⟨⟨behind, isPending⟩, -, count, -⟩ := front snap isTaken
    have before := flusher.symm.trans isTaken
    obtain ⟨⟨_, was⟩, -⟩ := kept.front snap before
    have upTo := (numbered.taken snap before).2
    dsimp only at isPending count
    rw [was, count, List.take_left] at upTo
    rw [isPending, count, List.take_left, List.length_append]
    exact ⟨Nat.le_add_right _ _, upTo⟩

end Window

/-! ## One process -/

namespace Process

/-- The commit that is on its way. -/
def flight (process : Process) : List Prepared :=
  match process.post with
  | some post => if post.state = .sent then [post.prepared] else []
  | none => []

/-- The work the flusher is about to post lies on one side of the stamped watermark. -/
def GuardExact (process : Process) : Prop :=
  ∀ snap loaded, process.window.flusher = .taken snap → process.loaded = some loaded →
    ∀ mark stamped, snap.tailMark = some mark → loaded.watermark = some stamped →
      mark ≤ stamped ∨
        ∀ pb ∈ process.window.buf.pending.take snap.nBatches, ∀ seq ∈ pb.seq, stamped < seq

variable {process after : Process} {lake next : Lake} {tail : Bool} {timestamp : Nat}

/-- A commit that passes an exact guard is based on the version it was prepared on. -/
theorem commitOn_on (numbered : process.window.Numbered) (guarded : process.GuardExact)
    {snap : PendingSnapshot} {loaded : Metadata} {stamped : Option Nat}
    (isTaken : process.window.flusher = .taken snap) (isLoaded : process.loaded = some loaded)
    (isStamp : stamp true loaded.watermark snap.tailMark = some stamped) (rows : Multiset Row) :
    (process.commitOn lake snap loaded timestamp rows stamped).On loaded := by
  have upTo := (numbered.taken snap isTaken).2
  have content {seq : Nat}
      (mem : some seq ∈ (process.commitOn lake snap loaded timestamp rows stamped).contents) :
      ∃ pb ∈ process.window.buf.pending.take snap.nBatches, seq ∈ pb.seq := by
    obtain ⟨pb, isPb, same⟩ := List.mem_map.mp mem
    exact ⟨pb, isPb, same⟩
  cases isMark : snap.tailMark with
  | none =>
      have unnumbered {seq : Nat}
          (mem : some seq ∈ (process.commitOn lake snap loaded timestamp rows stamped).contents) :
          False := by
        obtain ⟨pb, isPb, isSeq⟩ := content mem
        obtain ⟨high, isHigh, -⟩ := upTo pb isPb seq isSeq
        rw [isMark] at isHigh
        cases isHigh
      rw [isMark] at isStamp
      cases isStamp
      exact ⟨rfl, fun seq mem => (unnumbered mem).elim, fun seq mem => (unnumbered mem).elim,
        fun stamped isStamped => by cases isStamped⟩
  | some mark =>
      rw [isMark] at isStamp
      simp only [stamp] at isStamp
      split at isStamp
      · cases isStamp
      · next uncovered =>
          cases isStamp
          refine ⟨rfl, fun seq mem stamped isStamped => ?_, fun seq mem => ?_,
            fun stamped isStamped base isBase => ?_⟩
          · obtain ⟨pb, isPb, isSeq⟩ := content mem
            rcases guarded snap loaded isTaken isLoaded mark stamped isMark isStamped with
              covered | above
            · rw [isStamped] at uncovered
              exact absurd (decide_eq_true covered) (by simpa using uncovered)
            · exact above pb isPb seq isSeq
          · obtain ⟨pb, isPb, isSeq⟩ := content mem
            obtain ⟨high, isHigh, below⟩ := upTo pb isPb seq isSeq
            cases isMark.symm.trans isHigh
            exact ⟨_, rfl, below.trans (le_max_right _ _)⟩
          · cases isStamped
            rw [isBase]
            exact le_max_left _ _

/-- The process can post its work above what landed. -/
structure Ready (process : Process) (lake : Lake) : Prop where
  numbered : process.window.Numbered
  loaded : ∀ metadata, process.loaded = some metadata → metadata ∈ lake.versions

theorem Ready.rests (ready : process.Ready lake) (rests : Rests process.window after.window)
    (loaded : ∀ metadata, after.loaded = some metadata → metadata ∈ next.versions) :
    after.Ready next where
  numbered := by
    rcases rests with same | ⟨action, quiet, taken⟩
    · rw [same]
      exact ready.numbered
    · refine ready.numbered.step ?_ taken
      cases action <;> first | exact quiet.elim | trivial
  loaded := loaded

theorem load_ready (ready : process.Ready lake) (loads : process.load lake = some after) :
    after.Ready lake ∧ after.post = process.post := by
  have rests := load_rests loads
  obtain ⟨snap, window, -, -, steps, rfl⟩ := load_cases loads
  refine ⟨ready.rests rests fun metadata isLoaded => ?_, rfl⟩
  cases isLoaded
  exact List.mem_append_right _ List.mem_cons_self

theorem giveUp_ready (ready : process.Ready lake) (givesUp : process.giveUp = some after) :
    after.Ready lake ∧ after.post = process.post := by
  have rests := giveUp_rests givesUp
  obtain ⟨window, steps, rfl⟩ := giveUp_cases givesUp
  exact ⟨ready.rests rests (by simp), rfl⟩

/-- A commit that passes an exact guard joins the commits in flight. -/
theorem prepare_ready (ready : process.Ready lake) (guarded : process.GuardExact)
    {others : List Prepared} (flying : Flight lake (process.flight ++ others))
    (prepares : process.prepare lake true timestamp = some (after, next)) :
    after.Ready next ∧ Flight next (after.flight ++ others) ∧ next.versions = lake.versions ∧
      next.strays = lake.strays := by
  have rests := prepare_rests prepares
  obtain ⟨snap, loaded, action, window, isTaken, isLoaded, steps, parked | posted⟩ :=
    prepare_cases prepares
  · obtain ⟨-, rfl, rfl⟩ := parked
    exact ⟨ready.rests rests (by simp), flying, rfl, rfl⟩
  · obtain ⟨rows, stamped, -, isStamp, rfl, rfl⟩ := posted
    refine ⟨ready.rests rests (by simp), ?_, rfl, rfl⟩
    have rest : Flight lake others := flying.lose (List.sublist_append_right _ _).subperm
    exact rest.prepare (ready.loaded loaded isLoaded)
      (commitOn_on ready.numbered guarded isTaken isLoaded isStamp rows) rfl

theorem arrive_ready (ready : process.Ready lake) {others : List Prepared}
    (flying : Flight lake (process.flight ++ others))
    (arrives : process.arrive lake = some (after, next)) :
    after.Ready next ∧ Flight next (after.flight ++ others) ∧
      (∀ metadata ∈ lake.versions, metadata ∈ next.versions) ∧ next.strays = lake.strays := by
  obtain ⟨post, isPost, isSent, outcome⟩ := arrive_cases arrives
  have isFlight : process.flight = [post.prepared] := by
    rw [flight, isPost]
    exact if_pos isSent
  rw [isFlight] at flying
  have arrived := flying.arrive
  rcases outcome with ⟨-, lands, rfl, rfl⟩ | ⟨-, refused, rfl, rfl⟩
  · rw [lands] at arrived
    have grows : ∀ metadata ∈ lake.versions, metadata ∈
        (lake.publish (lake.current.commit post.prepared)).versions :=
      fun metadata mem => List.mem_append_left _ mem
    exact ⟨⟨ready.numbered, fun metadata isLoaded => grows _ (ready.loaded _ isLoaded)⟩,
      arrived, grows, rfl⟩
  · rw [refused] at arrived
    exact ⟨⟨ready.numbered, ready.loaded⟩, arrived, fun _ mem => mem, rfl⟩

/-- Once the call is over nothing of it is in flight. -/
theorem answer_ready (ready : process.Ready lake) (answers : process.answer = some after) :
    after.Ready lake ∧ after.flight = [] := by
  have rests := answer_rests answers
  obtain ⟨post, window, -, -, rfl⟩ := answer_cases answers
  exact ⟨ready.rests rests ready.loaded, rfl⟩

theorem resolve_ready (ready : process.Ready lake) {reloads : Bool}
    (resolves : process.resolve lake tail reloads = some after) :
    after.Ready lake ∧ after.flight = [] := by
  have rests := resolve_rests resolves
  unfold resolve at resolves
  split at resolves
  · split at resolves
    · obtain ⟨mid, moved, isAfter⟩ := Option.bind_eq_some_iff.mp resolves
      obtain ⟨window, steps, rfl⟩ := move_eq_some moved
      cases isAfter
      exact ⟨ready.rests rests ready.loaded, rfl⟩
    · cases resolves
  · cases resolves

/-- A request whose call failed stays in flight or is lost. -/
theorem error_ready (ready : process.Ready lake) {others : List Prepared} {lost : Bool}
    (flying : Flight lake (process.flight ++ (lake.strays ++ others)))
    (errs : process.error lake lost = some (after, next)) :
    after.Ready next ∧ Flight next (after.flight ++ (next.strays ++ others)) ∧
      next.versions = lake.versions := by
  unfold error at errs
  split at errs
  · next post isPost =>
      split at errs
      · cases errs
      · cases errs
        have gone : flight { process with post := some { post with state := .failed } } = [] := rfl
        rw [gone, List.nil_append]
        split
        · next strays =>
            have isFlight : process.flight = [post.prepared] := by
              rw [flight, isPost]
              exact if_pos strays.1
            rw [isFlight] at flying
            have moved : (lake.strays ++ [post.prepared] ++ others).Perm
                ([post.prepared] ++ (lake.strays ++ others)) := by
              rw [← List.append_assoc]
              exact List.perm_append_comm.append_right _
            exact ⟨⟨ready.numbered, ready.loaded⟩, (flying.lose moved.subperm).forget _, rfl⟩
        · exact ⟨⟨ready.numbered, ready.loaded⟩,
            flying.lose (List.sublist_append_right _ _).subperm, rfl⟩
  · cases errs

end Process

/-- The flusher does not touch the tail's mark. -/
theorem Rests.tailHigh {window after : Window} (rests : Rests window after) :
    after.buf.tailHigh = window.buf.tailHigh := by
  rcases rests with same | ⟨action, quiet, taken⟩
  · rw [same]
  · cases Window.took taken with
    | append | keyed | noteTailHigh | fail => exact quiet.elim
    | requeue =>
        dsimp only [Window.finish, TableBuf.moveFlushedBackToPending]
        split <;> rfl
    | _ => rfl

/-! ## Every run -/

namespace Sys

variable {rows : Multiset Row} {sys : Sys}

/-- The work of each posted attempt lies on one side of the stamped watermark. -/
def GuardExact (sys : Sys) : Action → Prop
  | .prepare _ => sys.process.GuardExact
  | _ => True

/-- What is in flight lands above what landed. -/
structure Afloat (sys : Sys) : Prop where
  ready : sys.process.Ready sys.lake
  flying : Flight sys.lake (sys.process.flight ++ sys.lake.strays)
  next : ∃ next, sys.nextSeq = some next ∧
    ∀ high, sys.process.window.buf.tailHigh = some high → high < next

theorem afloat_initial (rows : Multiset Row) (watermark : Option Nat) :
    (initial rows watermark true).Afloat where
  ready := ⟨Window.numbered_initial, by simp [initial, Process.initial]⟩
  flying :=
    { once :=
        { headed := by simp [initial, Lake.initial, Lake.versions]
          heads := by simp [initial, Lake.initial, Lake.versions]
          covered := by simp [initial, Lake.initial]
          apart := .nil }
      waits := by simp [initial, Process.initial, Lake.initial, Process.flight]
      distinct := .nil }
  next := ⟨_, rfl, by simp [initial, Process.initial, Window.initial, TableBuf.empty]⟩

theorem booked_of_step (booked : sys.process.window.Booked) {action : Action} {after : Sys}
    (taken : sys.step action = some after) : after.process.window.Booked := by
  by_cases isKeyed : sys.AppendsOnly action
  · rcases (step_moves isKeyed taken).1 with same | ⟨_, -, steps⟩
    · exact same ▸ booked
    · exact booked.step steps
  · cases took taken with
    | keyed _ steps => exact booked.step steps
    | _ => exact absurd trivial isKeyed

/-- A quiet move of the window. -/
theorem Afloat.rests (afloat : sys.Afloat) {after : Sys} {window : Window}
    (rests : Rests sys.process.window window)
    (isProcess : after.process = { sys.process with window := window })
    (isLake : after.lake = sys.lake) (next : after.nextSeq = sys.nextSeq) : after.Afloat where
  ready := by
    rw [isProcess, isLake]
    exact afloat.ready.rests rests afloat.ready.loaded
  flying := by
    rw [isProcess, isLake]
    exact afloat.flying
  next := by
    rw [next, isProcess]
    dsimp only
    rw [rests.tailHigh]
    exact afloat.next

/-- A statement is staged under the tail's next sequence. -/
theorem Afloat.staged (afloat : sys.Afloat) {after : Sys} {window : Window}
    (numbered : window.Numbered)
    (isProcess : after.process = { sys.process with window := window })
    (isLake : after.lake = sys.lake)
    (next : ∃ next, after.nextSeq = some next ∧
      ∀ high, window.buf.tailHigh = some high → high < next) : after.Afloat where
  ready := by
    rw [isProcess, isLake]
    exact ⟨numbered, afloat.ready.loaded⟩
  flying := by
    rw [isProcess, isLake]
    exact afloat.flying
  next := by
    rw [isProcess]
    exact next

/-- The attempt moves on without a change of the catalog. -/
theorem Afloat.attempt (afloat : sys.Afloat) {process : Process}
    (ready : process.Ready sys.lake) (rests : Rests sys.process.window process.window)
    (fewer : process.flight.Sublist sys.process.flight) : { sys with process }.Afloat where
  ready := ready
  flying := afloat.flying.lose (fewer.append_right _).subperm
  next := by
    dsimp only
    rw [rests.tailHigh]
    exact afloat.next

theorem Afloat.step (afloat : sys.Afloat) (booked : sys.process.window.Booked) {action : Action}
    (guarded : sys.GuardExact action) {after : Sys} (taken : sys.step action = some after) :
    after.Afloat := by
  cases took taken with
  | fail steps =>
      obtain ⟨numbered, tailHigh⟩ := afloat.ready.numbered.fail booked steps
      exact afloat.staged numbered rfl rfl (tailHigh ▸ afloat.next)
  | @append batches window steps =>
      obtain ⟨next, isNext, below⟩ := afloat.next
      have numbered := afloat.ready.numbered.step (by
        refine ⟨rfl, fun seq isSeq high isHigh => ?_⟩
        split at isSeq
        · cases isSeq
        · cases isNext.symm.trans isSeq
          exact (below high isHigh).le) steps
      refine afloat.staged numbered rfl rfl ?_
      cases steps
      by_cases none : batches = []
      · subst none
        exact ⟨next, isNext, below⟩
      · refine ⟨next + 1, by simp [none, isNext], fun high isHigh => ?_⟩
        simp only [if_neg none, isNext, Window.await, TableBuf.stageAppend_tailHigh] at isHigh
        cases isHigh
        exact Nat.lt_succ_self _
  | @keyed stmt seq window isSeq steps =>
      obtain ⟨next, isNext, below⟩ := afloat.next
      have numbered := afloat.ready.numbered.step (by
        intro other isOther high isHigh
        cases isOther
        cases isNext.symm.trans isSeq
        exact (below high isHigh).le) steps
      refine afloat.staged numbered rfl rfl ⟨seq + 1, rfl, fun high isHigh => ?_⟩
      cases Window.took steps with
      | keyed stages =>
          cases (TableBuf.stageKeyed_tailHigh stages).symm.trans isHigh
          exact Nat.lt_succ_self _
  | durable steps | age steps | gc steps | take steps | scanTake _ _ steps =>
      exact afloat.rests (.inr ⟨_, by trivial, steps⟩) rfl rfl rfl
  | scanLoad => exact ⟨afloat.ready, afloat.flying, afloat.next⟩
  | load loads =>
      obtain ⟨ready, samePost⟩ := Process.load_ready afloat.ready loads
      refine ⟨ready, ?_, ?_⟩
      · dsimp only [Process.flight]
        rw [samePost]
        exact afloat.flying
      · dsimp only
        rw [(Process.load_rests loads).tailHigh]
        exact afloat.next
  | giveUp givesUp =>
      obtain ⟨ready, samePost⟩ := Process.giveUp_ready afloat.ready givesUp
      refine afloat.attempt ready (Process.giveUp_rests givesUp) ?_
      rw [Process.flight, samePost]
      exact List.Sublist.refl _
  | prepare prepares =>
      obtain ⟨next, isNext, below⟩ := afloat.next
      rw [isNext, Option.isSome_some] at prepares
      obtain ⟨ready, flying, -, strays⟩ :=
        Process.prepare_ready afloat.ready guarded afloat.flying prepares
      refine ⟨ready, strays ▸ flying, next, isNext, ?_⟩
      dsimp only
      rw [(Process.prepare_rests prepares).tailHigh]
      exact below
  | arrive arrives =>
      obtain ⟨ready, flying, -, strays⟩ :=
        Process.arrive_ready afloat.ready afloat.flying arrives
      refine ⟨ready, strays ▸ flying, ?_⟩
      dsimp only
      rw [Process.arrive_window arrives]
      exact afloat.next
  | answer answers =>
      obtain ⟨ready, none⟩ := Process.answer_ready afloat.ready answers
      exact afloat.attempt ready (Process.answer_rests answers) (none ▸ List.nil_sublist _)
  | error errs =>
      have flying : Flight sys.lake (sys.process.flight ++ (sys.lake.strays ++ [])) := by
        rw [List.append_nil]
        exact afloat.flying
      obtain ⟨ready, flying, -⟩ := Process.error_ready afloat.ready flying errs
      rw [List.append_nil] at flying
      refine ⟨ready, flying, ?_⟩
      dsimp only
      rw [Process.error_window errs]
      exact afloat.next
  | resolve resolves =>
      obtain ⟨ready, none⟩ := Process.resolve_ready afloat.ready resolves
      exact afloat.attempt ready (Process.resolve_rests resolves) (none ▸ List.nil_sublist _)
  | @stray index prepared found =>
      have perm : (prepared :: (sys.process.flight ++ sys.lake.strays.eraseIdx index)).Perm
          (sys.process.flight ++ sys.lake.strays) := by
        obtain ⟨bound, rfl⟩ := List.getElem?_eq_some_iff.mp found
        exact List.perm_middle.symm.trans
          ((List.getElem_cons_eraseIdx_perm bound).append_left _)
      have arrived := ((afloat.flying.lose perm.subperm).forget
        (sys.lake.strays.eraseIdx index)).arrive
      have strays : ∀ lake : Lake, (lake.arrive prepared).1.strays = lake.strays := by
        intro lake
        unfold Lake.arrive
        split <;> rfl
      refine ⟨⟨afloat.ready.numbered, fun metadata isLoaded => ?_⟩, ?_, afloat.next⟩
      · exact Lake.mem_arrive prepared (afloat.ready.loaded metadata isLoaded)
      · dsimp only
        rw [strays]
        exact arrived
  | foreign others timestamp same =>
      cases same
      refine ⟨⟨afloat.ready.numbered, fun metadata isLoaded => ?_⟩, ?_, afloat.next⟩
      · exact List.mem_append_left _ (afloat.ready.loaded metadata isLoaded)
      · exact afloat.flying.publish rfl (.inr ⟨rfl, Nat.lt_succ_self _⟩) (Nat.le_succ _)
  | expire =>
      refine ⟨⟨afloat.ready.numbered, fun metadata isLoaded => ?_⟩, ?_, afloat.next⟩
      · exact List.mem_append_left _ (afloat.ready.loaded metadata isLoaded)
      · exact afloat.flying.publish rfl (.inl rfl) le_rfl

/-- With a tail attached, and as long as the guard is exact at each attempt, each acknowledged
statement's rows are in at most one committed snapshot. -/
theorem committed_at_most_once {watermark : Option Nat}
    (run : Run step GuardExact (initial rows watermark true) sys) (seq : Nat) :
    (sys.lake.landed.filter fun prepared => some seq ∈ prepared.contents).length ≤ 1 := by
  have kept (sys : Sys) (action : Action) (after : Sys)
      (both : sys.Afloat ∧ sys.process.window.Booked) (guarded : sys.GuardExact action)
      (taken : sys.step action = some after) : after.Afloat ∧ after.process.window.Booked :=
    ⟨both.1.step both.2 guarded taken, booked_of_step both.2 taken⟩
  obtain ⟨afloat, -⟩ := run.invariant kept ⟨afloat_initial rows watermark, _, rfl, .initial⟩
  have apart := afloat.flying.once.apart.filter fun prepared => some seq ∈ prepared.contents
  have inside : ∀ prepared ∈ sys.lake.landed.filter (fun prepared => some seq ∈ prepared.contents),
      some seq ∈ prepared.contents := by
    intro prepared mem
    simpa using (List.mem_filter.mp mem).2
  have never : (sys.lake.landed.filter fun prepared => some seq ∈ prepared.contents).Pairwise
      fun _ _ => False :=
    apart.imp_of_mem fun isFirst isSecond disjoint =>
      disjoint seq (inside _ isFirst) (inside _ isSecond)
  generalize sys.lake.landed.filter (fun prepared => some seq ∈ prepared.contents) = holders at never
  rcases holders with _ | ⟨first, _ | ⟨second, rest⟩⟩
  · exact Nat.zero_le _
  · exact le_rfl
  · exact ((List.pairwise_cons.mp never).1 second List.mem_cons_self).elim

/-- Each attempt's work is compared with the stamped watermark batch by batch. -/
def guarding (sys : Sys) : Action → Bool
  | .prepare _ =>
      match sys.process.window.flusher, sys.process.loaded with
      | .taken snap, some loaded =>
          match snap.tailMark, loaded.watermark with
          | some mark, some stamped => mark ≤ stamped ||
              (sys.process.window.buf.pending.take snap.nBatches).all fun pb =>
                pb.seq.all fun seq => stamped < seq
          | _, _ => true
      | _, _ => true
  | _ => true

theorem guarding_sound {action : Action} (isGuarding : sys.guarding action = true) :
    sys.GuardExact action := by
  cases action with
  | prepare timestamp =>
      intro snap loaded isTaken isLoaded mark stamped isMark isStamped
      simp only [guarding, isTaken, isLoaded, isMark, isStamped, Bool.or_eq_true,
        decide_eq_true_eq, List.all_eq_true] at isGuarding
      refine isGuarding.imp_right fun above pb isPb seq isSeq => ?_
      have below := above pb isPb
      rw [isSeq] at below
      simpa using below
  | _ => trivial

/-- A landed commit whose call failed is recognised at the next attempt. -/
def landedUnanswered : List Action :=
  [.append [[oldRow]], .durable 0, .take, .load, .prepare 1, .arrive, .error true, .resolve false,
   .take, .load, .prepare 2] ++ flushOne newRow 3

theorem committed_at_most_once_landedUnanswered :
    let sys := execute step guarding (initial 0 none true) landedUnanswered
    sys.lake.landed.map Prepared.contents = [[some 1], [some 2]] ∧
      (sys.lake.landed.filter fun prepared => some 1 ∈ prepared.contents).length ≤ 1 :=
  ⟨by decide +kernel,
    committed_at_most_once (run_execute (fun _ _ => guarding_sound) _ landedUnanswered) 1⟩

/-- A younger append joins the work before the next attempt. -/
def landedAndGrown : List Action :=
  [.append [[oldRow]], .durable 0, .take, .load, .prepare 1, .arrive, .error true, .resolve false] ++
    flushOne newRow 2

/-- Only appends, whose waits succeed. -/
def onlyAppends (_ : Sys) : Action → Bool
  | .keyed _ | .fail _ => false
  | _ => true

theorem onlyAppends_sound {action : Action} (passes : sys.onlyAppends action = true) :
    sys.AppendsOnly action ∧ ∀ index, action ≠ .fail index := by
  cases action with
  | keyed | fail => cases passes
  | _ => exact ⟨trivial, by simp⟩

/-- The guard misses that the older half of the work was committed, and it is committed again. -/
theorem not_committed_at_most_once_landedAndGrown :
    ∃ sys, Run step (fun sys action => sys.AppendsOnly action ∧ ∀ index, action ≠ .fail index)
        (initial 0 none true) sys ∧
      (sys.lake.landed.filter fun prepared => some 1 ∈ prepared.contents).length = 2 ∧
      sys.lake.current.rows = {oldRow, oldRow, newRow} :=
  ⟨_, run_execute (fun _ _ => onlyAppends_sound) _ landedAndGrown, by decide +kernel,
    by decide +kernel⟩

end Sys

end Icegres.Buffer
