import Icegres.Buffer.Crash

/-!
# Live window and replayed window agree

As long as no insert is of a key in flight, every step of the server keeps the live window what
boot would rebuild from the frames. An insert that meets a key in flight is routed by an entry
that the running flush takes away, or past one that it has taken away, and a replay routes it
the other way.
-/

namespace Icegres.Buffer.Logged

variable {pkCols : List Nat} {rows : Multiset Row} {log after : Logged} {mark : Nat}

namespace Replayable

variable (replayable : log.Replayable pkCols rows)
include replayable

/-- No pending row is of a key that a refused commit brings back. -/
theorem apart (action : Sys.Action) : log.sys.RequeuesApart action := by
  cases action with
  | answer =>
      intro post gen isPost isRefused posted item isItem
      obtain ⟨older, flushed, commit, -⟩ := posted
      have isGen : gen ∈ log.buf.flushed := by rw [flushed]; simp
      obtain ⟨mark, -, ⟨isLanded, -⟩ | ⟨-, -, lifted⟩⟩ := replayable.posted post isPost
      · cases isRefused.symm.trans isLanded
      · right
        have columns : log.buf.pkCols = pkCols := by
          rcases replayable.journaled.declares with none | declared
          · have noItems := replayable.view.flow.sound.well.state none gen isGen
            rw [noItems] at isItem
            cases isItem
          · exact declared
        change ∀ pb ∈ log.buf.pending, ∀ row ∈ pb.batch, encodeKey log.buf.pkCols row ≠ item.1
        rw [columns]
        exact (lifted gen isGen commit item isItem).2
  | _ => trivial

/-- What earlier results say of the server goes on. -/
theorem upkeep {action : Sys.Action} (acknowledged : log.Acknowledged pkCols (.flow action))
    {sys : Sys} (steps : log.sys.step action = some sys) :
    sys.unread.View rows ∧ sys.Covers rows ∧ sys.Journaled pkCols := by
  obtain ⟨definite, unexpired, declared⟩ := acknowledged
  have ordered : log.sys.Ordered action := ⟨definite, unexpired, replayable.apart action⟩
  exact ⟨replayable.view.unread_step definite ordered.apart ordered.expires steps,
    replayable.covers.step replayable.view definite steps, replayable.journaled.step declared steps⟩

/-- Time passes, readers come and go, metadata is loaded, and other writers commit. -/
theorem still {action : Sys.Action} (acknowledged : log.Acknowledged pkCols (.flow action))
    (quiet : match action with
      | .durable _ | .age _ | .gc | .load | .scanLoad _ | .scanTake _ | .foreign .. => True
      | _ => False)
    (taken : log.step (.flow action) = some after) : after.Replayable pkCols rows := by
  obtain ⟨sys, steps, -, rfl⟩ := step_flow_eq_some taken
  obtain ⟨view, covers, journaled⟩ := replayable.upkeep acknowledged steps
  have finish (same : Same log { log with
        sys
        frames := log.frames ++ written log.sys action
        covered := (log.sys.announced action).or log.covered })
      (flusher : sys.process.window.flusher = log.flusher)
      (post : sys.process.post = log.sys.process.post) :
      Replayable pkCols rows { log with
        sys
        frames := log.frames ++ written log.sys action
        covered := (log.sys.announced action).or log.covered } :=
    same.replayable replayable view covers journaled
      (fun snap isTaken => flusher.symm.trans isTaken)
      (fun other isPost => ⟨other, post.symm.trans isPost, rfl, rfl, Iff.rfl⟩)
      fun idle => flusher.trans idle
  have keep (gen : FlushedGen) (mem : gen ∈ log.buf.flushed) :
      ∃ old ∈ log.buf.flushed, gen.commit = old.commit ∧ gen.keyed = old.keyed :=
    ⟨gen, mem, rfl, rfl⟩
  have observed (isCommitted : GenCommit → Bool) (gen : FlushedGen)
      (mem : gen ∈ (log.buf.noteObserved isCommitted).flushed) :
      ∃ old ∈ log.buf.flushed, gen.commit = old.commit ∧ gen.keyed = old.keyed := by
    obtain ⟨old, isOld, rfl⟩ := List.mem_map.mp mem
    exact ⟨old, isOld, rfl, rfl⟩
  cases Sys.took steps with
  | durable moves =>
      obtain ⟨stmt, found, isAfter⟩ := Option.bind_eq_some_iff.mp moves
      cases isAfter
      exact finish ⟨rfl, rfl, rfl, rfl, rfl, rfl, keep, rfl, rfl, List.append_nil _, rfl, rfl⟩
        rfl rfl
  | age moves =>
      cases moves
      refine finish ⟨rfl, rfl, rfl, rfl, rfl, rfl, fun gen mem => ?_, rfl, rfl, List.append_nil _,
        rfl, rfl⟩ rfl rfl
      rcases List.mem_append.mp mem with old | kept
      · obtain ⟨gen, isGen, rfl⟩ := List.mem_map.mp old
        exact ⟨gen, List.mem_of_mem_take isGen, rfl, rfl⟩
      · exact ⟨gen, List.mem_of_mem_drop kept, rfl, rfl⟩
  | gc moves =>
      cases Window.took moves with
      | gc =>
          exact finish ⟨rfl, rfl, rfl, rfl, rfl, rfl,
            fun gen mem => keep gen (List.mem_filter.mp mem).1, rfl, rfl, List.append_nil _, rfl,
            rfl⟩ rfl rfl
  | load loads =>
      obtain ⟨snap, window, -, -, moves, rfl⟩ := Process.load_cases loads
      cases moves
      exact finish ⟨rfl, rfl, rfl, rfl, rfl, rfl, observed _, rfl, rfl, List.append_nil _, rfl,
        rfl⟩ rfl rfl
  | scanLoad =>
      exact finish ⟨rfl, rfl, rfl, rfl, rfl, rfl, keep, rfl, rfl, List.append_nil _, rfl, rfl⟩
        rfl rfl
  | scanTake _ _ moves =>
      cases moves
      exact finish ⟨rfl, rfl, rfl, rfl, rfl, rfl, observed _, rfl, rfl, List.append_nil _, rfl, rfl⟩
        rfl rfl
  | foreign others timestamp same =>
      cases same
      exact finish ⟨rfl, rfl, rfl, rfl, rfl, rfl, keep, rfl, acknowledged.1, List.append_nil _, rfl,
        rfl⟩ rfl rfl
  | append | keyed | fail | take | giveUp | prepare | arrive | answer | error | resolve | stray
  | expire => exact quiet.elim

/-- A flush that gives up leaves its work in the window. -/
theorem giveUp (acknowledged : log.Acknowledged pkCols (.flow .giveUp))
    (taken : log.step (.flow .giveUp) = some after) : after.Replayable pkCols rows := by
  obtain ⟨sys, steps, -, rfl⟩ := step_flow_eq_some taken
  obtain ⟨view, covers, journaled⟩ := replayable.upkeep acknowledged steps
  obtain ⟨process, givesUp, isAfter⟩ := Option.bind_eq_some_iff.mp steps
  cases isAfter
  obtain ⟨window, moves, rfl⟩ := Process.giveUp_cases givesUp
  simp only [Window.step] at moves
  split at moves
  · cases moves
    have same : Same log { log with
        sys := { log.sys with process :=
          { log.sys.process with window := log.sys.process.window.finish log.buf, loaded := none } }
        frames := log.frames ++ written log.sys .giveUp
        covered := (log.sys.announced .giveUp).or log.covered } :=
      ⟨rfl, rfl, rfl, rfl, rfl, rfl, fun gen mem => ⟨gen, mem, rfl, rfl⟩, rfl, rfl,
        List.append_nil _, rfl, rfl⟩
    refine same.replayable replayable view covers journaled (fun snap isTaken => ?_)
      (fun post isPost => ⟨post, isPost, rfl, rfl, Iff.rfl⟩) fun _ => rfl
    cases isTaken
  · cases moves

/-- A flusher takes everything that is staged, so its mark covers every frame. -/
theorem take (acknowledged : log.Acknowledged pkCols (.flow .take))
    (taken : log.step (.flow .take) = some after) : after.Replayable pkCols rows := by
  obtain ⟨sys, steps, free, rfl⟩ := step_flow_eq_some taken
  obtain ⟨view, covers, journaled⟩ := replayable.upkeep acknowledged steps
  have free := free rfl
  obtain ⟨next, isNext, -⟩ := replayable.numbered.next
  cases Sys.took steps with
  | take moves =>
      cases Window.took moves with
      | take idle =>
          have phase := replayable.view.phase
          unfold Process.Phase at phase
          simp only [Sys.unread, idle] at phase
          have entries : log.buf.snapshotPending.1.entries = log.buf.entries :=
            TableBuf.snapshotPending_entries log.buf
          refine
            { view := view
              covers := covers
              journaled := journaled
              numbered := replayable.numbered.congr rfl rfl rfl fun frame mem => by
                simpa [written] using mem
              grown := replayable.grown.congr rfl rfl (by simp [Logged.above, written]) rfl
                fun key mem => .inl (entries ▸ mem)
              flushing := fun snap isTaken => ?_
              posted := fun post isPost => ?_
              finished := fun mark isCovered => ?_ }
          · dsimp only at isTaken
            split at isTaken
            · cases isTaken
            · next busy =>
                cases isTaken
                obtain ⟨high, isHigh, -⟩ :=
                  (replayable.view.marks next isNext).busy (TableBuf.busy_of_snapshotPending busy)
                have nothing :
                    dropStaleFrames (log.frames ++ written log.sys .take) (some high) = [] :=
                  dropStaleFrames_eq_nil fun frame mem => by
                    obtain ⟨other, isOther, below⟩ :=
                      replayable.numbered.logged frame (by simpa [written] using mem)
                    cases isHigh.symm.trans isOther
                    exact below
                refine ⟨high, isHigh, ⟨high, isHigh, le_rfl⟩,
                  replayable.numbered.recorded high isHigh, ⟨by simp [Sys.ops], ?_⟩, fun key => ?_⟩
                · rw [Logged.above, nothing]
                  simp [Sys.ops, opsOf]
                · rw [Logged.above, nothing]
                  -- no entry has a stamp yet that the snapshot did not take
                  refine ⟨?_, fun mem => by cases mem⟩
                  rintro ⟨entry, found, newer⟩
                  have holds := TableBuf.holds_snapshotPending replayable.view.flow.sound
                  have isItem := TableBuf.mem_keyedItems.mpr (entries ▸ found)
                  exact absurd newer (holds.below _ isItem).not_ge
          · rw [phase.2] at isPost
            cases isPost
          · rw [free] at isCovered
            cases isCovered

/-- The work a flush prepared is dropped, or it is posted. -/
theorem prepare {timestamp : Nat}
    (acknowledged : log.Acknowledged pkCols (.flow (.prepare timestamp)))
    (taken : log.step (.flow (.prepare timestamp)) = some after) :
    after.Replayable pkCols rows := by
  obtain ⟨sys, steps, -, rfl⟩ := step_flow_eq_some taken
  obtain ⟨view, covers, journaled⟩ := replayable.upkeep acknowledged steps
  simp only [Sys.step, Option.bind_eq_bind, Option.bind_eq_some_iff] at steps
  obtain ⟨⟨process, lake⟩, prepares, isAfter⟩ := steps
  cases isAfter
  unfold Process.prepare at prepares
  split at prepares
  · next snap loaded isTaken isLoaded =>
      have before := replayable.view
      have isTaken : log.flusher = .taken snap := isTaken
      have phase := before.phase
      unfold Process.Phase at phase
      simp only [Sys.unread, isTaken] at phase
      obtain ⟨noPost, fresh⟩ := phase
      obtain ⟨sameRows, sameMark⟩ := fresh loaded isLoaded
      obtain ⟨stamped, isStamp, -⟩ := before.stamp_of_marks isTaken
      obtain ⟨-, ops, composed, -⟩ := before.prepared_rows isTaken
      have isStamp : Process.stamp log.sys.nextSeq.isSome log.table.watermark snap.tailMark =
        some stamped := isStamp
      have holds : log.buf.Holds snap := before.flow.taken snap isTaken
      obtain ⟨mark, isMark, ready⟩ := replayable.flushing snap isTaken
      have busy : log.covered = none := by
        cases isCovered : log.covered with
        | none => rfl
        | some mark =>
            have idle := (replayable.finished mark isCovered).1
            cases isTaken.symm.trans idle
      have announced : log.sys.announced (.prepare timestamp) =
          if (prepareCommit ops loaded.rows).isNone then snap.tailMark else none := by
        simp only [Sys.announced, isTaken, isLoaded, sameMark, isStamp, composed]
      have left := drained_newer holds
      have stays (key : Key)
          (mem : key ∈ (log.buf.dropPendingPrefix snap.nBatches snap.keyed).entries) :
          key ∈ log.buf.entries := by
        obtain ⟨entry, found, -⟩ := (left key).mp mem
        exact AList.lookup_isSome.mp (by rw [found]; rfl)
      rw [sameMark, isStamp, composed] at prepares
      dsimp only at prepares
      split at prepares
      · next nothing =>
          simp only [Process.move, Window.step, isTaken, Option.bind_eq_bind, Option.bind_some,
            Option.pure_def, Option.some.injEq] at prepares
          cases prepares
          have committed := replayable.covers.taken snap isTaken
          rw [commitWindows, List.foldlM_cons, composed] at committed
          have committed : applyOps ops log.table.rows = _ := Except.ok.inj committed
          have unchanged := applyOps_of_prepareCommit_none nothing
          rw [sameRows] at unchanged
          refine
            { view := view
              covers := covers
              journaled := journaled
              numbered := replayable.numbered.congr rfl rfl rfl fun frame mem => by
                simpa [written] using mem
              grown := replayable.grown.congr rfl rfl (by simp [Logged.above, written]) rfl
                fun key mem => .inl (stays key mem)
              flushing := fun other isOther => by cases isOther
              posted := fun post isPost => by cases noPost.symm.trans isPost
              finished := fun other isOther => ?_ }
          rw [announced, nothing, busy] at isOther
          cases isMark.symm.trans (by simpa using isOther)
          refine ⟨rfl, ready.reached, .inr ⟨?_, committed.symm.trans unchanged⟩⟩
          exact ready.congr rfl rfl rfl rfl (by simp [Logged.above, written]) left
      · next result isPrepared =>
          simp only [Process.move, Window.step, isTaken, Option.bind_eq_bind, Option.bind_some,
            Option.pure_def, Option.some.injEq] at prepares
          cases prepares
          refine
            { view := view
              covers := covers
              journaled := journaled
              numbered := replayable.numbered.congr rfl rfl rfl fun frame mem => by
                simpa [written] using mem
              grown := replayable.grown.congr rfl rfl (by simp [Logged.above, written]) rfl
                fun key mem => .inl (stays key mem)
              flushing := fun other isOther => by cases isOther
              posted := fun post isPost => ?_
              finished := fun other isOther => ?_ }
          · cases isPost
            refine ⟨mark, isMark, .inr ⟨by simp, ?_, fun gen mem isCommit item isItem => ?_⟩⟩
            · exact ready.congr rfl rfl rfl rfl (by simp [Logged.above, written]) left
            · rcases List.mem_append.mp mem with old | new
              · -- the id is new
                obtain ⟨id, below, isOld⟩ := before.versions.commits gen old
                rw [isOld] at isCommit
                cases isCommit
                exact absurd below (lt_irrefl _)
              · cases List.mem_singleton.mp new
                have isKey : item.1 ∈ log.buf.entries :=
                  holds.keys_live (List.mem_map_of_mem isItem)
                have above : item.1 ∈ keysOf pkCols
                    ((dropStaleFrames (log.frames ++ []) log.watermark).map Prod.snd) := by
                  rw [List.append_nil]
                  exact replayable.grown.live _ isKey
                refine ⟨above, fun pb isPending row isRow same => ?_⟩
                have columns : log.buf.pkCols = pkCols := by
                  rcases replayable.journaled.declares with unkeyed | declared
                  · have unkeyed : log.buf.keyed = none := unkeyed
                    simp [TableBuf.entries, unkeyed] at isKey
                  · exact declared
                refine holds.later pb isPending row isRow ?_
                rw [columns, same]
                exact List.mem_map_of_mem isItem
          · rw [announced, isPrepared, busy] at isOther
            cases isOther
  · cases prepares

/-- A posted commit lands, and its mark becomes the watermark, or it is refused. -/
theorem arrive (acknowledged : log.Acknowledged pkCols (.flow .arrive))
    (taken : log.step (.flow .arrive) = some after) : after.Replayable pkCols rows := by
  obtain ⟨sys, steps, -, rfl⟩ := step_flow_eq_some taken
  obtain ⟨view, covers, journaled⟩ := replayable.upkeep acknowledged steps
  obtain ⟨next, isNext, -⟩ := replayable.numbered.next
  simp only [Sys.step, Option.bind_eq_bind, Option.bind_eq_some_iff] at steps
  obtain ⟨⟨process, lake⟩, arrives, isAfter⟩ := steps
  cases isAfter
  obtain ⟨post, isPost, isSent, arrived⟩ := Process.arrive_cases arrives
  have before := replayable.view
  obtain ⟨isPosted, -, -⟩ := before.post_cases isPost
  have isPosted : log.flusher = .posted post.prepared.snapshotId := isPosted
  obtain ⟨mark, isMark, ⟨isLanded, -⟩ | ⟨-, ready, lifted⟩⟩ :=
    replayable.posted post isPost
  · cases isSent.symm.trans isLanded
  rcases arrived with ⟨-, -, rfl, rfl⟩ | ⟨-, -, rfl, rfl⟩
  · obtain ⟨-, other, -, isOther, -, -, stamps, -⟩ :=
      (before.marks next isNext).posted post isPost
    cases isMark.symm.trans isOther
    have stamped : (log.table.commit post.prepared).watermark = some mark := by
      rw [Metadata.commit, stamps]
      rfl
    have effective : effectiveWatermark (log.table.commit post.prepared).watermark
        log.sidecar = some mark := by
      rw [stamped]
      exact effectiveWatermark_stamped ready.covers
    have marks := before.marks next isNext
    obtain ⟨high, isHigh, reached⟩ := ready.reached
    refine
      { view := view
        covers := covers
        journaled := journaled
        numbered := replayable.numbered.stamp isHigh reached isNext
          (marks.tailHigh high isHigh) rfl rfl effective fun frame mem => by
            simpa [written] using mem
        grown := ready.commits effective rfl (by simp [Logged.above, written]) rfl
          (replayable.covers.posted post isPost).symm
        flushing := fun snap isTaken => by cases isPosted.symm.trans isTaken
        posted := fun other isOther => ?_
        finished := fun other isCovered => ?_ }
    · cases isOther
      exact ⟨mark, isMark, .inl ⟨rfl, mark, stamped, le_rfl⟩⟩
    · have idle := (replayable.finished other isCovered).1
      cases isPosted.symm.trans idle
  · refine Same.replayable ?same replayable view covers journaled
      (fun snap isTaken => isTaken) (fun other isOther => ?_) fun idle => idle
    · exact ⟨rfl, rfl, rfl, rfl, rfl, rfl, fun gen mem => ⟨gen, mem, rfl, rfl⟩, rfl, rfl,
        List.append_nil _, rfl, rfl⟩
    · cases isOther
      exact ⟨post, isPost, rfl, rfl, by simp [isSent]⟩

/-- A landed commit is finished; a refused one brings its work back into the window. -/
theorem answer (acknowledged : log.Acknowledged pkCols (.flow .answer))
    (taken : log.step (.flow .answer) = some after) : after.Replayable pkCols rows := by
  obtain ⟨sys, steps, -, rfl⟩ := step_flow_eq_some taken
  obtain ⟨view, covers, journaled⟩ := replayable.upkeep acknowledged steps
  obtain ⟨next, isNext, -⟩ := replayable.numbered.next
  simp only [Sys.step, Option.bind_eq_bind, Option.bind_eq_some_iff] at steps
  obtain ⟨process, answers, isAfter⟩ := steps
  cases isAfter
  obtain ⟨post, window, isPost, answered, rfl⟩ := Process.answer_cases answers
  have before := replayable.view
  obtain ⟨isPosted, -, -⟩ := before.post_cases isPost
  have isPosted : log.flusher = .posted post.prepared.snapshotId := isPosted
  obtain ⟨high, mark, isHigh, isMark, reached, -⟩ := (before.marks next isNext).posted post isPost
  obtain ⟨other, isOther, outcome⟩ := replayable.posted post isPost
  cases isMark.symm.trans isOther
  rcases answered with ⟨isLanded, steps⟩ | ⟨isRefused, steps⟩
  · obtain ⟨-, stamped⟩ := outcome.resolve_right fun unlanded => unlanded.1 isLanded
    simp only [Window.step, isPosted] at steps
    cases steps
    refine
      { view := view
        covers := covers
        journaled := journaled
        numbered := replayable.numbered.congr rfl rfl rfl fun frame mem => by
          simpa [written] using mem
        grown := replayable.grown.congr rfl rfl (by simp [Logged.above, written]) rfl
          fun key mem => .inl mem
        flushing := fun snap isTaken => by cases isTaken
        posted := fun post isPost => by cases isPost
        finished := fun other isCovered => ?_ }
    simp only [Sys.announced, isPost, isLanded, if_true, isMark, Option.some_or,
      Option.some.injEq] at isCovered
    subst isCovered
    exact ⟨rfl, ⟨high, isHigh, reached⟩, .inl stamped⟩
  · obtain ⟨-, -, lifted⟩ := outcome.resolve_left fun landed => by
      cases isRefused.symm.trans landed.1
    obtain ⟨gen, isGen⟩ := before.flow.posted _ isPosted
    have isGen : log.buf.Posted post.prepared.snapshotId gen := isGen
    have tailHigh : (log.buf.moveFlushedBackToPending post.prepared.snapshotId).tailHigh =
        log.buf.tailHigh := by
      obtain ⟨older, flushed, commit, others⟩ := isGen
      rw [TableBuf.moveFlushedBack_eq flushed commit others]
    simp only [Window.step, isPosted] at steps
    cases steps
    refine
      { view := view
        covers := covers
        journaled := journaled
        numbered := replayable.numbered.congr rfl tailHigh rfl fun frame mem => by
          simpa [written] using mem
        grown := replayable.grown.congr rfl rfl (by simp [Logged.above, written]) rfl
          fun key mem => ?_
        flushing := fun snap isTaken => by cases isTaken
        posted := fun post isPost => by cases isPost
        finished := fun other isCovered => ?_ }
    · refine (live_of_moveFlushedBack isGen mem).imp_right fun back => ?_
      obtain ⟨item, isItem, rfl⟩ := back
      obtain ⟨older, flushed, commit, -⟩ := isGen
      exact (lifted gen (by rw [flushed]; simp) commit item isItem).1
    · simp only [Sys.announced, isPost, isRefused, reduceCtorEq, if_false, Option.none_or]
        at isCovered
      have idle := (replayable.finished other isCovered).1
      cases isPosted.symm.trans idle

/-- Recording and forgetting what a finished flush covers changes nothing that survives. -/
theorem forget {recorded : Bool} {kept : Nat → Bool}
    (taken : log.step (.forget recorded kept) = some after) : after.Replayable pkCols rows := by
  simp only [step, Option.bind_eq_bind, Option.bind_eq_some_iff] at taken
  obtain ⟨mark, isCovered, isAfter⟩ := taken
  obtain ⟨idle, ⟨high, isHigh, reached⟩, outcome⟩ := replayable.finished mark isCovered
  obtain ⟨next, isNext, -⟩ := replayable.numbered.next
  have below := (replayable.view.marks next isNext).tailHigh high isHigh
  have unposted (post : Post) (isPost : log.sys.process.post = some post) : False := by
    have isPosted : log.flusher = _ := (replayable.view.post_cases isPost).1
    cases isPosted.symm.trans idle
  cases recorded with
  | false =>
      cases isAfter
      exact
        { view := replayable.view
          covers := replayable.covers
          journaled := replayable.journaled
          numbered := replayable.numbered.congr rfl rfl rfl fun frame mem => mem
          grown := replayable.grown.congr rfl rfl rfl rfl fun key mem => .inl mem
          flushing := fun snap isTaken => by cases idle.symm.trans isTaken
          posted := fun post isPost => (unposted post isPost).elim
          finished := fun other isOther => by cases isOther }
  | true =>
      cases isAfter
      have frames (frame : Frame)
          (mem : frame ∈ log.frames.filter fun frame => mark < frame.1 || kept frame.1) :
          frame ∈ log.frames := (List.mem_filter.mp mem).1
      rcases outcome with ⟨stamped, isStamped, covered⟩ | ⟨ready, committed⟩
      · -- the watermark stays
        have effective : effectiveWatermark log.table.watermark
            (some (max (log.sidecar.getD mark) mark)) = log.watermark := by
          rw [Logged.watermark, isStamped, effectiveWatermark_covered covered]
        obtain ⟨whole, isWhole, above⟩ : ∃ whole, log.watermark = some whole ∧ mark ≤ whole := by
          rw [Logged.watermark, isStamped]
          cases log.sidecar with
          | none => exact ⟨stamped, rfl, covered⟩
          | some recorded => exact ⟨_, rfl, covered.trans (le_max_left _ _)⟩
        exact
          { view := replayable.view
            covers := replayable.covers
            journaled := replayable.journaled
            numbered := replayable.numbered.congr rfl rfl effective frames
            grown := replayable.grown.congr rfl effective (by
              rw [isWhole]
              exact congrArg (List.map Prod.snd) (dropStaleFrames_forget log.frames kept above)) rfl
              fun key mem => .inl mem
            flushing := fun snap isTaken => by cases idle.symm.trans isTaken
            posted := fun post isPost => (unposted post isPost).elim
            finished := fun other isOther => by cases isOther }
      · have effective : effectiveWatermark log.table.watermark
            (some (max (log.sidecar.getD mark) mark)) = some mark :=
          effectiveWatermark_recorded ready.covers
        exact
          { view := replayable.view
            covers := replayable.covers
            journaled := replayable.journaled
            numbered :=
              replayable.numbered.stamp isHigh reached isNext below rfl rfl effective frames
            grown := ready.commits effective rfl (congrArg (List.map Prod.snd)
              (dropStaleFrames_forget log.frames kept le_rfl)) rfl committed
            flushing := fun snap isTaken => by cases idle.symm.trans isTaken
            posted := fun post isPost => (unposted post isPost).elim
            finished := fun other isOther => by cases isOther }

/-- An inserted row meets a live entry exactly when a keyed frame above the watermark is on its
key, and the entry is newer than what the flusher holds. -/
theorem meets {batches : List Batch}
    (grounded : log.Grounded pkCols (.flow (.append batches))) :
    ∀ row ∈ batches.flatten,
      (encodeKey pkCols row ∈ log.buf.entries ↔
        encodeKey pkCols row ∈ keysOf pkCols (log.above log.watermark)) ∧
      ∀ snap, log.flusher = .taken snap → encodeKey pkCols row ∈ log.buf.entries →
        Newer log.buf (encodeKey pkCols row) := by
  intro row mem
  have apart := grounded row mem
  rw [InFlight] at apart
  cases found : log.buf.entries.lookup (encodeKey pkCols row) with
  | none =>
      rw [found] at apart
      have dead : encodeKey pkCols row ∉ log.buf.entries := AList.lookup_eq_none.mp found
      exact ⟨⟨fun isLive => absurd isLive dead, fun isKey => absurd isKey apart⟩,
        fun snap isTaken isLive => absurd isLive dead⟩
  | some entry =>
      rw [found] at apart
      have isLive : encodeKey pkCols row ∈ log.buf.entries :=
        AList.lookup_isSome.mp (by rw [found]; rfl)
      refine ⟨⟨replayable.grown.live _, fun _ => isLive⟩,
        fun snap isTaken _ => ⟨entry, found, ?_⟩⟩
      have holds : log.buf.Holds snap := replayable.view.flow.taken snap isTaken
      exact Nat.le_of_not_lt fun older => apart ⟨snap, isTaken, holds.old _ entry found older⟩

/-- An insert of keys that are not in flight is replayed as it was routed. -/
theorem append {batches : List Batch}
    (acknowledged : log.Acknowledged pkCols (.flow (.append batches)))
    (grounded : log.Grounded pkCols (.flow (.append batches)))
    (taken : log.step (.flow (.append batches)) = some after) : after.Replayable pkCols rows := by
  obtain ⟨sys, steps, -, rfl⟩ := step_flow_eq_some taken
  obtain ⟨view, covers, journaled⟩ := replayable.upkeep acknowledged steps
  obtain ⟨seq, isNext, -⟩ := replayable.numbered.next
  by_cases nothing : batches = []
  · subst nothing
    cases Sys.took steps with
    | append moves =>
        cases moves
        refine Same.replayable ?same replayable view covers journaled (fun snap isTaken => isTaken)
          (fun post isPost => ⟨post, isPost, rfl, rfl, Iff.rfl⟩) fun idle => idle
        exact ⟨List.append_nil _, rfl, rfl, rfl, rfl, rfl, fun gen mem => ⟨gen, mem, rfl, rfl⟩, rfl,
          rfl, List.append_nil _, rfl, rfl⟩
  simp only [Sys.step, if_neg nothing, isNext, Option.bind_eq_bind, Option.bind_eq_some_iff]
    at steps
  obtain ⟨mid, isMoved, isAfter⟩ := steps
  obtain ⟨window, moves, rfl⟩ := Sys.moved_eq_some isMoved
  cases isAfter
  cases moves
  have declares : log.buf.Declares pkCols := replayable.journaled.declares
  have sound : log.buf.Sound log.sys.process.window.held log.sys.process.window.undos :=
    replayable.view.flow.sound
  have columns {key : Key} (isLive : key ∈ log.buf.entries) : log.buf.pkCols = pkCols := by
    rcases declares with unkeyed | declared
    · simp [TableBuf.entries, unkeyed] at isLive
    · exact declared
  have grounded := replayable.meets grounded
  have looks := log.buf.stageAppend_lookup batches (some seq) none
  have pends := log.buf.stageAppend_pending batches (some seq) none
  have live (key : Key) : key ∈ (log.buf.stageAppend batches (some seq) none).1.entries ↔
      key ∈ log.buf.entries := by
    rw [← AList.lookup_isSome, ← AList.lookup_isSome]
    rcases looks.2 key with same | ⟨⟨row, -, -, isLive⟩, entry, found, -⟩
    · rw [same]
    · rw [found, AList.lookup_isSome]
      exact ⟨fun _ => isLive, fun _ => rfl⟩
  have joins : Joins log { log with
      sys := { log.sys with
        process := { log.sys.process with
          window := log.sys.process.window.await (some seq)
            (log.buf.stageAppend batches (some seq) none) }
        nextSeq := some (seq + 1)
        journal := log.sys.journal ++ (insertOps log.buf batches).map (some seq, ·) }
      frames := log.frames ++ written log.sys (.append batches)
      covered := (log.sys.announced (.append batches)).or log.covered } seq (.append batches)
      (insertOps log.buf batches) :=
    { next := isNext
      nextSeq := rfl
      ops := by simp [Sys.ops]
      frames := by simp [written, nothing, isNext]
      tailHigh := TableBuf.stageAppend_tailHigh log.buf batches (some seq) none
      taken := rfl
      flusher := rfl
      post := rfl
      flushed := TableBuf.stageAppend_flushed log.buf batches (some seq) none
      table := rfl
      sidecar := rfl
      covered := rfl }
  refine joins.replayable replayable view covers journaled (.append batches rfl) ?_ (fun key => ?_)
    (fun snap mark isTaken ready => ⟨?_, fun key => ?_⟩) (fun mark ready => ?_)
    fun pb isPending => ?_
  · exact insertOps_eq_ops declares fun row mem => (grounded row mem).1
  · exact (live key).trans (by simp [TailOp.keys])
  · refine insertOps_eq_ops declares fun row mem => ?_
    rw [← ready.keys]
    refine ⟨(grounded row mem).2 snap isTaken, ?_⟩
    rintro ⟨entry, found, -⟩
    exact AList.lookup_isSome.mp (by rw [found]; rfl)
  · have noKey : key ∉ TailOp.keys pkCols (.append batches) := by simp [TailOp.keys]
    rw [or_iff_left noKey]
    change (∃ entry, (log.buf.stageAppend batches (some seq) none).1.entries.lookup key =
      some entry ∧ (log.buf.stageAppend batches (some seq) none).1.claimedBelow ≤ entry.stamp) ↔ _
    rw [looks.1]
    rcases looks.2 key with same | ⟨⟨row, mem, isKey, isLive⟩, entry, found, fresh⟩
    · rw [same]
      rfl
    · rw [columns isLive] at isKey
      subst isKey
      exact ⟨fun _ => (grounded row mem).2 snap isTaken isLive,
        fun _ => ⟨entry, found, sound.stamps.1.trans fresh⟩⟩
  · exact insertOps_eq_ops declares fun row mem => ready.keys _
  · refine (pends pb isPending).imp_right fun each row isRow isKey => ?_
    obtain ⟨mem, dead⟩ := each row isRow
    have isLive := (grounded row mem).1.mpr isKey
    rw [columns isLive] at dead
    exact dead isLive

/-- A keyed statement's frame decides its key for the frames behind it, as its entry does for
live inserts. -/
theorem keyed {stmt : KeyedStmt} (acknowledged : log.Acknowledged pkCols (.flow (.keyed stmt)))
    (taken : log.step (.flow (.keyed stmt)) = some after) : after.Replayable pkCols rows := by
  obtain ⟨sys, steps, -, rfl⟩ := step_flow_eq_some taken
  obtain ⟨view, covers, journaled⟩ := replayable.upkeep acknowledged steps
  obtain ⟨-, -, declared⟩ := acknowledged
  have declared : stmt.pkCols = pkCols := declared
  cases Sys.took steps with
  | @keyed _ seq _ isNext moves =>
      cases Window.took moves with
      | @keyed _ _ _ result stages =>
          have sound : log.buf.Sound log.sys.process.window.held log.sys.process.window.undos :=
            replayable.view.flow.sound
          obtain ⟨flushed, pends, entries, claimed⟩ := TableBuf.stageKeyed_overwrites stages
          have isKey (key : Key) : key ∈ stmt.frame.keys pkCols ↔ key = stmt.keyRow := by
            rw [← declared, stmt.frame_keys, List.mem_singleton]
          have live (key : Key) : key ∈ result.1.entries ↔
              key ∈ log.buf.entries ∨ key ∈ stmt.frame.keys pkCols := by
            rw [isKey, entries, AList.mem_insert, or_comm]
          have bound : result.1.claimedBelow ≤ log.buf.nextStamp := by
            rw [claimed]
            cases known : log.buf.keyed with
            | none => simp [TableBuf.nextStamp, known]
            | some state => simpa [TableBuf.claimedBelow, known] using sound.stamps.1
          have kept (key : Key) (entry : KeyedEntry)
              (found : log.buf.entries.lookup key = some entry) :
              result.1.claimedBelow = log.buf.claimedBelow := by
            rw [claimed]
            cases known : log.buf.keyed with
            | none => simp [TableBuf.entries, known] at found
            | some state => simp [TableBuf.claimedBelow, known]
          have newer (key : Key) : Newer result.1 key ↔
              Newer log.buf key ∨ key ∈ stmt.frame.keys pkCols := by
            rw [isKey]
            by_cases same : key = stmt.keyRow
            · refine iff_of_true ⟨_, by rw [entries, same, AList.lookup_insert], ?_⟩ (.inr same)
              exact bound
            · rw [Newer, entries, AList.lookup_insert_ne same, or_iff_left same, Newer]
              refine exists_congr fun entry => and_congr_right fun found => ?_
              rw [kept key entry found]
          have joins : Joins log { log with
              sys := { log.sys with
                process := { log.sys.process with
                  window := log.sys.process.window.await (some seq) result }
                nextSeq := some (seq + 1)
                journal := log.sys.journal ++ [(some seq, stmt.rowOp)] }
              frames := log.frames ++ written log.sys (.keyed stmt)
              covered := (log.sys.announced (.keyed stmt)).or log.covered } seq stmt.frame
              [stmt.rowOp] :=
            { next := isNext
              nextSeq := rfl
              ops := by simp [Sys.ops]
              frames := by simp [written, isNext]
              tailHigh := TableBuf.stageKeyed_tailHigh stages
              taken := rfl
              flusher := rfl
              post := rfl
              flushed := flushed
              table := rfl
              sidecar := rfl
              covered := rfl }
          have agrees (mark : Option Nat) : joins.Agrees pkCols mark := by
            rw [Joins.Agrees, ← declared, stmt.frame_ops]
          exact joins.replayable replayable view covers journaled (.keyed stmt declared rfl)
            (agrees _) live (fun snap mark isTaken ready => ⟨agrees _, newer⟩)
            (fun mark ready => agrees _) fun pb isPending => .inl (pends ▸ isPending)

/-- Every step keeps the window replayable. -/
theorem step {action : Action} (acknowledged : log.Acknowledged pkCols action)
    (grounded : log.Grounded pkCols action) (taken : log.step action = some after) :
    after.Replayable pkCols rows := by
  cases action with
  | forget recorded kept => exact replayable.forget taken
  | flow action =>
      cases action with
      | append batches => exact replayable.append acknowledged grounded taken
      | keyed stmt => exact replayable.keyed acknowledged taken
      | take => exact replayable.take acknowledged taken
      | giveUp => exact replayable.giveUp acknowledged taken
      | prepare timestamp => exact replayable.prepare acknowledged taken
      | arrive => exact replayable.arrive acknowledged taken
      | answer => exact replayable.answer acknowledged taken
      | durable | age | gc | load | scanLoad | scanTake | foreign =>
          exact replayable.still acknowledged trivial taken
      | fail | error | resolve | stray => exact acknowledged.1.elim
      | expire => exact acknowledged.2.1.elim

/-- Both windows show the staged operations in order. -/
theorem sees : log.live = .ok (applyRowOps log.sys.ops rows) ∧
    log.rebuilt pkCols = .ok (applyRowOps log.sys.ops rows) := by
  constructor
  · obtain ⟨overlay, isOverlay, sees⟩ :=
      replayable.view.sees (.inl replayable.view.versions.current_readable)
    have isOverlay : (log.buf.overlayWith log.table.contains).2 = .ok overlay := isOverlay
    rw [live, isOverlay]
    exact congrArg Except.ok sees
  · obtain ⟨count, isCut, committed⟩ := replayable.grown.committed
    obtain ⟨buf, replays, overlay, isOverlay, sees⟩ := replayTail_sees log.watermark
      replayable.numbered.staged log.table.contains log.table.rows
    rw [rebuilt, replays]
    simp only [Except.bind, bind, isOverlay]
    refine congrArg Except.ok (sees.trans ?_)
    change applyRowOps (opsOf pkCols [] (log.above log.watermark)) log.table.rows = _
    rw [← isCut.ops, ← committed, ← applyRowOps_append, List.take_append_drop]

end Replayable

/-- A server that just started. -/
theorem replayable_initial (pkCols : List Nat) (rows : Multiset Row)
    (property sidecar : Option Nat) :
    (initial rows property sidecar).Replayable pkCols rows := by
  have before := Sys.view_initial rows property true
  refine
    { view := { before with marks := ?_ }
      covers := ⟨Nat.zero_le _, (fun snap isTaken => by cases isTaken),
        (fun post isPost => by cases isPost)⟩
      journaled := ⟨.inl rfl, by simp [initial, Sys.initial, Sys.ops], .nil,
        by simp [initial, Sys.initial], by simp [initial, Sys.initial]⟩
      numbered := ⟨by simp [initial], ⟨_, rfl, fun stamped isStamped => ?_⟩, by simp [initial],
        (fun high isHigh => by cases isHigh)⟩
      grown := ⟨⟨0, ⟨Nat.zero_le _, ?_⟩, rfl⟩, ?_⟩
      flushing := fun snap isTaken => by cases isTaken
      posted := fun post isPost => by cases isPost
      finished := fun mark isCovered => by cases isCovered }
  · rintro next ⟨⟩
    refine ⟨(fun high isHigh => by cases isHigh), fun mark isMark => ?_, fun busy => ?_,
      (fun snap isTaken => by cases isTaken), (fun post isPost => by cases isPost)⟩
    · have isMark : property = some mark := isMark
      subst isMark
      cases sidecar with
      | none => exact Nat.lt_succ_self mark
      | some recorded => exact Nat.lt_succ_of_le (le_max_left mark recorded)
    · simp [TableBuf.Busy, TableBuf.entries, Process.initial, Window.initial, TableBuf.empty,
        initial, Sys.initial, Sys.unread] at busy
  · have isStamped : effectiveWatermark property sidecar = some stamped := isStamped
    rw [isStamped]
    exact Nat.lt_succ_self stamped
  · have nothing : (initial rows property sidecar).above (initial rows property sidecar).watermark =
        [] := by
      rw [above]
      cases (initial rows property sidecar).watermark <;> rfl
    rw [nothing]
    rfl
  · exact fun key mem => by cases mem

/-- While no insert is of a key in flight, the union view over the live window is at every point
the union view over the window that a crash at that point would leave. -/
theorem crash_transparent {property sidecar : Option Nat}
    (run : Run step (fun log action => log.Acknowledged pkCols action ∧ log.Grounded pkCols action)
      (initial rows property sidecar) log) :
    ∃ seen, log.live = .ok seen ∧ log.rebuilt pkCols = .ok seen := by
  have kept (log : Logged) (action : Action) (after : Logged)
      (replayable : log.Replayable pkCols rows)
      (allowed : log.Acknowledged pkCols action ∧ log.Grounded pkCols action)
      (taken : log.step action = some after) : after.Replayable pkCols rows :=
    replayable.step allowed.1 allowed.2 taken
  have replayable := @Run.invariant _ _ _ _ (fun log => log.Replayable pkCols rows) kept _ _
    (replayable_initial pkCols rows property sidecar) run
  exact ⟨_, replayable.sees⟩

/-- Calm steps, with keyed statements on the first column. -/
def acknowledged (log : Logged) : Action → Bool
  | .flow action => log.sys.calm action && match action with
      | .keyed stmt => stmt.pkCols = [0]
      | _ => true
  | .forget .. => true

theorem acknowledged_sound {action : Action} (passes : log.acknowledged action = true) :
    log.Acknowledged [0] action := by
  cases action with
  | forget => trivial
  | flow action =>
      obtain ⟨isCalm, first⟩ := Bool.and_eq_true_iff.mp passes
      obtain ⟨definite, unexpired, -⟩ := Sys.calm_sound isCalm
      refine ⟨definite, unexpired, ?_⟩
      cases action with
      | keyed stmt =>
          have isColumns : stmt.pkCols = [0] := of_decide_eq_true first
          exact isColumns
      | _ => trivial

/-- Such steps, and inserted rows are of keys without keyed frames. -/
def grounded (log : Logged) (action : Action) : Bool :=
  log.acknowledged action && match action with
    | .flow (.append batches) => batches.flatten.all fun row =>
        (log.buf.entries.lookup (encodeKey [0] row)).isNone &&
          encodeKey [0] row ∉ keysOf [0] (log.above log.watermark)
    | _ => true

theorem grounded_sound {action : Action} (passes : log.grounded action = true) :
    log.Acknowledged [0] action ∧ log.Grounded [0] action := by
  obtain ⟨isAcknowledged, apart⟩ := Bool.and_eq_true_iff.mp passes
  refine ⟨acknowledged_sound isAcknowledged, ?_⟩
  cases action with
  | forget => trivial
  | flow action =>
      cases action with
      | append batches =>
          intro row mem inFlight
          have each := List.all_eq_true.mp apart row mem
          simp only [Bool.and_eq_true, Option.isNone_iff_eq_none, decide_eq_true_eq] at each
          rw [InFlight, each.1] at inFlight
          exact each.2 inFlight
      | _ => trivial

/-- An update is flushed, and another key is inserted in between. -/
def besideUpdate : List Action :=
  [.flow (.keyed (byFirstColumn 1 (some (.text "updated")))), .flow (.durable 0), .flow .take,
   .flow (.append [[[.int 2, .text "beside"]]]), .flow (.durable 0), .flow .load,
   .flow (.prepare 1), .flow .arrive, .flow .answer]

/-- The commit has landed, its frames are not forgotten, and the insert is replayed. -/
theorem crash_transparent_besideUpdate :
    let log := execute step grounded (initial {Sys.oldRow} none none) besideUpdate
    log.frames.map Prod.fst = [1, 2] ∧ log.watermark = some 1 ∧
      ∃ seen, log.live = .ok seen ∧ log.rebuilt [0] = .ok seen :=
  ⟨by decide +kernel, by decide +kernel,
    crash_transparent (run_execute (fun _ _ => grounded_sound) _ besideUpdate)⟩

/-- The row of the updated key. -/
def updatedRow : Row := [.int 1, .text "updated"]

/-- An update is flushed, and its key is inserted again after the flusher took it. -/
def underUpdate : List Action :=
  [.flow (.keyed (byFirstColumn 1 (some (.text "updated")))), .flow (.durable 0), .flow .take,
   .flow (.append [[Sys.newRow]]), .flow (.durable 0), .flow .load, .flow (.prepare 1),
   .flow .arrive, .flow .answer, .forget true fun _ => false]

/-- The live insert went over the entry that the flush took away, so the live window has one row
of the key; a crash leaves the committed row and the inserted one. -/
theorem not_crash_transparent_underUpdate :
    ∃ log, Run step (Acknowledged [0]) (initial {Sys.oldRow} none none) log ∧
      log.sys.process.window.waiting.length = 0 ∧ log.watermark = some 1 ∧
      log.frames.map Prod.fst = [2] ∧ log.table.rows = {updatedRow} ∧
      log.live = .ok {Sys.newRow} ∧ log.rebuilt [0] = .ok {updatedRow, Sys.newRow} ∧
      ¬ ∃ seen, log.live = .ok seen ∧ log.rebuilt [0] = .ok seen := by
  refine ⟨execute step acknowledged (initial {Sys.oldRow} none none) underUpdate,
    run_execute (fun _ _ => acknowledged_sound) _ underUpdate, by decide +kernel,
    by decide +kernel, by decide +kernel, by decide +kernel, by decide +kernel,
    by decide +kernel, ?_⟩
  rintro ⟨seen, isLive, isRebuilt⟩
  have apart : (execute step acknowledged (initial {Sys.oldRow} none none) underUpdate).live ≠
      (execute step acknowledged (initial {Sys.oldRow} none none) underUpdate).rebuilt [0] := by
    decide +kernel
  exact apart (isLive.trans isRebuilt.symm)

end Icegres.Buffer.Logged
