import Icegres.Buffer.Once
import Icegres.Buffer.Order

/-!
# Replaying the tail

Every statement leaves one frame in the tail, and at boot the frames above the committed watermark
rebuild the window in the order of their sequences. What a frame does to the rows depends on the
frames before it only: an inserted row replaces its key when a keyed frame before it is on that
key, and is added otherwise.
-/

namespace Icegres.Buffer

open TableBuf (keyedItems)

/-- What one frame carries. The batches of a delete hold the keys only. -/
inductive TailOp where
  | append (batches : List Batch)
  | upsert (batches : List Batch)
  | delete (batches : List Batch)

abbrev Frame := Nat × TailOp

/-- The watermark the table and the local sidecar agree on. -/
def effectiveWatermark : Option Nat → Option Nat → Option Nat
  | some property, some sidecar => some (max property sidecar)
  | property, sidecar => property.or sidecar

/-- The frames the committed watermark does not cover. -/
def dropStaleFrames (frames : List Frame) (watermark : Option Nat) : List Frame :=
  match watermark with
  | none => frames
  | some mark => frames.filter fun frame => mark < frame.1

/-- Rebuild one keyed frame, row by row. -/
def replayKeyedFrame (pkCols : List Nat) (seq : Nat) (buf : TableBuf) :
    TailOp → Except String TableBuf
  | .append _ => .error "unreachable: the caller routes append frames"
  | .upsert batches =>
      batches.flatten.foldlM (fun buf row => do
        let (buf, _) ← buf.stageKeyed pkCols (encodeKey pkCols row)
          { keyCols := pkCols, keyRow := projectKeyRow pkCols row, kind := .upsert row,
            seq := some seq } none
        return buf) buf
  | .delete batches =>
      batches.flatten.foldlM (fun buf key => do
        let (buf, _) ← buf.stageKeyed pkCols key
          { keyCols := pkCols, keyRow := key, kind := .delete, seq := some seq } none
        return buf) buf

/-- Rebuild one frame. Appended rows take the way of a live insert. -/
def replayFrame (pkCols : List Nat) (buf : TableBuf) : Frame → Except String TableBuf
  | (seq, .append batches) => .ok (buf.stageAppend batches none (some seq)).1
  | (seq, op) => replayKeyedFrame pkCols seq buf op

/-- The window that boot rebuilds from the tail. -/
def replayTail (pkCols : List Nat) (frames : List Frame) (watermark : Option Nat) :
    Except String TableBuf :=
  let survivors := dropStaleFrames frames watermark
  match survivors.getLast? with
  | none => .ok TableBuf.empty
  | some last => do
      let buf ← survivors.foldlM (replayFrame pkCols) TableBuf.empty
      return buf.noteTailHigh last.1

/-- The frame of a keyed statement: an update's holds the replacement row, a delete's the key. -/
def KeyedStmt.frame (stmt : KeyedStmt) : TailOp :=
  match stmt.kind with
  | .upsert row => .upsert [[row]]
  | .delete => .delete [[stmt.keyRow]]

/-! ## What frames do -/

namespace TailOp

/-- The keys a frame leaves a keyed entry for. -/
def keys (pkCols : List Nat) : TailOp → List Key
  | .append _ => []
  | .upsert batches => batches.flatten.map (encodeKey pkCols)
  | .delete batches => batches.flatten

/-- What a frame does, row by row, behind keyed frames on the given keys. -/
def ops (pkCols : List Nat) (touched : List Key) : TailOp → List RowOp
  | .append batches => batches.flatten.map fun row =>
      if encodeKey pkCols row ∈ touched then .put pkCols (encodeKey pkCols row) [row]
      else .append row
  | .upsert batches => batches.flatten.map fun row => .put pkCols (encodeKey pkCols row) [row]
  | .delete batches => batches.flatten.map fun key => .put pkCols key []

/-- What statements on the table's primary key leave in the tail. -/
inductive Staged (pkCols : List Nat) (op : TailOp) : Prop where
  | append (batches : List Batch) (isOp : op = .append batches)
  | keyed (stmt : KeyedStmt) (declared : stmt.pkCols = pkCols) (isOp : op = stmt.frame)

end TailOp

/-- The keys of frames. -/
def keysOf (pkCols : List Nat) (tail : List TailOp) : List Key :=
  tail.flatMap (TailOp.keys pkCols)

/-- What frames do in order. -/
def opsOf (pkCols : List Nat) : List Key → List TailOp → List RowOp
  | _, [] => []
  | touched, op :: later => op.ops pkCols touched ++ opsOf pkCols (touched ++ op.keys pkCols) later

theorem opsOf_append (pkCols : List Nat) (touched : List Key) (tail more : List TailOp) :
    opsOf pkCols touched (tail ++ more) =
      opsOf pkCols touched tail ++ opsOf pkCols (touched ++ keysOf pkCols tail) more := by
  induction tail generalizing touched with
  | nil => simp [opsOf, keysOf]
  | cons op later ih => simp [opsOf, keysOf, ih, List.append_assoc]

/-- A keyed statement does what its frame does. -/
theorem KeyedStmt.frame_ops (stmt : KeyedStmt) (touched : List Key) :
    stmt.frame.ops stmt.pkCols touched = [stmt.rowOp] := by
  cases isKind : stmt.kind with
  | upsert row =>
      simp [frame, TailOp.ops, rowOp, op, KeyedOp.upserts, isKind, stmt.carries row isKind]
  | delete => simp [frame, TailOp.ops, rowOp, op, KeyedOp.upserts, isKind]

@[simp] theorem KeyedStmt.frame_keys (stmt : KeyedStmt) :
    stmt.frame.keys stmt.pkCols = [stmt.keyRow] := by
  cases isKind : stmt.kind with
  | upsert row => simp [frame, TailOp.keys, isKind, stmt.carries row isKind]
  | delete => simp [frame, TailOp.keys, isKind]

/-- An insert is routed as its frame is replayed when live keys are the keys of the frames before
it, as far as its rows are concerned. -/
theorem insertOps_eq_ops {buf : TableBuf} {pkCols : List Nat} (declares : buf.Declares pkCols)
    {touched : List Key} {batches : List Batch}
    (agree : ∀ row ∈ batches.flatten,
      encodeKey pkCols row ∈ buf.entries ↔ encodeKey pkCols row ∈ touched) :
    insertOps buf batches = TailOp.ops pkCols touched (.append batches) := by
  apply List.map_congr_left
  intro row mem
  have agree := agree row mem
  rcases declares with unkeyed | declared
  · have noEntry : ∀ key, key ∉ buf.entries := by simp [TableBuf.entries, unkeyed]
    rw [insertOp, if_neg (noEntry _), if_neg (agree.not.mp (noEntry _))]
  · rw [insertOp, declared]
    simp only [agree]

/-- A keyed statement overwrites the entry of its key under the next stamp. -/
theorem TableBuf.stageKeyed_overwrites {buf : TableBuf} {pkCols : List Nat} {key : Key}
    {op : KeyedOp} {staged : Option Nat} {result : TableBuf × RoutedStmt}
    (stages : buf.stageKeyed pkCols key op staged = .ok result) :
    result.1.flushed = buf.flushed ∧ result.1.pending = buf.pending ∧
      result.1.entries =
        buf.entries.insert key ⟨buf.nextStamp, { op with seq := staged.or op.seq }⟩ ∧
      result.1.claimedBelow = (buf.keyed.map KeyedState.claimedBelow).getD 1 := by
  unfold TableBuf.stageKeyed at stages
  dsimp only at stages
  split at stages
  · cases stages
  · cases stages
    refine ⟨by simp, by simp, ?_, ?_⟩
    · cases known : buf.keyed <;>
        simp [TableBuf.entries, TableBuf.nextStamp, TableBuf.KeyedState.overwrite, known]
    · cases known : buf.keyed <;>
        simp [TableBuf.claimedBelow, TableBuf.KeyedState.overwrite]

/-! ## What an insert leaves alone -/

/-- Routing changes the entry of a key only by overwriting it under a new stamp. -/
theorem Routes.lookup {seq : Option Nat} {start : TableBuf} {result : TableBuf × RoutedStmt}
    {ops : List RowOp} (routes : Routes seq start result ops) :
    start.nextStamp ≤ result.1.nextStamp ∧ result.1.claimedBelow = start.claimedBelow ∧
      ∀ key, result.1.entries.lookup key = start.entries.lookup key ∨
        (∃ pkCols row, .put pkCols key [row] ∈ ops) ∧
          ∃ entry, result.1.entries.lookup key = some entry ∧ start.nextStamp ≤ entry.stamp := by
  induction routes with
  | start => exact ⟨le_rfl, rfl, fun _ => .inl rfl⟩
  | push prior batch misses ih =>
      obtain ⟨stamps, claimed, each⟩ := ih
      refine ⟨stamps, claimed, fun key => (each key).imp_right fun overwritten => ?_⟩
      obtain ⟨⟨pkCols, row, mem⟩, entry⟩ := overwritten
      exact ⟨⟨pkCols, row, List.mem_append_left _ mem⟩, entry⟩
  | @hit mid routed ops prior state row known live ih =>
      obtain ⟨stamps, claimed, each⟩ := ih
      have isNext := TableBuf.nextStamp_of_keyed known
      have isClaimed := TableBuf.claimedBelow_of_keyed known
      have after : (mid.overwriteKey state routed row seq).1.entries =
          state.entries.insert (encodeKey state.pkCols row) ⟨state.nextStamp,
            { keyCols := state.pkCols, keyRow := projectKeyRow state.pkCols row,
              kind := .upsert row, seq }⟩ := rfl
      dsimp only at stamps claimed
      refine ⟨?_, ?_, fun key => ?_⟩
      · change start.nextStamp ≤ state.nextStamp + 1
        omega
      · exact isClaimed.symm.trans claimed
      · by_cases same : key = encodeKey state.pkCols row
        · subst same
          have overwrites := List.mem_append_right ops
            (List.mem_singleton_self (RowOp.put state.pkCols (encodeKey state.pkCols row) [row]))
          refine .inr ⟨⟨_, row, overwrites⟩, ?_⟩
          rw [after, AList.lookup_insert]
          exact ⟨_, rfl, stamps.trans isNext.le⟩
        · rw [after, AList.lookup_insert_ne same, ← TableBuf.entries_of_keyed known]
          refine (each key).imp_right fun overwritten => ?_
          obtain ⟨⟨pkCols, other, mem⟩, entry⟩ := overwritten
          exact ⟨⟨pkCols, other, List.mem_append_left _ mem⟩, entry⟩

/-- Routing adds appended rows to the pending ones. -/
theorem Routes.pending_rows {seq : Option Nat} {start : TableBuf} {result : TableBuf × RoutedStmt}
    {ops : List RowOp} (routes : Routes seq start result ops) :
    ∀ pb ∈ result.1.pending, pb ∈ start.pending ∨ ∀ row ∈ pb.batch, .append row ∈ ops := by
  induction routes with
  | start => exact fun pb mem => .inl mem
  | push prior batch misses ih =>
      intro pb mem
      rcases List.mem_append.mp mem with old | new
      · exact (ih pb old).imp_right fun each row isRow =>
          List.mem_append_left _ (each row isRow)
      · cases List.mem_singleton.mp new
        exact .inr fun row isRow => List.mem_append_right _ (List.mem_map_of_mem isRow)
  | hit prior state row known live ih =>
      exact fun pb mem => (ih pb mem).imp_right fun each row isRow =>
        List.mem_append_left _ (each row isRow)

namespace TableBuf

variable {buf : TableBuf}

/-- An insert overwrites the entries of its live keys and leaves the others alone. -/
theorem stageAppend_lookup (batches : List Batch) (staged replaySeq : Option Nat) :
    (buf.stageAppend batches staged replaySeq).1.claimedBelow = buf.claimedBelow ∧
      ∀ key, (buf.stageAppend batches staged replaySeq).1.entries.lookup key =
          buf.entries.lookup key ∨
        (∃ row ∈ batches.flatten, encodeKey buf.pkCols row = key ∧ key ∈ buf.entries) ∧
          ∃ entry, (buf.stageAppend batches staged replaySeq).1.entries.lookup key = some entry ∧
            buf.nextStamp ≤ entry.stamp := by
  have noted : (buf.noteStaged staged).entries = buf.entries ∧
      (buf.noteStaged staged).nextStamp = buf.nextStamp ∧
      (buf.noteStaged staged).claimedBelow = buf.claimedBelow ∧
      insertOps (buf.noteStaged staged) batches = insertOps buf batches := by
    cases staged <;> exact ⟨rfl, rfl, rfl, rfl⟩
  obtain ⟨ops, routes, same⟩ :=
    routes_sameOps (buf.noteStaged staged) batches (staged.or replaySeq)
  obtain ⟨-, claimed, each⟩ := routes.lookup
  rw [noted.1, noted.2.1] at each
  rw [noted.2.2.1] at claimed
  rw [noted.2.2.2] at same
  refine ⟨claimed, fun key => (each key).imp_right fun overwritten => ?_⟩
  obtain ⟨⟨pkCols, row, mem⟩, entry⟩ := overwritten
  refine ⟨?_, entry⟩
  have isPut : (pkCols, key, [row]) ∈ ops.filterMap RowOp.put? :=
    List.mem_filterMap.mpr ⟨_, mem, rfl⟩
  rw [same.puts] at isPut
  obtain ⟨op, isOp, puts⟩ := List.mem_filterMap.mp isPut
  obtain ⟨other, isRow, rfl⟩ := List.mem_map.mp isOp
  rw [insertOp] at puts
  split at puts
  · next live =>
      simp only [put?_put, Option.some.injEq, Prod.mk.injEq] at puts
      exact ⟨other, isRow, puts.2.1, puts.2.1 ▸ live⟩
  · cases puts

/-- The rows an insert adds to the pending ones are of keys that are not live. -/
theorem stageAppend_pending (batches : List Batch) (staged replaySeq : Option Nat) :
    ∀ pb ∈ (buf.stageAppend batches staged replaySeq).1.pending, pb ∈ buf.pending ∨
      ∀ row ∈ pb.batch, row ∈ batches.flatten ∧ encodeKey buf.pkCols row ∉ buf.entries := by
  have noted : insertOps (buf.noteStaged staged) batches = insertOps buf batches := by
    cases staged <;> rfl
  obtain ⟨ops, routes, same⟩ :=
    routes_sameOps (buf.noteStaged staged) batches (staged.or replaySeq)
  intro pb mem
  refine (routes.pending_rows pb mem).imp (fun old => by rwa [noteStaged_pending] at old)
    fun each row isRow => ?_
  have isAppend : row ∈ ops.filterMap RowOp.row? :=
    List.mem_filterMap.mpr ⟨_, each row isRow, rfl⟩
  rw [same.rows, noted] at isAppend
  obtain ⟨op, isOp, appends⟩ := List.mem_filterMap.mp isAppend
  obtain ⟨other, isOther, rfl⟩ := List.mem_map.mp isOp
  rw [insertOp] at appends
  split at appends
  · cases appends
  · next missing =>
      cases appends
      exact ⟨isOther, missing⟩

/-- Stamps that were taken are below the next one. -/
theorem Sound.stamps {held : List KeyedItem} {undos : List Undo} (sound : buf.Sound held undos) :
    buf.claimedBelow ≤ buf.nextStamp ∧
      ∀ key entry, buf.entries.lookup key = some entry → entry.stamp < buf.nextStamp := by
  cases known : buf.keyed with
  | none =>
      refine ⟨by simp [claimedBelow, known], fun key entry found => ?_⟩
      simp [entries, known] at found
  | some state =>
      have sound := (sound_some known).mp sound
      rw [claimedBelow_of_keyed known, nextStamp_of_keyed known, entries_of_keyed known]
      exact ⟨sound.claimed, fun key entry found => (sound.live key entry found).2⟩

end TableBuf

/-! ## The rebuilt window -/

/-- A window that was rebuilt from frames on the given keys. -/
structure Rebuilt (pkCols : List Nat) (touched : List Key) (buf : TableBuf) : Prop where
  sound : buf.Sound [] []
  declares : buf.Declares pkCols
  live : ∀ key, key ∈ buf.entries ↔ key ∈ touched
  unflushed : buf.flushed = []

namespace Rebuilt

variable {pkCols : List Nat} {touched : List Key} {buf : TableBuf}

theorem empty (pkCols : List Nat) : Rebuilt pkCols [] TableBuf.empty where
  sound := ⟨by simp [TableBuf.empty], rfl, rfl⟩
  declares := .inl rfl
  live := by simp [TableBuf.empty, TableBuf.entries]
  unflushed := rfl

/-- The rows of an insert are routed by the keyed frames before it. -/
theorem append (rebuilt : Rebuilt pkCols touched buf) (batches : List Batch) (seq : Nat) :
    Rebuilt pkCols touched (buf.stageAppend batches none (some seq)).1 ∧
      ∀ rows, (buf.stageAppend batches none (some seq)).1.commits rows =
        applyRowOps (TailOp.ops pkCols touched (.append batches)) (buf.commits rows) := by
  obtain ⟨ops, routes, -⟩ := routes_routeAppends buf batches (some seq)
  have sound := (rebuilt.sound.routes routes).1
  refine ⟨⟨?_, rebuilt.declares.stageAppend batches none (some seq), fun key => ?_, ?_⟩,
    fun rows => ?_⟩
  · exact sound.fewer rfl (fun gen mem => ⟨gen, mem, rfl⟩) (by simp) (List.nil_sublist _)
  · exact (routes.keeps.2.2 key).trans (rebuilt.live key)
  · exact routes.frame.2.trans rebuilt.unflushed
  · rw [TableBuf.commits_stageAppend rebuilt.sound,
      insertOps_eq_ops rebuilt.declares fun row _ => rebuilt.live _]

/-- The declaration does not change, so a keyed frame always finds its place. -/
theorem stageKeyed (rebuilt : Rebuilt pkCols touched buf) (key : Key) (op : KeyedOp) :
    ∃ result, buf.stageKeyed pkCols key op none = .ok result := by
  unfold TableBuf.stageKeyed
  dsimp only
  rw [if_neg]
  · exact ⟨_, rfl⟩
  · rintro ⟨other, -⟩
    cases known : buf.keyed with
    | none => simp [known] at other
    | some state =>
        rcases rebuilt.declares with none | declared
        · cases known.symm.trans none
        · rw [TableBuf.pkCols_of_keyed known] at declared
          simp [known, declared] at other

/-- A keyed frame decides its key for the frames behind it. -/
theorem keyed (rebuilt : Rebuilt pkCols touched buf) (stmt : KeyedStmt)
    (declared : stmt.pkCols = pkCols) (seq : Nat) :
    ∃ after, replayFrame pkCols buf (seq, stmt.frame) = .ok after ∧
      Rebuilt pkCols (touched ++ [stmt.keyRow]) after ∧
      ∀ rows, after.commits rows = stmt.rowOp.apply (buf.commits rows) := by
  subst declared
  obtain ⟨result, stages⟩ := rebuilt.stageKeyed stmt.keyRow (stmt.op (some seq))
  refine ⟨result.1, ?_, ⟨?_, TableBuf.Declares.stageKeyed stages, fun key => ?_, ?_⟩,
    TableBuf.commits_stageKeyed rebuilt.sound stages⟩
  · cases isKind : stmt.kind with
    | upsert row =>
        have isKey := stmt.carries row isKind
        have isOp : stmt.op (some seq) =
            { keyCols := stmt.pkCols, keyRow := projectKeyRow stmt.pkCols row, kind := .upsert row,
              seq := some seq } := by
          simp only [KeyedStmt.op, isKind, ← isKey, encodeKey]
        rw [isOp, ← isKey] at stages
        simp only [KeyedStmt.frame, isKind, replayFrame, replayKeyedFrame, List.flatten_cons,
          List.flatten_nil, List.append_nil, List.foldlM_cons, List.foldlM_nil, stages]
        rfl
    | delete =>
        simp only [KeyedStmt.op, isKind] at stages
        simp only [KeyedStmt.frame, isKind, replayFrame, replayKeyedFrame, List.flatten_cons,
          List.flatten_nil, List.append_nil, List.foldlM_cons, List.foldlM_nil, stages]
        rfl
  · -- the window of a server that takes no other step
    have window : (⟨buf, [], .idle⟩ : Window).Sound := rebuilt.sound
    have sound := (window.keyed stages).1
    exact sound.fewer rfl (fun gen mem => ⟨gen, mem, rfl⟩) (by simp) (List.nil_sublist _)
  · rw [(TableBuf.stageKeyed_overwrites stages).2.2.1, AList.mem_insert, rebuilt.live,
      List.mem_append, List.mem_singleton, or_comm]
  · exact (TableBuf.stageKeyed_overwrites stages).1.trans rebuilt.unflushed

/-- Rebuilding goes through, and the window does what the frames do. -/
theorem frames (rebuilt : Rebuilt pkCols touched buf) {frames : List Frame}
    (staged : ∀ frame ∈ frames, frame.2.Staged pkCols) :
    ∃ after, frames.foldlM (replayFrame pkCols) buf = .ok after ∧
      Rebuilt pkCols (touched ++ keysOf pkCols (frames.map Prod.snd)) after ∧
      ∀ rows, after.commits rows =
        applyRowOps (opsOf pkCols touched (frames.map Prod.snd)) (buf.commits rows) := by
  induction frames generalizing touched buf with
  | nil => exact ⟨buf, rfl, by simpa [keysOf] using rebuilt, fun _ => rfl⟩
  | cons frame later ih =>
      obtain ⟨seq, op⟩ := frame
      have first : ∃ mid, replayFrame pkCols buf (seq, op) = .ok mid ∧
          Rebuilt pkCols (touched ++ op.keys pkCols) mid ∧
          ∀ rows, mid.commits rows =
            applyRowOps (op.ops pkCols touched) (buf.commits rows) := by
        cases staged (seq, op) List.mem_cons_self with
        | append batches isOp =>
            cases isOp
            obtain ⟨after, means⟩ := rebuilt.append batches seq
            exact ⟨_, rfl, by simpa [TailOp.keys] using after, means⟩
        | keyed stmt declared isOp =>
            obtain ⟨mid, replays, after, means⟩ := rebuilt.keyed stmt declared seq
            subst declared isOp
            exact ⟨mid, replays, by rwa [stmt.frame_keys], by simpa [stmt.frame_ops] using means⟩
      obtain ⟨mid, replays, after, means⟩ := first
      obtain ⟨last, rest, rebuilds, does⟩ :=
        ih after fun other mem => staged other (List.mem_cons_of_mem _ mem)
      refine ⟨last, ?_, ?_, fun rows => ?_⟩
      · rw [List.foldlM_cons, replays]
        exact rest
      · simpa [keysOf] using rebuilds
      · rw [does, means, List.map_cons, opsOf, applyRowOps_append]

end Rebuilt

/-- A scan of a window without generations sees its rows on top of the committed ones. -/
theorem TableBuf.Sound.sees {buf : TableBuf} {held : List KeyedItem} {undos : List Undo}
    (sound : buf.Sound held undos) (unflushed : buf.flushed = [])
    (isCommitted : GenCommit → Bool) (rows : Multiset Row) :
    ∃ overlay, (buf.overlayWith isCommitted).2 = .ok overlay ∧
      unionRows rows overlay = buf.commits rows := by
  obtain ⟨overlay, isOverlay, committed⟩ :=
    TableBuf.unionRows_overlayWith sound.well isCommitted rows
  refine ⟨overlay, isOverlay, ?_⟩
  have single := commitWindows_single (buf.pending.map PendingBatch.batch) sound.well.window rows
  rw [TableBuf.uncommitted, unflushed] at committed
  exact Except.ok.inj (committed.symm.trans single)

/-- Over the rebuilt window a scan sees what the surviving frames do to the committed rows. -/
theorem replayTail_sees {pkCols : List Nat} {frames : List Frame} (watermark : Option Nat)
    (staged : ∀ frame ∈ frames, frame.2.Staged pkCols) (isCommitted : GenCommit → Bool)
    (rows : Multiset Row) :
    ∃ buf, replayTail pkCols frames watermark = .ok buf ∧
      ∃ overlay, (buf.overlayWith isCommitted).2 = .ok overlay ∧
        unionRows rows overlay =
          applyRowOps (opsOf pkCols [] ((dropStaleFrames frames watermark).map Prod.snd)) rows := by
  have survivors : ∀ frame ∈ dropStaleFrames frames watermark, frame.2.Staged pkCols := by
    intro frame mem
    cases watermark with
    | none => exact staged frame mem
    | some mark => exact staged frame (List.mem_filter.mp mem).1
  obtain ⟨buf, replays, rebuilt, means⟩ := (Rebuilt.empty pkCols).frames survivors
  have nothing : TableBuf.empty.commits rows = rows :=
    (commitOf_nil _ _ _).trans (by simp [TableBuf.empty])
  cases isLast : (dropStaleFrames frames watermark).getLast? with
  | none =>
      rw [List.getLast?_eq_none_iff.mp isLast] at means ⊢
      obtain ⟨overlay, isOverlay, sees⟩ := (Rebuilt.empty pkCols).sound.sees rfl isCommitted rows
      refine ⟨TableBuf.empty, ?_, overlay, isOverlay, sees.trans nothing⟩
      simp only [replayTail, isLast]
  | some last =>
      have noted : (buf.noteTailHigh last.1).Sound [] [] := rebuilt.sound.congr rfl rfl
      obtain ⟨overlay, isOverlay, sees⟩ := noted.sees rebuilt.unflushed isCommitted rows
      refine ⟨buf.noteTailHigh last.1, ?_, overlay, isOverlay, ?_⟩
      · simp only [replayTail, isLast, replays]
        rfl
      · exact sees.trans ((means rows).trans (by rw [nothing]))

end Icegres.Buffer
