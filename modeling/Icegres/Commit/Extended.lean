import Icegres.Commit.Keys

/-!
# One INSERT more

An INSERT at the end of the operations changes nothing of what the commit gathers for the ones
before it; its own rows are gathered last, behind no statement that could change them.
-/

namespace Icegres.Commit

variable {Value : Type}

/-! ## Runs that show the same -/

section Views

variable {ε σ ρ α τ ω : Type}

/-- Continuations that show the same after what shows the same. -/
theorem map_bind_congr {view : σ → τ} {show' : ρ → ω} {first second : Except ε σ}
    {next next' : σ → Except ε ρ} (same : first.map view = second.map view)
    (agree : ∀ left right, view left = view right →
      (next left).map show' = (next' right).map show') :
    (first >>= next).map show' = (second >>= next').map show' := by
  cases first with
  | error why =>
      cases second with
      | error why' => simpa [Except.map, bind, Except.bind] using same
      | ok right => cases same
  | ok left =>
      cases second with
      | error why' => cases same
      | ok right => exact agree left right (Except.ok.inj same)

/-- Continuations that show the same after one run. -/
theorem map_bind_self {show' : ρ → ω} (first : Except ε σ) {next next' : σ → Except ε ρ}
    (agree : ∀ value, (next value).map show' = (next' value).map show') :
    (first >>= next).map show' = (first >>= next').map show' := by
  cases first with
  | error why => rfl
  | ok value => exact agree value

/-- Folds whose steps show the same show the same. -/
theorem map_foldlM_congr {view : σ → τ} {step step' : σ → α → Except ε σ}
    (agree : ∀ item left right, view left = view right →
      (step left item).map view = (step' right item).map view)
    (items : List α) (left right : σ) (same : view left = view right) :
    (items.foldlM step left).map view = (items.foldlM step' right).map view := by
  induction items generalizing left right with
  | nil => exact congrArg Except.ok same
  | cons item items ih =>
      rw [List.foldlM_cons, List.foldlM_cons]
      exact map_bind_congr (agree item left right same) fun _ _ => ih _ _

end Views

/-- What is gathered, without the counts of the statements. -/
def Staged.uncounted (staged : Staged Value) : Staged Value :=
  { staged with rowsByOp := [] }

/-- What shows the same differs in the counts only. -/
theorem Staged.exists_of_uncounted {left right : Staged Value}
    (same : left.uncounted = right.uncounted) :
    ∃ counts, left = { right with rowsByOp := counts } := by
  refine ⟨left.rowsByOp, ?_⟩
  cases left
  cases right
  simp only [Staged.uncounted, Staged.mk.injEq, true_and] at same
  simp [same]

namespace Job

variable (job : Job Value) (inserted : List (Row Value))

/-- The same commit with an INSERT at the end. -/
def extended : Job Value :=
  { job with ops := job.ops ++ [.append inserted] }

theorem hasDml_extended : (job.extended inserted).hasDml = job.hasDml := by
  simp [hasDml, extended]

theorem needFileScan_extended : (job.extended inserted).needFileScan = job.needFileScan := by
  rw [needFileScan, hasDml_extended, needFileScan]
  rfl

/-- The rows of a fold and whether it changed any. -/
def Folded.outcome (folded : Folded Value) : Bool × List (Row Value) :=
  (folded.changed, folded.rows)

theorem next_outcome (engine : Engine Value) (columns : List String)
    (pair : TableOp Value × Nat) (left right : Folded Value)
    (same : Folded.outcome left = Folded.outcome right) :
    (left.next engine columns pair).map Folded.outcome =
      (right.next engine columns pair).map Folded.outcome := by
  obtain ⟨changed, rows, counts⟩ := left
  obtain ⟨changed', rows', counts'⟩ := right
  obtain ⟨rfl, rfl⟩ : changed = changed' ∧ rows = rows' := by
    simpa [Folded.outcome] using same
  obtain ⟨op, index⟩ := pair
  cases op with
  | append rows => rfl
  | appendFiles files => rfl
  | dml stmt =>
      refine map_bind_self _ fun left => ?_
      rfl

/-- The fold of the statements is not touched by the INSERT behind them. -/
theorem foldDmlOps_extended (firstOp : Nat) (rows : List (Row Value)) (counts counts' : List Nat) :
    (foldDmlOps job.backend.engine job.metadata.columns (job.extended inserted).ops firstOp rows
        counts).map Folded.outcome =
      (foldDmlOps job.backend.engine job.metadata.columns job.ops firstOp rows
        counts').map Folded.outcome := by
  have split : (job.extended inserted).ops.zipIdx.drop firstOp =
      job.ops.zipIdx.drop firstOp ++
        [(TableOp.append inserted, job.ops.length)].drop (firstOp - job.ops.zipIdx.length) := by
    rw [extended, List.zipIdx_append, List.drop_append]
    simp
  rw [foldDmlOps, foldDmlOps, split, List.foldlM_append]
  have idle : ∀ folded : Folded Value,
      ([(TableOp.append inserted, job.ops.length)].drop (firstOp - job.ops.zipIdx.length)).foldlM
        (Folded.next job.backend.engine job.metadata.columns) folded = .ok folded := by
    intro folded
    cases firstOp - job.ops.zipIdx.length with
    | zero => rfl
    | succ more =>
        rw [List.drop_succ_cons, List.drop_nil]
        rfl
  have step := map_foldlM_congr (next_outcome job.backend.engine job.metadata.columns)
    (job.ops.zipIdx.drop firstOp) ⟨false, rows, counts⟩ ⟨false, rows, counts'⟩ rfl
  rw [← step]
  cases List.foldlM (Folded.next job.backend.engine job.metadata.columns) ⟨false, rows, counts⟩
      (job.ops.zipIdx.drop firstOp) with
  | error why => rfl
  | ok folded => exact congrArg (Except.map _) (idle folded)

theorem fateOf_extended (rows : List (Row Value)) (counts counts' : List Nat) :
    ((job.extended inserted).fateOf rows counts).map Prod.fst =
      (job.fateOf rows counts').map Prod.fst := by
  rw [fateOf, fateOf, hasDml_extended]
  split
  · refine map_bind_congr (job.foldDmlOps_extended inserted 0 rows counts counts') ?_
    rintro ⟨changed, out, left⟩ ⟨changed', out', right⟩ same
    obtain ⟨rfl, rfl⟩ : changed = changed' ∧ out = out' := by
      simpa [Folded.outcome] using same
    dsimp only
    split
    · rfl
    · split <;> rfl
  · rfl

/-- The scan of a manifest, without the counts of the statements. -/
def ManifestScan.uncounted (scan : ManifestScan Value) : ManifestScan Value :=
  { scan with staged := scan.staged.uncounted }

theorem scanEntry_extended (entry : ManifestEntry) (left right : ManifestScan Value)
    (same : ManifestScan.uncounted left = ManifestScan.uncounted right) :
    ((job.extended inserted).scanEntry left entry).map ManifestScan.uncounted =
      (job.scanEntry right entry).map ManifestScan.uncounted := by
  obtain ⟨rewrite, fates, staged⟩ := left
  obtain ⟨rewrite', fates', staged'⟩ := right
  obtain ⟨rfl, rfl, alike⟩ : rewrite = rewrite' ∧ fates = fates' ∧
      staged.uncounted = staged'.uncounted := by
    simpa [ManifestScan.uncounted] using same
  rw [scanEntry, scanEntry]
  split
  · simp [Except.map, ManifestScan.uncounted, alike]
  · refine map_bind_self _ fun rows => ?_
    refine map_bind_congr (job.fateOf_extended inserted rows staged.rowsByOp staged'.rowsByOp) ?_
    rintro ⟨fate, folded⟩ ⟨_, folded'⟩ rfl
    refine map_bind_self _ fun keys => ?_
    obtain ⟨counts, rfl⟩ := Staged.exists_of_uncounted alike
    cases fate <;> rfl

theorem fileEntry_extended (manifest : ManifestFile) (pair : ManifestEntry × FileFate Value)
    (left right : Staged Value) (same : left.uncounted = right.uncounted) :
    ((job.extended inserted).fileEntry manifest left pair).map Staged.uncounted =
      (job.fileEntry manifest right pair).map Staged.uncounted := by
  obtain ⟨counts, rfl⟩ := Staged.exists_of_uncounted same
  obtain ⟨entry, fate⟩ := pair
  cases fate with
  | keep => rfl
  | remove matched => rfl
  | rewrite matched rows =>
      refine map_bind_self _ fun aligned => ?_
      rfl

theorem scanManifest_extended (manifest : ManifestFile) (left right : Staged Value)
    (same : left.uncounted = right.uncounted) :
    ((job.extended inserted).scanManifest left manifest).map Staged.uncounted =
      (job.scanManifest right manifest).map Staged.uncounted := by
  rw [scanManifest, scanManifest]
  refine map_bind_congr (map_foldlM_congr (job.scanEntry_extended inserted) manifest.entries
    _ _ (by simp [ManifestScan.uncounted, same])) ?_
  rintro ⟨rewrite, fates, staged⟩ ⟨rewrite', fates', staged'⟩ alike
  obtain ⟨rfl, rfl, below⟩ : rewrite = rewrite' ∧ fates = fates' ∧
      staged.uncounted = staged'.uncounted := by
    simpa [ManifestScan.uncounted] using alike
  dsimp only
  split
  · obtain ⟨counts, rfl⟩ := Staged.exists_of_uncounted below
    rfl
  · exact map_foldlM_congr (job.fileEntry_extended inserted manifest) fates _ _ below

theorem scanHead_extended (head : Option Snapshot) (left right : Staged Value)
    (same : left.uncounted = right.uncounted) :
    ((job.extended inserted).scanHead head left).map Staged.uncounted =
      (job.scanHead head right).map Staged.uncounted := by
  cases head with
  | none => simp [scanHead, Except.map, same]
  | some snapshot =>
      rw [scanHead, scanHead, needFileScan_extended]
      split
      · refine map_bind_self _ fun manifests => ?_
        exact map_foldlM_congr (job.scanManifest_extended inserted) manifests _ _ same
      · simp [Except.map, same]

theorem stageAppend_extended (pair : TableOp Value × Nat) (left right : Staged Value)
    (same : left.uncounted = right.uncounted) :
    ((job.extended inserted).stageAppend left pair).map Staged.uncounted =
      (job.stageAppend right pair).map Staged.uncounted := by
  obtain ⟨op, index⟩ := pair
  cases op with
  | appendFiles files => exact congrArg Except.ok same
  | dml stmt => exact congrArg Except.ok same
  | append rows =>
      rw [stageAppend, stageAppend]
      refine map_bind_congr (job.foldDmlOps_extended inserted (index + 1) rows _ _) ?_
      rintro ⟨changed, out, folded⟩ ⟨changed', out', folded'⟩ alike
      obtain ⟨rfl, rfl⟩ : changed = changed' ∧ out = out' := by
        simpa [Folded.outcome] using alike
      obtain ⟨counts, rfl⟩ := Staged.exists_of_uncounted same
      dsimp only
      split
      · rfl
      · refine map_bind_self _ fun aligned => ?_
        refine map_bind_self _ fun keys => ?_
        rfl

/-- The INSERT at the end is behind every statement. -/
theorem stageAppend_last (staged : Staged Value)
    (typed : alignBatch job.backend job.metadata.fields inserted = .ok inserted)
    {keys : List (Row Value)} (projected : job.keyRows inserted = .ok keys) :
    ∃ after, (job.extended inserted).stageAppend staged (.append inserted, job.ops.length) =
        .ok after ∧
      after.pkRows = staged.pkRows ++ keys ∧
      after.appendedRows = staged.appendedRows + inserted.length := by
  have behind : (job.extended inserted).ops.zipIdx.drop (job.ops.length + 1) = [] := by
    apply List.drop_of_length_le
    simp [extended]
  have unfolded (counts : List Nat) : foldDmlOps job.backend.engine job.metadata.columns
      (job.extended inserted).ops (job.ops.length + 1) inserted counts =
        .ok ⟨false, inserted, counts⟩ := by
    rw [foldDmlOps, behind]
    rfl
  have aligns : alignBatch (job.extended inserted).backend (job.extended inserted).metadata.fields
      inserted = .ok inserted := typed
  have keyed : (job.extended inserted).keyRows inserted = .ok keys := projected
  have folds (counts : List Nat) : foldDmlOps (job.extended inserted).backend.engine
      (job.extended inserted).metadata.columns (job.extended inserted).ops (job.ops.length + 1)
        inserted counts = .ok ⟨false, inserted, counts⟩ := unfolded counts
  by_cases none : inserted.length = 0
  · obtain rfl := List.length_eq_zero_iff.mp none
    obtain rfl : [] = keys := by
      unfold keyRows Dml.keyRows at projected
      split at projected
      · simpa using projected
      · simpa using projected
    refine ⟨{ staged with rowsByOp := staged.rowsByOp.set job.ops.length 0 }, ?_, ?_, ?_⟩
    · rw [stageAppend, folds]
      rfl
    · simp
    · simp
  · refine ⟨{ staged with
        rowsByOp := staged.rowsByOp.set job.ops.length inserted.length
        appendedRows := staged.appendedRows + inserted.length
        pkRows := staged.pkRows ++ keys
        written := staged.written ++ inserted }, ?_, rfl, rfl⟩
    simp only [stageAppend, folds, bind, Except.bind, if_neg none, aligns, keyed]
    rfl

/-- Files that are already written bring no keys. -/
theorem foldl_stageFiles (pairs : List (TableOp Value × Nat)) :
    ∃ records, ∀ staged : Staged Value,
      (pairs.foldl stageFiles staged).pkRows = staged.pkRows ∧
        (pairs.foldl stageFiles staged).appendedRows = staged.appendedRows + records := by
  induction pairs with
  | nil => exact ⟨0, fun staged => ⟨rfl, rfl⟩⟩
  | cons pair pairs ih =>
      obtain ⟨records, later⟩ := ih
      obtain ⟨op, index⟩ := pair
      cases op with
      | append rows => exact ⟨records, fun staged => later staged⟩
      | dml stmt => exact ⟨records, fun staged => later staged⟩
      | appendFiles files =>
          refine ⟨(files.map DataFile.recordCount).sum + records, fun staged => ?_⟩
          obtain ⟨keys, appended⟩ := later (stageFiles staged (.appendFiles files, index))
          refine ⟨keys, appended.trans ?_⟩
          exact Nat.add_assoc _ _ _

/-- The operations before the INSERT gather what they gather without it. -/
theorem gather_before (head : Option Snapshot) :
    ((job.extended inserted).scanHead head (job.extended inserted).unstaged >>= fun scanned =>
        job.ops.zipIdx.foldlM (job.extended inserted).stageAppend scanned).map
          Staged.uncounted =
      (job.scanHead head job.unstaged >>= fun scanned =>
        job.ops.zipIdx.foldlM job.stageAppend scanned).map Staged.uncounted :=
  map_bind_congr (job.scanHead_extended inserted head _ _ rfl) fun _ _ same =>
    map_foldlM_congr (job.stageAppend_extended inserted) job.ops.zipIdx _ _ same

theorem gather_eq (head : Option Snapshot) :
    job.gather head = (job.scanHead head job.unstaged >>= fun scanned =>
      job.ops.zipIdx.foldlM job.stageAppend scanned) >>= fun appended =>
        .ok (job.ops.zipIdx.foldl stageFiles appended) := by
  rw [gather, bind_assoc]
  rfl

theorem gather_extended_eq (head : Option Snapshot) :
    (job.extended inserted).gather head =
      ((job.extended inserted).scanHead head (job.extended inserted).unstaged >>= fun scanned =>
        job.ops.zipIdx.foldlM (job.extended inserted).stageAppend scanned) >>= fun before =>
          (job.extended inserted).stageAppend before (.append inserted, job.ops.length) >>=
            fun appended => .ok (job.ops.zipIdx.foldl stageFiles appended) := by
  have split : (job.extended inserted).ops.zipIdx =
      job.ops.zipIdx ++ [(.append inserted, job.ops.length)] := by
    simp [extended, List.zipIdx_append]
  rw [gather_eq, split]
  simp only [List.foldlM_append, List.foldlM_cons, List.foldlM_nil, bind_assoc, List.foldl_append,
    List.foldl_cons, List.foldl_nil, stageFiles, bind_pure]

/-- With the INSERT the commit gathers its keys behind those of the operations before it. -/
theorem gather_extended {head : Option Snapshot} {staged : Staged Value}
    (typed : alignBatch job.backend job.metadata.fields inserted = .ok inserted)
    {keys : List (Row Value)} (projected : job.keyRows inserted = .ok keys)
    (gathered : job.gather head = .ok staged) :
    ∃ after, (job.extended inserted).gather head = .ok after ∧
      after.pkRows = staged.pkRows ++ keys ∧
      after.appendedRows = staged.appendedRows + inserted.length := by
  rw [gather_eq] at gathered
  obtain ⟨appended, ran, gathered⟩ := bind_eq_ok gathered
  cases gathered
  have before := job.gather_before inserted head
  rw [ran] at before
  rw [gather_extended_eq]
  cases runs : ((job.extended inserted).scanHead head (job.extended inserted).unstaged >>=
      fun scanned => job.ops.zipIdx.foldlM (job.extended inserted).stageAppend scanned) with
  | error why =>
      rw [runs] at before
      cases before
  | ok start =>
      rw [runs] at before
      obtain ⟨counts, rfl⟩ := Staged.exists_of_uncounted (Except.ok.inj before)
      obtain ⟨last, staging, keyRows, rows⟩ :=
        job.stageAppend_last inserted { appended with rowsByOp := counts } typed
          projected
      obtain ⟨records, files⟩ := foldl_stageFiles job.ops.zipIdx
      refine ⟨job.ops.zipIdx.foldl stageFiles last, ?_, ?_, ?_⟩
      · simp only [bind, Except.bind, staging]
      · rw [(files last).1, keyRows, (files appended).1]
      · rw [(files last).2, rows, (files appended).2]
        exact Nat.add_right_comm _ _ _

theorem gather_extended_error {head : Option Snapshot} {why : String}
    (failed : job.gather head = .error why) :
    (job.extended inserted).gather head = .error why := by
  rw [gather_eq] at failed
  have before := job.gather_before inserted head
  cases ran : (job.scanHead head job.unstaged >>= fun scanned =>
      job.ops.zipIdx.foldlM job.stageAppend scanned) with
  | ok appended =>
      rw [ran] at failed
      cases failed
  | error why' =>
      rw [ran] at failed before
      obtain rfl : why' = why := Except.error.inj failed
      rw [gather_extended_eq]
      cases runs : ((job.extended inserted).scanHead head (job.extended inserted).unstaged >>=
          fun scanned => job.ops.zipIdx.foldlM (job.extended inserted).stageAppend scanned) with
      | error other =>
          rw [runs] at before
          obtain rfl : other = why' := Except.error.inj before
          rfl
      | ok start =>
          rw [runs] at before
          cases before

end Job

end Icegres.Commit
