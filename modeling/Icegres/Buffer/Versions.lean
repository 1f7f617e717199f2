import Icegres.Buffer.Handover
import Icegres.Buffer.System

/-!
# Versions of the table and retained generations

A reader may hold an older version than the current one. Such a version lacks some commits, and
the generations of these commits are retained: committing them to the version's rows gives the
current rows.
-/

namespace Icegres.Buffer

/-- A generation as a window. -/
def genWindow (gen : FlushedGen) : List Batch × List KeyedItem :=
  (gen.batches.map Prod.snd, gen.keyed)

/-- The retained generations that one version lacks and another contains. -/
def between (flushed : List FlushedGen) (earlier later : Metadata) :
    List (List Batch × List KeyedItem) :=
  (flushed.filter fun gen => ¬ earlier.contains gen.commit ∧ later.contains gen.commit).map genWindow

/-- A version some reader may still use. -/
def Readable (lake : Lake) (scans : List Nat) (seen : Nat) (metadata : Metadata) : Prop :=
  metadata ∈ lake.versions.drop seen ∨ ∃ version ∈ scans, lake.versions[version]? = some metadata

/-- The retained generations bridge every version a reader may use and the current one. -/
structure Versions (flushed : List FlushedGen) (lake : Lake) (scans : List Nat) (seen : Nat) :
    Prop where
  loaded : ∀ version ∈ scans, version < lake.versions.length
  bound : seen < lake.versions.length
  ids : ∀ metadata ∈ lake.versions, ∀ snapshot ∈ metadata.snapshots,
    snapshot.id < lake.nextSnapshot
  commits : ∀ gen ∈ flushed, ∃ id < lake.nextSnapshot, gen.commit = .snapshot id
  grows : lake.versions.Pairwise fun earlier later => ∀ gen ∈ flushed,
    earlier.contains gen.commit → later.contains gen.commit
  observed : ∀ gen ∈ flushed, gen.observed → ∀ metadata ∈ lake.versions.drop seen,
    metadata.contains gen.commit
  reads : ∀ metadata, Readable lake scans seen metadata →
    commitWindows (between flushed metadata lake.current) metadata.rows = .ok lake.current.rows

/-- The window of a generation does not depend on its marks. -/
theorem genWindow_eq_of_content {gen other : FlushedGen}
    (same : Window.content gen = Window.content other) : genWindow gen = genWindow other := by
  have batches : gen.batches = other.batches := congrArg (fun content => content.2.1) same
  have keyed : gen.keyed = other.keyed := congrArg (fun content => content.2.2) same
  rw [genWindow, genWindow, batches, keyed]

/-- What lies between two versions depends on contents only. -/
theorem between_eq_of_content {flushed others : List FlushedGen}
    (same : flushed.map Window.content = others.map Window.content) (earlier later : Metadata) :
    between flushed earlier later = between others earlier later := by
  induction flushed generalizing others with
  | nil => rw [List.map_eq_nil_iff.mp same.symm]
  | cons gen rest ih =>
      obtain ⟨other, others, rfl, equal, same⟩ := List.map_eq_cons_iff.mp same.symm
      have commit : gen.commit = other.commit := congrArg Prod.fst equal.symm
      have ih := ih same.symm
      unfold between at ih ⊢
      rw [List.filter_cons, List.filter_cons, commit]
      split
      · rw [List.map_cons, List.map_cons, ih, genWindow_eq_of_content equal.symm]
      · exact ih

/-- What lies between two versions depends on what they contain. -/
theorem between_congr {flushed : List FlushedGen} {earlier later earlier' later' : Metadata}
    (same : ∀ gen ∈ flushed, earlier.contains gen.commit = earlier'.contains gen.commit ∧
      later.contains gen.commit = later'.contains gen.commit) :
    between flushed earlier later = between flushed earlier' later' := by
  unfold between
  congr 1
  apply List.filter_congr
  intro gen mem
  rw [(same gen mem).1, (same gen mem).2]

theorem between_self (flushed : List FlushedGen) (metadata : Metadata) :
    between flushed metadata metadata = [] := by
  simp [between]

theorem Lake.mem_versions {lake : Lake} {metadata : Metadata} :
    metadata ∈ lake.versions ↔ metadata ∈ lake.older ∨ metadata = lake.current := by
  simp [Lake.versions]

namespace Versions

variable {flushed : List FlushedGen} {lake : Lake} {scans : List Nat} {seen : Nat}

/-- What any version contains the current one contains. -/
theorem contained (versions : Versions flushed lake scans seen) {metadata : Metadata}
    (mem : metadata ∈ lake.versions) {gen : FlushedGen} (isGen : gen ∈ flushed)
    (contains : metadata.contains gen.commit) : lake.current.contains gen.commit := by
  rcases Lake.mem_versions.mp mem with old | rfl
  · exact (List.pairwise_append.mp versions.grows).2.2 metadata old _ List.mem_cons_self gen isGen
      contains
  · exact contains

theorem current_readable (versions : Versions flushed lake scans seen) :
    lake.current ∈ lake.versions.drop seen := by
  have bound := versions.bound
  rw [Lake.versions, List.length_append, List.length_singleton, Nat.lt_succ_iff] at bound
  rw [Lake.versions, List.drop_append_of_le_length bound]
  exact List.mem_append_right _ List.mem_cons_self

theorem readable_mem {metadata : Metadata} (readable : Readable lake scans seen metadata) :
    metadata ∈ lake.versions := by
  rcases readable with fresh | ⟨version, -, found⟩
  · exact List.mem_of_mem_drop fresh
  · exact List.mem_of_getElem? found

/-- A new version that contains what the current one contains, and that every reader's version
leads to. -/
theorem extend (versions : Versions flushed lake scans seen) {next : Lake} (metadata : Metadata)
    (isNext : next.versions = lake.versions ++ [metadata]) (isCurrent : next.current = metadata)
    (later : lake.nextSnapshot ≤ next.nextSnapshot)
    (ids : ∀ snapshot ∈ metadata.snapshots, snapshot.id < next.nextSnapshot)
    (keeps : ∀ gen ∈ flushed, lake.current.contains gen.commit → metadata.contains gen.commit)
    (reads : ∀ other, Readable lake scans seen other →
      commitWindows (between flushed other metadata) other.rows = .ok metadata.rows) :
    Versions flushed next scans seen where
  loaded version isScan := by
    rw [isNext, List.length_append]
    exact (versions.loaded version isScan).trans_le (Nat.le_add_right _ _)
  bound := by
    rw [isNext, List.length_append]
    exact versions.bound.trans_le (Nat.le_add_right _ _)
  ids other mem snapshot isSnapshot := by
    rw [isNext] at mem
    rcases List.mem_append.mp mem with old | new
    · exact (versions.ids other old snapshot isSnapshot).trans_le later
    · rw [List.mem_singleton.mp new] at isSnapshot
      exact ids snapshot isSnapshot
  commits gen mem := by
    obtain ⟨id, below, isCommit⟩ := versions.commits gen mem
    exact ⟨id, below.trans_le later, isCommit⟩
  grows := by
    rw [isNext]
    refine List.pairwise_append.mpr ⟨versions.grows, List.pairwise_singleton _ _, ?_⟩
    intro earlier isEarlier other new gen isGen contains
    rw [List.mem_singleton.mp new]
    exact keeps gen isGen (versions.contained isEarlier isGen contains)
  observed gen isGen isObserved other mem := by
    rw [isNext, List.drop_append_of_le_length versions.bound.le] at mem
    rcases List.mem_append.mp mem with old | new
    · exact versions.observed gen isGen isObserved other old
    · rw [List.mem_singleton.mp new]
      exact keeps gen isGen (versions.observed gen isGen isObserved _ versions.current_readable)
  reads other readable := by
    rw [isCurrent]
    unfold Readable at readable
    rw [isNext, List.drop_append_of_le_length versions.bound.le] at readable
    rcases readable with fresh | ⟨version, isScan, found⟩
    · rcases List.mem_append.mp fresh with old | new
      · exact reads other (.inl old)
      · rw [List.mem_singleton.mp new, between_self]
        rfl
    · rw [List.getElem?_append_left (versions.loaded version isScan)] at found
      exact reads other (.inr ⟨version, isScan, found⟩)

/-- The metadata changes without changing the rows or losing or gaining a retained
generation. -/
theorem publish (versions : Versions flushed lake scans seen) {metadata : Metadata} {next : Nat}
    (rows : metadata.rows = lake.current.rows)
    (same : ∀ gen ∈ flushed,
      lake.current.contains gen.commit = metadata.contains gen.commit)
    (later : lake.nextSnapshot ≤ next)
    (ids : ∀ snapshot ∈ metadata.snapshots, snapshot.id < next) :
    Versions flushed { lake.publish metadata with nextSnapshot := next } scans seen := by
  refine versions.extend metadata rfl rfl later ids (fun gen isGen contains => ?_) fun other readable => ?_
  · rwa [← same gen isGen]
  · have isCurrent : between flushed other metadata = between flushed other lake.current :=
      between_congr fun gen isGen => ⟨rfl, (same gen isGen).symm⟩
    rw [isCurrent, rows]
    exact versions.reads other readable

theorem contains_commit (metadata : Metadata) (prepared : Prepared) (id : Nat) :
    (metadata.commit prepared).contains (.snapshot id) =
      (metadata.contains (.snapshot id) || decide (prepared.snapshotId = id)) := by
  simp [Metadata.contains, Metadata.commit]

/-- The newest generation's commit lands. -/
theorem land {older : List FlushedGen} {gen : FlushedGen} {prepared : Prepared}
    (landed : List Prepared) (versions : Versions (older ++ [gen]) lake scans seen)
    (commit : gen.commit = .snapshot prepared.snapshotId)
    (others : ∀ other ∈ older, other.commit ≠ .snapshot prepared.snapshotId)
    (absent : ∀ metadata ∈ lake.versions, ¬ metadata.contains gen.commit)
    (rows : commitWindows [genWindow gen] lake.current.rows = .ok prepared.rows)
    (later : prepared.snapshotId < lake.nextSnapshot) :
    Versions (older ++ [gen])
      { lake.publish (lake.current.commit prepared) with landed := landed } scans seen := by
  have sameOthers : ∀ other ∈ older, lake.current.contains other.commit =
      (lake.current.commit prepared).contains other.commit := by
    intro other mem
    obtain ⟨id, -, isCommit⟩ := versions.commits other (List.mem_append_left _ mem)
    have apart : prepared.snapshotId ≠ id := by
      rintro rfl
      exact others other mem isCommit
    simp [isCommit, contains_commit, apart]
  refine versions.extend (lake.current.commit prepared) rfl rfl le_rfl ?_
    (fun other isGen contains => ?_) fun other readable => ?_
  · intro snapshot mem
    rcases List.mem_append.mp mem with old | new
    · exact versions.ids _ (Lake.mem_versions.mpr (.inr rfl)) snapshot old
    · rw [List.mem_singleton.mp new]
      exact later
  · rcases List.mem_append.mp isGen with old | new
    · rwa [← sameOthers other old]
    · rw [List.mem_singleton.mp new, commit, contains_commit]
      simp
  · -- the new generation is the last one on the way
    have missing : ¬ other.contains gen.commit := absent other (readable_mem readable)
    have added : between (older ++ [gen]) other (lake.current.commit prepared) =
        between (older ++ [gen]) other lake.current ++ [genWindow gen] := by
      have front : between older other (lake.current.commit prepared) =
          between older other lake.current :=
        between_congr fun old isOld => ⟨rfl, (sameOthers old isOld).symm⟩
      unfold between at front ⊢
      rw [List.filter_append, List.map_append, front, List.filter_append, List.map_append,
        List.append_assoc]
      congr 1
      have current : ¬ lake.current.contains gen.commit :=
        absent _ (Lake.mem_versions.mpr (.inr rfl))
      have new : (lake.current.commit prepared).contains gen.commit = true := by
        rw [commit, contains_commit]
        simp
      simp [missing, current, new]
    rw [added, commitWindows_append, versions.reads other readable]
    exact rows

/-- Fewer readers, of newer versions. -/
theorem readers (versions : Versions flushed lake scans seen) {others : List Nat} {newer : Nat}
    (later : seen ≤ newer) (bound : newer < lake.versions.length)
    (loaded : ∀ version ∈ others, version < lake.versions.length)
    (readable : ∀ version ∈ others, version ∈ scans ∨ seen ≤ version) :
    Versions flushed lake others newer where
  loaded := loaded
  bound := bound
  ids := versions.ids
  commits := versions.commits
  grows := versions.grows
  observed gen isGen isObserved metadata mem :=
    versions.observed gen isGen isObserved metadata
      ((List.drop_sublist_drop_left _ later).subset mem)
  reads metadata isReadable := by
    apply versions.reads
    rcases isReadable with fresh | ⟨version, isScan, found⟩
    · exact .inl ((List.drop_sublist_drop_left _ later).subset fresh)
    · rcases readable version isScan with old | new
      · exact .inr ⟨version, old, found⟩
      · refine .inl (List.mem_iff_getElem?.mpr ⟨version - seen, ?_⟩)
        rw [List.getElem?_drop, Nat.add_sub_cancel' new, found]

/-- Generations with the same contents, of which the observed ones are contained in every
version a later reader loads. -/
theorem remark (versions : Versions flushed lake scans seen) {marked : List FlushedGen}
    (same : marked.map Window.content = flushed.map Window.content)
    (observed : ∀ gen ∈ marked, gen.observed → ∀ metadata ∈ lake.versions.drop seen,
      metadata.contains gen.commit) : Versions marked lake scans seen := by
  have original {gen : FlushedGen} (mem : gen ∈ marked) :
      ∃ old ∈ flushed, old.commit = gen.commit := by
    have isContent : Window.content gen ∈ flushed.map Window.content :=
      same ▸ List.mem_map_of_mem mem
    obtain ⟨old, isOld, equal⟩ := List.mem_map.mp isContent
    exact ⟨old, isOld, congrArg Prod.fst equal⟩
  refine
    { loaded := versions.loaded
      bound := versions.bound
      ids := versions.ids
      commits := fun gen mem => ?_
      grows := versions.grows.imp fun keeps gen mem contains => ?_
      observed := observed
      reads := fun metadata readable => ?_ }
  · obtain ⟨old, isOld, commit⟩ := original mem
    exact commit ▸ versions.commits old isOld
  · obtain ⟨old, isOld, commit⟩ := original mem
    exact commit ▸ keeps old isOld (commit ▸ contains)
  · rw [between_eq_of_content same]
    exact versions.reads metadata readable

/-- A reader observed a version: what it contains is contained in every later one. -/
theorem observe (versions : Versions flushed lake scans seen) {version : Nat} {metadata : Metadata}
    (found : lake.versions[version]? = some metadata) :
    Versions (flushed.map fun gen =>
        { gen with observed := gen.observed || metadata.contains gen.commit })
      lake scans (max seen version) := by
  obtain ⟨inside, isVersion⟩ := List.getElem?_eq_some_iff.mp found
  have later : Versions flushed lake scans (max seen version) :=
    versions.readers (le_max_left seen version) (max_lt versions.bound inside) versions.loaded
      fun _ mem => .inl mem
  refine later.remark ?_ ?_
  · rw [List.map_map]
    rfl
  · intro gen mem isObserved other isLater
    obtain ⟨old, isOld, rfl⟩ := List.mem_map.mp mem
    rcases Bool.or_eq_true_iff.mp isObserved with before | contains
    · exact later.observed old isOld before other isLater
    · obtain ⟨offset, isOther⟩ := List.mem_iff_getElem?.mp isLater
      rw [List.getElem?_drop] at isOther
      obtain ⟨insideOther, rfl⟩ := List.getElem?_eq_some_iff.mp isOther
      rcases Nat.eq_or_lt_of_le ((le_max_right seen version).trans (Nat.le_add_right _ offset)) with
        same | beyond
      · simp only [← same, isVersion]
        exact contains
      · have keeps := List.pairwise_iff_getElem.mp versions.grows version _ inside insideOther beyond
        rw [isVersion] at keeps
        exact keeps old isOld contains

/-- Generations that every reader's version contains may go. -/
theorem collect (versions : Versions flushed lake scans seen) {kept : FlushedGen → Bool}
    (dropped : ∀ gen ∈ flushed, ¬ kept gen → gen.observed ∧ ∀ version ∈ scans, ∀ metadata,
      lake.versions[version]? = some metadata → metadata.contains gen.commit) :
    Versions (flushed.filter kept) lake scans seen where
  loaded := versions.loaded
  bound := versions.bound
  ids := versions.ids
  commits gen mem := versions.commits gen (List.mem_filter.mp mem).1
  grows := versions.grows.imp fun keeps gen mem => keeps gen (List.mem_filter.mp mem).1
  observed gen mem := versions.observed gen (List.mem_filter.mp mem).1
  reads metadata readable := by
    have same : between (flushed.filter kept) metadata lake.current =
        between flushed metadata lake.current := by
      unfold between
      rw [List.filter_filter]
      congr 1
      apply List.filter_congr
      intro gen mem
      by_cases keep : kept gen
      · simp [keep]
      · obtain ⟨isObserved, inScans⟩ := dropped gen mem keep
        have contains : metadata.contains gen.commit := by
          rcases readable with fresh | ⟨version, isScan, found⟩
          · exact versions.observed gen mem isObserved metadata fresh
          · exact inScans version isScan metadata found
        simp [contains]
    rw [same]
    exact versions.reads metadata readable

/-- A generation no version contains. -/
theorem push (versions : Versions flushed lake scans seen) (gen : FlushedGen)
    (commit : gen.commit = .snapshot lake.nextSnapshot) (unobserved : gen.observed = false) :
    Versions (flushed ++ [gen]) { lake with nextSnapshot := lake.nextSnapshot + 1 } scans seen := by
  have absent : ∀ metadata ∈ lake.versions, ¬ metadata.contains gen.commit := by
    intro metadata mem contains
    rw [commit] at contains
    obtain ⟨snapshot, isSnapshot, isId⟩ := List.any_eq_true.mp contains
    have below := versions.ids metadata mem snapshot isSnapshot
    simp only [decide_eq_true_eq] at isId
    omega
  refine
    { loaded := versions.loaded
      bound := versions.bound
      ids := fun metadata mem snapshot isSnapshot =>
        (versions.ids metadata mem snapshot isSnapshot).trans (Nat.lt_succ_self _)
      commits := fun other mem => ?_
      grows := ?_
      observed := fun other mem isObserved => ?_
      reads := fun metadata readable => ?_ }
  · rcases List.mem_append.mp mem with old | new
    · obtain ⟨id, below, isCommit⟩ := versions.commits other old
      exact ⟨id, below.trans (Nat.lt_succ_self _), isCommit⟩
    · rw [List.mem_singleton.mp new]
      exact ⟨_, Nat.lt_succ_self _, commit⟩
  · refine versions.grows.imp_of_mem fun isEarlier _ keeps other mem contains => ?_
    rcases List.mem_append.mp mem with old | new
    · exact keeps other old contains
    · rw [List.mem_singleton.mp new] at contains
      exact absurd contains (absent _ isEarlier)
  · rcases List.mem_append.mp mem with old | new
    · exact versions.observed other old isObserved
    · rw [List.mem_singleton.mp new, unobserved] at isObserved
      cases isObserved
  · have same : between (flushed ++ [gen]) metadata lake.current =
        between flushed metadata lake.current := by
      have missing : ¬ lake.current.contains gen.commit :=
        absent _ (Lake.mem_versions.mpr (.inr rfl))
      simp [between, List.filter_append, missing]
    exact same ▸ versions.reads metadata readable

/-- A generation that the current version does not contain goes back. -/
theorem pop {gen : FlushedGen} (versions : Versions (flushed ++ [gen]) lake scans seen)
    (missing : ¬ lake.current.contains gen.commit) : Versions flushed lake scans seen where
  loaded := versions.loaded
  bound := versions.bound
  ids := versions.ids
  commits other mem := versions.commits other (List.mem_append_left _ mem)
  grows := versions.grows.imp fun keeps other mem => keeps other (List.mem_append_left _ mem)
  observed other mem := versions.observed other (List.mem_append_left _ mem)
  reads metadata readable := by
    have same : between (flushed ++ [gen]) metadata lake.current =
        between flushed metadata lake.current := by
      simp [between, List.filter_append, missing]
    rw [← same]
    exact versions.reads metadata readable

end Versions

end Icegres.Buffer
