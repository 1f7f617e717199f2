import Icegres.Compact.Run

/-!
# What a compaction leaves as it was

The live entries of the head are those of the carried manifests, the existing ones of the rewritten
manifest and the planned ones, and the planned ones are those the rewritten manifest deletes.
-/

namespace Icegres.Compact

open Icegres.Commit

variable {Value : Type}

/-! ## Where a live file comes from -/

/-- The file with the snapshot that added it and its sequence numbers. -/
def LiveEntry.provenance (entry : LiveEntry) : DataFile × Int × Int × Int :=
  (entry.dataFile, entry.snapshotId, entry.dataSeq, entry.fileSeq.getD entry.dataSeq)

def provenances (manifests : List ManifestFile) : List (DataFile × Int × Int × Int) :=
  manifests.flatMap fun manifest => (liveEntriesOf (manifest, 0)).map LiveEntry.provenance

theorem provenances_append (first second : List ManifestFile) :
    provenances (first ++ second) = provenances first ++ provenances second :=
  List.flatMap_append

theorem map_fst_provenances (manifests : List ManifestFile) :
    (provenances manifests).map Prod.fst = liveFiles manifests := by
  simp [provenances, liveFiles, liveEntriesOf, List.map_flatMap, LiveEntry.provenance,
    Function.comp_def]

/-- The provenance of a manifest's entries does not depend on its place. -/
theorem map_provenance_liveEntriesOf (manifest : ManifestFile × Nat) :
    (liveEntriesOf manifest).map LiveEntry.provenance =
      (liveEntriesOf (manifest.1, 0)).map LiveEntry.provenance := by
  simp [liveEntriesOf, LiveEntry.provenance, Function.comp_def]

theorem map_provenance_flatMap (placed : List (ManifestFile × Nat)) :
    (placed.flatMap liveEntriesOf).map LiveEntry.provenance =
      provenances (placed.map Prod.fst) := by
  simp only [provenances, List.map_flatMap, List.flatMap_map, map_provenance_liveEntriesOf]

theorem provenances_eq (manifests : List ManifestFile) :
    provenances manifests = (liveEntries manifests).map LiveEntry.provenance := by
  rw [liveEntries, map_provenance_flatMap, List.zipIdx_map_fst]

theorem manifestIdx_of_mem {placed : ManifestFile × Nat} {entry : LiveEntry}
    (member : entry ∈ liveEntriesOf placed) : entry.manifestIdx = placed.2 := by
  obtain ⟨source, -, rfl⟩ := List.mem_map.mp member
  rfl

namespace Compaction

variable (job : Compaction Value) (manifests : List ManifestFile)

/-- The live entries with their indices. -/
abbrev walked : List (LiveEntry × Nat) :=
  (liveEntries manifests).zipIdx

theorem getElem?_of_mem_walked {entry : LiveEntry × Nat} (member : entry ∈ walked manifests) :
    (liveEntries manifests)[entry.2]? = some entry.1 :=
  List.mem_zipIdx_iff_getElem?.mp member

/-! ## The planned entries -/

theorem nodup_compacted : (job.compacted manifests).Nodup := by
  apply List.nodup_flatMap.mpr
  constructor
  · intro group member
    exact nodup_inputs member
  · exact pairwise_disjoint_inputs

theorem lt_of_mem_compacted {idx : Nat} (planned : idx ∈ job.compacted manifests) :
    idx < (liveEntries manifests).length := by
  obtain ⟨group, member, input⟩ := List.mem_flatMap.mp planned
  obtain ⟨file, found, -, -⟩ := (mem_inputs_iff member).mp input
  have bound := (List.getElem?_eq_some_iff.mp found).1
  simpa using bound

theorem touched_of_compacted {entry : LiveEntry × Nat} (member : entry ∈ walked manifests)
    (planned : entry.2 ∈ job.compacted manifests) :
    job.isTouched manifests entry.1.manifestIdx = true := by
  rw [isTouched, Bool.or_eq_true]
  left
  rw [List.any_eq_true]
  refine ⟨entry.2, planned, ?_⟩
  simp [getElem?_of_mem_walked manifests member]

/-- An untouched manifest has live entries only. -/
theorem alive_of_untouched {placed : ManifestFile × Nat} (member : placed ∈ manifests.zipIdx)
    (untouched : job.isTouched manifests placed.2 = false) :
    ∀ entry ∈ placed.1.entries, entry.isAlive = true := by
  intro entry inside
  rw [isTouched, Bool.or_eq_false_iff, List.mem_zipIdx_iff_getElem?.mp member] at untouched
  have clean : placed.1.entries.any (fun entry => !entry.isAlive) = false := by
    simpa [manifestStats] using untouched.2
  have kept := List.any_eq_false.mp clean entry inside
  simpa using kept

/-- Some entries of a walk, by index. -/
theorem perm_filterMap_of_nodup {α : Type} (items : List α) {chosen : List Nat}
    (distinct : chosen.Nodup) (bounded : ∀ idx ∈ chosen, idx < items.length) :
    ((items.zipIdx.filter fun item => item.2 ∈ chosen).map Prod.fst).Perm
      (chosen.filterMap fun idx => items[idx]?) := by
  have shape : (items.zipIdx.filter fun item => item.2 ∈ chosen).map Prod.fst =
      ((List.range items.length).filter fun idx => idx ∈ chosen).filterMap fun idx =>
        items[idx]? := by
    have indices : List.range items.length = items.zipIdx.map Prod.snd := by
      rw [List.zipIdx_map_snd, List.range_eq_range']
    rw [indices, List.filter_map, List.filterMap_map, ← List.filterMap_eq_map]
    apply List.filterMap_congr
    intro item member
    have found := List.mem_zipIdx_iff_getElem?.mp (List.mem_filter.mp member).1
    simp [found]
  rw [shape]
  apply List.Perm.filterMap
  apply (List.perm_ext_iff_of_nodup (List.nodup_range.filter _) distinct).mpr
  intro idx
  simp only [List.mem_filter, List.mem_range, decide_eq_true_eq]
  exact ⟨fun inside => inside.2, fun inside => ⟨bounded idx inside, inside⟩⟩

/-- The planned entries, group by group. -/
def planned : List LiveEntry :=
  (job.compacted manifests).filterMap fun idx => (liveEntries manifests)[idx]?

theorem planned_perm :
    (((walked manifests).filter fun entry => entry.2 ∈ job.compacted manifests).map
      Prod.fst).Perm (job.planned manifests) :=
  perm_filterMap_of_nodup _ (job.nodup_compacted manifests) fun _ inside =>
    job.lt_of_mem_compacted manifests inside

/-- The entries that stay live. -/
def kept : List LiveEntry :=
  ((walked manifests).filter fun entry => entry.2 ∉ job.compacted manifests).map Prod.fst

theorem live_perm : (liveEntries manifests).Perm (job.kept manifests ++ job.planned manifests) := by
  have split := List.filter_append_perm
    (fun entry : LiveEntry × Nat => decide (entry.2 ∉ job.compacted manifests)) (walked manifests)
  have firsts := split.map Prod.fst
  rw [List.map_append, List.zipIdx_map_fst] at firsts
  apply firsts.symm.trans
  apply List.Perm.append_left
  simpa using job.planned_perm manifests

/-! ## The new manifests -/

/-- Whether the entry's manifest is carried as it is. -/
def isCarried (entry : LiveEntry) : Bool :=
  !job.isTouched manifests entry.manifestIdx

theorem provenances_carried :
    provenances (job.carried manifests) =
      ((liveEntries manifests).filter (job.isCarried manifests)).map LiveEntry.provenance := by
  rw [carried, ← map_provenance_flatMap, liveEntries]
  congr 1
  induction manifests.zipIdx with
  | nil => rfl
  | cons placed rest ih =>
      have own : (liveEntriesOf placed).filter (job.isCarried manifests) =
          if job.isTouched manifests placed.2 then [] else liveEntriesOf placed := by
        split
        · rename_i touched
          apply List.filter_eq_nil_iff.mpr
          intro entry member
          simp [isCarried, manifestIdx_of_mem member, touched]
        · rename_i untouched
          apply List.filter_eq_self.mpr
          intro entry member
          simpa [isCarried, manifestIdx_of_mem member] using untouched
      rw [List.flatMap_cons, List.filter_append, own, ← ih]
      by_cases touched : job.isTouched manifests placed.2 = true
      · simp [touched]
      · by_cases empty : (manifestStats placed.1).1 = 0
        · have none : liveEntriesOf placed = [] := by
            rw [liveEntriesOf, List.map_eq_nil_iff]
            exact List.length_eq_zero_iff.mp empty
          simp [touched, empty, none]
        · have some : 0 < (manifestStats placed.1).1 := Nat.pos_of_ne_zero empty
          simp [touched, some]

theorem provenances_rewritten :
    provenances [job.rewrittenManifest manifests] =
      (((walked manifests).filter fun entry =>
        !job.isCarried manifests entry.1 && entry.2 ∉ job.compacted manifests).map
        Prod.fst).map LiveEntry.provenance := by
  simp only [provenances, List.flatMap_singleton, liveEntriesOf, rewrittenManifest, walked]
  induction (liveEntries manifests).zipIdx with
  | nil => rfl
  | cons entry rest ih =>
      by_cases touched : job.isTouched manifests entry.1.manifestIdx = true
      · by_cases chosen : entry.2 ∈ job.compacted manifests
        · simpa [rewrittenEntry, isCarried, touched, chosen, ManifestEntry.isAlive] using ih
        · simpa [rewrittenEntry, isCarried, touched, chosen, ManifestEntry.isAlive,
            LiveEntry.provenance] using ih
      · simpa [rewrittenEntry, isCarried, touched] using ih

theorem removedFiles_rewritten :
    removedFiles [job.rewrittenManifest manifests] =
      (((walked manifests).filter fun entry =>
        !job.isCarried manifests entry.1 && entry.2 ∈ job.compacted manifests).map
        Prod.fst).map LiveEntry.dataFile := by
  simp only [removedFiles, List.flatMap_singleton, rewrittenManifest, walked]
  induction (liveEntries manifests).zipIdx with
  | nil => rfl
  | cons entry rest ih =>
      by_cases touched : job.isTouched manifests entry.1.manifestIdx = true
      · by_cases chosen : entry.2 ∈ job.compacted manifests
        · simpa [rewrittenEntry, isCarried, touched, chosen] using ih
        · simpa [rewrittenEntry, isCarried, touched, chosen] using ih
      · simpa [rewrittenEntry, isCarried, touched] using ih

theorem removedFiles_carried : removedFiles (job.carried manifests) = [] := by
  apply List.flatMap_eq_nil_iff.mpr
  intro manifest member
  obtain ⟨placed, inside, rfl⟩ := List.mem_map.mp member
  obtain ⟨there, passes⟩ := List.mem_filter.mp inside
  have untouched : job.isTouched manifests placed.2 = false := by
    simp only [Bool.and_eq_true, Bool.not_eq_true'] at passes
    exact passes.1
  have alive := job.alive_of_untouched manifests there untouched
  rw [List.map_eq_nil_iff, List.filter_eq_nil_iff]
  intro entry inEntries
  have kept := alive entry inEntries
  simpa [ManifestEntry.isAlive] using kept

theorem provenances_added (files : List DataFile) :
    provenances (job.addedManifest files) = files.map fun file =>
      (file, job.backend.snapshotId, job.metadata.nextSequenceNumber,
        job.metadata.nextSequenceNumber) := by
  rw [addedManifest]
  split
  · rename_i empty
    rw [List.isEmpty_iff.mp empty]
    rfl
  · simp [provenances, liveEntriesOf, List.filter_map, Function.comp_def, ManifestEntry.isAlive,
      LiveEntry.provenance]

theorem removedFiles_added (files : List DataFile) :
    removedFiles (job.addedManifest files) = [] := by
  rw [addedManifest]
  split
  · rfl
  · simp [removedFiles, List.filter_map, Function.comp_def]

/-- The entries that stay live are those of the carried manifests and the existing ones of the
rewritten manifest. -/
theorem provenances_kept :
    (provenances (job.carried manifests ++ [job.rewrittenManifest manifests])).Perm
      ((job.kept manifests).map LiveEntry.provenance) := by
  have unplanned : ∀ entry ∈ walked manifests, job.isCarried manifests entry.1 =
      (job.isCarried manifests entry.1 && decide (entry.2 ∉ job.compacted manifests)) := by
    intro entry member
    by_cases chosen : entry.2 ∈ job.compacted manifests
    · simp [isCarried, job.touched_of_compacted manifests member chosen]
    · simp [chosen]
  have carriedPart : (liveEntries manifests).filter (job.isCarried manifests) =
      (((walked manifests).filter fun entry => entry.2 ∉ job.compacted manifests).filter
        fun entry => job.isCarried manifests entry.1).map Prod.fst := by
    conv_lhs => rw [← List.zipIdx_map_fst 0 (liveEntries manifests)]
    rw [List.filter_map, List.filter_filter]
    congr 1
    apply List.filter_congr
    exact unplanned
  have rewrittenPart : ((walked manifests).filter fun entry =>
        !job.isCarried manifests entry.1 && entry.2 ∉ job.compacted manifests) =
      ((walked manifests).filter fun entry => entry.2 ∉ job.compacted manifests).filter
        fun entry => !job.isCarried manifests entry.1 := by
    rw [List.filter_filter]
  rw [provenances_append, provenances_carried, provenances_rewritten, carriedPart, rewrittenPart,
    kept, ← List.map_append, ← List.map_append]
  apply List.Perm.map
  apply List.Perm.map
  exact List.filter_append_perm _ _

/-- The files the snapshot records as deleted are the planned ones. -/
theorem removedFiles_perm (files : List DataFile) :
    (removedFiles (job.carried manifests ++ [job.rewrittenManifest manifests] ++
      job.addedManifest files)).Perm ((job.planned manifests).map LiveEntry.dataFile) := by
  have touched : ((walked manifests).filter fun entry =>
        !job.isCarried manifests entry.1 && entry.2 ∈ job.compacted manifests) =
      (walked manifests).filter fun entry => entry.2 ∈ job.compacted manifests := by
    apply List.filter_congr
    intro entry member
    by_cases chosen : entry.2 ∈ job.compacted manifests
    · simp [isCarried, job.touched_of_compacted manifests member chosen]
    · simp [chosen]
  have shape : removedFiles (job.carried manifests ++ [job.rewrittenManifest manifests] ++
      job.addedManifest files) = removedFiles [job.rewrittenManifest manifests] := by
    have split (first second : List ManifestFile) :
        removedFiles (first ++ second) = removedFiles first ++ removedFiles second :=
      List.flatMap_append
    rw [split, split, removedFiles_carried, removedFiles_added, List.append_nil, List.nil_append]
  rw [shape, removedFiles_rewritten, touched]
  exact (job.planned_perm manifests).map LiveEntry.dataFile

end Compaction

end Icegres.Compact
