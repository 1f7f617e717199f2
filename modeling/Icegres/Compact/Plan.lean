import Mathlib.Algebra.BigOperators.Group.List.Basic
import Mathlib.Algebra.Ring.Nat
import Mathlib.Data.List.Enum
import Mathlib.Data.List.Nodup

/-!
# The compaction plan

Files under the target size are grouped by partition, in the order in which the partitions are
first seen, and a partition is planned when it has enough of them.
-/

namespace Icegres.Compact

structure CompactCandidate where
  path : String
  sizeBytes : Nat
  recordCount : Nat
  partition : String

/-- The files of one partition that are rewritten together, as indices of candidates. -/
structure CompactGroup where
  partition : String
  inputs : List Nat
  totalBytes : Nat
  totalRecords : Nat

def CompactGroup.empty (partition : String) : CompactGroup :=
  ⟨partition, [], 0, 0⟩

def CompactGroup.push (group : CompactGroup) (idx : Nat) (file : CompactCandidate) :
    CompactGroup where
  partition := group.partition
  inputs := group.inputs ++ [idx]
  totalBytes := group.totalBytes + file.sizeBytes
  totalRecords := group.totalRecords + file.recordCount

/-- Put a candidate into the first group of its partition, or into a new last group. -/
def addCandidate (groups : List CompactGroup) (idx : Nat) (file : CompactCandidate) :
    List CompactGroup :=
  match groups with
  | [] => [(CompactGroup.empty file.partition).push idx file]
  | group :: rest =>
      if group.partition = file.partition then group.push idx file :: rest
      else group :: addCandidate rest idx file

/-- One file of the walk; a file of the target size or more is left alone. -/
def planFile (targetBytes : Nat) (groups : List CompactGroup) (file : CompactCandidate × Nat) :
    List CompactGroup :=
  if targetBytes ≤ file.1.sizeBytes then groups else addCandidate groups file.2 file.1

def planCompaction (files : List CompactCandidate) (targetBytes minInputFiles : Nat) :
    List CompactGroup :=
  (files.zipIdx.foldl (planFile targetBytes) []).filter fun group =>
    minInputFiles ≤ group.inputs.length

/-! ## What a group holds -/

/-- The under-target files of a partition, with their indices. -/
def membersOf (targetBytes : Nat) (partition : String) (files : List (CompactCandidate × Nat)) :
    List (CompactCandidate × Nat) :=
  files.filter fun file => file.1.sizeBytes < targetBytes ∧ file.1.partition = partition

/-- The group is made of exactly these files. -/
structure CompactGroup.Of (group : CompactGroup) (members : List (CompactCandidate × Nat)) :
    Prop where
  inputs : group.inputs = members.map Prod.snd
  totalBytes : group.totalBytes = (members.map fun file => file.1.sizeBytes).sum
  totalRecords : group.totalRecords = (members.map fun file => file.1.recordCount).sum

theorem CompactGroup.Of.push {group : CompactGroup} {members : List (CompactCandidate × Nat)}
    (of : group.Of members) (idx : Nat) (file : CompactCandidate) :
    (group.push idx file).Of (members ++ [(file, idx)]) where
  inputs := by simp [CompactGroup.push, of.inputs]
  totalBytes := by simp [CompactGroup.push, of.totalBytes]
  totalRecords := by simp [CompactGroup.push, of.totalRecords]

theorem partitions_addCandidate (groups : List CompactGroup) (idx : Nat)
    (file : CompactCandidate) :
    (addCandidate groups idx file).map CompactGroup.partition =
      if file.partition ∈ groups.map CompactGroup.partition then
        groups.map CompactGroup.partition
      else groups.map CompactGroup.partition ++ [file.partition] := by
  induction groups with
  | nil => simp [addCandidate, CompactGroup.push, CompactGroup.empty]
  | cons group rest ih =>
      by_cases same : group.partition = file.partition
      · simp [addCandidate, same, CompactGroup.push]
      · have different : ¬ file.partition = group.partition := fun eq => same eq.symm
        simp only [addCandidate, same, if_false, List.map_cons, ih, List.mem_cons, different,
          false_or]
        split <;> simp

/-- A group after a candidate was added: another partition's, the candidate's own, or a new one. -/
theorem mem_addCandidate {groups : List CompactGroup}
    (distinct : (groups.map CompactGroup.partition).Nodup) {idx : Nat} {file : CompactCandidate}
    {group : CompactGroup} (member : group ∈ addCandidate groups idx file) :
    (group ∈ groups ∧ group.partition ≠ file.partition) ∨
      (∃ old ∈ groups, old.partition = file.partition ∧ group = old.push idx file) ∨
      (file.partition ∉ groups.map CompactGroup.partition ∧
        group = (CompactGroup.empty file.partition).push idx file) := by
  induction groups with
  | nil =>
      simp only [addCandidate, List.mem_singleton] at member
      exact .inr (.inr ⟨by simp, member⟩)
  | cons first rest ih =>
      rw [List.map_cons, List.nodup_cons] at distinct
      by_cases same : first.partition = file.partition
      · simp only [addCandidate, same, if_true, List.mem_cons] at member
        rcases member with rfl | inRest
        · exact .inr (.inl ⟨first, List.mem_cons_self, same, rfl⟩)
        · refine .inl ⟨List.mem_cons_of_mem _ inRest, ?_⟩
          intro again
          apply distinct.1
          rw [same, ← again]
          exact List.mem_map_of_mem inRest
      · simp only [addCandidate, same, if_false, List.mem_cons] at member
        rcases member with rfl | inRest
        · exact .inl ⟨List.mem_cons_self, same⟩
        · rcases ih distinct.2 inRest with ⟨old, different⟩ | ⟨old, inside, eq, pushed⟩ |
            ⟨absent, new⟩
          · exact .inl ⟨List.mem_cons_of_mem _ old, different⟩
          · exact .inr (.inl ⟨old, List.mem_cons_of_mem _ inside, eq, pushed⟩)
          · refine .inr (.inr ⟨?_, new⟩)
            simp only [List.map_cons, List.mem_cons, not_or]
            exact ⟨fun eq => same eq.symm, absent⟩

/-- The groups of the files walked so far. -/
structure Grouped (targetBytes : Nat) (files : List (CompactCandidate × Nat))
    (groups : List CompactGroup) : Prop where
  distinct : (groups.map CompactGroup.partition).Nodup
  members : ∀ group ∈ groups, group.Of (membersOf targetBytes group.partition files)
  complete : ∀ file ∈ files, file.1.sizeBytes < targetBytes →
    file.1.partition ∈ groups.map CompactGroup.partition

theorem membersOf_append (targetBytes : Nat) (partition : String)
    (files : List (CompactCandidate × Nat)) (file : CompactCandidate × Nat) :
    membersOf targetBytes partition (files ++ [file]) =
      membersOf targetBytes partition files ++
        if file.1.sizeBytes < targetBytes ∧ file.1.partition = partition then [file] else [] := by
  by_cases inside : file.1.sizeBytes < targetBytes ∧ file.1.partition = partition
  · simp [membersOf, inside]
  · simp [membersOf, inside]

theorem Grouped.add {targetBytes : Nat} {files : List (CompactCandidate × Nat)}
    {groups : List CompactGroup} (grouped : Grouped targetBytes files groups)
    (file : CompactCandidate × Nat) :
    Grouped targetBytes (files ++ [file]) (planFile targetBytes groups file) := by
  by_cases sized : targetBytes ≤ file.1.sizeBytes
  · have shape : planFile targetBytes groups file = groups := by simp [planFile, sized]
    have large : ¬ file.1.sizeBytes < targetBytes := by omega
    rw [shape]
    constructor
    · exact grouped.distinct
    · intro group member
      rw [membersOf_append]
      simpa [large] using grouped.members group member
    · intro other member under
      rcases List.mem_append.mp member with before | here
      · exact grouped.complete other before under
      · rw [List.mem_singleton.mp here] at under
        exact absurd under large
  · have under : file.1.sizeBytes < targetBytes := by omega
    have shape : planFile targetBytes groups file = addCandidate groups file.2 file.1 := by
      simp [planFile, sized]
    have partitions := partitions_addCandidate groups file.2 file.1
    rw [shape]
    constructor
    case distinct =>
      rw [partitions]
      split
      · exact grouped.distinct
      · rename_i absent
        apply List.Nodup.append grouped.distinct (List.nodup_singleton _)
        intro partition inside here
        rw [List.mem_singleton.mp here] at inside
        exact absent inside
    case members =>
      intro group member
      rw [membersOf_append]
      rcases mem_addCandidate grouped.distinct member with ⟨old, different⟩ |
        ⟨old, inside, same, rfl⟩ | ⟨absent, rfl⟩
      · have other : ¬ file.1.partition = group.partition := fun eq => different eq.symm
        simpa [other] using grouped.members group old
      · have own := (grouped.members old inside).push file.2 file.1
        simpa [CompactGroup.push, same, under] using own
      · have none : membersOf targetBytes file.1.partition files = [] := by
          apply List.filter_eq_nil_iff.mpr
          intro other inside passes
          simp only [decide_eq_true_eq] at passes
          apply absent
          rw [← passes.2]
          exact grouped.complete other inside passes.1
        have empty : (CompactGroup.empty file.1.partition).Of [] := ⟨rfl, rfl, rfl⟩
        simpa [CompactGroup.push, CompactGroup.empty, none, under] using
          empty.push file.2 file.1
    case complete =>
      intro other member small
      rw [partitions]
      rcases List.mem_append.mp member with before | here
      · have inside := grouped.complete other before small
        split
        · exact inside
        · exact List.mem_append_left _ inside
      · rw [List.mem_singleton.mp here]
        split
        · rename_i inside
          exact inside
        · simp

theorem grouped_foldl {targetBytes : Nat} (files : List (CompactCandidate × Nat))
    {walked : List (CompactCandidate × Nat)} {groups : List CompactGroup}
    (grouped : Grouped targetBytes walked groups) :
    Grouped targetBytes (walked ++ files) (files.foldl (planFile targetBytes) groups) := by
  induction files generalizing walked groups with
  | nil => simpa using grouped
  | cons file rest ih =>
      rw [List.foldl_cons, List.append_cons]
      exact ih (grouped.add file)

/-! ## The plan -/

section

variable {files : List CompactCandidate} {targetBytes minInputFiles : Nat}

theorem grouped_files (files : List CompactCandidate) (targetBytes : Nat) :
    Grouped targetBytes files.zipIdx (files.zipIdx.foldl (planFile targetBytes) []) := by
  have start : Grouped targetBytes [] [] := ⟨.nil, by simp, by simp⟩
  exact grouped_foldl files.zipIdx start

theorem mem_planCompaction {group : CompactGroup}
    (member : group ∈ planCompaction files targetBytes minInputFiles) :
    group.Of (membersOf targetBytes group.partition files.zipIdx) ∧
      minInputFiles ≤ group.inputs.length := by
  obtain ⟨inside, enough⟩ := List.mem_filter.mp member
  exact ⟨(grouped_files files targetBytes).members group inside, by simpa using enough⟩

/-- The inputs of a group are the under-target files of its partition. -/
theorem mem_inputs_iff {group : CompactGroup}
    (member : group ∈ planCompaction files targetBytes minInputFiles) {idx : Nat} :
    idx ∈ group.inputs ↔ ∃ file, files[idx]? = some file ∧ file.sizeBytes < targetBytes ∧
      file.partition = group.partition := by
  rw [(mem_planCompaction member).1.inputs]
  simp only [membersOf, List.mem_map, List.mem_filter, List.mem_zipIdx_iff_getElem?,
    decide_eq_true_eq]
  constructor
  · rintro ⟨⟨file, index⟩, ⟨found, under, same⟩, rfl⟩
    exact ⟨file, found, under, same⟩
  · rintro ⟨file, found, under, same⟩
    exact ⟨(file, idx), ⟨found, under, same⟩, rfl⟩

theorem nodup_inputs {group : CompactGroup}
    (member : group ∈ planCompaction files targetBytes minInputFiles) : group.inputs.Nodup := by
  rw [(mem_planCompaction member).1.inputs]
  apply List.Nodup.sublist (List.Sublist.map _ List.filter_sublist)
  rw [List.zipIdx_map_snd]
  exact List.nodup_range'

theorem pairwise_partition :
    (planCompaction files targetBytes minInputFiles).Pairwise fun left right =>
      left.partition ≠ right.partition := by
  apply List.Pairwise.sublist List.filter_sublist
  exact List.pairwise_map.mp (grouped_files files targetBytes).distinct

/-- No file is in two groups. -/
theorem pairwise_disjoint_inputs :
    (planCompaction files targetBytes minInputFiles).Pairwise fun left right =>
      left.inputs.Disjoint right.inputs := by
  apply List.Pairwise.imp_of_mem _ pairwise_partition
  intro left right inLeft inRight different idx leftInput rightInput
  obtain ⟨file, found, -, leftPartition⟩ := (mem_inputs_iff inLeft).mp leftInput
  obtain ⟨other, again, -, rightPartition⟩ := (mem_inputs_iff inRight).mp rightInput
  obtain rfl : file = other := Option.some.inj (found.symm.trans again)
  exact different (leftPartition.symm.trans rightPartition)

end

end Icegres.Compact
