import Mathlib.Algebra.Ring.Nat
import Mathlib.Data.List.Basic
import Mathlib.Logic.Function.Basic

/-!
# Table metadata and its commits

A catalog holds the metadata of a table: the snapshots and the named references into them. A
commit lists requirements and updates. The catalog applies the updates, in order, when every
requirement holds of the metadata as it stands, and refuses the commit otherwise.
-/

namespace Icegres.Catalog

variable {Content : Type}

inductive RefKind where
  | branch
  | tag
  deriving DecidableEq

structure SnapshotReference where
  snapshotId : Int
  kind : RefKind
  deriving DecidableEq

structure Snapshot (Content : Type) where
  snapshotId : Int
  parentSnapshotId : Option Int
  timestampMs : Int
  content : Content

structure Metadata (Content : Type) where
  uuid : String
  snapshots : List (Snapshot Content)
  refs : List (String × SnapshotReference)

inductive Requirement where
  | uuidMatch (uuid : String)
  /-- The reference points at the snapshot, or does not exist when there is none. -/
  | refSnapshotIdMatch (ref : String) (snapshotId : Option Int)
  deriving DecidableEq

inductive Update (Content : Type) where
  | addSnapshot (snapshot : Snapshot Content)
  | setSnapshotRef (name : String) (reference : SnapshotReference)
  | removeSnapshots (snapshotIds : List Int)
  | removeSnapshotRef (name : String)

structure Request (Content : Type) where
  requirements : List Requirement
  updates : List (Update Content)

namespace Metadata

variable (metadata : Metadata Content)

def snapshotIds : List Int :=
  metadata.snapshots.map Snapshot.snapshotId

def snapshotById (snapshotId : Int) : Option (Snapshot Content) :=
  metadata.snapshots.find? fun snapshot => snapshot.snapshotId = snapshotId

/-- What the reference points at. -/
def refSnapshotId (name : String) : Option Int :=
  (metadata.refs.lookup name).map SnapshotReference.snapshotId

/-- The snapshot the reference points at, when the metadata has it. -/
def snapshotForRef (name : String) : Option (Snapshot Content) :=
  (metadata.refSnapshotId name).bind metadata.snapshotById

/-- The references other than the named one. -/
def otherRefs (name : String) : List (String × SnapshotReference) :=
  metadata.refs.filter fun ref => ref.1 ≠ name

end Metadata

def Requirement.Holds (metadata : Metadata Content) : Requirement → Prop
  | .uuidMatch uuid => metadata.uuid = uuid
  | .refSnapshotIdMatch ref snapshotId => metadata.refSnapshotId ref = snapshotId

instance (metadata : Metadata Content) (requirement : Requirement) :
    Decidable (requirement.Holds metadata) :=
  match requirement with
  | .uuidMatch uuid => inferInstanceAs (Decidable (metadata.uuid = uuid))
  | .refSnapshotIdMatch ref snapshotId =>
      inferInstanceAs (Decidable (metadata.refSnapshotId ref = snapshotId))

def Update.apply (metadata : Metadata Content) : Update Content → Metadata Content
  | .addSnapshot snapshot => { metadata with snapshots := metadata.snapshots ++ [snapshot] }
  | .setSnapshotRef name reference =>
      { metadata with refs := (name, reference) :: metadata.otherRefs name }
  | .removeSnapshots snapshotIds =>
      { metadata with
        snapshots := metadata.snapshots.filter fun snapshot =>
          snapshot.snapshotId ∉ snapshotIds }
  | .removeSnapshotRef name => { metadata with refs := metadata.otherRefs name }

/-- Every requirement holds of the metadata. -/
def Request.Accepted (metadata : Metadata Content) (request : Request Content) : Prop :=
  ∀ requirement ∈ request.requirements, requirement.Holds metadata

instance (metadata : Metadata Content) (request : Request Content) :
    Decidable (request.Accepted metadata) :=
  inferInstanceAs (Decidable (∀ requirement ∈ request.requirements, requirement.Holds metadata))

def Request.apply (metadata : Metadata Content) (request : Request Content) : Metadata Content :=
  request.updates.foldl Update.apply metadata

/-- The commit at the catalog; `none` is a conflict, after which nothing changed. -/
def Request.commit (metadata : Metadata Content) (request : Request Content) :
    Option (Metadata Content) :=
  if request.Accepted metadata then some (request.apply metadata) else none

theorem Request.commit_eq_some {metadata after : Metadata Content} {request : Request Content}
    (committed : request.commit metadata = some after) :
    request.Accepted metadata ∧ after = request.apply metadata := by
  unfold Request.commit at committed
  split at committed
  · rename_i accepted
    exact ⟨accepted, (Option.some.inj committed).symm⟩
  · cases committed

/-! ## References and the snapshots they point at -/

namespace Metadata

variable {metadata : Metadata Content}

/-- Every reference points at a snapshot of the metadata. -/
def RefsPresent (metadata : Metadata Content) : Prop :=
  ∀ ref ∈ metadata.refs, ref.2.snapshotId ∈ metadata.snapshotIds

theorem mem_refs_of_refSnapshotId {name : String} {snapshotId : Int}
    (points : metadata.refSnapshotId name = some snapshotId) :
    ∃ reference, (name, reference) ∈ metadata.refs ∧ reference.snapshotId = snapshotId := by
  obtain ⟨reference, found, rfl⟩ := Option.map_eq_some_iff.mp points
  obtain ⟨front, rest, split, -⟩ := List.lookup_eq_some_iff.mp found
  exact ⟨reference, by simp [split], rfl⟩

@[simp] theorem snapshotIds_addSnapshot (snapshot : Snapshot Content) :
    ((Update.addSnapshot snapshot).apply metadata).snapshotIds =
      metadata.snapshotIds ++ [snapshot.snapshotId] := by
  simp [Update.apply, snapshotIds]

@[simp] theorem snapshotIds_setSnapshotRef (name : String) (reference : SnapshotReference) :
    ((Update.setSnapshotRef name reference).apply metadata).snapshotIds =
      metadata.snapshotIds := rfl

@[simp] theorem snapshotIds_removeSnapshotRef (name : String) :
    ((Update.removeSnapshotRef name).apply metadata).snapshotIds = metadata.snapshotIds := rfl

theorem mem_snapshotIds_removeSnapshots {removed : List Int} {snapshotId : Int} :
    snapshotId ∈ ((Update.removeSnapshots removed).apply metadata).snapshotIds ↔
      snapshotId ∈ metadata.snapshotIds ∧ snapshotId ∉ removed := by
  simp only [Update.apply, snapshotIds, List.mem_map, List.mem_filter]
  constructor
  · rintro ⟨snapshot, ⟨member, kept⟩, rfl⟩
    exact ⟨⟨snapshot, member, rfl⟩, by simpa using kept⟩
  · rintro ⟨⟨snapshot, member, rfl⟩, kept⟩
    exact ⟨snapshot, ⟨member, by simpa using kept⟩, rfl⟩

theorem mem_refs_setSnapshotRef {name : String} {reference : SnapshotReference}
    {ref : String × SnapshotReference}
    (member : ref ∈ ((Update.setSnapshotRef name reference).apply metadata).refs) :
    ref = (name, reference) ∨ ref ∈ metadata.refs := by
  rcases List.mem_cons.mp member with rfl | other
  · exact .inl rfl
  · exact .inr (List.mem_filter.mp other).1

theorem mem_refs_removeSnapshotRef {name : String} {ref : String × SnapshotReference}
    (member : ref ∈ ((Update.removeSnapshotRef name).apply metadata : Metadata Content).refs) :
    ref ∈ metadata.refs :=
  (List.mem_filter.mp member).1

/-- Where a reference points once another one is gone. -/
theorem lookup_otherRefs (name other : String) :
    (metadata.otherRefs name).lookup other =
      if other = name then none else metadata.refs.lookup other := by
  unfold otherRefs
  induction metadata.refs with
  | nil => simp
  | cons ref rest ih =>
      obtain ⟨key, reference⟩ := ref
      by_cases removed : key = name
      · subst removed
        rw [List.filter_cons_of_neg (by simp), ih]
        split
        · rfl
        · rename_i different
          rw [List.lookup_cons, beq_false_of_ne different]
      · rw [List.filter_cons_of_pos (by simpa using removed), List.lookup_cons, List.lookup_cons,
          ih]
        by_cases same : other = key
        · subst same
          simp [removed]
        · simp [beq_false_of_ne same]

theorem refSnapshotId_setSnapshotRef (name other : String) (reference : SnapshotReference) :
    ((Update.setSnapshotRef name reference).apply metadata).refSnapshotId other =
      if other = name then some reference.snapshotId else metadata.refSnapshotId other := by
  simp only [Update.apply, refSnapshotId, List.lookup_cons]
  by_cases same : other = name
  · subst same
    simp
  · simp [beq_false_of_ne same, lookup_otherRefs, same]

theorem refSnapshotId_removeSnapshotRef (name other : String) :
    ((Update.removeSnapshotRef name).apply metadata).refSnapshotId other =
      if other = name then none else metadata.refSnapshotId other := by
  simp only [Update.apply, refSnapshotId, lookup_otherRefs]
  split
  · rfl
  · rfl

end Metadata

end Icegres.Catalog
