import Icegres.Buffer.System

/-!
# Commits in flight

A prepared commit waits to reach the catalog while other commits land. It asserts the head it was
prepared on, and metadata with the same head carries the same watermark; so if all it appends
lies above the watermark it was prepared on, then it lands above everything that landed before.
This is what any number of writers of one tail rest on, whatever the order of their requests.
-/

namespace Icegres.Buffer

namespace Lake

/-- The table as far as its writers rely on it: one watermark for each head, nothing landed above
the watermark, and no sequence in two landed commits. -/
structure Once (lake : Lake) : Prop where
  headed : ∀ first ∈ lake.versions, ∀ second ∈ lake.versions, first.head = second.head →
    first.watermark = second.watermark
  heads : ∀ metadata ∈ lake.versions, ∀ id, metadata.head = some id → id < lake.nextSnapshot
  covered : ∀ prepared ∈ lake.landed, ∀ seq, some seq ∈ prepared.contents →
    ∃ mark, lake.current.watermark = some mark ∧ seq ≤ mark
  apart : lake.landed.Pairwise fun earlier later =>
    ∀ seq, some seq ∈ earlier.contents → some seq ∉ later.contents

end Lake

/-- A commit based on a version: all it appends lies above the version's watermark and at or
below the mark it stamps, which does not go back. -/
structure Prepared.On (prepared : Prepared) (base : Metadata) : Prop where
  head : prepared.head = base.head
  above : ∀ seq, some seq ∈ prepared.contents → ∀ mark, base.watermark = some mark → mark < seq
  stamps : ∀ seq, some seq ∈ prepared.contents → ∃ mark, prepared.stamped = some mark ∧ seq ≤ mark
  keeps : ∀ stamped, prepared.stamped = some stamped → ∀ mark, base.watermark = some mark →
    mark ≤ stamped

/-- A commit that has not landed. -/
structure Prepared.Waits (prepared : Prepared) (lake : Lake) : Prop where
  based : ∃ base ∈ lake.versions, prepared.On base
  id : prepared.snapshotId < lake.nextSnapshot
  unlanded : ∀ metadata ∈ lake.versions, metadata.head ≠ some prepared.snapshotId

/-- The table and the commits on their way to it. -/
structure Flight (lake : Lake) (flight : List Prepared) : Prop where
  once : lake.Once
  waits : ∀ prepared ∈ flight, prepared.Waits lake
  distinct : (flight.map Prepared.snapshotId).Nodup

theorem Lake.mem_arrive {lake : Lake} {metadata : Metadata} (prepared : Prepared)
    (mem : metadata ∈ lake.versions) : metadata ∈ (lake.arrive prepared).1.versions := by
  unfold Lake.arrive
  split
  · exact List.mem_append_left _ mem
  · exact mem

namespace Flight

variable {lake : Lake} {flight : List Prepared} {prepared : Prepared}

/-- Requests are lost and reordered. -/
theorem lose (flying : Flight lake flight) {fewer : List Prepared} (sub : fewer.Subperm flight) :
    Flight lake fewer where
  once := flying.once
  waits prepared mem := flying.waits prepared (sub.subset mem)
  distinct := by
    obtain ⟨list, perm, sublist⟩ := sub
    exact ((perm.map _).nodup_iff).mp (flying.distinct.sublist (sublist.map _))

/-- The requests nobody waits for do not matter to the table. -/
theorem forget (flying : Flight lake flight) (strays : List Prepared) :
    Flight { lake with strays := strays } flight where
  once := ⟨flying.once.headed, flying.once.heads, flying.once.covered, flying.once.apart⟩
  waits prepared mem :=
    ⟨(flying.waits prepared mem).based, (flying.waits prepared mem).id,
      (flying.waits prepared mem).unlanded⟩
  distinct := flying.distinct

/-- New metadata with the current head and watermark, or under a head of its own. -/
theorem publish (flying : Flight lake flight) {metadata : Metadata} {next : Nat}
    (watermark : metadata.watermark = lake.current.watermark)
    (head : metadata.head = lake.current.head ∨ metadata.head = some lake.nextSnapshot ∧
      lake.nextSnapshot < next) (later : lake.nextSnapshot ≤ next) :
    Flight { lake.publish metadata with nextSnapshot := next } flight := by
  have isCurrent : lake.current ∈ lake.versions := List.mem_append_right _ List.mem_cons_self
  have fresh {other : Metadata} (mem : other ∈ lake.versions) (same : other.head = metadata.head) :
      other.watermark = metadata.watermark := by
    rcases head with kept | ⟨new, -⟩
    · exact (flying.once.headed other mem _ isCurrent (same.trans kept)).trans watermark.symm
    · exact absurd (flying.once.heads other mem _ (same.trans new)) (lt_irrefl _)
  refine ⟨⟨?_, ?_, ?_, flying.once.apart⟩, fun prepared mem => ?_, flying.distinct⟩
  · intro first isFirst second isSecond same
    rcases List.mem_append.mp isFirst with oldFirst | newFirst
    · rcases List.mem_append.mp isSecond with oldSecond | newSecond
      · exact flying.once.headed first oldFirst second oldSecond same
      · cases List.mem_singleton.mp newSecond
        exact fresh oldFirst same
    · cases List.mem_singleton.mp newFirst
      rcases List.mem_append.mp isSecond with oldSecond | newSecond
      · exact (fresh oldSecond same.symm).symm
      · cases List.mem_singleton.mp newSecond
        rfl
  · intro other mem id isHead
    rcases List.mem_append.mp mem with old | new
    · exact (flying.once.heads other old id isHead).trans_le later
    · cases List.mem_singleton.mp new
      rcases head with kept | ⟨isNew, below⟩
      · exact (flying.once.heads _ isCurrent id (kept.symm.trans isHead)).trans_le later
      · cases isNew.symm.trans isHead
        exact below
  · intro landed mem seq isSeq
    obtain ⟨mark, isMark, below⟩ := flying.once.covered landed mem seq isSeq
    exact ⟨mark, watermark.trans isMark, below⟩
  · obtain ⟨⟨base, isBase, on⟩, id, unlanded⟩ := flying.waits prepared mem
    refine ⟨⟨base, List.mem_append_left _ isBase, on⟩, id.trans_le later, fun other isOther => ?_⟩
    rcases List.mem_append.mp isOther with old | new
    · exact unlanded other old
    · cases List.mem_singleton.mp new
      change metadata.head ≠ some prepared.snapshotId
      rcases head with kept | ⟨isNew, -⟩
      · rw [kept]
        exact unlanded _ isCurrent
      · rw [isNew]
        exact fun same => id.ne' (Option.some.inj same)

/-- A commit is prepared on some version. -/
theorem prepare (flying : Flight lake flight) {base : Metadata} (isBase : base ∈ lake.versions)
    (on : prepared.On base) (id : prepared.snapshotId = lake.nextSnapshot) :
    Flight { lake with nextSnapshot := lake.nextSnapshot + 1 } (prepared :: flight) := by
  refine ⟨⟨flying.once.headed, fun metadata mem id isHead => ?_, flying.once.covered,
    flying.once.apart⟩, fun other mem => ?_, ?_⟩
  · exact (flying.once.heads metadata mem id isHead).trans (Nat.lt_succ_self _)
  · rcases List.mem_cons.mp mem with rfl | old
    · refine ⟨⟨base, isBase, on⟩, by rw [id]; exact Nat.lt_succ_self _, fun metadata mem same => ?_⟩
      exact absurd (flying.once.heads metadata mem _ same) (by rw [id]; exact lt_irrefl _)
    · obtain ⟨based, below, unlanded⟩ := flying.waits other old
      exact ⟨based, below.trans (Nat.lt_succ_self _), unlanded⟩
  · rw [List.map_cons, List.nodup_cons]
    refine ⟨fun mem => ?_, flying.distinct⟩
    obtain ⟨other, isOther, same⟩ := List.mem_map.mp mem
    exact absurd ((flying.waits other isOther).id) (by rw [same, id]; exact lt_irrefl _)

/-- A commit that lands does so above everything that landed before. -/
theorem land (flying : Flight lake (prepared :: flight))
    (sameHead : lake.current.head = prepared.head) :
    Flight { lake.publish (lake.current.commit prepared) with
      landed := lake.landed ++ [prepared] } flight := by
  have isCurrent : lake.current ∈ lake.versions := List.mem_append_right _ List.mem_cons_self
  obtain ⟨⟨base, isBase, on⟩, isId, unlanded⟩ := flying.waits prepared List.mem_cons_self
  have watermark : lake.current.watermark = base.watermark :=
    flying.once.headed _ isCurrent base isBase (sameHead.trans on.head)
  have fresh {other : Metadata} (mem : other ∈ lake.versions) :
      other.head ≠ (lake.current.commit prepared).head := unlanded other mem
  have grows (mark : Nat) (isMark : lake.current.watermark = some mark) :
      ∃ stamped, (lake.current.commit prepared).watermark = some stamped ∧ mark ≤ stamped := by
    cases isStamped : prepared.stamped with
    | none => exact ⟨mark, by simp [Metadata.commit, isStamped, isMark], le_rfl⟩
    | some stamped =>
        exact ⟨stamped, by simp [Metadata.commit, isStamped],
          on.keeps stamped isStamped mark (watermark.symm.trans isMark)⟩
  refine ⟨⟨?_, ?_, ?_, ?_⟩, fun other mem => ?_, (List.nodup_cons.mp flying.distinct).2⟩
  · intro first isFirst second isSecond same
    rcases List.mem_append.mp isFirst with oldFirst | newFirst
    · rcases List.mem_append.mp isSecond with oldSecond | newSecond
      · exact flying.once.headed first oldFirst second oldSecond same
      · cases List.mem_singleton.mp newSecond
        exact absurd same (fresh oldFirst)
    · cases List.mem_singleton.mp newFirst
      rcases List.mem_append.mp isSecond with oldSecond | newSecond
      · exact absurd same.symm (fresh oldSecond)
      · cases List.mem_singleton.mp newSecond
        rfl
  · intro metadata mem id isHead
    rcases List.mem_append.mp mem with old | new
    · exact flying.once.heads metadata old id isHead
    · cases List.mem_singleton.mp new
      cases isHead
      exact isId
  · intro landed mem seq isSeq
    rcases List.mem_append.mp mem with old | new
    · obtain ⟨mark, isMark, below⟩ := flying.once.covered landed old seq isSeq
      obtain ⟨stamped, isStamped, covers⟩ := grows mark isMark
      exact ⟨stamped, isStamped, below.trans covers⟩
    · cases List.mem_singleton.mp new
      obtain ⟨mark, isMark, below⟩ := on.stamps seq isSeq
      exact ⟨mark, by simp [Lake.publish, Metadata.commit, isMark], below⟩
  · refine List.pairwise_append.mpr ⟨flying.once.apart, List.pairwise_singleton _ _, ?_⟩
    intro earlier isEarlier later isLater seq inEarlier inLater
    cases List.mem_singleton.mp isLater
    obtain ⟨mark, isMark, below⟩ := flying.once.covered earlier isEarlier seq inEarlier
    exact absurd (on.above seq inLater mark (watermark.symm.trans isMark)) (not_lt.mpr below)
  · obtain ⟨⟨otherBase, isOtherBase, otherOn⟩, id, otherUnlanded⟩ :=
      flying.waits other (List.mem_cons_of_mem _ mem)
    refine ⟨⟨otherBase, List.mem_append_left _ isOtherBase, otherOn⟩, id, fun metadata isMeta => ?_⟩
    rcases List.mem_append.mp isMeta with old | new
    · exact otherUnlanded metadata old
    · cases List.mem_singleton.mp new
      rintro same
      have sameId : prepared.snapshotId = other.snapshotId := Option.some.inj same
      exact (List.nodup_cons.mp flying.distinct).1
        (sameId ▸ List.mem_map_of_mem mem)

/-- A request reaches the catalog: it lands, or the head has moved. -/
theorem arrive (flying : Flight lake (prepared :: flight)) :
    Flight (lake.arrive prepared).1 flight := by
  unfold Lake.arrive
  split
  · next sameHead => exact flying.land sameHead
  · exact flying.lose (List.sublist_cons_self _ _).subperm

end Flight

end Icegres.Buffer
