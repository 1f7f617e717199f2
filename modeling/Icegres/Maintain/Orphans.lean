import Icegres.Fallible
import Icegres.Maintain.LiveSet
import Mathlib.Algebra.Ring.Int.Defs
import Mathlib.Algebra.Ring.Nat

/-!
# Removing orphans

The live set is derived from the loaded table before the objects are listed. The candidates are then
held against every later version of the table until the version does not change any more, and only
what no version references is deleted. A branch or a tag names a snapshot of the table and so adds
no files of its own.
-/

namespace Icegres.Maintain

variable {files : Files}

/-! ## Candidates -/

/-- An object of the listing. A time is in seconds. -/
structure Entry where
  path : Text
  isDir : Bool
  lastModified : Option Int
  /-- The time a request for the object itself answers. -/
  stat : Option Int
  contentLength : Nat

def Entry.age (entry : Entry) : Option Int :=
  entry.lastModified <|> entry.stat

structure Orphan where
  key : Text
  bytes : Nat

def endsWith (text : Text) (ending : String) : Bool :=
  ending.toList.isSuffixOf text

/-- Whether the key is clearly that of a data or metadata file of the table. -/
def isTableArtifact (key dataPrefix metaPrefix : Text) : Bool :=
  if dataPrefix.isPrefixOf key then
    let rest := key.drop dataPrefix.length
    !rest.isEmpty && endsWith rest ".parquet"
  else if metaPrefix.isPrefixOf key then
    let rest := key.drop metaPrefix.length
    !rest.isEmpty && (endsWith rest ".avro" || endsWith rest ".metadata.json" ||
      endsWith rest ".stats" || endsWith rest ".puffin")
  else false

/-- A listed object that is not live, an artifact of the table, and old enough. -/
def candidate (live : List Text) (keyPrefix : Text) (cutoff : Int) (entry : Entry) :
    Option Orphan :=
  let key := canonicalKey entry.path
  let dataPrefix := keyPrefix ++ "/data/".toList
  let metaPrefix := keyPrefix ++ "/metadata/".toList
  if entry.isDir then none
  else if key ∈ live then none
  else if !isTableArtifact key dataPrefix metaPrefix then none
  else
    match entry.age with
    | none => none
    | some lastModified =>
        if lastModified > cutoff then none else some ⟨key, entry.contentLength⟩

/-! ## Checks before a run -/

def clockSkewAllowance : Int :=
  15 * 60

/-- The object that is written, looked at and deleted to compare the clocks. -/
structure Probe where
  before : Int
  after : Int
  write : Except String Unit
  stat : Except String (Option Int)
  delete : Except String Unit

def abortOnClockSkew (probe : Probe) : Except GcError Unit := do
  probe.write.mapError .skewProbe
  let lastModified ← probe.stat.mapError .skewProbe
  probe.delete.mapError .skewProbe
  match lastModified with
  | none => .error (.skewProbe "came back without a last-modified stamp")
  | some stamp =>
      let skew :=
        if stamp > probe.after then stamp - probe.after
        else if stamp < probe.before then probe.before - stamp
        else 0
      if skew > clockSkewAllowance then .error (.skew skew) else .ok ()

def splitS3Location (location : Text) : Except GcError (Text × Text) :=
  match (withoutScheme location).bind splitOnce with
  | none => .error (.location location)
  | some (bucket, key) =>
      if bucket.isEmpty || (canonicalKey key).isEmpty then .error (.location location)
      else .ok (bucket, canonicalKey key)

def trimEndSlashes (location : Text) : Text :=
  (location.reverse.dropWhile fun c => c = '/').reverse

/-! ## Runs -/

/-- What a run is asked for, and what the catalog and the store answer it. -/
structure Run (files : Files) where
  olderThanHours : Nat
  execute : Bool
  unsafeGrace : Bool
  now : Int
  probe : Probe
  /-- The table at the first load and at each reload. -/
  load : Nat → Except String (Table files)
  listing : Except String (List Entry)
  /-- A delete of the key succeeds. -/
  deletes : Text → Bool

/-- The tables a run has loaded, and what it deletes. -/
structure Plan (files : Files) where
  bucket : Text
  first : Table files
  reloaded : List (Table files)
  orphans : List Orphan

def Plan.loaded (plan : Plan files) : List (Table files) :=
  plan.first :: plan.reloaded

namespace Run

variable (run : Run files)

def checkGraceWindow : Except GcError Unit :=
  if run.execute && decide (run.olderThanHours < 1) && !run.unsafeGrace then .error .graceWindow
  else .ok ()

/-- The earliest time there is. -/
def earliest : Int :=
  -2 ^ 63

/-- The hours are capped at 64 bits of seconds. -/
def cutoff : Except GcError Int :=
  let grace := run.now - (min (run.olderThanHours * 3600) (2 ^ 64 - 1) : Nat)
  let allowance := if run.unsafeGrace then 0 else clockSkewAllowance
  if grace < earliest then .error .cutoff
  else if grace - allowance < earliest then .error .cutoff
  else .ok (grace - allowance)

/-- The clocks are compared before anything is deleted. -/
def checkClock : Except GcError Unit :=
  if run.execute then abortOnClockSkew run.probe else .ok ()

/-- Reload until the table is at the same location as before, at most three times. -/
def reload (uuid : String) (bucket : Text) :
    Nat → Nat → Text → List Orphan → Except GcError (List (Table files) × List Orphan)
  | 0, _, _, orphans => .ok ([], orphans)
  | remaining + 1, attempt, current, orphans => do
      let fresh ← (run.load (attempt + 1)).mapError .load
      if fresh.metadata.uuid ≠ uuid then .error .uuidChanged
      else
        match fresh.metadataLocation with
        | none => .error .noMetadataLocation
        | some location =>
            if location = current then .ok ([fresh], orphans)
            else if attempt = 2 then .error .keepsCommitting
            else do
              let live ← liveObjectKeys fresh bucket
              let (later, kept) ← reload uuid bucket remaining (attempt + 1) location
                (orphans.filter fun orphan => orphan.key ∉ live)
              return (fresh :: later, kept)

def plan : Except GcError (Plan files) := do
  run.checkGraceWindow
  let first ← (run.load 0).mapError .load
  let (bucket, keyPrefix) ← splitS3Location (trimEndSlashes first.metadata.location)
  let cutoff ← run.cutoff
  run.checkClock
  let live ← liveObjectKeys first bucket
  let entries ← run.listing.mapError .listing
  let orphans := entries.filterMap (candidate live keyPrefix cutoff)
  match first.metadataLocation with
  | none => .error .noMetadataLocation
  | some current =>
      let (reloaded, kept) ← run.reload first.metadata.uuid bucket 3 0 current orphans
      return ⟨bucket, first, reloaded, kept⟩

/-- The keys deletes are asked for, and how many succeeded. The first that fails ends the run. -/
def deleteAll (deletes : Text → Bool) (total : Nat) :
    Nat → List Orphan → List Text × Except GcError Nat
  | deleted, [] => ([], .ok deleted)
  | deleted, orphan :: rest =>
      if deletes orphan.key then
        let (keys, result) := deleteAll deletes total (deleted + 1) rest
        (orphan.key :: keys, result)
      else ([orphan.key], .error (.delete orphan.key deleted total))

def removeOrphans : List Text × Except GcError Nat :=
  match run.plan with
  | .error failure => ([], .error failure)
  | .ok plan =>
      if run.execute then deleteAll run.deletes plan.orphans.length 0 plan.orphans
      else ([], .ok 0)

/-- The keys that are deleted. -/
def deleted : List Text :=
  run.removeOrphans.1

/-! ## What is deleted -/

/-- No version at the location records a key of an orphan or a path outside the bucket. -/
def Clear (files : Files) (bucket location : Text) (orphans : List Orphan) : Prop :=
  ∀ table : Table files, table.metadataLocation = some location → ¬ table.Unmappable bucket ∧
    ∀ orphan ∈ orphans, ∀ path, table.References path → objectKey path bucket ≠ some orphan.key

theorem clear_filter {table : Table files} {bucket location : Text} {live : List Text}
    (at' : table.metadataLocation = some location)
    (derived : liveObjectKeys table bucket = .ok live) {orphans : List Orphan}
    (outside : ∀ orphan ∈ orphans, orphan.key ∉ live) : Clear files bucket location orphans := by
  intro other otherAt
  obtain ⟨covered, -⟩ := liveObjectKeys_eq_ok derived
  constructor
  · rintro ⟨path, references, unmapped⟩
    obtain ⟨key, -, mapped⟩ := covered path (Table.references_congr otherAt at' references)
    exact absurd (unmapped.symm.trans mapped) nofun
  · intro orphan mem path references same
    obtain ⟨key, live', mapped⟩ := covered path (Table.references_congr otherAt at' references)
    obtain ⟨⟩ := same.symm.trans mapped
    exact outside orphan mem live'

/-- What holds of the tables a run has loaded and the orphans it has left. -/
structure Reloaded (bucket : Text) (attempt : Nat) (current : Text) (orphans : List Orphan)
    (tables : List (Table files)) (kept : List Orphan) : Prop where
  fewer : ∀ orphan ∈ kept, orphan ∈ orphans
  loads : ∀ index table, tables[index]? = some table →
    run.load (attempt + 1 + index) = .ok table
  mapped : ∀ table ∈ tables, ¬ table.Unmappable bucket
  readable : ∀ table ∈ tables.dropLast, ¬ table.Unreadable
  clear : ∀ table ∈ tables, ∀ orphan ∈ kept, ∀ path, table.References path →
    objectKey path bucket ≠ some orphan.key
  /-- The last table is where the one before it is. -/
  settled : ∃ front last before, tables = front ++ [last] ∧ last.metadataLocation = some before ∧
    (before = current ∧ front = [] ∨
      ∃ table, front.getLast? = some table ∧ table.metadataLocation = some before)

/-- A version that is not the last is read, and takes its own files away from the orphans. -/
theorem Reloaded.cons {bucket : Text} {attempt : Nat} {current location : Text}
    {orphans kept : List Orphan} {fresh : Table files} {later : List (Table files)}
    {live : List Text} (loaded : run.load (attempt + 1) = .ok fresh)
    (at' : fresh.metadataLocation = some location)
    (derived : liveObjectKeys fresh bucket = .ok live)
    (rest : run.Reloaded bucket (attempt + 1) location
      (orphans.filter fun orphan => orphan.key ∉ live) later kept) :
    run.Reloaded bucket attempt current orphans (fresh :: later) kept := by
  have outside (orphan : Orphan) (mem : orphan ∈ kept) : orphan.key ∉ live := by
    simpa using (List.mem_filter.mp (rest.fewer orphan mem)).2
  obtain ⟨mapped, apart⟩ := clear_filter at' derived outside fresh at'
  obtain ⟨front, last, before, is, there, previous⟩ := rest.settled
  constructor
  · exact fun orphan mem => List.mem_of_mem_filter (rest.fewer orphan mem)
  · rintro (_ | index) table found
    · cases found
      exact loaded
    · rw [← rest.loads index table found]
      congr 1
      omega
  · rintro table mem
    obtain rfl | inLater := List.mem_cons.mp mem
    · exact mapped
    · exact rest.mapped table inLater
  · rintro table mem
    rw [is, List.dropLast_cons_of_ne_nil (by simp), List.dropLast_concat] at mem
    obtain rfl | inFront := List.mem_cons.mp mem
    · exact (liveObjectKeys_eq_ok derived).2
    · exact rest.readable table (by rwa [is, List.dropLast_concat])
  · rintro table mem
    obtain rfl | inLater := List.mem_cons.mp mem
    · exact apart
    · exact rest.clear table inLater
  · refine ⟨fresh :: front, last, before, by rw [is, List.cons_append], there, .inr ?_⟩
    obtain ⟨rfl, rfl⟩ | ⟨table, isLast, tableAt⟩ := previous
    · exact ⟨fresh, rfl, at'⟩
    · exact ⟨table, by rw [List.getLast?_cons, isLast, Option.getD_some], tableAt⟩

theorem reload_eq_ok {uuid : String} {bucket : Text} {remaining attempt : Nat} {current : Text}
    {orphans : List Orphan} {tables : List (Table files)} {kept : List Orphan}
    (attempts : remaining + attempt = 3) (left : 0 < remaining)
    (clear : Clear files bucket current orphans)
    (reloaded : run.reload uuid bucket remaining attempt current orphans = .ok (tables, kept)) :
    run.Reloaded bucket attempt current orphans tables kept := by
  induction remaining generalizing attempt current orphans tables with
  | zero => omega
  | succ remaining ih =>
      rw [reload] at reloaded
      cases loaded : run.load (attempt + 1) with
      | error failure =>
          rw [loaded] at reloaded
          cases reloaded
      | ok fresh =>
          rw [loaded] at reloaded
          simp only [Except.mapError, bind, Except.bind] at reloaded
          split at reloaded
          · cases reloaded
          · split at reloaded
            · cases reloaded
            · next location at' =>
              split at reloaded
              · next same =>
                cases reloaded
                obtain ⟨mapped, apart⟩ := clear fresh (same ▸ at')
                refine ⟨fun _ mem => mem, ?_, ?_, ?_, ?_,
                  [], fresh, _, rfl, same ▸ at', .inl ⟨rfl, rfl⟩⟩
                · rintro (_ | index) table found
                  · cases found
                    exact loaded
                  · cases found
                · rintro table mem
                  rw [List.mem_singleton.mp mem]
                  exact mapped
                · rintro table ⟨⟩
                · rintro table mem
                  rw [List.mem_singleton.mp mem]
                  exact apart
              · split at reloaded
                · cases reloaded
                · next more =>
                  cases derived : liveObjectKeys fresh bucket with
                  | error failure =>
                      rw [derived] at reloaded
                      cases reloaded
                  | ok live =>
                      rw [derived] at reloaded
                      simp only at reloaded
                      split at reloaded
                      · cases reloaded
                      · next result again =>
                        cases reloaded
                        have without : Clear files bucket location
                            (orphans.filter fun orphan => orphan.key ∉ live) :=
                          clear_filter at' derived (by simp)
                        exact Reloaded.cons run loaded at' derived
                          (ih (by omega) (by omega) without again)

theorem mem_deleteAll {deletes : Text → Bool} {total deleted : Nat} {orphans : List Orphan}
    {key : Text} (mem : key ∈ (deleteAll deletes total deleted orphans).1) :
    ∃ orphan ∈ orphans, orphan.key = key := by
  induction orphans generalizing deleted with
  | nil => cases mem
  | cons orphan rest ih =>
      rw [deleteAll] at mem
      split at mem
      · obtain rfl | later := List.mem_cons.mp mem
        · exact ⟨orphan, List.mem_cons_self, rfl⟩
        · obtain ⟨other, inRest, is⟩ := ih later
          exact ⟨other, List.mem_cons_of_mem _ inRest, is⟩
      · rw [List.mem_singleton.mp mem]
        exact ⟨orphan, List.mem_cons_self, rfl⟩

/-- A key is deleted only by a run that came to a plan. -/
theorem mem_deleted {key : Text} (mem : key ∈ run.deleted) :
    ∃ plan, run.plan = .ok plan ∧ ∃ orphan ∈ plan.orphans, orphan.key = key := by
  rw [deleted, removeOrphans] at mem
  split at mem
  · cases mem
  · next plan planned =>
    split at mem
    · exact ⟨plan, planned, mem_deleteAll mem⟩
    · cases mem

/-- A candidate is a listed object of the age that is asked for, under its canonical key. -/
theorem candidate_eq_some {live : List Text} {keyPrefix : Text} {cutoff : Int} {entry : Entry}
    {orphan : Orphan} (chosen : candidate live keyPrefix cutoff entry = some orphan) :
    orphan.key = canonicalKey entry.path ∧ orphan.key ∉ live ∧ orphan.key ≠ [] ∧
      ∃ age, entry.age = some age ∧ age ≤ cutoff := by
  simp only [candidate] at chosen
  split at chosen
  · cases chosen
  · split at chosen
    · cases chosen
    · next notLive =>
      split at chosen
      · cases chosen
      · next artifact =>
        split at chosen
        · cases chosen
        · next age aged =>
          split at chosen
          · cases chosen
          · next old =>
            cases chosen
            refine ⟨rfl, notLive, fun empty => ?_, age, aged, Int.not_lt.mp old⟩
            rw [show canonicalKey entry.path = [] from empty] at artifact
            exact artifact (by simp [isTableArtifact])

theorem splitS3Location_eq_ok {location bucket keyPrefix : Text}
    (split : splitS3Location location = .ok (bucket, keyPrefix)) : '/' ∉ bucket := by
  rw [splitS3Location] at split
  split at split
  · cases split
  · next name key found =>
    rw [Option.bind_eq_some_iff] at found
    obtain ⟨rest, -, parts⟩ := found
    split at split
    · cases split
    · cases split
      exact (splitOnce_eq_some parts).2

/-- What a run that came to a plan has established. -/
theorem plan_eq_ok {plan : Plan files} (planned : run.plan = .ok plan) :
    ∃ live keyPrefix cutoff entries current, '/' ∉ plan.bucket ∧ run.load 0 = .ok plan.first ∧
      run.cutoff = .ok cutoff ∧ run.listing = .ok entries ∧
      liveObjectKeys plan.first plan.bucket = .ok live ∧
      plan.first.metadataLocation = some current ∧
      run.Reloaded plan.bucket 0 current (entries.filterMap (candidate live keyPrefix cutoff))
        plan.reloaded plan.orphans := by
  obtain ⟨_, -, planned⟩ := bind_eq_ok planned
  obtain ⟨first, loaded, planned⟩ := bind_eq_ok planned
  obtain ⟨⟨bucket, keyPrefix⟩, located, planned⟩ := bind_eq_ok planned
  obtain ⟨cutoff, capped, planned⟩ := bind_eq_ok planned
  obtain ⟨_, -, planned⟩ := bind_eq_ok planned
  obtain ⟨live, derived, planned⟩ := bind_eq_ok planned
  obtain ⟨entries, listed, planned⟩ := bind_eq_ok planned
  simp only at planned
  split at planned
  · cases planned
  · next current at' =>
    obtain ⟨⟨reloaded, kept⟩, again, planned⟩ := bind_eq_ok planned
    cases planned
    have clear : Clear files bucket current
        (entries.filterMap (candidate live keyPrefix cutoff)) := by
      refine clear_filter at' derived fun orphan mem => ?_
      obtain ⟨entry, -, chosen⟩ := List.mem_filterMap.mp mem
      exact (candidate_eq_some chosen).2.1
    exact ⟨live, keyPrefix, cutoff, entries, current, splitS3Location_eq_ok located,
      mapError_eq_ok loaded, capped, mapError_eq_ok listed, derived, at',
      run.reload_eq_ok rfl (by decide) clear again⟩

/-- Every listed object that the path spells is younger than the cutoff. -/
def InFlight (bucket path : Text) : Prop :=
  ∀ entries cutoff, run.listing = .ok entries → run.cutoff = .ok cutoff → ∀ entry ∈ entries,
    Spells bucket path entry.path → ∀ age, entry.age = some age → cutoff < age

/-- When a key is deleted, the loaded versions of the table reach up to one that was not replaced
any more. All their files are in the bucket, their manifests could be read, and none has the key.
A version that is committed later does not have it either, as long as the files it adds are
young. -/
theorem removeOrphans_safe {key : Text} (mem : key ∈ run.deleted) :
    ∃ plan, run.plan = .ok plan ∧
      (∀ index table, plan.loaded[index]? = some table → run.load index = .ok table) ∧
      (∃ front before last, plan.loaded = front ++ [before, last] ∧
        before.metadataLocation = last.metadataLocation) ∧
      (∀ table ∈ plan.loaded, ¬ table.Unmappable plan.bucket) ∧
      (∀ table ∈ plan.loaded.dropLast, ¬ table.Unreadable) ∧
      (∀ table ∈ plan.loaded, ∀ path, table.References path → ¬ Spells plan.bucket path key) ∧
      ∀ head : Table files, (∀ path, head.References path →
          (∃ table ∈ plan.loaded, table.References path) ∨ run.InFlight plan.bucket path) →
        ∀ path, head.References path → ¬ Spells plan.bucket path key := by
  obtain ⟨plan, planned, orphan, inOrphans, rfl⟩ := run.mem_deleted mem
  obtain ⟨live, keyPrefix, cutoff, entries, current, noSlash, loaded, capped, listed, derived, at',
    reloaded⟩ := run.plan_eq_ok planned
  obtain ⟨entry, inListing, chosen⟩ :=
    List.mem_filterMap.mp (reloaded.fewer orphan inOrphans)
  obtain ⟨isKey, notLive, some', age, aged, old⟩ := candidate_eq_some chosen
  obtain ⟨front, last, before, is, lastAt, previous⟩ := reloaded.settled
  obtain ⟨covered, readable⟩ := liveObjectKeys_eq_ok derived
  have firstMapped : ¬ plan.first.Unmappable plan.bucket := by
    rintro ⟨path, references, unmapped⟩
    obtain ⟨key, -, mapped⟩ := covered path references
    exact absurd (unmapped.symm.trans mapped) nofun
  have canonical : canonicalKey orphan.key = orphan.key := by
    rw [isKey, canonicalKey_canonicalKey]
  -- A path that spells the key would have it in a live set.
  have unspelled : ∀ table ∈ plan.loaded, ∀ path, table.References path →
      ¬ Spells plan.bucket path orphan.key := by
    rintro table inLoaded path references spells
    have mapped := objectKey_of_spells noSlash spells (canonical.symm ▸ some')
    rw [canonical] at mapped
    obtain rfl | inReloaded := List.mem_cons.mp inLoaded
    · obtain ⟨key, inLive, is⟩ := covered path references
      obtain ⟨⟩ := mapped.symm.trans is
      exact notLive inLive
    · exact reloaded.clear table inReloaded orphan inOrphans path references mapped
  refine ⟨plan, planned, ?_, ?_, ?_, ?_, unspelled, ?_⟩
  · rintro (_ | index) table found
    · cases found
      exact loaded
    · rw [← reloaded.loads index table found]
      congr 1
      omega
  · obtain ⟨rfl, rfl⟩ | ⟨table, isLast, tableAt⟩ := previous
    · exact ⟨[], plan.first, last, by rw [Plan.loaded, is]; rfl, at'.trans lastAt.symm⟩
    · obtain ⟨others, rfl⟩ := List.getLast?_eq_some_iff.mp isLast
      exact ⟨plan.first :: others, table, last, by rw [Plan.loaded, is]; simp,
        tableAt.trans lastAt.symm⟩
  · rintro table inLoaded
    obtain rfl | inReloaded := List.mem_cons.mp inLoaded
    · exact firstMapped
    · exact reloaded.mapped table inReloaded
  · rintro table inLoaded
    rw [Plan.loaded, is, List.dropLast_cons_of_ne_nil (by simp), List.dropLast_concat] at inLoaded
    obtain rfl | inFront := List.mem_cons.mp inLoaded
    · exact readable
    · exact reloaded.readable table (by rwa [is, List.dropLast_concat])
  · rintro head known path references spells
    obtain ⟨table, inLoaded, recorded⟩ | young := known path references
    · exact unspelled table inLoaded path recorded spells
    · have same : segments orphan.key = segments entry.path := by
        rw [isKey, segments_canonicalKey]
      obtain ⟨raw, spelled, isRaw⟩ := spells
      have later := young entries cutoff listed capped entry inListing
        ⟨raw, spelled, isRaw.trans same⟩ age aged
      omega

/-- A table with one snapshot, whose data file is recorded with another scheme and a double
slash. -/
def tripsFiles : Files where
  metadata _ :=
    { uuid := "trips"
      location := "s3://lake/trips".toList
      metadataLog := []
      statistics := []
      partitionStatistics := []
      snapshots := [⟨1, "s3://lake/trips/metadata/snap-1.avro".toList⟩] }
  manifestList _ := ["s3://lake/trips/metadata/m0.avro".toList]
  manifest _ := [⟨.deleted, "s3a://lake/trips//data/a.parquet".toList⟩]

def tripsTable : Table tripsFiles :=
  ⟨tripsFiles.metadata [], some "s3://lake/trips/metadata/v1.metadata.json".toList, fun _ => false,
    fun _ _ => rfl⟩

/-- The listing has the data file and one that no snapshot records. -/
def tripsRun : Run tripsFiles where
  olderThanHours := 72
  execute := true
  unsafeGrace := false
  now := 1000000
  probe := ⟨1000000, 1000001, .ok (), .ok (some 1000000), .ok ()⟩
  load _ := .ok tripsTable
  listing := .ok [⟨"trips/data/a.parquet".toList, false, some 0, none, 10⟩,
    ⟨"trips/data/b.parquet".toList, false, some 0, none, 10⟩]
  deletes _ := true

theorem removeOrphans_safe_trips :
    tripsRun.deleted = ["trips/data/b.parquet".toList] ∧
      ∃ plan, tripsRun.plan = .ok plan ∧ ∀ table ∈ plan.loaded, ∀ path, table.References path →
        ¬ Spells plan.bucket path "trips/data/b.parquet".toList := by
  have deleted : tripsRun.deleted = ["trips/data/b.parquet".toList] := by decide +kernel
  have mem : "trips/data/b.parquet".toList ∈ tripsRun.deleted := by
    rw [deleted]
    exact List.mem_cons_self
  obtain ⟨plan, planned, -, -, -, -, unspelled, -⟩ := tripsRun.removeOrphans_safe mem
  exact ⟨deleted, plan, planned, unspelled⟩

end Run

end Icegres.Maintain
