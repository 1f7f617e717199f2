import Icegres.Pieces

/-!
# The objects a table still references

Table metadata records absolute paths. A path is mapped to a key of the listed bucket, with its
duplicate slashes dropped, and the keys of every recorded path are the live set. A path that cannot
be mapped and a manifest that cannot be read make the live set fail.
-/

namespace Icegres.Maintain

/-- The characters of a path or a key. -/
abbrev Text :=
  List Char

/-! ## Keys -/

/-- The parts of a key between slashes. -/
def segments (key : Text) : List Text :=
  (key.splitOn '/').filter fun segment => !segment.isEmpty

def canonicalKey (key : Text) : Text :=
  ['/'].intercalate (segments key)

def s3Scheme : Text :=
  ['s', '3', ':', '/', '/']

def s3aScheme : Text :=
  ['s', '3', 'a', ':', '/', '/']

/-- What follows the scheme, when it is one of the two. -/
def withoutScheme (path : Text) : Option Text :=
  if s3Scheme.isPrefixOf path then some (path.drop s3Scheme.length)
  else if s3aScheme.isPrefixOf path then some (path.drop s3aScheme.length)
  else none

/-- The text before the first slash and the text behind it. -/
def splitOnce (text : Text) : Option (Text × Text) :=
  match text.dropWhile fun c => c ≠ '/' with
  | [] => none
  | _ :: rest => some (text.takeWhile fun c => c ≠ '/', rest)

/-- The key a recorded path has in the bucket. -/
def objectKey (path bucket : Text) : Option Text := do
  let (recorded, key) ← (withoutScheme path).bind splitOnce
  if recorded ≠ bucket then none
  else if (canonicalKey key).isEmpty then none
  else some (canonicalKey key)

/-- The path is a spelling of the key in the bucket, up to the scheme and duplicate slashes. -/
def Spells (bucket path key : Text) : Prop :=
  ∃ raw, (path = s3Scheme ++ bucket ++ '/' :: raw ∨ path = s3aScheme ++ bucket ++ '/' :: raw) ∧
    segments raw = segments key

theorem mem_segments {key segment : Text} (mem : segment ∈ segments key) :
    '/' ∉ segment ∧ segment ≠ [] := by
  obtain ⟨piece, some'⟩ := List.mem_filter.mp mem
  exact ⟨(mem_piece piece).1, by simpa using some'⟩

theorem segments_canonicalKey (key : Text) : segments (canonicalKey key) = segments key := by
  rw [canonicalKey]
  by_cases none : segments key = []
  · rw [none]
    rfl
  · rw [segments, List.splitOn_intercalate '/' (fun _ mem => (mem_segments mem).1) none,
      List.filter_eq_self]
    intro segment mem
    simpa using (mem_segments mem).2

theorem canonicalKey_canonicalKey (key : Text) :
    canonicalKey (canonicalKey key) = canonicalKey key := by
  rw [canonicalKey, segments_canonicalKey, ← canonicalKey]

theorem splitOnce_append {bucket : Text} (key : Text) (noSlash : '/' ∉ bucket) :
    splitOnce (bucket ++ '/' :: key) = some (bucket, key) := by
  have kept : ∀ c ∈ bucket, decide (c ≠ '/') = true := fun c mem =>
    decide_eq_true fun same => noSlash (same ▸ mem)
  rw [splitOnce, List.dropWhile_append_of_pos kept, List.takeWhile_append_of_pos kept]
  simp

theorem splitOnce_eq_some {text before after : Text}
    (split : splitOnce text = some (before, after)) :
    text = before ++ '/' :: after ∧ '/' ∉ before := by
  rw [splitOnce] at split
  split at split
  · cases split
  · next slash rest found =>
    cases split
    have first := List.head?_dropWhile_not (fun c => decide (c ≠ '/')) text
    have whole := List.takeWhile_append_dropWhile (p := fun c => decide (c ≠ '/')) (l := text)
    have before := List.all_takeWhile (p := fun c => decide (c ≠ '/')) (l := text)
    rw [found] at first whole
    refine ⟨?_, fun mem => ?_⟩
    · have isSlash : slash = '/' := by simpa using first
      subst isSlash
      exact whole.symm
    · simpa using List.all_eq_true.mp before _ mem

theorem objectKey_of_spells {bucket path key : Text} (noSlash : '/' ∉ bucket)
    (spells : Spells bucket path key) (some' : canonicalKey key ≠ []) :
    objectKey path bucket = some (canonicalKey key) := by
  obtain ⟨raw, spelled, same⟩ := spells
  have isKey : canonicalKey raw = canonicalKey key := by rw [canonicalKey, same, ← canonicalKey]
  have rest : withoutScheme path = some (bucket ++ '/' :: raw) := by
    obtain rfl | rfl := spelled
    · rw [List.append_assoc]
      rfl
    · rw [List.append_assoc]
      rfl
  rw [objectKey, rest, Option.bind_some, splitOnce_append raw noSlash]
  simp [isKey, some']

/-! ## The live set -/

/-- The recorded paths so far: the keys of those in the bucket, and the first few of the others. -/
structure LiveSet where
  bucket : Text
  keys : List Text
  unmappableSamples : List Text
  unmappableTotal : Nat

inductive GcError where
  | graceWindow
  | load (message : String)
  | location (path : Text)
  | cutoff
  | skewProbe (message : String)
  | skew (seconds : Int)
  | unmappable (total : Nat) (bucket : Text) (samples : List Text)
  | manifestList (path : Text) (snapshotId : Int)
  | manifest (path : Text)
  | noMetadataLocation
  | listing (message : String)
  | uuidChanged
  | keepsCommitting
  | delete (key : Text) (deleted total : Nat)

namespace LiveSet

def new (bucket : Text) : LiveSet :=
  ⟨bucket, [], [], 0⟩

def add (live : LiveSet) (path : Text) : LiveSet :=
  match objectKey path live.bucket with
  | some key => { live with keys := key :: live.keys }
  | none =>
      { live with
        unmappableTotal := live.unmappableTotal + 1
        unmappableSamples :=
          if live.unmappableSamples.length < 5 then live.unmappableSamples ++ [path]
          else live.unmappableSamples }

def addAll (live : LiveSet) (paths : List Text) : LiveSet :=
  paths.foldl add live

def finish (live : LiveSet) : Except GcError (List Text) :=
  if live.unmappableTotal > 0 then
    .error (.unmappable live.unmappableTotal live.bucket live.unmappableSamples)
  else .ok live.keys

/-- Unless a path could not be mapped, the keys of the paths are in the set. -/
def Covers (live : LiveSet) (bucket : Text) (paths : Text → Prop) : Prop :=
  live.bucket = bucket ∧ (live.unmappableTotal = 0 →
    ∀ path, paths path → ∃ key ∈ live.keys, objectKey path bucket = some key)

theorem covers_add {live : LiveSet} {bucket : Text} {paths : Text → Prop}
    (covers : live.Covers bucket paths) (path : Text) :
    (live.add path).Covers bucket fun other => paths other ∨ other = path := by
  obtain ⟨rfl, keyed⟩ := covers
  rw [add]
  split
  · next key mapped =>
    refine ⟨rfl, ?_⟩
    rintro total other (earlier | rfl)
    · obtain ⟨found, mem, is⟩ := keyed total other earlier
      exact ⟨found, List.mem_cons_of_mem _ mem, is⟩
    · exact ⟨key, List.mem_cons_self, mapped⟩
  · exact ⟨rfl, nofun⟩

theorem covers_addAll {live : LiveSet} {bucket : Text} {paths : Text → Prop}
    (covers : live.Covers bucket paths) (added : List Text) :
    (live.addAll added).Covers bucket fun other => paths other ∨ other ∈ added := by
  induction added generalizing live paths with
  | nil => simpa [addAll] using covers
  | cons path rest ih =>
      have later := ih (covers_add covers path)
      simp only [or_assoc] at later
      simpa only [addAll, List.foldl_cons, List.mem_cons] using later

/-- A loop covers what each of its steps covers. -/
theorem covers_foldlM {Item : Type} {bucket : Text}
    {step : LiveSet → Item → Except GcError LiveSet} {named : Item → Text → Prop}
    {sound : Item → Prop}
    (one : ∀ {live next : LiveSet} {item : Item} {paths : Text → Prop},
      step live item = .ok next → live.Covers bucket paths →
        next.Covers bucket (fun path => paths path ∨ named item path) ∧ sound item)
    {items : List Item} {live next : LiveSet} {paths : Text → Prop}
    (covers : live.Covers bucket paths) (taken : items.foldlM step live = .ok next) :
    next.Covers bucket (fun path => paths path ∨ ∃ item ∈ items, named item path) ∧
      ∀ item ∈ items, sound item := by
  induction items generalizing live paths with
  | nil =>
      cases taken
      simpa using covers
  | cons item rest ih =>
      rw [List.foldlM_cons] at taken
      cases stepped : step live item with
      | error failure =>
          rw [stepped] at taken
          cases taken
      | ok between =>
          rw [stepped] at taken
          obtain ⟨here, soundHere⟩ := one stepped covers
          obtain ⟨later, soundLater⟩ := ih here taken
          refine ⟨?_, by simpa using ⟨soundHere, soundLater⟩⟩
          simpa only [List.exists_mem_cons_iff, or_assoc] using later

end LiveSet

/-! ## Tables -/

inductive EntryStatus where
  | existing
  | added
  | deleted
  deriving DecidableEq

structure ManifestEntry where
  status : EntryStatus
  filePath : Text

structure Snapshot where
  snapshotId : Int
  manifestList : Text

structure Metadata where
  uuid : String
  location : Text
  metadataLog : List Text
  statistics : List Text
  partitionStatistics : List Text
  snapshots : List Snapshot

/-- What the files hold that commits have written. A file is never written again. -/
structure Files where
  metadata : Text → Metadata
  /-- The manifests of a manifest list. -/
  manifestList : Text → List Text
  manifest : Text → List ManifestEntry

/-- A table as it was loaded, and the files that cannot be read from it then. -/
structure Table (files : Files) where
  metadata : Metadata
  metadataLocation : Option Text
  unreadable : Text → Bool
  stored : ∀ path ∈ metadataLocation, files.metadata path = metadata

variable {files : Files}

namespace Table

def loadManifestList (table : Table files) (snapshot : Snapshot) : Except GcError (List Text) :=
  if table.unreadable snapshot.manifestList then
    .error (.manifestList snapshot.manifestList snapshot.snapshotId)
  else .ok (files.manifestList snapshot.manifestList)

def loadManifest (table : Table files) (path : Text) : Except GcError (List ManifestEntry) :=
  if table.unreadable path then .error (.manifest path) else .ok (files.manifest path)

/-- A path that the table records. -/
inductive References (table : Table files) : Text → Prop where
  | current {path : Text} (at' : table.metadataLocation = some path) : table.References path
  | log {path : Text} (mem : path ∈ table.metadata.metadataLog) : table.References path
  | statistics {path : Text} (mem : path ∈ table.metadata.statistics) : table.References path
  | partitionStatistics {path : Text} (mem : path ∈ table.metadata.partitionStatistics) :
      table.References path
  | manifestList {snapshot : Snapshot} (mem : snapshot ∈ table.metadata.snapshots) :
      table.References snapshot.manifestList
  | manifest {snapshot : Snapshot} {path : Text} (mem : snapshot ∈ table.metadata.snapshots)
      (listed : path ∈ files.manifestList snapshot.manifestList) : table.References path
  /-- A file is referenced whatever the status of its entry. -/
  | dataFile {snapshot : Snapshot} {path : Text} {entry : ManifestEntry}
      (mem : snapshot ∈ table.metadata.snapshots)
      (listed : path ∈ files.manifestList snapshot.manifestList)
      (entered : entry ∈ files.manifest path) : table.References entry.filePath

/-- A manifest or a manifest list cannot be read. -/
def Unreadable (table : Table files) : Prop :=
  ∃ snapshot ∈ table.metadata.snapshots, table.unreadable snapshot.manifestList = true ∨
    ∃ path ∈ files.manifestList snapshot.manifestList, table.unreadable path = true

/-- A recorded path is none of the bucket. -/
def Unmappable (table : Table files) (bucket : Text) : Prop :=
  ∃ path, table.References path ∧ objectKey path bucket = none

/-- What a table records depends on where its metadata is only. -/
theorem references_congr {table other : Table files} {path location : Text}
    (there : table.metadataLocation = some location)
    (otherThere : other.metadataLocation = some location) (references : table.References path) :
    other.References path := by
  have same : table.metadata = other.metadata :=
    (table.stored location there).symm.trans (other.stored location otherThere)
  cases references with
  | current found => exact .current (otherThere.trans (there.symm.trans found))
  | log mem => exact .log (same ▸ mem)
  | statistics mem => exact .statistics (same ▸ mem)
  | partitionStatistics mem => exact .partitionStatistics (same ▸ mem)
  | manifestList mem => exact .manifestList (same ▸ mem)
  | manifest mem listed => exact .manifest (same ▸ mem) listed
  | dataFile mem listed entered => exact .dataFile (same ▸ mem) listed entered

end Table

/-- The files one manifest names, with the manifest. -/
def addManifest (table : Table files) (live : LiveSet) (path : Text) : Except GcError LiveSet := do
  let entries ← table.loadManifest path
  return (live.add path).addAll (entries.map ManifestEntry.filePath)

/-- The files of one snapshot. -/
def addSnapshot (table : Table files) (live : LiveSet) (snapshot : Snapshot) :
    Except GcError LiveSet := do
  let manifests ← table.loadManifestList snapshot
  manifests.foldlM (addManifest table) (live.add snapshot.manifestList)

def liveObjectKeys (table : Table files) (bucket : Text) : Except GcError (List Text) :=
  match table.metadataLocation with
  | none => .error .noMetadataLocation
  | some current => do
      let recorded := current :: table.metadata.metadataLog ++ table.metadata.statistics ++
        table.metadata.partitionStatistics
      let live ← table.metadata.snapshots.foldlM (addSnapshot table)
        ((LiveSet.new bucket).addAll recorded)
      live.finish

/-! ## What the live set covers -/

theorem covers_addManifest {table : Table files} {bucket : Text} {live next : LiveSet} {path : Text}
    {paths : Text → Prop} (added : addManifest table live path = .ok next)
    (covers : live.Covers bucket paths) :
    next.Covers bucket (fun other => paths other ∨ other = path ∨
        ∃ entry ∈ files.manifest path, other = entry.filePath) ∧
      table.unreadable path = false := by
  rw [addManifest, Table.loadManifest] at added
  split at added
  · cases added
  · next readable =>
    cases added
    have all := LiveSet.covers_addAll (LiveSet.covers_add covers path)
      ((files.manifest path).map ManifestEntry.filePath)
    refine ⟨?_, by simpa using readable⟩
    simpa only [List.mem_map, or_assoc, eq_comm] using all

theorem covers_addSnapshot {table : Table files} {bucket : Text} {live next : LiveSet}
    {snapshot : Snapshot} {paths : Text → Prop} (added : addSnapshot table live snapshot = .ok next)
    (covers : live.Covers bucket paths) :
    next.Covers bucket (fun other => paths other ∨ other = snapshot.manifestList ∨
        ∃ path ∈ files.manifestList snapshot.manifestList, other = path ∨
          ∃ entry ∈ files.manifest path, other = entry.filePath) ∧
      table.unreadable snapshot.manifestList = false ∧
        ∀ path ∈ files.manifestList snapshot.manifestList, table.unreadable path = false := by
  rw [addSnapshot, Table.loadManifestList] at added
  split at added
  · cases added
  · next readable =>
    obtain ⟨all, sound⟩ := LiveSet.covers_foldlM covers_addManifest
      (LiveSet.covers_add covers snapshot.manifestList) added
    refine ⟨?_, by simpa using readable, sound⟩
    simpa only [or_assoc] using all

/-- A live set that is completed has the key of every path the table records, and every manifest
was read for it. -/
theorem liveObjectKeys_eq_ok {table : Table files} {bucket : Text} {keys : List Text}
    (live : liveObjectKeys table bucket = .ok keys) :
    (∀ path, table.References path → ∃ key ∈ keys, objectKey path bucket = some key) ∧
      ¬ table.Unreadable := by
  rw [liveObjectKeys] at live
  split at live
  · cases live
  · next current at' =>
    simp only at live
    cases gathered : table.metadata.snapshots.foldlM (addSnapshot table)
        ((LiveSet.new bucket).addAll (current :: table.metadata.metadataLog ++
          table.metadata.statistics ++ table.metadata.partitionStatistics)) with
    | error failure =>
        rw [gathered] at live
        cases live
    | ok whole =>
        rw [gathered] at live
        have start : (LiveSet.new bucket).Covers bucket fun _ => False := ⟨rfl, by simp⟩
        obtain ⟨⟨-, covered⟩, readable⟩ := LiveSet.covers_foldlM covers_addSnapshot
          (LiveSet.covers_addAll start _) gathered
        replace live : whole.finish = .ok keys := live
        rw [LiveSet.finish] at live
        split at live
        · cases live
        · next none =>
          cases live
          constructor
          · intro path references
            apply covered (Nat.eq_zero_of_not_pos none)
            cases references with
            | current found =>
                obtain ⟨⟩ := at'.symm.trans found
                simp
            | log mem => simp [mem]
            | statistics mem => simp [mem]
            | partitionStatistics mem => simp [mem]
            | manifestList mem => exact .inr ⟨_, mem, .inl rfl⟩
            | manifest mem listed => exact .inr ⟨_, mem, .inr ⟨_, listed, .inl rfl⟩⟩
            | dataFile mem listed entered =>
                exact .inr ⟨_, mem, .inr ⟨_, listed, .inr ⟨_, entered, rfl⟩⟩⟩
          · rintro ⟨snapshot, mem, unread | ⟨path, listed, unread⟩⟩
            · exact absurd unread (by simp [(readable snapshot mem).1])
            · exact absurd unread (by simp [(readable snapshot mem).2 path listed])

end Icegres.Maintain
