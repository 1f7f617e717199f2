import Icegres.Cache.Table

/-!
# Reading one's own writes through the cache

A load that completes in the current generation began after every invalidation, so it has read
every local commit that was invalidated. When loads install in order the cached version never goes
back, and a cache that became fresh keeps showing those commits.
-/

namespace Icegres.Cache

variable {Id : Type}

/-! ## What every step keeps -/

/-- Nothing goes back: the catalog, the reads, the generations and the cached snapshot. -/
structure Extends (state next : State Id) : Prop where
  catalog : state.catalog ≤ next.catalog
  history : state.history <+: next.history
  required : state.required ≤ next.required
  writeGen : state.freshness.writeGen ≤ next.freshness.writeGen
  settled : next.freshness.writeGen = state.freshness.writeGen → next.required = state.required
  cached : ∀ cached ∈ state.cached, ∃ later ∈ next.cached,
    cached.version ≤ later.version ∧ cached.loadedGen ≤ later.loadedGen

theorem getElem?_of_prefix {history later : List Nat} (grows : history <+: later) {index : Nat}
    {version : Nat} (found : history[index]? = some version) :
    later[index]? = some version := by
  obtain ⟨more, rfl⟩ := grows
  rw [List.getElem?_append_left (List.getElem?_eq_some_iff.mp found).1]
  exact found

theorem Load.Sound.extend {state next : State Id} (extends' : Extends state next) {load : Load}
    (sound : load.Sound state) : load.Sound next where
  floor := sound.floor
  known := sound.known.trans extends'.required
  token := sound.token.trans extends'.writeGen
  current := by
    intro now
    have same : next.freshness.writeGen = state.freshness.writeGen :=
      le_antisymm (now ▸ sound.token) extends'.writeGen
    rw [extends'.settled same]
    exact sound.current (now.trans same)

theorem ReadSound.extend {state next : State Id} (extends' : Extends state next) {load : Load}
    {version readAt : Nat} (sound : ReadSound state load version readAt) :
    ReadSound next load version readAt where
  begun := sound.begun.extend extends'
  seen := sound.seen
  history := getElem?_of_prefix extends'.history sound.history

theorem Client.Sound.extend {state next : State Id} (extends' : Extends state next)
    {client : Client} (sound : client.Sound state) : client.Sound next := by
  cases client with
  | idle => trivial
  | missed floor => exact le_trans sound extends'.required
  | trusting floor =>
      obtain ⟨cached, inside, floored⟩ := sound
      obtain ⟨later, there, newer, -⟩ := extends'.cached cached inside
      exact ⟨later, there, floored.trans newer⟩
  | reading load => exact Load.Sound.extend extends' sound
  | comparing load version readAt => exact ReadSound.extend extends' sound
  | building load version readAt => exact ReadSound.extend extends' sound
  | finishing load version =>
      obtain ⟨token, floor, cached, inside, generation⟩ := sound
      obtain ⟨later, there, -, newer⟩ := extends'.cached cached inside
      exact ⟨token.trans extends'.writeGen, floor, later, there, generation.trans newer⟩
  | committed version => exact le_trans sound extends'.catalog

/-- Two reads of the catalog in this order have seen versions in this order. -/
theorem version_le_of_readAt_le {history : List Nat} (sorted : history.Pairwise (· ≤ ·))
    {first second older newer : Nat} (firstRead : history[first]? = some older)
    (secondRead : history[second]? = some newer) (order : first ≤ second) : older ≤ newer := by
  obtain ⟨firstBound, rfl⟩ := List.getElem?_eq_some_iff.mp firstRead
  obtain ⟨secondBound, rfl⟩ := List.getElem?_eq_some_iff.mp secondRead
  rcases Nat.lt_or_eq_of_le order with before | same
  · exact List.pairwise_iff_getElem.mp sorted first second firstBound secondBound before
  · subst same
    exact le_rfl

theorem Extends.refl (state : State Id) : Extends state state :=
  ⟨le_rfl, List.prefix_refl _, le_rfl, le_rfl, fun _ => rfl,
    fun cached inside => ⟨cached, inside, le_rfl, le_rfl⟩⟩

/-- A load that starts now. -/
theorem load_begin {state : State Id} (path : LoadPath) {floor : Nat}
    (floored : floor ≤ state.required) :
    Load.Sound state ⟨path, floor, state.required, state.freshness.beginLoad⟩ :=
  ⟨floored, le_rfl, le_rfl, fun _ => le_rfl⟩

/-- A commit lands: the catalog moves on, and nothing cached is known to be older. -/
theorem Sound.commit {state : State Id} (sound : Sound state) {clients : Id → Client}
    (safe : ∀ next : State Id, next = { state with catalog := state.catalog + 1, clients } →
      Extends state next → ∀ client, (clients client).Sound next) :
    Extends state { state with catalog := state.catalog + 1, clients } ∧
      Sound { state with catalog := state.catalog + 1, clients } := by
  have grows : Extends state { state with catalog := state.catalog + 1, clients } :=
    { Extends.refl state with catalog := Nat.le_succ _ }
  refine ⟨grows, ?_⟩
  constructor
  case sorted => exact sound.sorted
  case bounded =>
    intro version inside
    exact (sound.bounded version inside).trans (Nat.le_succ _)
  case required => exact sound.required.trans (Nat.le_succ _)
  case freshGen => exact sound.freshGen
  case cachedRead => exact sound.cachedRead
  case cachedGen => exact sound.cachedGen
  case cachedCurrent => exact sound.cachedCurrent
  case fresh => exact sound.fresh
  case clients => exact safe _ rfl grows

/-- The cache is invalidated: it is not fresh, and no snapshot or load is of the new
generation. -/
theorem Sound.invalidate {state : State Id} (sound : Sound state) {required : Nat}
    (newer : state.required ≤ required) (landed : required ≤ state.catalog)
    {clients : Id → Client}
    (safe : ∀ next : State Id,
      next = { state with freshness := state.freshness.invalidate, required, clients } →
      Extends state next → ∀ client, (clients client).Sound next) :
    Extends state { state with freshness := state.freshness.invalidate, required, clients } ∧
      Sound { state with freshness := state.freshness.invalidate, required, clients } := by
  have grows :
      Extends state { state with freshness := state.freshness.invalidate, required, clients } :=
    { Extends.refl state with
      required := newer
      writeGen := Nat.le_succ _
      settled := fun same => absurd same (Nat.succ_ne_self _) }
  refine ⟨grows, ?_⟩
  constructor
  case sorted => exact sound.sorted
  case bounded => exact sound.bounded
  case required => exact landed
  case freshGen => exact sound.freshGen.trans (Nat.le_succ _)
  case cachedRead => exact sound.cachedRead
  case cachedGen =>
    intro cached inside
    exact (sound.cachedGen cached inside).trans (Nat.le_succ _)
  case cachedCurrent =>
    intro cached inside now
    exact absurd now (Nat.lt_succ_of_le (sound.cachedGen cached inside)).ne
  case fresh =>
    intro fresh
    exact absurd (of_decide_eq_true fresh) (Nat.lt_succ_of_le sound.freshGen).ne
  case clients => exact safe _ rfl grows

theorem sound_start (catalog : Nat) : Sound (State.start catalog : State Id) where
  sorted := .nil
  bounded := by simp [State.start]
  required := Nat.zero_le _
  freshGen := Nat.zero_le _
  cachedRead := by simp [State.start]
  cachedGen := by simp [State.start]
  cachedCurrent := by simp [State.start]
  fresh := by simp [State.start, TableFreshness.new, TableFreshness.isFresh]
  clients _ := trivial

/-- What a state serves is at least as new as the scan it serves asks for. -/
theorem Sound.served_le {state : State Id} (sound : Sound state) {staleRead : Bool}
    {action : Action Id}
    (noFallback : ∀ client, action = .failRead client → served staleRead state action = none)
    {floor version : Nat} (serves : served staleRead state action = some (floor, version)) :
    floor ≤ version := by
  cases action with
  | serveCached client =>
      simp only [served] at serves
      split at serves
      case h_1 own =>
        have trusting := sound.clients client
        rw [own] at trusting
        obtain ⟨cached, inside, floored⟩ := trusting
        rw [Option.mem_def.mp inside] at serves
        cases serves
        exact floored
      case h_2 => cases serves
  | failRead client =>
      rw [noFallback client rfl] at serves
      cases serves
  | compare client =>
      simp only [served] at serves
      split at serves
      case h_1 own =>
        have read := sound.clients client
        rw [own] at read
        split at serves <;> cases serves
        exact read.begun.floor.trans read.seen
      case h_2 => cases serves
  | finish client =>
      simp only [served] at serves
      split at serves
      case h_1 own =>
        have finishing := sound.clients client
        rw [own] at finishing
        split at serves <;> cases serves
        exact finishing.2.1
      case h_2 => cases serves
  | _ => cases serves

variable [DecidableEq Id]

/-- A client moves, and nothing else changes. -/
theorem Extends.move (state : State Id) (client : Id) (next : Client) :
    Extends state { state with clients := state.put client next } :=
  { Extends.refl state with }

/-- The clients after a step that extends the state and moves one of them. -/
theorem sound_put {state next : State Id} (sound : Sound state) (extends' : Extends state next)
    {client : Id} {moved : Client} (put : next.clients = state.put client moved)
    (safe : moved.Sound next) : ∀ other, (next.clients other).Sound next := by
  intro other
  rw [put]
  by_cases own : other = client
  · subst own
    simpa [State.put] using safe
  · simpa [State.put, own] using Client.Sound.extend extends' (sound.clients other)

theorem Sound.move {state : State Id} (sound : Sound state) {client : Id} {next : Client}
    (moved : next.Sound { state with clients := state.put client next }) : Sound { state with clients := state.put client next } where
  sorted := sound.sorted
  bounded := sound.bounded
  required := sound.required
  freshGen := sound.freshGen
  cachedRead := sound.cachedRead
  cachedGen := sound.cachedGen
  cachedCurrent := sound.cachedCurrent
  fresh := sound.fresh
  clients := sound_put sound (.move state client next) rfl moved

/-- A load completes that has found the cache to show every invalidated commit. -/
theorem Sound.complete {state : State Id} (sound : Sound state) {client : Id} {token : Nat}
    (begun : token ≤ state.freshness.writeGen)
    (shows : token = state.freshness.writeGen →
      ∃ cached ∈ state.cached, state.required ≤ cached.version) :
    Sound { state with
      freshness := state.freshness.completeLoad token
      clients := state.put client .idle } := by
  have same : Extends state { state with
      freshness := state.freshness.completeLoad token
      clients := state.put client .idle } :=
    { Extends.refl state with }
  constructor
  case sorted => exact sound.sorted
  case bounded => exact sound.bounded
  case required => exact sound.required
  case freshGen => exact max_le sound.freshGen begun
  case cachedRead => exact sound.cachedRead
  case cachedGen => exact sound.cachedGen
  case cachedCurrent => exact sound.cachedCurrent
  case fresh =>
    intro fresh
    have reached : max state.freshness.freshGen token = state.freshness.writeGen := by
      exact of_decide_eq_true fresh
    rcases max_choice state.freshness.freshGen token with already | now
    · exact sound.fresh (decide_eq_true (already ▸ reached))
    · exact shows (now ▸ reached)
  case clients => exact sound_put sound same rfl trivial

/-! ## The steps -/

/-- A load comes to its install. -/
theorem Sound.install {state : State Id} (sound : Sound state) {client : Id} {load : Load}
    {version readAt : Nat} (building : state.clients client = .building load version readAt)
    (inOrder : InOrder state (.install client)) :
    Extends state { state with
        cached := state.installed load version readAt
        clients := state.put client (.finishing load version) } ∧
      Sound { state with
        cached := state.installed load version readAt
        clients := state.put client (.finishing load version) } := by
  have read : ReadSound state load version readAt := by
    have own := sound.clients client
    rwa [building] at own
  cases straggler : state.isStraggler load with
  | true =>
      have kept : state.installed load version readAt = state.cached := by
        simp [State.installed, straggler]
      rw [kept]
      refine ⟨.move state client _, sound.move ⟨read.begun.token, read.begun.floor.trans read.seen, ?_⟩⟩
      obtain ⟨existing, inside, later⟩ := (state.cached.any_eq_true _).mp straggler
      exact ⟨existing, inside, (of_decide_eq_true later).le⟩
  | false =>
      have replaced : state.installed load version readAt =
          some ⟨version, load.token, readAt⟩ := by
        simp [State.installed, straggler]
      rw [replaced]
      have newer : ∀ cached ∈ state.cached,
          cached.version ≤ version ∧ cached.loadedGen ≤ load.token := by
        intro cached inside
        constructor
        · exact version_le_of_readAt_le sound.sorted (sound.cachedRead cached inside)
            read.history (inOrder load version readAt building straggler cached inside)
        · by_contra older
          have isOne : state.isStraggler load = true := by
            simp only [State.isStraggler, Option.mem_def.mp inside, Option.any_some,
              decide_eq_true_eq]
            omega
          rw [straggler] at isOne
          cases isOne
      have same : Extends state { state with
          cached := some ⟨version, load.token, readAt⟩
          clients := state.put client (.finishing load version) } :=
        { Extends.refl state with cached := fun cached inside => ⟨_, rfl, newer cached inside⟩ }
      refine ⟨same, ?_⟩
      constructor
      case sorted => exact sound.sorted
      case bounded => exact sound.bounded
      case required => exact sound.required
      case freshGen => exact sound.freshGen
      case cachedRead =>
        rintro _ ⟨⟩
        exact read.history
      case cachedGen =>
        rintro _ ⟨⟩
        exact read.begun.token
      case cachedCurrent =>
        rintro _ ⟨⟩ now
        exact (read.begun.current now).trans read.seen
      case fresh =>
        intro fresh
        obtain ⟨cached, inside, shows⟩ := sound.fresh fresh
        exact ⟨_, rfl, shows.trans (newer cached inside).1⟩
      case clients =>
        exact sound_put sound same rfl
          ⟨read.begun.token, read.begun.floor.trans read.seen, _, rfl, le_rfl⟩

/-- A scan starts or goes on to its load, or a load that has read the catalog finds the cached
version to be another one. -/
theorem Sound.moves {state next : State Id} (sound : Sound state) {client : Id} {moved : Client}
    (safe : moved.Sound state) (taken : { state with clients := state.put client moved } = next) :
    Extends state next ∧ Sound next := by
  subst taken
  exact ⟨.move state client moved, sound.move (Client.Sound.extend (.move state client moved) safe)⟩

/-- A load reads the catalog. -/
theorem Sound.read {state : State Id} (sound : Sound state) {client : Id} {load : Load}
    (reading : state.clients client = .reading load) :
    Extends state { state with
        history := state.history ++ [state.catalog]
        clients := state.put client (.comparing load state.catalog state.history.length) } ∧
      Sound { state with
        history := state.history ++ [state.catalog]
        clients := state.put client (.comparing load state.catalog state.history.length) } := by
  have begun : load.Sound state := by
    have own := sound.clients client
    rwa [reading] at own
  have grows : Extends state { state with
      history := state.history ++ [state.catalog]
      clients := state.put client (.comparing load state.catalog state.history.length) } :=
    { Extends.refl state with history := List.prefix_append _ _ }
  refine ⟨grows, ?_⟩
  constructor
  case sorted =>
    refine List.pairwise_append.mpr ⟨sound.sorted, List.pairwise_singleton _ _, ?_⟩
    rintro older inside newer isLast
    rw [List.mem_singleton.mp isLast]
    exact sound.bounded older inside
  case bounded =>
    intro version inside
    rcases List.mem_append.mp inside with older | isLast
    · exact sound.bounded version older
    · exact (List.mem_singleton.mp isLast).le
  case required => exact sound.required
  case freshGen => exact sound.freshGen
  case cachedRead =>
    intro cached inside
    exact getElem?_of_prefix grows.history (sound.cachedRead cached inside)
  case cachedGen => exact sound.cachedGen
  case cachedCurrent => exact sound.cachedCurrent
  case fresh => exact sound.fresh
  case clients =>
    exact sound_put sound grows rfl
      ⟨begun.extend grows, begun.known.trans sound.required, by simp⟩

/-- What one step keeps. -/
theorem Sound.step {state next : State Id} {action : Action Id} (sound : Sound state)
    (inOrder : InOrder state action) (taken : Cache.step state action = some next) :
    Extends state next ∧ Sound next := by
  cases action with
  | startScan client =>
      simp only [Cache.step] at taken
      split at taken <;> cases taken
      refine sound.moves ?_ rfl
      cases fresh : state.freshness.isFresh with
      | true => exact sound.fresh fresh
      | false => exact le_rfl
  | serveCached client =>
      simp only [Cache.step] at taken
      split at taken <;> cases taken
      rename_i floor own
      have trusting := sound.clients client
      rw [own] at trusting
      obtain ⟨cached, inside, -⟩ := trusting
      refine sound.moves ?_ rfl
      rw [Option.mem_def.mp inside]
      trivial
  | beginLoad client =>
      simp only [Cache.step] at taken
      split at taken <;> cases taken
      rename_i floor own
      have floored := sound.clients client
      rw [own] at floored
      refine sound.moves ?_ rfl
      exact load_begin .scan floored
  | startRefresh client =>
      simp only [Cache.step] at taken
      split at taken <;> cases taken
      refine sound.moves ?_ rfl
      exact load_begin .refresher le_rfl
  | readCatalog client =>
      simp only [Cache.step] at taken
      split at taken <;> cases taken
      rename_i load own
      exact sound.read own
  | failRead client =>
      simp only [Cache.step] at taken
      split at taken <;> cases taken
      refine sound.moves ?_ rfl
      trivial
  | compare client =>
      simp only [Cache.step] at taken
      split at taken
      case h_1 load version readAt own =>
        have read := sound.clients client
        rw [own] at read
        split at taken <;> cases taken
        case isTrue current =>
          obtain ⟨cached, inside, same⟩ := (state.cached.any_eq_true _).mp current
          refine ⟨{ Extends.refl state with }, sound.complete read.begun.token fun now => ?_⟩
          refine ⟨cached, inside, ?_⟩
          rw [of_decide_eq_true same]
          exact (read.begun.current now).trans read.seen
        case isFalse =>
          refine sound.moves ?_ rfl
          exact read
      case h_2 => cases taken
  | install client =>
      simp only [Cache.step] at taken
      split at taken <;> cases taken
      rename_i load version readAt own
      exact sound.install own inOrder
  | finish client =>
      simp only [Cache.step] at taken
      split at taken <;> cases taken
      rename_i load version own
      have finishing := sound.clients client
      rw [own] at finishing
      obtain ⟨token, -, cached, inside, generation⟩ := finishing
      refine ⟨{ Extends.refl state with }, sound.complete token fun now => ?_⟩
      have newest := le_antisymm (sound.cachedGen cached inside) (now ▸ generation)
      exact ⟨cached, inside, sound.cachedCurrent cached inside newest⟩
  | localCommit client =>
      simp only [Cache.step] at taken
      split at taken <;> cases taken
      refine sound.commit ?_
      rintro _ rfl grows
      exact sound_put sound grows rfl le_rfl
  | invalidate client =>
      simp only [Cache.step] at taken
      split at taken <;> cases taken
      rename_i version own
      have landed := sound.clients client
      rw [own] at landed
      refine sound.invalidate (le_max_left _ _) (max_le sound.required landed) ?_
      rintro _ rfl grows
      exact sound_put sound grows rfl trivial
  | foreignCommit =>
      cases taken
      refine sound.commit ?_
      rintro _ rfl grows client
      exact Client.Sound.extend grows (sound.clients client)
  | invalidateAlone =>
      cases taken
      refine sound.invalidate le_rfl sound.required ?_
      rintro _ rfl grows client
      exact Client.Sound.extend grows (sound.clients client)

theorem Sound.run {staleRead : Bool} {state later : State Id} (sound : Sound state)
    (run : Run Cache.step (Orderly staleRead) state later) : Sound later :=
  run.invariant (fun _ _ _ holds orderly taken => (holds.step orderly.1 taken).2) sound

/-- While loads install in the order in which they read the catalog and no failed read is answered
from the cache, a scan is served every local commit whose invalidation had returned when it
started, and the cached version does not go back. -/
theorem served_own_writes (staleRead : Bool) (catalog : Nat) {state next : State Id}
    {action : Action Id} (run : Run Cache.step (Orderly staleRead) (State.start catalog) state)
    (orderly : Orderly staleRead state action) (taken : Cache.step state action = some next) :
    (∀ floor version, served staleRead state action = some (floor, version) → floor ≤ version) ∧
      (state.freshness.isFresh = true → ∀ cached ∈ state.cached,
        ∃ later ∈ next.cached, cached.version ≤ later.version) := by
  have sound := (sound_start catalog).run run
  constructor
  · rintro floor version serves
    exact sound.served_le orderly.2 serves
  · rintro - cached inside
    obtain ⟨later, there, newer, -⟩ := (sound.step orderly.1 taken).1.cached cached inside
    exact ⟨later, there, newer⟩

/-! ## Runs on fixed inputs -/

/-- The part of the condition that a run on fixed inputs is checked for. -/
def inReadOrder (state : State Id) : Action Id → Bool
  | .install client =>
      match state.clients client with
      | .building load _ readAt =>
          state.isStraggler load || state.cached.all fun cached => cached.readAt ≤ readAt
      | _ => true
  | .failRead _ => false
  | _ => true

omit [DecidableEq Id] in
theorem orderly_of_inReadOrder (staleRead : Bool) (state : State Id) (action : Action Id)
    (checked : inReadOrder state action = true) : Orderly staleRead state action := by
  constructor
  · cases action with
    | install client =>
        rintro load version readAt building fresh cached inside
        simp only [inReadOrder, building, fresh, Bool.false_or, Option.mem_def.mp inside,
          Option.all_some, decide_eq_true_eq] at checked
        exact checked
    | _ => trivial
  · rintro client rfl
    cases checked

/-- A refresh, a commit with its invalidation, and a scan that loads the table. -/
def refreshed : State Nat :=
  execute Cache.step inReadOrder (State.start 0)
    [.startRefresh 0, .readCatalog 0, .compare 0, .install 0, .finish 0, .localCommit 1,
      .invalidate 1, .startScan 2, .beginLoad 2, .readCatalog 2, .compare 2, .install 2]

theorem served_own_writes_refreshed :
    served false refreshed (.finish 2) = some (1, 1) ∧
      ((∀ floor version, served false refreshed (.finish 2) = some (floor, version) →
        floor ≤ version) ∧
      (refreshed.freshness.isFresh = true → ∀ cached ∈ refreshed.cached,
        ∃ later ∈ ((Cache.step refreshed (.finish 2)).getD refreshed).cached,
          cached.version ≤ later.version)) :=
  ⟨by decide, served_own_writes false 0
    (run_execute (orderly_of_inReadOrder false) _ _)
    (orderly_of_inReadOrder false _ _ (by decide)) rfl⟩

/-- The refresher reads the catalog and is slow to install. A commit lands, a scan loads and installs
it, the commit's invalidation follows, and another scan finds the cached snapshot to be current: it
makes the cache fresh, but the snapshot keeps the generation it was loaded at. -/
def confirmed : State Nat :=
  execute Cache.step (fun _ _ => true) (State.start 0)
    [.startRefresh 0, .readCatalog 0, .compare 0, .localCommit 1,
      .startScan 2, .beginLoad 2, .readCatalog 2, .compare 2, .install 2, .finish 2, .invalidate 1,
      .startScan 3, .beginLoad 3, .readCatalog 3, .compare 3]

/-- The refresher is of the same generation, so it installs what it read over the newer
snapshot. The cache is still fresh, and the next scan is served without the commit. -/
theorem older_read_replaces_newer :
    Run Cache.step Unrestricted (State.start 0) confirmed ∧
      ∃ installed scanning, Cache.step confirmed (.install 0) = some installed ∧
        Cache.step installed (.startScan 4) = some scanning ∧
        confirmed.freshness.isFresh = true ∧ installed.freshness.isFresh = true ∧
        confirmed.cached.map CachedSnapshot.version = some 1 ∧
        installed.cached.map CachedSnapshot.version = some 0 ∧
        served false scanning (.serveCached 4) = some (1, 0) :=
  ⟨run_execute (fun _ _ _ => trivial) _ _, _, _, rfl, rfl, by decide, by decide, by decide,
    by decide, by decide⟩

end Icegres.Cache
