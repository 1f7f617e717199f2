import Icegres.Transition
import Mathlib.Logic.Function.Basic
import Mathlib.Data.List.Basic
import Mathlib.Data.Nat.Basic
import Mathlib.Order.MinMax

/-!
# The cached snapshot of a table

A scan serves the cached snapshot without asking the catalog while the cache is fresh. Otherwise it
loads the table, and so does the background refresher. A load notes the write generation before it
reads the catalog and may complete long after, next to any other load and to local commits, each of
which invalidates the cache when its post has returned. The versions of a table are numbered in the
order in which its commits landed.
-/

namespace Icegres.Cache

structure TableFreshness where
  writeGen : Nat
  freshGen : Nat

namespace TableFreshness

/-- A new table is born stale. -/
def new : TableFreshness :=
  ⟨1, 0⟩

def isFresh (freshness : TableFreshness) : Bool :=
  freshness.freshGen = freshness.writeGen

/-- The token of a load that starts now. -/
def beginLoad (freshness : TableFreshness) : Nat :=
  freshness.writeGen

/-- A load that began at `token` has succeeded. -/
def completeLoad (freshness : TableFreshness) (token : Nat) : TableFreshness :=
  { freshness with freshGen := max freshness.freshGen token }

def invalidate (freshness : TableFreshness) : TableFreshness :=
  { freshness with writeGen := freshness.writeGen + 1 }

end TableFreshness

/-- The cached provider. `readAt` records the place of its load among the catalog reads. -/
structure CachedSnapshot where
  version : Nat
  loadedGen : Nat
  readAt : Nat

inductive LoadPath where
  | scan
  | refresher
  deriving DecidableEq

/-- A load under way. `floor` records the local commits that were invalidated when its scan
started, `known` those that were when the load did. -/
structure Load where
  path : LoadPath
  floor : Nat
  known : Nat
  token : Nat

/-- Where a task is. -/
inductive Client where
  | idle
  /-- A scan that has found the cache stale or empty. -/
  | missed (floor : Nat)
  /-- A scan that has found the cache fresh and has not read it yet. -/
  | trusting (floor : Nat)
  | reading (load : Load)
  /-- The catalog was read. -/
  | comparing (load : Load) (version readAt : Nat)
  /-- The cached version was another one, and the new provider is being built. -/
  | building (load : Load) (version readAt : Nat)
  /-- The provider is installed or was discarded. -/
  | finishing (load : Load) (version : Nat)
  /-- A local commit that has landed and not yet invalidated the cache. -/
  | committed (version : Nat)

/-- One table. `history` records the versions in the order in which they were read of the catalog,
and `required` the newest local commit whose invalidation has returned. -/
structure State (Id : Type) where
  catalog : Nat
  freshness : TableFreshness
  cached : Option CachedSnapshot
  clients : Id → Client
  history : List Nat
  required : Nat

inductive Action (Id : Type) where
  | startScan (client : Id)
  | serveCached (client : Id)
  | beginLoad (client : Id)
  | startRefresh (client : Id)
  | readCatalog (client : Id)
  | failRead (client : Id)
  | compare (client : Id)
  | install (client : Id)
  | finish (client : Id)
  | localCommit (client : Id)
  | invalidate (client : Id)
  /-- A commit of another server, or of another path, lands. -/
  | foreignCommit
  /-- An invalidation without a commit: the post failed, or was answered by a conflict. -/
  | invalidateAlone

variable {Id : Type} [DecidableEq Id]

namespace State

variable (state : State Id)

def start (catalog : Nat) : State Id where
  catalog
  freshness := .new
  cached := none
  clients _ := .idle
  history := []
  required := 0

def put (client : Id) (next : Client) : Id → Client :=
  Function.update state.clients client next

/-- A straggler is a load that began before the load of the cached snapshot was invalidated. -/
def isStraggler (load : Load) : Bool :=
  state.cached.any fun existing => load.token < existing.loadedGen

/-- The cached snapshot after a load has come to its install. -/
def installed (load : Load) (version readAt : Nat) : Option CachedSnapshot :=
  if state.isStraggler load then state.cached else some ⟨version, load.token, readAt⟩

/-- The load has confirmed the cached snapshot. -/
def isCurrent (version : Nat) : Bool :=
  state.cached.any fun cached => cached.version = version

end State

def step (state : State Id) : Action Id → Option (State Id)
  | .startScan client =>
      match state.clients client with
      | .idle =>
          some { state with
            clients := state.put client
              (if state.freshness.isFresh then .trusting state.required
              else .missed state.required) }
      | _ => none
  | .serveCached client =>
      match state.clients client with
      | .trusting floor =>
          some { state with
            clients := state.put client (if state.cached.isSome then .idle else .missed floor) }
      | _ => none
  | .beginLoad client =>
      match state.clients client with
      | .missed floor =>
          some { state with
            clients := state.put client
              (.reading ⟨.scan, floor, state.required, state.freshness.beginLoad⟩) }
      | _ => none
  | .startRefresh client =>
      match state.clients client with
      | .idle =>
          some { state with
            clients := state.put client
              (.reading ⟨.refresher, state.required, state.required,
                state.freshness.beginLoad⟩) }
      | _ => none
  | .readCatalog client =>
      match state.clients client with
      | .reading load =>
          some { state with
            history := state.history ++ [state.catalog]
            clients := state.put client
              (.comparing load state.catalog state.history.length) }
      | _ => none
  | .failRead client =>
      match state.clients client with
      | .reading _ => some { state with clients := state.put client .idle }
      | _ => none
  | .compare client =>
      match state.clients client with
      | .comparing load version readAt =>
          if state.isCurrent version then
            some { state with
              freshness := state.freshness.completeLoad load.token
              clients := state.put client .idle }
          else some { state with clients := state.put client (.building load version readAt) }
      | _ => none
  | .install client =>
      match state.clients client with
      | .building load version readAt =>
          some { state with
            cached := state.installed load version readAt
            clients := state.put client (.finishing load version) }
      | _ => none
  | .finish client =>
      match state.clients client with
      | .finishing load _ =>
          some { state with
            freshness := state.freshness.completeLoad load.token
            clients := state.put client .idle }
      | _ => none
  | .localCommit client =>
      match state.clients client with
      | .idle =>
          some { state with
            catalog := state.catalog + 1
            clients := state.put client (.committed (state.catalog + 1)) }
      | _ => none
  | .invalidate client =>
      match state.clients client with
      | .committed version =>
          some { state with
            freshness := state.freshness.invalidate
            required := max state.required version
            clients := state.put client .idle }
      | _ => none
  | .foreignCommit => some { state with catalog := state.catalog + 1 }
  | .invalidateAlone => some { state with freshness := state.freshness.invalidate }

/-- The floor of the scan a step serves, and the version it is served. After a failed read the
cached snapshot is served where the policy allows it. -/
def served (staleRead : Bool) (state : State Id) : Action Id → Option (Nat × Nat)
  | .serveCached client =>
      match state.clients client with
      | .trusting floor => state.cached.map fun cached => (floor, cached.version)
      | _ => none
  | .failRead client =>
      match state.clients client with
      | .reading load =>
          if load.path = .scan ∧ staleRead = true then
            state.cached.map fun cached => (load.floor, cached.version)
          else none
      | _ => none
  | .compare client =>
      match state.clients client with
      | .comparing load version _ =>
          if load.path = .scan ∧ state.isCurrent version then some (load.floor, version) else none
      | _ => none
  | .finish client =>
      match state.clients client with
      | .finishing load version =>
          if load.path = .scan then some (load.floor, version) else none
      | _ => none
  | _ => none

/-! ## The order of the loads -/

/-- A load that installs has read the catalog after the load of the snapshot it replaces. -/
def InOrder (state : State Id) : Action Id → Prop
  | .install client => ∀ load version readAt,
      state.clients client = .building load version readAt → state.isStraggler load = false →
        ∀ cached ∈ state.cached, cached.readAt ≤ readAt
  | _ => True

/-- Loads install in order, and no scan is served after its read of the catalog has failed. -/
def Orderly (staleRead : Bool) (state : State Id) (action : Action Id) : Prop :=
  InOrder state action ∧ ∀ client, action = .failRead client → served staleRead state action = none

/-! ## What a state keeps -/

/-- The load began no later than now, and one that began in the current generation knows every
local commit that was invalidated. -/
structure Load.Sound (state : State Id) (load : Load) : Prop where
  floor : load.floor ≤ load.known
  known : load.known ≤ state.required
  token : load.token ≤ state.freshness.writeGen
  current : load.token = state.freshness.writeGen → state.required ≤ load.known

/-- The load read this version at this place. -/
structure ReadSound (state : State Id) (load : Load) (version readAt : Nat) : Prop where
  begun : load.Sound state
  seen : load.known ≤ version
  history : state.history[readAt]? = some version

def Client.Sound (state : State Id) : Client → Prop
  | .idle => True
  | .missed floor => floor ≤ state.required
  | .trusting floor => ∃ cached ∈ state.cached, floor ≤ cached.version
  | .reading load => load.Sound state
  | .comparing load version readAt => ReadSound state load version readAt
  | .building load version readAt => ReadSound state load version readAt
  | .finishing load version =>
      load.token ≤ state.freshness.writeGen ∧ load.floor ≤ version ∧
        ∃ cached ∈ state.cached, load.token ≤ cached.loadedGen
  | .committed version => version ≤ state.catalog

structure Sound (state : State Id) : Prop where
  sorted : state.history.Pairwise (· ≤ ·)
  bounded : ∀ version ∈ state.history, version ≤ state.catalog
  required : state.required ≤ state.catalog
  freshGen : state.freshness.freshGen ≤ state.freshness.writeGen
  cachedRead : ∀ cached ∈ state.cached, state.history[cached.readAt]? = some cached.version
  cachedGen : ∀ cached ∈ state.cached, cached.loadedGen ≤ state.freshness.writeGen
  cachedCurrent : ∀ cached ∈ state.cached, cached.loadedGen = state.freshness.writeGen →
    state.required ≤ cached.version
  fresh : state.freshness.isFresh = true →
    ∃ cached ∈ state.cached, state.required ≤ cached.version
  clients : ∀ client, (state.clients client).Sound state

end Icegres.Cache
