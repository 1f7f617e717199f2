import Icegres.Cache.Freshness

/-!
# Scans between two looks at the cached version

A planner looks at the cached version of a table, lets its scans load the table on their own, and
looks again. When loads install in order the cached version cannot come back, so if it is the same
at both looks every scan that started in between was served exactly this version.
-/

namespace Icegres.Cache

variable {Id : Type}

/-- The task that takes an action. -/
def Action.client : Action Id → Option Id
  | .startScan client => some client
  | .serveCached client => some client
  | .beginLoad client => some client
  | .startRefresh client => some client
  | .readCatalog client => some client
  | .failRead client => some client
  | .compare client => some client
  | .install client => some client
  | .finish client => some client
  | .localCommit client => some client
  | .invalidate client => some client
  | .foreignCommit => none
  | .invalidateAlone => none

/-- The cached snapshot is newer than this version. -/
def Replaced (state : State Id) (version : Nat) : Prop :=
  ∃ cached ∈ state.cached, version < cached.version

/-- What a scan can have come to that started after the cached version was looked at. -/
def Client.Since (state : State Id) (version generation : Nat) : Client → Prop
  | .reading load => generation ≤ load.token
  | .comparing load seen _ => generation ≤ load.token ∧ version ≤ seen
  | .building load seen _ =>
      generation ≤ load.token ∧ (version < seen ∨ Replaced state version)
  | .finishing _ _ => Replaced state version
  | _ => True

/-- The cached version was `version` at `generation` or before. A load that still builds this
version began no later, or the version is gone for good. -/
structure Fingerprinted (state : State Id) (version generation : Nat) : Prop where
  landed : version ≤ state.catalog
  begun : generation ≤ state.freshness.writeGen
  cached : ∃ cached ∈ state.cached, version ≤ cached.version
  cachedGen : ∀ cached ∈ state.cached, cached.version = version → cached.loadedGen ≤ generation
  building : ∀ client load readAt, state.clients client = .building load version readAt →
    load.token ≤ generation ∨ Replaced state version

theorem fingerprinted_of_cached {state : State Id} (sound : Sound state)
    {cached : CachedSnapshot} (inside : cached ∈ state.cached) :
    Fingerprinted state cached.version state.freshness.writeGen where
  landed := sound.bounded _ (List.mem_of_getElem? (sound.cachedRead cached inside))
  begun := le_rfl
  cached := ⟨cached, inside, le_rfl⟩
  cachedGen := by
    intro other isOther _
    exact sound.cachedGen other isOther
  building := by
    intro client load readAt builds
    have own := sound.clients client
    rw [builds] at own
    exact .inl own.begun.token

theorem Replaced.extend {state next : State Id} (grows : Extends state next) {version : Nat}
    (gone : Replaced state version) : Replaced next version := by
  obtain ⟨cached, inside, newer⟩ := gone
  obtain ⟨later, there, atLeast, -⟩ := grows.cached cached inside
  exact ⟨later, there, newer.trans_le atLeast⟩

theorem Client.Since.extend {state next : State Id} (grows : Extends state next)
    {version generation : Nat} {client : Client} (since : client.Since state version generation) :
    client.Since next version generation := by
  cases client with
  | building load seen readAt => exact ⟨since.1, since.2.imp_right (Replaced.extend grows)⟩
  | finishing load seen => exact Replaced.extend grows since
  | reading load => exact since
  | comparing load seen readAt => exact since
  | _ => trivial

/-- The cached version is the one looked at, or it is newer. -/
theorem Fingerprinted.eq_or_replaced {state : State Id} {version generation : Nat}
    (taken : Fingerprinted state version generation) {cached : CachedSnapshot}
    (inside : cached ∈ state.cached) : cached.version = version ∨ Replaced state version := by
  obtain ⟨same, isCached, atLeast⟩ := taken.cached
  cases (Option.mem_def.mp inside).symm.trans (Option.mem_def.mp isCached)
  rcases atLeast.eq_or_lt with equal | newer
  · exact .inl equal.symm
  · exact .inr ⟨cached, inside, newer⟩

/-- A scan that started in between is served the version that was looked at, unless the table has
been replaced. -/
theorem Fingerprinted.served {state : State Id} {version generation : Nat}
    (taken : Fingerprinted state version generation) {staleRead : Bool} {action : Action Id}
    {client : Id} (acts : action.client = some client)
    (since : (state.clients client).Since state version generation) {floor shown : Nat}
    (serves : served staleRead state action = some (floor, shown)) :
    shown = version ∨ Replaced state version := by
  have ofCached : ∀ {floor' : Nat},
      state.cached.map (fun cached => (floor', cached.version)) = some (floor, shown) →
        shown = version ∨ Replaced state version := by
    intro floor' fromCache
    obtain ⟨cached, inside, same⟩ := Option.map_eq_some_iff.mp fromCache
    cases same
    exact taken.eq_or_replaced inside
  cases action with
  | serveCached own =>
      simp only [Cache.served] at serves
      split at serves
      · exact ofCached serves
      · cases serves
  | failRead own =>
      simp only [Cache.served] at serves
      split at serves
      · split at serves
        · exact ofCached serves
        · cases serves
      · cases serves
  | compare own =>
      simp only [Cache.served] at serves
      split at serves
      · split at serves <;> cases serves
        rename_i current
        obtain ⟨cached, inside, same⟩ := (state.cached.any_eq_true _).mp current.2
        rw [← of_decide_eq_true same]
        exact taken.eq_or_replaced inside
      · cases serves
  | finish own =>
      cases acts
      simp only [Cache.served] at serves
      split at serves
      case h_1 finishing =>
        rw [finishing] at since
        exact .inr since
      case h_2 => cases serves
  | _ => cases serves

/-- The cached snapshot after an install is the old one or the load's. -/
theorem installed_cases (state : State Id) (load : Load) (version readAt : Nat) :
    (state.isStraggler load = true ∧ state.installed load version readAt = state.cached) ∨
      (state.isStraggler load = false ∧
        state.installed load version readAt = some ⟨version, load.token, readAt⟩) := by
  cases straggler : state.isStraggler load <;> simp [State.installed, straggler]

/-- The table a scan installs into is fingerprinted, and the scan started in between: whichever
way the install goes, the version looked at is gone. -/
theorem Fingerprinted.install {state next : State Id} {version generation : Nat}
    (taken : Fingerprinted state version generation) (grows : Extends state next) {load : Load}
    {seen readAt : Nat}
    (cached : next.cached = state.installed load seen readAt)
    (since : (Client.building load seen readAt).Since state version generation) :
    Replaced next version := by
  rcases since.2 with newer | gone
  · rcases installed_cases state load seen readAt with ⟨straggler, kept⟩ | ⟨-, put⟩
    · obtain ⟨existing, inside, later⟩ := (state.cached.any_eq_true _).mp straggler
      have younger : generation < existing.loadedGen :=
        since.1.trans_lt (of_decide_eq_true later)
      rcases taken.eq_or_replaced inside with same | gone
      · exact absurd (taken.cachedGen existing inside same) (Nat.not_le_of_lt younger)
      · exact gone.extend grows
    · exact ⟨_, cached.trans put, newer⟩
  · exact gone.extend grows

/-! ## The steps -/

variable [DecidableEq Id]

/-- A step moves the task that takes it. -/
theorem step_clients {state next : State Id} {action : Action Id}
    (taken : step state action = some next) {other : Id} (apart : action.client ≠ some other) :
    next.clients other = state.clients other := by
  have put : ∀ {client : Id} (moved : Client), some client ≠ some other →
      state.put client moved other = state.clients other := by
    intro client moved differs
    exact Function.update_of_ne (fun same => differs (congrArg some same.symm)) _ _
  unfold step at taken
  repeat' split at taken
  all_goals cases taken
  all_goals first | rfl | exact put _ apart

/-- Only an install replaces the cached snapshot. -/
theorem step_cached {state next : State Id} {action : Action Id}
    (taken : step state action = some next) (other : ∀ client, action ≠ .install client) :
    next.cached = state.cached := by
  unfold step at taken
  repeat' split at taken
  all_goals cases taken
  all_goals first | rfl | exact absurd rfl (other _)

/-- A task builds a version that it built before, or it has just found the cached one to be
another. -/
theorem building_of_step {state next : State Id} {action : Action Id}
    (taken : step state action = some next) {client : Id} {load : Load} {version readAt : Nat}
    (builds : next.clients client = .building load version readAt) :
    state.clients client = .building load version readAt ∨
      (state.clients client = .comparing load version readAt ∧
        state.isCurrent version = false) := by
  unfold step at taken
  repeat' split at taken
  all_goals cases taken
  all_goals simp only [State.put, Function.update_apply] at builds
  all_goals grind

theorem Fingerprinted.step {state next : State Id} {version generation : Nat}
    (taken : Fingerprinted state version generation) (sound : Sound state) {action : Action Id}
    (inOrder : InOrder state action) (moves : Cache.step state action = some next) :
    Fingerprinted next version generation := by
  obtain ⟨grows, soundNext⟩ := sound.step inOrder moves
  have cached : ∃ cached ∈ next.cached, version ≤ cached.version := by
    obtain ⟨before, inside, atLeast⟩ := taken.cached
    obtain ⟨later, there, newer, -⟩ := grows.cached before inside
    exact ⟨later, there, atLeast.trans newer⟩
  constructor
  case landed => exact taken.landed.trans grows.catalog
  case begun => exact taken.begun.trans grows.writeGen
  case cached => exact cached
  case cachedGen =>
    by_cases installs : ∃ client, action = .install client
    · obtain ⟨client, rfl⟩ := installs
      simp only [Cache.step] at moves
      split at moves <;> cases moves
      rename_i load seen readAt building
      rintro now inside rfl
      rcases installed_cases state load seen readAt with ⟨-, kept⟩ | ⟨fresh, put⟩
      · exact taken.cachedGen now (kept ▸ inside) rfl
      · cases put ▸ inside
        rcases taken.building client load readAt building with early | gone
        · exact early
        · -- Loads install in order, so a gone version is not installed again.
          obtain ⟨before, isCached, newer⟩ := gone
          have read := sound.clients client
          rw [building] at read
          have back := version_le_of_readAt_le sound.sorted (sound.cachedRead before isCached)
            read.history (inOrder load _ readAt building fresh before isCached)
          exact absurd newer (Nat.not_lt_of_le back)
    · rw [step_cached moves fun client same => installs ⟨client, same⟩]
      exact taken.cachedGen
  case building =>
    intro client load readAt builds
    rcases building_of_step moves builds with already | ⟨-, found⟩
    · exact (taken.building client load readAt already).imp_right (Replaced.extend grows)
    · obtain ⟨before, inside, -⟩ := taken.cached
      rcases taken.eq_or_replaced inside with same | gone
      · have current : state.isCurrent version = true :=
          (state.cached.any_eq_true _).mpr ⟨before, inside, decide_eq_true same⟩
        rw [found] at current
        cases current
      · exact .inr (gone.extend grows)

/-- What a scan can come to that started in between. -/
theorem Client.Since.step {state next : State Id} {version generation : Nat}
    (taken : Fingerprinted state version generation) (sound : Cache.Sound state)
    {action : Action Id} (inOrder : InOrder state action)
    (moves : Cache.step state action = some next) {client : Id}
    (since : (state.clients client).Since state version generation) :
    (next.clients client).Since next version generation := by
  have grows := (sound.step inOrder moves).1
  by_cases own : action.client = some client
  · cases action with
    | beginLoad client' =>
        cases own
        simp only [Cache.step] at moves
        split at moves <;> cases moves
        simp only [State.put, Function.update_self]
        exact taken.begun
    | startRefresh client' =>
        cases own
        simp only [Cache.step] at moves
        split at moves <;> cases moves
        simp only [State.put, Function.update_self]
        exact taken.begun
    | readCatalog client' =>
        cases own
        simp only [Cache.step] at moves
        split at moves <;> cases moves
        rename_i load reading
        rw [reading] at since
        simp only [State.put, Function.update_self]
        exact ⟨since, taken.landed⟩
    | compare client' =>
        cases own
        simp only [Cache.step] at moves
        split at moves
        · rename_i load seen readAt comparing
          rw [comparing] at since
          split at moves <;> cases moves
          · simp [State.put, Client.Since]
          · rename_i found
            obtain ⟨before, inside, -⟩ := taken.cached
            simp only [State.put, Function.update_self]
            refine ⟨since.1, ?_⟩
            rcases since.2.eq_or_lt with same | newer
            · rcases taken.eq_or_replaced inside with equal | gone
              · refine absurd ((state.cached.any_eq_true _).mpr ⟨before, inside, ?_⟩) found
                exact decide_eq_true (equal.trans same)
              · exact .inr (gone.extend grows)
            · exact .inl newer
        · cases moves
    | install client' =>
        cases own
        simp only [Cache.step] at moves
        split at moves <;> cases moves
        rename_i load seen readAt building
        rw [building] at since
        simp only [State.put, Function.update_self]
        exact taken.install grows rfl since
    | foreignCommit => cases own
    | invalidateAlone => cases own
    | _ =>
        cases own
        simp only [Cache.step] at moves
        split at moves <;> cases moves
        simp only [State.put, Function.update_self]
        first
          | trivial
          | split <;> trivial
  · rw [step_clients moves own]
    exact since.extend grows

end Icegres.Cache
