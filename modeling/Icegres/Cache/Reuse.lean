import Icegres.Cache.Plans

/-!
# What a hit returns

When loads install in order, a plan whose fingerprint is unchanged was served exactly the versions
of its fingerprint, so a plan or result that is found again shows what its tables serve.
-/

namespace Icegres.Cache

variable {Table Statement Other Key : Type}

/-- Every version a scan was served is in the fingerprint. -/
def Entry.Matches (entry : Entry Table) : Prop :=
  ∀ pair ∈ entry.baked, pair ∈ entry.tables

/-- The version the cache of a table serves, while it is fresh. -/
def serving {Id : Type} (state : State Id) : Option Nat :=
  if state.freshness.isFresh then state.cached.map CachedSnapshot.version else none

/-- The version a look at a table finds. -/
def servedVersion {Id : Type} (eligible : Table → Bool) (tables : Table → State Id)
    (table : Table) : Option Nat :=
  if eligible table then serving (tables table) else none

theorem serving_eq_some {Id : Type} {state : State Id} {version : Nat}
    (serves : serving state = some version) :
    ∃ cached ∈ state.cached, cached.version = version := by
  rw [serving, Option.ite_none_right_eq_some] at serves
  exact Option.map_eq_some_iff.mp serves.2

section Condition

variable [DecidableEq Table] [DecidableEq Statement] [DecidableEq Other] [DecidableEq Key]

/-- Loads install in the order in which they read the catalog, and no table is invalidated or
replaced from when a lookup finds it fresh to the end of this lookup. -/
def Calm (system : Plans Table Statement Other Key) :
    PlansAction Table Statement Other Key → Prop
  | .table table action =>
      InOrder (system.tables table) action ∧
        ∀ next, Cache.step (system.tables table) action = some next →
          serving next ≠ serving (system.tables table) →
            ∀ statement kind key entry rest,
              (system.statements statement).phase = .checking kind key entry rest →
                (system.statements statement).probed ≠ some table ∧
                  ∀ version, (table, version) ∈ entry.tables → (table, version) ∈ rest
  | _ => True

end Condition

/-! ## What a phase has come to know -/

/-- The fingerprint covers the scans, and every version in it was cached when it was looked at. -/
structure Recorded (tables : Table → State (Task Statement Other)) (scans todo : List Table)
    (recorded : List (Table × Nat)) : Prop where
  covered : ∀ table ∈ scans, table ∈ todo ∨ ∃ version, (table, version) ∈ recorded
  taken : ∀ pair ∈ recorded, ∃ generation, Fingerprinted (tables pair.1) pair.2 generation

/-- The scans that have not ended started after the fingerprint was taken, and those that have were
served its versions or have found the table replaced. -/
structure Scanned (tables : Table → State (Task Statement Other)) (statement : Statement)
    (scans : List Table) (recorded opened baked : List (Table × Nat)) : Prop where
  covered : ∀ table ∈ scans, ∃ version, (table, version) ∈ recorded
  openedScans : ∀ pair ∈ opened, pair.1 ∈ scans
  bakedScans : ∀ pair ∈ baked, pair.1 ∈ scans
  taken : ∀ pair ∈ recorded, ∃ generation,
    Fingerprinted (tables pair.1) pair.2 generation ∧
      ∀ number, (pair.1, number) ∈ opened →
        ((tables pair.1).clients (.scan statement number)).Since (tables pair.1) pair.2 generation
  baked : ∀ pair ∈ recorded, ∀ version, (pair.1, version) ∈ baked →
    version = pair.2 ∨ Replaced (tables pair.1) pair.2

/-- A table that was compared was served as recorded. -/
structure Verified (tables : Table → State (Task Statement Other)) (entry : Entry Table)
    (rest : List (Table × Nat)) : Prop where
  covered : ∀ pair ∈ entry.baked, ∃ version, (pair.1, version) ∈ entry.tables
  baked : ∀ pair ∈ entry.tables, ∀ version, (pair.1, version) ∈ entry.baked →
    version = pair.2 ∨ (pair ∈ rest ∧ Replaced (tables pair.1) pair.2)

/-- A table that was compared still serves what is recorded of it. -/
structure Checked (serves : Table → Option Nat) (entry : Entry Table) (rest : List (Table × Nat)) :
    Prop where
  matches' : entry.Matches
  served : ∀ pair ∈ entry.tables, pair ∈ rest ∨ serves pair.1 = some pair.2

def Phase.Sound (eligible : Table → Bool) (tables : Table → State (Task Statement Other))
    (statement : Statement) : Phase Table Key → Prop
  | .checking _ _ entry rest => Checked (servedVersion eligible tables) entry rest
  | .analyzing _ scans todo recorded => Recorded tables scans todo recorded
  | .planning _ scans (some recorded) opened baked =>
      Scanned tables statement scans recorded opened baked
  | .verifying _ entry rest => Verified tables entry rest
  | .streaming (some (_, entry)) => entry.Matches
  | _ => True

/-- What the steps of the tables keep of every fingerprint. -/
structure Advances (tables later : Table → State (Task Statement Other)) : Prop where
  taken : ∀ table version generation, Fingerprinted (tables table) version generation →
    Fingerprinted (later table) version generation
  since : ∀ table version generation client, Fingerprinted (tables table) version generation →
    ((tables table).clients client).Since (tables table) version generation →
      ((later table).clients client).Since (later table) version generation
  replaced : ∀ table version, Replaced (tables table) version → Replaced (later table) version

theorem Recorded.advance {tables later : Table → State (Task Statement Other)}
    (advances : Advances tables later) {scans todo : List Table} {recorded : List (Table × Nat)}
    (sound : Recorded tables scans todo recorded) : Recorded later scans todo recorded where
  covered := sound.covered
  taken := by
    intro pair inside
    obtain ⟨generation, taken⟩ := sound.taken pair inside
    exact ⟨generation, advances.taken _ _ _ taken⟩

theorem Scanned.advance {tables later : Table → State (Task Statement Other)}
    (advances : Advances tables later) {statement : Statement} {scans : List Table}
    {recorded opened baked : List (Table × Nat)}
    (sound : Scanned tables statement scans recorded opened baked) :
    Scanned later statement scans recorded opened baked where
  covered := sound.covered
  openedScans := sound.openedScans
  bakedScans := sound.bakedScans
  taken := by
    intro pair inside
    obtain ⟨generation, taken, since⟩ := sound.taken pair inside
    refine ⟨generation, advances.taken _ _ _ taken, ?_⟩
    intro number isOpen
    exact advances.since _ _ _ _ taken (since number isOpen)
  baked := by
    intro pair inside version served
    exact (sound.baked pair inside version served).imp_right (advances.replaced _ _)

theorem Verified.advance {tables later : Table → State (Task Statement Other)}
    (advances : Advances tables later) {entry : Entry Table} {rest : List (Table × Nat)}
    (sound : Verified tables entry rest) : Verified later entry rest where
  covered := sound.covered
  baked := by
    intro pair inside version served
    refine (sound.baked pair inside version served).imp_right ?_
    rintro ⟨left, gone⟩
    exact ⟨left, advances.replaced _ _ gone⟩

/-- Every phase but a lookup keeps what it knows while the tables advance. -/
theorem Phase.Sound.advance {eligible : Table → Bool}
    {tables later : Table → State (Task Statement Other)}
    (advances : Advances tables later) {statement : Statement} {phase : Phase Table Key}
    (calm : ∀ kind key entry rest, phase = .checking kind key entry rest →
      ∀ pair ∈ entry.tables, pair ∈ rest ∨
        servedVersion eligible later pair.1 = servedVersion eligible tables pair.1)
    (sound : phase.Sound eligible tables statement) : phase.Sound eligible later statement := by
  cases phase with
  | checking kind key entry rest =>
      refine ⟨sound.matches', ?_⟩
      intro pair inside
      rcases sound.served pair inside with left | same
      · exact .inl left
      · rcases calm kind key entry rest rfl pair inside with left | kept
        · exact .inl left
        · exact .inr (kept.trans same)
  | analyzing key scans todo recorded => exact Recorded.advance advances sound
  | planning key scans recorded opened baked =>
      cases recorded with
      | none => trivial
      | some recorded => exact Scanned.advance advances sound
  | verifying key entry rest => exact Verified.advance advances sound
  | streaming sink =>
      cases sink with
      | none => trivial
      | some sink => exact sound
  | _ => trivial

/-! ## The phases -/

section Phases

variable [DecidableEq Table] {tables : Table → State (Task Statement Other)}

/-- One more version is looked at. -/
theorem Recorded.record {scans todo : List Table} {recorded : List (Table × Nat)}
    (sound : Recorded tables scans todo recorded) {table : Table} (first : todo.head? = some table)
    {cached : CachedSnapshot} (inside : cached ∈ (tables table).cached)
    (soundTable : Cache.Sound (tables table)) :
    Recorded tables scans todo.tail (Cache.record recorded table cached.version) where
  covered := by
    intro scan isScan
    by_cases own : scan = table
    · subst own
      exact .inr ⟨_, List.mem_cons_self⟩
    · rcases sound.covered scan isScan with left | ⟨version, known⟩
      · left
        cases todo with
        | nil => cases left
        | cons head rest =>
            cases first
            exact (List.mem_cons.mp left).resolve_left own
      · exact .inr ⟨version, List.mem_cons_of_mem _ (List.mem_filter.mpr ⟨known, by simpa using own⟩)⟩
  taken := by
    intro pair isPair
    rcases List.mem_cons.mp isPair with rfl | older
    · exact ⟨_, fingerprinted_of_cached soundTable inside⟩
    · exact sound.taken pair (List.mem_filter.mp older).1

omit [DecidableEq Table] in
/-- Planning starts, and no scan has. -/
theorem Recorded.startPlanning {statement : Statement} {scans : List Table}
    {recorded : List (Table × Nat)} (sound : Recorded tables scans [] recorded) :
    Scanned tables statement scans recorded [] [] where
  covered := by
    intro table isScan
    rcases sound.covered table isScan with none' | known
    · cases none'
    · exact known
  openedScans := by simp
  bakedScans := by simp
  taken := by
    intro pair inside
    obtain ⟨generation, taken⟩ := sound.taken pair inside
    exact ⟨generation, taken, by simp⟩
  baked := by simp

omit [DecidableEq Table] in
theorem Scanned.finishPlanning {statement : Statement} {scans : List Table}
    {recorded baked : List (Table × Nat)}
    (sound : Scanned tables statement scans recorded [] baked) :
    Verified tables ⟨recorded, baked⟩ recorded where
  covered := by
    intro pair inside
    exact sound.covered pair.1 (sound.bakedScans pair inside)
  baked := by
    intro pair inside version served
    exact (sound.baked pair inside version served).imp_right fun gone => ⟨inside, gone⟩

/-- A table is found at the recorded version. -/
theorem Verified.erase {entry : Entry Table} {rest : List (Table × Nat)}
    (sound : Verified tables entry rest) {table : Table} {cached : CachedSnapshot}
    (inside : cached ∈ (tables table).cached) :
    Verified tables entry (rest.erase (table, cached.version)) where
  covered := sound.covered
  baked := by
    intro pair isPair version served
    rcases sound.baked pair isPair version served with same | ⟨left, gone⟩
    · exact .inl same
    · by_cases own : pair = (table, cached.version)
      · subst own
        obtain ⟨other, isOther, newer⟩ := gone
        cases (Option.mem_def.mp inside).symm.trans (Option.mem_def.mp isOther)
        exact absurd newer (lt_irrefl _)
      · exact .inr ⟨(List.mem_erase_of_ne own).mpr left, gone⟩

omit [DecidableEq Table] in
/-- When no table is left to compare the plan may be filed. -/
theorem Verified.matches_of_nil {entry : Entry Table} (sound : Verified tables entry []) :
    entry.Matches := by
  rintro ⟨table, version⟩ served
  obtain ⟨recorded, inside⟩ := sound.covered _ served
  rcases sound.baked _ inside version served with same | ⟨left, -⟩
  · rw [same]
    exact inside
  · cases left

theorem Checked.erase {serves : Table → Option Nat} {entry : Entry Table}
    {rest : List (Table × Nat)} (sound : Checked serves entry rest) {table : Table} {version : Nat}
    (found : serves table = some version) : Checked serves entry (rest.erase (table, version)) where
  matches' := sound.matches'
  served := by
    intro pair isPair
    rcases sound.served pair isPair with left | same
    · by_cases own : pair = (table, version)
      · subst own
        exact .inr found
      · exact .inl ((List.mem_erase_of_ne own).mpr left)
    · exact .inr same

omit [DecidableEq Table] in
/-- A scan starts, and has not come to a load. -/
theorem Scanned.open {statement : Statement} {scans : List Table}
    {recorded opened baked : List (Table × Nat)}
    (sound : Scanned tables statement scans recorded opened baked) {table : Table} {number : Nat}
    (isScan : table ∈ scans)
    (starts : ∀ version generation,
      ((tables table).clients (.scan statement number)).Since (tables table) version generation) :
    Scanned tables statement scans recorded ((table, number) :: opened) baked where
  covered := sound.covered
  openedScans := by
    intro pair isOpen
    rcases List.mem_cons.mp isOpen with rfl | older
    · exact isScan
    · exact sound.openedScans pair older
  bakedScans := sound.bakedScans
  taken := by
    intro pair inside
    obtain ⟨generation, taken, since⟩ := sound.taken pair inside
    refine ⟨generation, taken, ?_⟩
    intro other isOpen
    rcases List.mem_cons.mp isOpen with own | older
    · cases own
      exact starts _ _
    · exact since other older
  baked := sound.baked

/-- A scan is served. -/
theorem Scanned.serve {statement : Statement} {scans : List Table}
    {recorded opened baked : List (Table × Nat)}
    (sound : Scanned tables statement scans recorded opened baked) {table : Table} {number : Nat}
    (isOpen : (table, number) ∈ opened) {version : Nat}
    (served : ∀ known, (table, known) ∈ recorded →
      version = known ∨ Replaced (tables table) known) :
    Scanned tables statement scans recorded (opened.erase (table, number))
      ((table, version) :: baked) where
  covered := sound.covered
  openedScans := by
    intro pair left
    exact sound.openedScans pair (List.mem_of_mem_erase left)
  bakedScans := by
    intro pair isBaked
    rcases List.mem_cons.mp isBaked with rfl | older
    · exact sound.openedScans (table, number) isOpen
    · exact sound.bakedScans pair older
  taken := by
    intro pair inside
    obtain ⟨generation, taken, since⟩ := sound.taken pair inside
    refine ⟨generation, taken, ?_⟩
    intro other left
    exact since other (List.mem_of_mem_erase left)
  baked := by
    rintro ⟨own, known⟩ inside shown isBaked
    rcases List.mem_cons.mp isBaked with same | older
    · cases same
      exact served known inside
    · exact sound.baked _ inside shown older

end Phases

/-! ## The steps -/

set_option linter.unusedSectionVars false

variable [DecidableEq Table] [DecidableEq Statement] [DecidableEq Other] [DecidableEq Key]

/-- The tables after one of them has taken a step. -/
theorem advances_of_step {tables : Table → State (Task Statement Other)} {table : Table}
    {next : State (Task Statement Other)} {action : Action (Task Statement Other)}
    (sound : Cache.Sound (tables table)) (inOrder : InOrder (tables table) action)
    (taken : Cache.step (tables table) action = some next) :
    Advances tables (Function.update tables table next) where
  taken := by
    intro other version generation fingerprinted
    by_cases own : other = table
    · subst own
      rw [Function.update_self]
      exact fingerprinted.step sound inOrder taken
    · rw [Function.update_of_ne own]
      exact fingerprinted
  since := by
    intro other version generation client fingerprinted since
    by_cases own : other = table
    · subst own
      rw [Function.update_self]
      exact Client.Since.step fingerprinted sound inOrder taken since
    · rw [Function.update_of_ne own]
      exact since
  replaced := by
    intro other version gone
    by_cases own : other = table
    · subst own
      rw [Function.update_self]
      exact gone.extend (sound.step inOrder taken).1
    · rw [Function.update_of_ne own]
      exact gone

structure Plans.Sound (system : Plans Table Statement Other Key) : Prop where
  tables : ∀ table, Cache.Sound (system.tables table)
  statements : ∀ statement,
    (system.statements statement).phase.Sound system.eligible system.tables statement
  probed : ∀ statement table, (system.statements statement).probed = some table →
    (system.statements statement).phase.wants table = true
  /-- A table that a lookup has found fresh still is. -/
  looked : ∀ statement table kind key entry rest,
    (system.statements statement).probed = some table →
      (system.statements statement).phase = .checking kind key entry rest →
        ∃ version, servedVersion system.eligible system.tables table = some version
  plans : system.plans.All Entry.Matches
  results : system.results.All fun result => result.1.Matches

namespace Plans

variable {system : Plans Table Statement Other Key}

theorem Sound.move (sound : system.Sound) {statement : Statement} {phase : Phase Table Key}
    (safe : phase.Sound system.eligible system.tables statement) :
    (system.move statement phase).Sound where
  tables := sound.tables
  statements := by
    intro other
    by_cases own : other = statement
    · subst own
      simpa [Plans.move] using safe
    · simpa [Plans.move, own] using sound.statements other
  probed := by
    intro other table probed
    by_cases own : other = statement
    · subst own
      simp [Plans.move] at probed
    · simp only [Plans.move, Function.update_of_ne own] at probed ⊢
      exact sound.probed other table probed
  looked := by
    intro other table kind key entry rest probed checking
    by_cases own : other = statement
    · subst own
      simp [Plans.move] at probed
    · simp only [Plans.move, Function.update_of_ne own] at probed checking ⊢
      exact sound.looked other table kind key entry rest probed checking
  plans := sound.plans
  results := sound.results

theorem Sound.setLock (sound : system.Sound) (kind : Kind) (holder : Option Statement) :
    (system.setLock kind holder).Sound :=
  { sound with }

theorem Sound.drop (sound : system.Sound) (kind : Kind) (key : Key) :
    (system.drop kind key).Sound := by
  cases kind with
  | result => exact { sound with results := sound.results.remove key }
  | plan => exact { sound with plans := sound.plans.remove key }

theorem Sound.use (sound : system.Sound) (kind : Kind) (key : Key) :
    (system.use kind key).Sound := by
  cases kind with
  | result => exact { sound with results := sound.results.touch key }
  | plan => exact { sound with plans := sound.plans.touch key }

theorem Sound.insertPlan (sound : system.Sound) (key : Key) {entry : Entry Table}
    (filed : entry.Matches) : (system.insertPlan key entry).Sound :=
  { sound with plans := sound.plans.insert _ _ filed }

theorem Sound.insertResult (sound : system.Sound) (key : Key) {entry : Entry Table}
    (filed : entry.Matches) (bytes : Nat) : (system.insertResult key entry bytes).Sound := by
  rw [Plans.insertResult]
  split
  · exact sound
  · exact { sound with results := sound.results.insert _ _ filed }

theorem Sound.find (sound : system.Sound) {kind : Kind} {key : Key} {entry : Entry Table}
    (found : system.find kind key = some entry) : entry.Matches := by
  cases kind with
  | result =>
      simp only [Plans.find] at found
      split at found
      · cases found
      · obtain ⟨result, isResult, rfl⟩ := Option.map_eq_some_iff.mp found
        exact sound.results.get? isResult
  | plan => exact sound.plans.get? found

theorem afterMiss_sound (eligible : Table → Bool) (tables : Table → State (Task Statement Other))
    (statement : Statement) (kind : Kind) (key : Key) :
    (afterMiss kind key : Phase Table Key).Sound eligible tables statement := by
  cases kind <;> trivial

theorem sink_sound (eligible : Table → Bool) (tables : Table → State (Task Statement Other))
    (statement : Statement) (key : Key) {entry : Entry Table} (filed : entry.Matches) :
    (Phase.streaming (system.sink key entry)).Sound eligible tables statement := by
  rw [Plans.sink]
  split
  · exact filed
  · trivial

theorem Sound.mismatch (sound : system.Sound) {statement : Statement}
    {next : Plans Table Statement Other Key} (taken : system.mismatch statement = some next) :
    next.Sound := by
  simp only [Plans.mismatch] at taken
  split at taken <;> cases taken
  · rename_i kind key _ _ _
    exact ((sound.drop kind key).setLock kind none).move (afterMiss_sound _ _ _ _ _)
  · refine sound.move ?_
    trivial
  · refine sound.move ?_
    trivial

theorem Sound.compareVersion (sound : system.Sound) {statement : Statement} {table : Table}
    (probed : (system.statements statement).probed = some table) {cached : CachedSnapshot}
    (inside : cached ∈ (system.tables table).cached) {next : Plans Table Statement Other Key}
    (taken : system.compareVersion statement table cached.version = some next) : next.Sound := by
  have known := sound.statements statement
  have wanted := sound.probed statement table probed
  simp only [Plans.compareVersion] at taken
  split at taken
  case h_1 kind key entry rest checking =>
    rw [checking] at known
    split at taken
    · cases taken
      obtain ⟨version, serves⟩ := sound.looked statement table kind key entry rest probed checking
      have found := serves
      rw [servedVersion, Option.ite_none_right_eq_some] at found
      obtain ⟨own, isOwn, same⟩ := serving_eq_some found.2
      cases (Option.mem_def.mp inside).symm.trans (Option.mem_def.mp isOwn)
      exact sound.move (Checked.erase known (serves.trans (congrArg some same.symm)))
    · exact sound.mismatch taken
  case h_2 key scans todo recorded analyzing =>
    rw [analyzing] at known wanted
    cases taken
    exact sound.move (known.record (of_decide_eq_true wanted) inside (sound.tables table))
  case h_3 key entry rest verifying =>
    rw [verifying] at known
    split at taken
    · cases taken
      exact sound.move (known.erase inside)
    · exact sound.mismatch taken
  case h_4 => cases taken

/-- A table takes a step that does not disturb a lookup. -/
theorem Sound.advance (sound : system.Sound) {table : Table}
    {action : Action (Task Statement Other)} (calm : Calm system (.table table action))
    {next : State (Task Statement Other)}
    (taken : Cache.step (system.tables table) action = some next) :
    Advances system.tables (Function.update system.tables table next) ∧
      Plans.Sound { system with tables := Function.update system.tables table next } := by
  have advances := advances_of_step (sound.tables table) calm.1 taken
  refine ⟨advances, ?_⟩
  constructor
  case tables =>
    intro other
    by_cases own : other = table
    · subst own
      simpa using ((sound.tables other).step calm.1 taken).2
    · simpa [own] using sound.tables other
  case statements =>
    intro statement
    refine (sound.statements statement).advance advances ?_
    rintro kind key entry rest checking ⟨other, version⟩ inside
    by_cases own : other = table
    · subst own
      by_cases same : serving next = serving (system.tables other)
      · right
        rw [servedVersion, servedVersion, Function.update_self, same]
      · exact .inl ((calm.2 next taken same statement kind key entry rest checking).2 version inside)
    · right
      rw [servedVersion, servedVersion, Function.update_of_ne own]
  case probed => exact sound.probed
  case looked =>
    intro statement other kind key entry rest probed checking
    have before := sound.looked statement other kind key entry rest probed checking
    by_cases own : other = table
    · subst own
      by_cases same : serving next = serving (system.tables other)
      · simpa [servedVersion, same] using before
      · exact absurd probed (calm.2 next taken same statement kind key entry rest checking).1
    · simpa [servedVersion, own] using before
  case plans => exact sound.plans
  case results => exact sound.results

/-- What a scan that starts can have come to. -/
theorem since_of_startScan {state next : State (Task Statement Other)}
    {client : Task Statement Other} (taken : Cache.step state (.startScan client) = some next)
    (version generation : Nat) : (next.clients client).Since next version generation := by
  simp only [Cache.step] at taken
  split at taken <;> cases taken
  simp only [State.put, Function.update_self]
  split <;> trivial

/-- A scan of a statement starts, is served, fails the statement, or goes on. -/
theorem scanned_cases {key : Key} {scans : List Table} {recorded : Option (List (Table × Nat))}
    {opened baked : List (Table × Nat)} {table : Table} {number : Nat}
    {action : Action (Task Statement Other)} {shown : Option (Nat × Nat)}
    {phase : Phase Table Key}
    (moves : (Phase.planning key scans recorded opened baked).scanned table number action shown =
      some phase) :
    (∃ client, action = .startScan client ∧ table ∈ scans ∧
        phase = .planning key scans recorded ((table, number) :: opened) baked) ∨
      (∃ floor version, shown = some (floor, version) ∧ (table, number) ∈ opened ∧
        phase = .planning key scans recorded (opened.erase (table, number))
          ((table, version) :: baked)) ∨
      phase = .done ∨ phase = .planning key scans recorded opened baked := by
  simp only [Phase.scanned] at moves
  split at moves
  · split at moves <;> cases moves
    rename_i client isScan
    exact .inl ⟨client, rfl, isScan, rfl⟩
  · cases moves
  · cases moves
  · cases moves
  · split at moves
    · rename_i isOpen
      split at moves <;> cases moves
      · exact .inr (.inl ⟨_, _, rfl, isOpen, rfl⟩)
      · exact .inr (.inr (.inl rfl))
      · exact .inr (.inr (.inr rfl))
    · cases moves

/-- A scan of a statement takes a step: the phase of its statement knows what it was served. -/
theorem Sound.scanned (sound : system.Sound) {staleRead : Bool} {table : Table}
    {action : Action (Task Statement Other)} (calm : Calm system (.table table action))
    {next : State (Task Statement Other)}
    (taken : Cache.step (system.tables table) action = some next) {statement : Statement}
    {number : Nat} (acts : action.client = some (.scan statement number))
    {phase : Phase Table Key}
    (moves : (system.statements statement).phase.scanned table number action
      (served staleRead (system.tables table) action) = some phase) :
    phase.Sound system.eligible (Function.update system.tables table next) statement := by
  obtain ⟨advances, after⟩ := sound.advance calm taken
  have before := sound.statements statement
  have known := after.statements statement
  cases current : (system.statements statement).phase with
  | planning key scans recorded opened baked =>
      simp only [current] at before known
      rw [current] at moves
      cases recorded with
      | none =>
          rcases scanned_cases moves with ⟨_, -, -, rfl⟩ | ⟨_, _, -, -, rfl⟩ | rfl | rfl <;> trivial
      | some recorded =>
          rcases scanned_cases moves with
            ⟨client, rfl, isScan, rfl⟩ | ⟨floor, version, serves, isOpen, rfl⟩ | rfl | rfl
          · cases acts
            refine Scanned.open known isScan ?_
            intro version generation
            rw [Function.update_self]
            exact since_of_startScan taken version generation
          · refine Scanned.serve known isOpen ?_
            intro recordedVersion inside
            obtain ⟨generation, fingerprinted, since⟩ := Scanned.taken before _ inside
            refine (fingerprinted.served acts (since number isOpen) serves).imp_right ?_
            exact advances.replaced _ _
          · trivial
          · exact known
  | _ => simp [current, Phase.scanned] at moves

/-- What one step keeps. -/
theorem Sound.step (sound : system.Sound) {staleRead : Bool}
    {action : PlansAction Table Statement Other Key} (calm : Calm system action)
    {next : Plans Table Statement Other Key} (taken : system.step staleRead action = some next) :
    next.Sound := by
  cases action with
  | table table action =>
      simp only [Plans.step, Plans.stepTable] at taken
      split at taken
      · cases taken
      · rename_i stepped isStep
        have after := (sound.advance calm isStep).2
        split at taken
        · rename_i statement number acts
          obtain ⟨phase, moves, rfl⟩ := Option.map_eq_some_iff.mp taken
          exact after.move (sound.scanned calm isStep acts moves)
        · cases taken
          exact after
  | arrive statement key =>
      simp only [Plans.step] at taken
      split at taken <;> cases taken
      refine sound.move ?_
      trivial
  | lookup statement =>
      simp only [Plans.step] at taken
      split at taken
      · split at taken
        · cases taken
        · split at taken <;> cases taken
          · exact sound.move (afterMiss_sound _ _ _ _ _)
          · rename_i found
            exact (sound.setLock _ _).move
              ⟨sound.find found, fun pair inside => .inl inside⟩
      · cases taken
  | createLogicalPlan statement scans =>
      simp only [Plans.step] at taken
      split at taken <;> cases taken
      refine sound.move ?_
      exact ⟨fun table isScan => .inl isScan, by simp⟩
  | blockCaching statement =>
      simp only [Plans.step] at taken
      split at taken <;> cases taken
      refine sound.move ?_
      trivial
  | startPlanning statement =>
      have known := sound.statements statement
      simp only [Plans.step] at taken
      split at taken <;> cases taken
      rename_i analyzing
      rw [analyzing] at known
      exact sound.move known.startPlanning
  | probe statement table =>
      simp only [Plans.step] at taken
      split at taken
      · rename_i wanted
        split at taken
        · cases taken
          rename_i fresh
          refine { sound with statements := ?_, probed := ?_, looked := ?_ }
          · intro other
            by_cases own : other = statement
            · subst own
              simpa using sound.statements other
            · simpa [own] using sound.statements other
          · intro other probed isProbed
            by_cases own : other = statement
            · subst own
              simp only [Function.update_self, Option.some.injEq] at isProbed ⊢
              subst isProbed
              exact wanted.2
            · simp only [Function.update_of_ne own] at isProbed ⊢
              exact sound.probed other probed isProbed
          · intro other probed kind key entry rest isProbed checking
            by_cases own : other = statement
            · subst own
              simp only [Function.update_self, Option.some.injEq] at isProbed
              subst isProbed
              obtain ⟨cached, isCached, -⟩ := (sound.tables table).fresh fresh.2
              refine ⟨cached.version, ?_⟩
              rw [servedVersion, if_pos fresh.1, serving, if_pos fresh.2, Option.mem_def.mp isCached,
                Option.map_some]
            · simp only [Function.update_of_ne own] at isProbed checking
              exact sound.looked other probed kind key entry rest isProbed checking
        · exact sound.mismatch taken
      · cases taken
  | resolve statement =>
      simp only [Plans.step] at taken
      split at taken
      · rename_i table probed
        split at taken
        · exact sound.mismatch taken
        · rename_i cached isCached
          exact sound.compareVersion probed isCached taken
      · cases taken
  | hit statement =>
      have known := sound.statements statement
      simp only [Plans.step] at taken
      split at taken <;> cases taken
      rename_i kind key entry checking
      rw [checking] at known
      refine ((sound.use kind key).setLock kind none).move ?_
      cases kind with
      | result => trivial
      | plan => exact sink_sound _ _ _ _ known.matches'
  | finishPlanning statement =>
      have known := sound.statements statement
      simp only [Plans.step] at taken
      split at taken <;> cases taken
      · rename_i planning
        rw [planning] at known
        exact sound.move (Scanned.finishPlanning known)
      · refine sound.move ?_
        trivial
  | insert statement safeToCache =>
      have known := sound.statements statement
      simp only [Plans.step] at taken
      split at taken
      · rename_i key entry verifying
        rw [verifying] at known
        have filed := Verified.matches_of_nil known
        split at taken
        · split at taken <;> cases taken
          exact (sound.insertPlan key filed).move (sink_sound _ _ _ _ filed)
        · cases taken
          refine sound.move ?_
          trivial
      · cases taken
  | complete statement bytes =>
      have known := sound.statements statement
      simp only [Plans.step] at taken
      split at taken
      · rename_i key entry streaming
        rw [streaming] at known
        split at taken <;> cases taken
        refine (sound.insertResult key known bytes).move ?_
        trivial
      · cases taken
  | abandon statement =>
      simp only [Plans.step] at taken
      split at taken <;> cases taken <;>
        · refine sound.move ?_
          trivial

theorem start_sound (catalog : Table → Nat) (eligible : Table → Bool) (capacity budget : Nat) :
    (start catalog eligible capacity budget : Plans Table Statement Other Key).Sound where
  tables table := sound_start (catalog table)
  statements _ := trivial
  probed := by
    intro statement table probed
    cases probed
  looked := by
    intro statement table kind key entry rest probed
    cases probed
  plans := Lru.all_empty
  results := Lru.all_empty

/-- While loads install in the order in which they read the catalog, a plan or result is filed only
under versions that its scans were served, and one that a lookup returns shows the versions that its
tables serve: they are fresh at them when the lookup ends. -/
theorem hit_matches (staleRead : Bool) (catalog : Table → Nat) (eligible : Table → Bool)
    (capacity budget : Nat) {system next : Plans Table Statement Other Key}
    {action : PlansAction Table Statement Other Key}
    (run : Run (fun system => Plans.step system staleRead) Calm
      (start catalog eligible capacity budget) system)
    (calm : Calm system action) (taken : system.step staleRead action = some next) :
    (next.plans.All Entry.Matches ∧ next.results.All fun result => result.1.Matches) ∧
      ∀ entry, system.returned action = some entry →
        ∀ pair ∈ entry.baked,
          servedVersion system.eligible system.tables pair.1 = some pair.2 := by
  have sound : system.Sound :=
    run.invariant (fun _ _ _ holds calm taken => holds.step calm taken)
      (start_sound catalog eligible capacity budget)
  have after := sound.step calm taken
  refine ⟨⟨after.plans, after.results⟩, ?_⟩
  intro entry isReturned pair isBaked
  cases action with
  | hit statement =>
      have known := sound.statements statement
      simp only [Plans.returned] at isReturned
      split at isReturned
      · rename_i checking
        cases isReturned
        rw [checking] at known
        rcases known.served pair (known.matches' pair isBaked) with none' | shows
        · cases none'
        · exact shows
      · cases isReturned
  | _ => cases isReturned

/-! ## Runs on fixed inputs -/

/-- Two statements over one table. -/
abbrev TwoStatements : Type :=
  Plans Unit Bool Nat Unit

/-- No table is invalidated or replaced while a lookup is under way. -/
def undisturbed (system : TwoStatements) : PlansAction Unit Bool Nat Unit → Bool
  | .table table action =>
      inReadOrder (system.tables table) action &&
        match Cache.step (system.tables table) action with
        | none => true
        | some next =>
            serving next = serving (system.tables table) ||
              [false, true].all fun statement =>
                match (system.statements statement).phase with
                | .checking _ _ _ _ => false
                | _ => true
  | _ => true

theorem calm_of_undisturbed (system : TwoStatements) (action : PlansAction Unit Bool Nat Unit)
    (checked : undisturbed system action = true) : Calm system action := by
  cases action with
  | table table action =>
      simp only [undisturbed, Bool.and_eq_true] at checked
      refine ⟨(orderly_of_inReadOrder false _ _ checked.1).1, ?_⟩
      intro next taken replaced statement kind key entry rest checking
      have quiet := checked.2
      simp only [taken, replaced, decide_false, Bool.false_or, List.all_eq_true] at quiet
      have own := quiet statement (by cases statement <;> simp)
      rw [checking] at own
      cases own
  | _ => trivial

/-- A refresher loads the table. -/
def loadTable (refresher : Nat) : List (PlansAction Unit Bool Nat Unit) :=
  [.table () (.startRefresh (.other refresher)), .table () (.readCatalog (.other refresher)),
    .table () (.compare (.other refresher)), .table () (.install (.other refresher)),
    .table () (.finish (.other refresher))]

/-- A statement misses both caches and notes the version of the one table it scans. -/
def analyzeScan (statement : Bool) : List (PlansAction Unit Bool Nat Unit) :=
  [.arrive statement (), .lookup statement, .lookup statement, .createLogicalPlan statement [()],
    .probe statement (), .resolve statement, .startPlanning statement]

/-- The version is compared, and the plan is filed. -/
def filePlan (statement : Bool) : List (PlansAction Unit Bool Nat Unit) :=
  [.finishPlanning statement, .probe statement (), .resolve statement, .insert statement true]

/-- The same statement comes again and compares the version of its entry. -/
def findPlan (statement : Bool) : List (PlansAction Unit Bool Nat Unit) :=
  [.arrive statement (), .lookup statement, .lookup statement, .probe statement (),
    .resolve statement]

def oneTable : TwoStatements :=
  start (fun _ => 1) (fun _ => true) 256 0

/-- The cache stays fresh while the first statement plans. -/
def quietReuse : TwoStatements :=
  execute (fun system => Plans.step system false) undisturbed oneTable
    (loadTable 0 ++ analyzeScan false ++
      [.table () (.startScan (.scan false 0)), .table () (.serveCached (.scan false 0))] ++
      filePlan false ++ findPlan true)

theorem hit_matches_quietReuse :
    quietReuse.returned (.hit true) = some ⟨[((), 1)], [((), 1)]⟩ ∧
      ∀ entry, quietReuse.returned (.hit true) = some entry →
        ∀ pair ∈ entry.baked,
          servedVersion quietReuse.eligible quietReuse.tables pair.1 = some pair.2 := by
  have run : Run (fun system : TwoStatements => Plans.step system false) Calm oneTable
      quietReuse :=
    run_execute calm_of_undisturbed oneTable _
  have calm : Calm quietReuse (.hit true) := trivial
  have taken : Plans.step quietReuse false (.hit true) = some _ := rfl
  exact ⟨by decide +kernel, (hit_matches false (fun _ => 1) (fun _ => true) 256 0 run calm taken).2⟩

/-- The cache is invalidated after the look, and the scan and a refresher begin. The refresher reads
the catalog, a commit lands, the scan reads it, installs the new version and is served it. The
refresher is of the same generation and installs the version of the look. -/
def replacedTwice : TwoStatements :=
  execute (fun system => Plans.step system false) (fun _ _ => true) oneTable
    (loadTable 0 ++ analyzeScan false ++
      [.table () .invalidateAlone,
        .table () (.startScan (.scan false 0)), .table () (.beginLoad (.scan false 0)),
        .table () (.startRefresh (.other 0)), .table () (.readCatalog (.other 0)),
        .table () .foreignCommit, .table () (.readCatalog (.scan false 0)),
        .table () (.compare (.scan false 0)), .table () (.install (.scan false 0)),
        .table () (.finish (.scan false 0)),
        .table () (.compare (.other 0)), .table () (.install (.other 0)),
        .table () (.finish (.other 0))] ++
      filePlan false ++ findPlan true)

/-- The version is as it was before planning, so the plan of version 2 is filed under version 1,
and found again while the cache serves version 1. -/
theorem plan_filed_under_other_version :
    Run (fun system : TwoStatements => Plans.step system false) Unrestricted oneTable
        replacedTwice ∧
      replacedTwice.plans.get? () = some ⟨[((), 1)], [((), 2)]⟩ ∧
      replacedTwice.returned (.hit true) = some ⟨[((), 1)], [((), 2)]⟩ ∧
      (Plans.step replacedTwice false (.hit true)).isSome = true ∧
      servedVersion replacedTwice.eligible replacedTwice.tables () = some 1 :=
  ⟨run_execute (fun _ _ _ => trivial) oneTable _, by decide +kernel, by decide +kernel,
    by decide +kernel, by decide +kernel⟩

end Plans

end Icegres.Cache
