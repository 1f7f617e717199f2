import Icegres.Icegresd.Spawning

/-!
# One live compute per slot

A slot has one live child and shows it, in every run in which no probe of `ensure_running` fails
on a live compute and no monitor writes the phase over a newer compute. A failed probe is taken
for a dead child, and the monitor's generation check is not repeated after its await.
-/

namespace Icegres.Icegresd

namespace Slot

variable {slot next : Slot}

/-- `next` is `slot` with one task replaced. -/
def Replaces (slot next : Slot) (id : TaskId) (task : Task) : Prop :=
  ∀ other, next.task other = if other = id then task else slot.task other

section Replaces

variable {id : TaskId} {task : Task}

theorem replaces_setTask (isTask : slot.task id ≠ .done) (moved : Slot) (task : Task)
    (tasks : moved.tasks = slot.tasks) : slot.Replaces (moved.setTask id task) id task := by
  intro other
  have inside := inside_of_task isTask
  rw [← tasks] at inside
  rw [task_setTask inside, Slot.task, Slot.task, tasks]

theorem replaces_start (slot : Slot) (task : Task) :
    slot.Replaces (slot.start task) slot.tasks.length task := fun _ => task_start

theorem Replaces.own (replaces : slot.Replaces next id task) : next.task id = task := by
  rw [replaces, if_pos rfl]

theorem Replaces.other (replaces : slot.Replaces next id task) {other : TaskId}
    (differs : other ≠ id) : next.task other = slot.task other := by
  rw [replaces, if_neg differs]

theorem spawnPc_of_not_locks (unlocked : ¬ task.Locks) : task.spawnPc = none := by
  cases task with
  | ensure pc =>
      cases pc with
      | waiting => rfl
      | locked | probing | choosing | spawning => exact absurd trivial unlocked
  | monitor held pc =>
      cases pc with
      | spawning => exact absurd trivial unlocked
      | watching | exited | settling | terminating | terminated | retrying | sleeping | relocking
      | relocked | rechecked => rfl
  | health | done => rfl

/-- The spawn is untouched by a task that has none. -/
theorem Replaces.spawning_eq (replaces : slot.Replaces next id task)
    (lock : next.lock = slot.lock) (same : task.spawnPc = (slot.task id).spawnPc) :
    next.spawning = slot.spawning := by
  rw [Slot.spawning, Slot.spawning, lock]
  congr 1
  funext other
  rw [replaces]
  split
  · next isOwn => rw [isOwn, same]
  · rfl

theorem Replaces.spawning_own (replaces : slot.Replaces next id task)
    (lock : next.lock = some id) : next.spawning = task.spawnPc := by
  rw [Slot.spawning, lock, Option.bind_some, replaces.own]

theorem spawning_unlocked (lock : slot.lock = none) : slot.spawning = none := by
  rw [Slot.spawning, lock, Option.bind_none]

/-- A monitor stays right about its child. -/
theorem MonitorOk.evolves {held : Monitor} {pc pc' : MonitorPc} (ok : slot.MonitorOk held pc)
    (evolves : slot.Evolves next) (dead : ¬ pc'.Early → ¬ slot.Alive held.child)
    (rechecked : pc' = .rechecked → next.generation = held.generation) :
    next.MonitorOk held pc' := by
  refine ⟨Nat.lt_of_lt_of_le ok.started evolves.length, ?_, ?_, ?_, rechecked⟩
  · rcases evolves.generation with ⟨generation, -⟩ | bumped
    · exact generation ▸ ok.counted
    · exact Nat.le_trans ok.counted (Nat.le_of_lt bumped)
  · intro own
    rcases evolves.generation with ⟨generation, current⟩ | bumped
    · exact current.trans (ok.own (own.trans generation))
    · exact absurd (own ▸ bumped) (Nat.not_lt.mpr ok.counted)
  · exact fun late alive => dead late (evolves.alive _ ok.started alive)

/-- A step of one task keeps the invariant when it keeps its own part and the core. -/
theorem Inv.update (inv : slot.Inv) (replaces : slot.Replaces next id task)
    (locks : task.Locks → next.lock = some id)
    (others : ∀ other, other ≠ id → slot.lock = some other → next.lock = some other)
    (core : next.Core next.spawning) (evolves : slot.Evolves next)
    (bumps : next.generation = slot.generation ∨ slot.lock = some id)
    (own : ∀ held pc, task = .monitor held pc → next.MonitorOk held pc) (watched : next.Watched) :
    next.Inv := by
  refine ⟨?_, core, ?_, watched⟩
  · intro other isLocking
    by_cases isOwn : other = id
    · subst isOwn
      rw [replaces.own] at isLocking
      exact locks isLocking
    · rw [replaces.other isOwn] at isLocking
      exact others other isOwn (inv.locks other isLocking)
  · intro other held pc isMonitor
    by_cases isOwn : other = id
    · subst isOwn
      rw [replaces.own] at isMonitor
      exact own held pc isMonitor
    · rw [replaces.other isOwn] at isMonitor
      have ok := inv.monitors other held pc isMonitor
      refine ok.evolves evolves ok.dead ?_
      rintro rfl
      -- only the lock holder bumps the generation, and this monitor holds the lock
      have holds := inv.locks other (by rw [isMonitor]; trivial)
      rcases bumps with same | holder
      · exact same.trans (ok.rechecked rfl)
      · exact absurd (Option.some.inj (holds.symm.trans holder)) isOwn

/-- The phase does not become `Running`, and the monitor that watches a `Running` slot stays. -/
theorem Inv.watched_of (inv : slot.Inv) (replaces : slot.Replaces next id task)
    (generation : next.generation = slot.generation)
    (phase : next.phase = .running → slot.phase = .running)
    (watches : next.phase = .running → (slot.task id).Watches slot.generation →
      task.Watches slot.generation)
    (returns : ∀ child, slot.spawning = some (.returning child slot.generation) →
      task.Watches slot.generation ∨ next.spawning = slot.spawning) : next.Watched := by
  intro running
  rw [generation]
  rcases inv.watched (phase running) with ⟨other, isWatching⟩ | ⟨child, isReturning⟩
  · refine .inl ⟨other, ?_⟩
    rw [replaces]
    split
    · next isOwn => exact watches running (isOwn ▸ isWatching)
    · exact isWatching
  · rcases returns child isReturning with isWatching | same
    · exact .inl ⟨id, by rwa [replaces.own]⟩
    · exact .inr ⟨child, same ▸ isReturning⟩

/-- A step of a task without the lock: children may end, and a phase may be settled. -/
theorem Inv.unlocked (inv : slot.Inv) (replaces : slot.Replaces next id task)
    (before : ¬ (slot.task id).Locks) (after : ¬ task.Locks) (lock : next.lock = slot.lock)
    (generation : next.generation = slot.generation) (current : next.current = slot.current)
    (dies : slot.Dies next)
    (hides : next.CurrentAlive → slot.phase = .running → next.phase = .running)
    (phase : next.phase = .running → slot.phase = .running)
    (own : ∀ held pc, task = .monitor held pc → next.MonitorOk held pc)
    (watches : next.phase = .running → (slot.task id).Watches slot.generation →
      task.Watches slot.generation) : next.Inv := by
  have spawning : next.spawning = slot.spawning := replaces.spawning_eq lock
    ((spawnPc_of_not_locks after).trans (spawnPc_of_not_locks before).symm)
  refine inv.update replaces (fun isLocking => absurd isLocking after)
    (fun other _ holds => lock.trans holds) ?_ (dies.evolves generation current)
    (.inl generation) own
    (inv.watched_of replaces generation phase watches fun _ _ => .inr spawning)
  rw [spawning]
  exact inv.core.dies dies generation current hides phase

/-- A step of the lock's holder, or of a task that takes the free lock. -/
theorem Inv.holds (inv : slot.Inv) (replaces : slot.Replaces next id task)
    (mine : slot.lock = some id ∨ slot.lock = none) (lock : next.lock = some id)
    (core : next.Core task.spawnPc) (evolves : slot.Evolves next)
    (bumps : next.generation = slot.generation ∨ slot.lock = some id)
    (own : ∀ held pc, task = .monitor held pc → next.MonitorOk held pc) (watched : next.Watched) :
    next.Inv := by
  refine inv.update replaces (fun _ => lock) (fun other differs held => ?_) ?_ evolves bumps own
    watched
  · rcases mine with holder | free
    · exact absurd (Option.some.inj (held.symm.trans holder)) differs
    · rw [free] at held
      cases held
  · rwa [replaces.spawning_own lock]

/-- The holder lets the lock go. -/
theorem Inv.releases (inv : slot.Inv) (replaces : slot.Replaces next id task)
    (holder : slot.lock = some id) (lock : next.lock = none) (unlocked : ¬ task.Locks)
    (core : next.Core none) (evolves : slot.Evolves next)
    (own : ∀ held pc, task = .monitor held pc → next.MonitorOk held pc) (watched : next.Watched) :
    next.Inv := by
  refine inv.update replaces (fun isLocking => absurd isLocking unlocked)
    (fun other differs held => absurd (Option.some.inj (held.symm.trans holder)) differs) ?_
    evolves (.inr holder) own watched
  rwa [spawning_unlocked lock]

theorem locks_of_spawnPc {pc : SpawnPc} (isPc : task.spawnPc = some pc) : task.Locks := by
  by_contra unlocked
  rw [spawnPc_of_not_locks unlocked] at isPc
  cases isPc

theorem not_watches_of_locks (isLocking : task.Locks) (generation : Nat) :
    ¬ task.Watches generation := by
  cases task with
  | monitor held pc =>
      cases pc with
      | relocked | rechecked | spawning => exact fun watches => watches.2
      | watching | exited | settling | terminating | terminated | retrying | sleeping
      | relocking => exact isLocking.elim
  | ensure | health | done => exact id

/-- What the holder's spawn is at. -/
theorem Inv.core_own (inv : slot.Inv) (isLocking : (slot.task id).Locks) :
    slot.lock = some id ∧ slot.Core (slot.task id).spawnPc := by
  have holder := inv.locks id isLocking
  have core := inv.core
  rw [Slot.spawning, holder, Option.bind_some] at core
  exact ⟨holder, core⟩

/-- A holder that is not spawning returns no child, and nothing is starting. -/
theorem Inv.holder_idle (inv : slot.Inv) (isLocking : (slot.task id).Locks)
    (noSpawn : (slot.task id).spawnPc = none) :
    (∀ child generation, (slot.task id).spawnPc ≠ some (.returning child generation)) ∧
      slot.Core none := by
  obtain ⟨-, core⟩ := inv.core_own isLocking
  rw [noSpawn] at core
  refine ⟨fun child generation => ?_, core⟩
  rw [noSpawn]
  rintro ⟨⟩

/-- Under the lock, a child that is not starting is the current one, and it is shown. -/
theorem Inv.not_currentAlive (inv : slot.Inv) (isLocking : (slot.task id).Locks)
    (noSpawn : (slot.task id).spawnPc = none) (phase : slot.phase ≠ .running) :
    ¬ slot.CurrentAlive := by
  obtain ⟨-, core⟩ := inv.holder_idle isLocking noSpawn
  intro alive
  rcases core.shown alive with running | ⟨_, isPc, -⟩
  · exact phase running
  · cases isPc

section Spawn

variable {pc : SpawnPc} {port : Nat} {answer : Answer} {after : Slot}

/-- The monitor that watches a `Running` slot is another task than the one that spawns. -/
theorem Inv.spawn_watched (inv : slot.Inv) (isPc : (slot.task id).spawnPc = some pc)
    {result : SpawnResult} (stepped : slot.stepSpawn port answer pc = (after, result))
    (goesOn : ∀ child generation, result ≠ .spawned child generation)
    (replaces : slot.Replaces next id task) (phase : next.phase = after.phase)
    (generation : next.generation = after.generation)
    (returning : ∀ pc, result = .more pc → next.spawning = some pc) : next.Watched := by
  obtain ⟨holder, core⟩ := inv.core_own (locks_of_spawnPc isPc)
  rw [isPc] at core
  obtain ⟨-, shows, -⟩ := core.stepSpawn port answer
  rw [stepped] at shows
  intro running
  rcases shows (phase ▸ running) with ⟨wasRunning, same⟩ | ⟨child, isResult⟩
  · refine inv.watched_of replaces (generation.trans same) (fun _ => wasRunning)
      (fun _ watches => absurd watches (not_watches_of_locks (locks_of_spawnPc isPc) _))
      (fun child isReturning => ?_) running
    rw [Slot.spawning, holder, Option.bind_some, isPc] at isReturning
    cases isReturning
    cases stepped
    exact absurd rfl (goesOn _ _)
  · exact .inr ⟨child, by rw [returning _ isResult, generation]⟩

/-- A spawn goes on. -/
theorem Inv.spawn_more (inv : slot.Inv) (isPc : (slot.task id).spawnPc = some pc)
    {pc' : SpawnPc} (stepped : slot.stepSpawn port answer pc = (after, .more pc'))
    (taskPc : task.spawnPc = some pc')
    (own : ∀ held mpc, task = .monitor held mpc → mpc ≠ .rechecked ∧
      slot.MonitorOk held .retrying) : (after.setTask id task).Inv := by
  obtain ⟨holder, core⟩ := inv.core_own (locks_of_spawnPc isPc)
  rw [isPc] at core
  obtain ⟨⟨lock, tasks, evolves⟩, -, moved⟩ := core.stepSpawn port answer
  rw [stepped] at lock tasks evolves moved
  have isTask : slot.task id ≠ .done := by
    intro isDone
    rw [isDone] at isPc
    cases isPc
  have replaces := replaces_setTask isTask after task tasks
  have afterLock : (after.setTask id task).lock = some id := lock.trans holder
  refine inv.holds replaces (.inl holder) afterLock ?_
    ⟨evolves.length, evolves.alive, evolves.generation⟩ (.inr holder) ?_ ?_
  · rw [taskPc]
    exact ⟨moved.registered, moved.live, moved.shown, moved.spawns⟩
  · intro held mpc isMonitor
    obtain ⟨differs, ok⟩ := own held mpc isMonitor
    exact ok.evolves ⟨evolves.length, evolves.alive, evolves.generation⟩ (fun _ => ok.dead fun early => early)
      (fun same => absurd same differs)
  · refine inv.spawn_watched isPc stepped nofun replaces rfl rfl ?_
    rintro _ ⟨⟩
    rw [replaces.spawning_own afterLock, taskPc]

/-- A spawn fails and the lock is released. -/
theorem Inv.spawn_failed (inv : slot.Inv) (isPc : (slot.task id).spawnPc = some pc)
    (stepped : slot.stepSpawn port answer pc = (after, .failed)) (unlocked : ¬ task.Locks)
    (own : ∀ held mpc, task = .monitor held mpc → mpc ≠ .rechecked ∧
      slot.MonitorOk held .retrying) : (after.unlock.setTask id task).Inv := by
  obtain ⟨holder, core⟩ := inv.core_own (locks_of_spawnPc isPc)
  rw [isPc] at core
  obtain ⟨⟨-, tasks, evolves⟩, -, moved⟩ := core.stepSpawn port answer
  rw [stepped] at tasks evolves moved
  have isTask : slot.task id ≠ .done := by
    intro isDone
    rw [isDone] at isPc
    cases isPc
  have replaces := replaces_setTask isTask after.unlock task tasks
  refine inv.releases replaces holder rfl unlocked
    ⟨moved.registered, moved.live, moved.shown, moved.spawns⟩
    ⟨evolves.length, evolves.alive, evolves.generation⟩ ?_ ?_
  · intro held mpc isMonitor
    obtain ⟨differs, ok⟩ := own held mpc isMonitor
    exact ok.evolves ⟨evolves.length, evolves.alive, evolves.generation⟩ (fun _ => ok.dead fun early => early)
      (fun same => absurd same differs)
  · exact inv.spawn_watched isPc stepped nofun replaces rfl rfl nofun

end Spawn

end Replaces

/-- A task without the lock starts. -/
theorem Inv.start (inv : slot.Inv) {task : Task} (unlocked : ¬ task.Locks)
    (own : ∀ held pc, task = .monitor held pc → slot.MonitorOk held pc) :
    (slot.start task).Inv := by
  have before : slot.task slot.tasks.length = .done := task_of_length_le (Nat.le_refl _)
  refine inv.unlocked (replaces_start slot task) (by rw [before]; exact id) unlocked rfl rfl rfl
    (.of_same rfl) (fun _ running => running) id ?_ (by rw [before]; exact fun _ => nofun)
  intro held pc isMonitor
  have ok := own held pc isMonitor
  exact ok.evolves (.of_same rfl rfl rfl) ok.dead ok.rechecked

theorem Inv.startHealth (inv : slot.Inv) (control : Control) (child : ChildId)
    (generation : Nat) : (slot.startHealth control child generation).Inv := by
  rw [Slot.startHealth]
  split
  · exact inv.start id nofun
  · exact inv

/-- Without a started or unshown child, the spawn can be forgotten. -/
theorem Core.forget {pc : SpawnPc} (core : slot.Core (some pc)) (starts : ∀ child, ¬ pc.Starts child)
    (marks : ¬ pc.Marks) : slot.Core none := by
  refine ⟨core.registered, fun other alive => ?_, fun alive => ?_, nofun⟩
  · refine .inl ((core.live other alive).resolve_right ?_)
    rintro ⟨_, isPc, isStarting⟩
    exact starts other (Option.some.inj isPc ▸ isStarting)
  · refine .inl ((core.shown alive).resolve_right ?_)
    rintro ⟨_, isPc, isMarking⟩
    exact marks (Option.some.inj isPc ▸ isMarking)

/-- A monitor that just got its child. -/
theorem Core.monitorOk {child : ChildId} {generation : Nat}
    (core : slot.Core (some (.returning child generation))) (port attempts : Nat) :
    slot.MonitorOk ⟨child, generation, port, attempts⟩ .watching := by
  obtain ⟨isCurrent, isGeneration⟩ := core.spawns _ rfl
  exact ⟨core.registered child isCurrent, Nat.le_of_eq isGeneration.symm, fun _ => isCurrent,
    fun late => absurd trivial late, nofun⟩

/-- Only the last step of a spawn returns a child. -/
theorem stepSpawn_spawned {pc : SpawnPc} {port : Nat} {answer : Answer} {after : Slot}
    {child : ChildId} {generation : Nat} {spawning : Option SpawnPc} (core : slot.Core spawning)
    (isPc : spawning = some pc)
    (stepped : slot.stepSpawn port answer pc = (after, .spawned child generation)) :
    after = slot ∧ pc = .returning child generation := by
  subst isPc
  obtain ⟨-, -, moved⟩ := core.stepSpawn port answer
  rw [stepped] at moved
  exact moved

section Steps

variable {control : Control} {id : TaskId} {answer : Answer}

/-- The lock's holder moves on, and nothing else changes. -/
theorem Inv.moves (inv : slot.Inv) (isLocking : (slot.task id).Locks)
    (spawns : ∀ child generation, (slot.task id).spawnPc ≠ some (.returning child generation))
    {task : Task} (core : slot.Core task.spawnPc)
    (own : ∀ held pc, task = .monitor held pc → slot.MonitorOk held pc) :
    (slot.setTask id task).Inv := by
  have holder := inv.locks id isLocking
  have isTask : slot.task id ≠ .done := by
    intro isDone
    rw [isDone] at isLocking
    exact isLocking
  have replaces := replaces_setTask isTask slot task rfl
  refine inv.holds replaces (.inl holder) holder
    ⟨core.registered, core.live, core.shown, core.spawns⟩ (.of_same rfl rfl rfl) (.inl rfl) ?_ ?_
  · intro held pc isMonitor
    have ok := own held pc isMonitor
    exact ok.evolves (.of_same rfl rfl rfl) ok.dead ok.rechecked
  · refine inv.watched_of replaces rfl (fun running => running)
      (fun _ watches => absurd watches (not_watches_of_locks isLocking _)) fun child isReturning => ?_
    rw [Slot.spawning, holder, Option.bind_some] at isReturning
    exact absurd isReturning (spawns _ _)

/-- The lock's holder gives up. -/
theorem Inv.givesUp (inv : slot.Inv) (isLocking : (slot.task id).Locks)
    (spawns : ∀ child generation, (slot.task id).spawnPc ≠ some (.returning child generation))
    (core : slot.Core none) : (slot.unlock.setTask id .done).Inv := by
  have holder := inv.locks id isLocking
  have isTask : slot.task id ≠ .done := by
    intro isDone
    rw [isDone] at isLocking
    exact isLocking
  have replaces := replaces_setTask isTask slot.unlock .done rfl
  refine inv.releases replaces holder rfl (fun locks => locks)
    ⟨core.registered, core.live, core.shown, nofun⟩ (.of_same rfl rfl rfl) nofun ?_
  refine inv.watched_of replaces rfl (fun running => running)
    (fun _ watches => absurd watches (not_watches_of_locks isLocking _)) fun child isReturning => ?_
  rw [Slot.spawning, holder, Option.bind_some] at isReturning
  exact absurd isReturning (spawns _ _)

/-- A task takes the free lock. -/
theorem Inv.locksUp (inv : slot.Inv) (free : slot.lock = none) (isTask : slot.task id ≠ .done)
    {task : Task} (noSpawn : task.spawnPc = none)
    (own : ∀ held pc, task = .monitor held pc → slot.MonitorOk held pc)
    (watches : (slot.task id).Watches slot.generation → task.Watches slot.generation) :
    ({ slot with lock := some id }.setTask id task).Inv := by
  have core := inv.core
  rw [spawning_unlocked free] at core
  have replaces := replaces_setTask isTask { slot with lock := some id } task rfl
  refine inv.holds replaces (.inr free) rfl ?_ (.of_same rfl rfl rfl) (.inl rfl) ?_ ?_
  · rw [noSpawn]
    exact ⟨core.registered, core.live, core.shown, nofun⟩
  · intro held pc isMonitor
    have ok := own held pc isMonitor
    exact ok.evolves (.of_same rfl rfl rfl) ok.dead ok.rechecked
  · refine inv.watched_of replaces rfl (fun running => running) (fun _ => watches) fun child isReturning => ?_
    rw [spawning_unlocked free] at isReturning
    cases isReturning

/-- Starting a task and replacing another commute. -/
theorem start_setTask (slot : Slot) (inside : id < slot.tasks.length) (task started : Task) :
    (slot.setTask id task).start started = (slot.start started).setTask id task := by
  simp only [Slot.start, setTask, List.set_append_left _ _ inside]

/-- `ensure_running` hands its child to a monitor and lets the lock go. -/
theorem Inv.ensured (inv : slot.Inv) {child : ChildId} {generation : Nat}
    (isPc : (slot.task id).spawnPc = some (.returning child generation)) (control : Control)
    (port : Nat) :
    (((slot.unlock.setTask id .done).startHealth control child generation).start
      (.monitor ⟨child, generation, port, 0⟩ .watching)).Inv := by
  have isTask : slot.task id ≠ .done := by
    intro isDone
    rw [isDone] at isPc
    cases isPc
  have inside := inside_of_task isTask
  obtain ⟨holder, core⟩ := inv.core_own (locks_of_spawnPc isPc)
  rw [isPc] at core
  -- start both tasks first, then release the lock
  generalize health : slot.startHealth control child generation = watched
  have watchedInv : watched.Inv := health ▸ inv.startHealth control child generation
  have kept : watched.lock = slot.lock ∧ id < watched.tasks.length ∧
      watched.task id = slot.task id := by
    rw [← health, Slot.startHealth]
    split
    · refine ⟨rfl, ?_, (replaces_start slot _).other (Nat.ne_of_lt inside)⟩
      simpa [Slot.start] using Nat.lt_succ_of_lt inside
    · exact ⟨rfl, inside, rfl⟩
  obtain ⟨lock, insideWatched, sameTask⟩ := kept
  have commuted : (slot.unlock.setTask id .done).startHealth control child generation =
      watched.unlock.setTask id .done := by
    rw [← health, Slot.startHealth, Slot.startHealth]
    split
    · exact start_setTask slot.unlock inside _ _
    · rfl
  rw [commuted, start_setTask watched.unlock insideWatched]
  generalize isMonitor : Task.monitor ⟨child, generation, port, 0⟩ .watching = monitor
  change ((watched.start monitor).unlock.setTask id .done).Inv
  obtain ⟨-, watchedCore⟩ := watchedInv.core_own
    (locks_of_spawnPc (sameTask.symm ▸ isPc : (watched.task id).spawnPc = _))
  rw [sameTask, isPc] at watchedCore
  have started : (watched.start monitor).Inv := by
    subst isMonitor
    refine watchedInv.start (fun locks => locks) ?_
    rintro _ _ ⟨⟩
    exact watchedCore.monitorOk port 0
  have own : (watched.start monitor).task id = slot.task id :=
    ((replaces_start watched monitor).other (Nat.ne_of_lt insideWatched)).trans sameTask
  obtain ⟨startedHolder, startedCore⟩ := started.core_own
    (locks_of_spawnPc (own.symm ▸ isPc : ((watched.start monitor).task id).spawnPc = _))
  rw [own, isPc] at startedCore
  have isStarted : (watched.start monitor).task id ≠ .done := by rwa [own]
  have replaces := replaces_setTask isStarted (watched.start monitor).unlock .done rfl
  have idle := startedCore.forget (fun _ starts => starts) (fun marks => marks)
  refine started.releases replaces startedHolder rfl (fun locks => locks)
    ⟨idle.registered, idle.live, idle.shown, by rintro _ ⟨⟩⟩ (.of_same rfl rfl rfl)
    (by rintro _ _ ⟨⟩) fun _ => ?_
  refine .inl ⟨watched.tasks.length, ?_⟩
  rw [replaces.other (Nat.ne_of_gt insideWatched), (replaces_start watched monitor).own,
    ← isMonitor]
  exact ⟨(startedCore.spawns _ rfl).2.symm, trivial⟩

theorem Inv.stepEnsure (inv : slot.Inv) {pc : EnsurePc} (isTask : slot.task id = .ensure pc)
    (sound : slot.Sound (.step id answer))
    (taken : slot.stepEnsure control id answer pc = some next) : next.Inv := by
  have running : slot.task id ≠ .done := by rw [isTask]; nofun
  cases pc with
  | waiting =>
      simp only [Slot.stepEnsure] at taken
      split at taken
      · next free =>
        cases taken
        exact inv.locksUp free running rfl nofun (by rw [isTask]; exact nofun)
      · cases taken
  | locked =>
      have isLocking : (slot.task id).Locks := by rw [isTask]; trivial
      have noSpawn : (slot.task id).spawnPc = none := by rw [isTask]; rfl
      obtain ⟨quiet, core⟩ := inv.holder_idle isLocking noSpawn
      simp only [Slot.stepEnsure] at taken
      split at taken
      · cases taken
        exact inv.givesUp isLocking quiet core
      · split at taken
        · cases taken
          exact inv.moves isLocking quiet core nofun
        · next phase =>
          cases taken
          exact inv.moves isLocking quiet
            (core.idle (inv.not_currentAlive isLocking noSpawn phase)) nofun
  | probing port =>
      have isLocking : (slot.task id).Locks := by rw [isTask]; trivial
      have noSpawn : (slot.task id).spawnPc = none := by rw [isTask]; rfl
      obtain ⟨quiet, core⟩ := inv.holder_idle isLocking noSpawn
      simp only [Slot.Sound, isTask, Task.presumesDead] at sound
      simp only [Slot.stepEnsure] at taken
      split at taken
      · cases taken
        exact inv.givesUp isLocking quiet core
      · next refused =>
        cases taken
        exact inv.moves isLocking quiet (core.idle (sound (by simpa using refused))) nofun
  | choosing =>
      have isLocking : (slot.task id).Locks := by rw [isTask]; trivial
      have isPc : (slot.task id).spawnPc = some .forking := by rw [isTask]; rfl
      have quiet (child : ChildId) (generation : Nat) :
          (slot.task id).spawnPc ≠ some (.returning child generation) := by rw [isPc]; nofun
      obtain ⟨-, core⟩ := inv.core_own isLocking
      rw [isPc] at core
      simp only [Slot.stepEnsure] at taken
      split at taken
      · cases taken
        exact inv.moves isLocking quiet core nofun
      · split at taken
        · cases taken
          exact inv.givesUp isLocking quiet (core.forget (fun _ starts => starts) nofun)
        · cases taken
          exact inv.moves isLocking quiet core nofun
  | spawning port pc =>
      have isPc : (slot.task id).spawnPc = some pc := by rw [isTask]; rfl
      simp only [Slot.stepEnsure] at taken
      split at taken
      · next after pc' stepped =>
        cases taken
        exact inv.spawn_more isPc stepped rfl nofun
      · next after stepped =>
        cases taken
        exact inv.spawn_failed isPc stepped (fun locks => locks) nofun
      · next after child generation stepped =>
        cases taken
        obtain ⟨holder, core⟩ := inv.core_own (locks_of_spawnPc isPc)
        rw [isPc] at core
        obtain ⟨rfl, rfl⟩ := stepSpawn_spawned core rfl stepped
        exact inv.ensured isPc control port

/-- Children end and phases are left, and no task moves. -/
theorem Inv.reshaped (inv : slot.Inv) (tasks : next.tasks = slot.tasks)
    (lock : next.lock = slot.lock) (generation : next.generation = slot.generation)
    (current : next.current = slot.current) (dies : slot.Dies next)
    (hides : next.CurrentAlive → slot.phase = .running → next.phase = .running)
    (phase : next.phase = .running → slot.phase = .running) : next.Inv := by
  have before : slot.task slot.tasks.length = .done := task_of_length_le (Nat.le_refl _)
  have replaces : slot.Replaces next slot.tasks.length .done := by
    intro other
    have same : next.task other = slot.task other := by rw [Slot.task, Slot.task, tasks]
    rw [same]
    split
    · next isNew => rw [isNew, before]
    · rfl
  exact inv.unlocked replaces (by rw [before]; exact fun locks => locks) (fun locks => locks) lock
    generation current dies hides phase (by rintro _ _ ⟨⟩)
    (by rw [before]; exact fun _ watches => watches)

/-- A phase without a process is written while no counted child is alive. -/
theorem Inv.down (inv : slot.Inv) (dead : ¬ slot.CurrentAlive) (phase : Phase)
    (differs : phase ≠ .running) : (slot.down phase).Inv :=
  inv.reshaped rfl rfl rfl rfl (.of_same rfl) (fun alive => absurd alive dead)
    fun running => absurd running differs

theorem Inv.leaveBackoff (inv : slot.Inv) (phase : Phase) (differs : phase ≠ .running) :
    (slot.leaveBackoff phase).Inv := by
  rw [Slot.leaveBackoff]
  split
  · next backoff =>
    refine inv.reshaped rfl rfl rfl rfl (.of_same rfl) (fun _ running => ?_)
      fun running => absurd running differs
    rw [backoff] at running
    cases running
  · exact inv

theorem Inv.ends (inv : slot.Inv) (child : ChildId) (status : Exit) :
    (slot.ends child status).Inv := by
  have dies := slot.dies_ends child status
  obtain ⟨children, endsEq⟩ := slot.ends_eq child status
  rw [endsEq] at dies ⊢
  exact inv.reshaped rfl rfl rfl rfl dies (fun _ running => running) fun running => running

/-- A task without the lock moves on, and nothing else changes. -/
theorem Inv.passes (inv : slot.Inv) {before after : Task} (isTask : slot.task id = before)
    (isOpen : before ≠ .done) (unlocked : ¬ before.Locks) (stays : ¬ after.Locks)
    (own : ∀ held pc, after = .monitor held pc → slot.MonitorOk held pc)
    (watches : slot.phase = .running → before.Watches slot.generation →
      after.Watches slot.generation) : (slot.setTask id after).Inv := by
  subst isTask
  refine inv.unlocked (replaces_setTask isOpen slot after rfl) unlocked stays rfl rfl rfl
    (.of_same rfl) (fun _ running => running) (fun running => running) ?_ watches
  intro held pc isMonitor
  have ok := own held pc isMonitor
  exact ok.evolves (.of_same rfl rfl rfl) ok.dead ok.rechecked

theorem task_leaveBackoff (slot : Slot) (phase : Phase) (id : TaskId) :
    (slot.leaveBackoff phase).task id = slot.task id := by
  rw [Slot.leaveBackoff]
  split <;> rfl

theorem task_ends (slot : Slot) (child : ChildId) (status : Exit) (id : TaskId) :
    (slot.ends child status).task id = slot.task id := by
  obtain ⟨children, endsEq⟩ := slot.ends_eq child status
  rw [endsEq]
  rfl

section Monitor

variable {monitor : Monitor} {pc : MonitorPc}

/-- A monitor ends without a word on the phase. -/
theorem Inv.monitorDone (inv : slot.Inv) (isTask : slot.task id = .monitor monitor pc)
    (unlocked : ¬ (Task.monitor monitor pc).Locks)
    (watches : slot.phase = .running → ¬ (Task.monitor monitor pc).Watches slot.generation) :
    (slot.setTask id .done).Inv :=
  inv.passes isTask nofun unlocked (fun locks => locks) nofun
    fun running isWatching => absurd isWatching (watches running)

/-- A monitor without the lock moves on. -/
theorem Inv.monitorMoves (inv : slot.Inv) (isTask : slot.task id = .monitor monitor pc)
    (unlocked : ¬ (Task.monitor monitor pc).Locks) {pc' : MonitorPc} {attempts : Nat}
    (stays : ¬ (Task.monitor { monitor with attempts } pc').Locks)
    (dead : ¬ pc'.Early → ¬ slot.Alive monitor.child)
    (watches : slot.phase = .running → pc.Watching → pc'.Watching) :
    (slot.setTask id (.monitor { monitor with attempts } pc')).Inv := by
  have ok := inv.monitors id monitor pc isTask
  refine inv.passes isTask nofun unlocked stays ?_
    fun running isWatching => ⟨isWatching.1, watches running isWatching.2⟩
  rintro _ _ ⟨⟩
  refine ⟨ok.started, ok.counted, ok.own, dead, ?_⟩
  rintro rfl
  exact absurd trivial stays

theorem Inv.stepMonitor (inv : slot.Inv) (isTask : slot.task id = .monitor monitor pc)
    (sound : slot.Sound (.step id answer))
    (taken : slot.stepMonitor control id answer monitor pc = some next) : next.Inv := by
  have ok := inv.monitors id monitor pc isTask
  cases pc with
  | watching =>
      simp only [Slot.stepMonitor] at taken
      split at taken
      · split at taken
        · next status exited =>
          cases taken
          refine inv.monitorMoves isTask (fun locks => locks) (fun locks => locks) (fun _ alive => ?_)
            fun _ _ => trivial
          rw [Alive, exited] at alive
          cases alive
        · cases taken
      · split at taken <;> cases taken
        exact inv.monitorMoves isTask (fun locks => locks) (fun locks => locks)
          (fun late => absurd trivial late) fun _ _ => trivial
      · split at taken <;> cases taken
        exact inv.monitorMoves isTask (fun locks => locks) (fun locks => locks)
          (fun late => absurd trivial late) fun _ _ => trivial
  | exited status =>
      have dead := ok.dead fun early => early
      simp only [Slot.stepMonitor] at taken
      split at taken
      · next superseded =>
        cases taken
        exact inv.monitorDone isTask (fun locks => locks)
          fun _ isWatching => superseded isWatching.1.symm
      · cases taken
        exact inv.monitorMoves isTask (fun locks => locks) (fun locks => locks) (fun _ => dead)
          fun _ _ => trivial
  | settling status =>
      have dead := ok.dead fun early => early
      have sound := sound (by rw [isTask]; rfl)
      cases status with
      | clean =>
          cases taken
          have down := inv.down sound .stopped (by decide)
          exact down.monitorDone isTask (fun locks => locks) (by rintro ⟨⟩)
      | unclean =>
          cases taken
          have down := inv.down sound .backoff (by decide)
          exact down.monitorMoves isTask (fun locks => locks) (fun locks => locks) (fun _ => dead)
            (by rintro ⟨⟩)
  | terminating =>
      simp only [Slot.stepMonitor] at taken
      split at taken
      · next dead =>
        cases taken
        exact inv.monitorMoves isTask (fun locks => locks) (fun locks => locks) (fun _ => dead)
          fun _ _ => trivial
      · split at taken
        · cases taken
          exact (inv.ends monitor.child .unclean).monitorMoves
            ((slot.task_ends _ _ id).trans isTask) (fun locks => locks) (fun locks => locks)
            (fun _ => slot.not_alive_ends _ _) fun _ _ => trivial
        · cases taken
  | terminated =>
      have sound := sound (by rw [isTask]; rfl)
      cases taken
      have down := inv.down sound .stopped (by decide)
      exact down.monitorDone isTask (fun locks => locks) (by rintro ⟨⟩)
  | retrying =>
      have dead := ok.dead fun early => early
      simp only [Slot.stepMonitor] at taken
      split at taken
      · cases taken
        exact (inv.leaveBackoff .failed (by decide)).monitorDone ((slot.task_leaveBackoff _ id).trans isTask)
          (fun locks => locks) fun _ isWatching => isWatching.2
      · cases taken
        exact inv.monitorMoves isTask (fun locks => locks) (fun locks => locks) (fun _ => dead)
          fun _ isWatching => isWatching
  | sleeping =>
      have dead := ok.dead fun early => early
      simp only [Slot.stepMonitor] at taken
      split at taken
      · cases taken
        exact inv.monitorMoves isTask (fun locks => locks) (fun locks => locks) (fun _ => dead)
          fun _ isWatching => isWatching
      · split at taken <;> cases taken
        exact (inv.leaveBackoff .stopped (by decide)).monitorDone ((slot.task_leaveBackoff _ id).trans isTask)
          (fun locks => locks) fun _ isWatching => isWatching.2
      · split at taken <;> cases taken
        exact inv.monitorDone isTask (fun locks => locks) fun _ isWatching => isWatching.2
  | relocking =>
      have dead := ok.dead fun early => early
      simp only [Slot.stepMonitor] at taken
      split at taken
      · next free =>
        cases taken
        refine inv.locksUp free (by rw [isTask]; rintro ⟨⟩) rfl ?_ ?_
        · rintro _ _ ⟨⟩
          exact ⟨ok.started, ok.counted, ok.own, fun _ => dead, by rintro ⟨⟩⟩
        · rw [isTask]
          exact fun isWatching => absurd isWatching.2 fun watching => watching
      · cases taken
  | relocked =>
      have dead := ok.dead fun early => early
      have isLocking : (slot.task id).Locks := by rw [isTask]; trivial
      have noSpawn : (slot.task id).spawnPc = none := by rw [isTask]; rfl
      obtain ⟨quiet, core⟩ := inv.holder_idle isLocking noSpawn
      simp only [Slot.stepMonitor] at taken
      split at taken
      · cases taken
        exact inv.givesUp isLocking quiet core
      · next current =>
        cases taken
        refine inv.moves isLocking quiet core ?_
        rintro _ _ ⟨⟩
        exact ⟨ok.started, ok.counted, ok.own, fun _ => dead, fun _ => not_not.mp current⟩
  | rechecked =>
      have dead := ok.dead fun early => early
      have isLocking : (slot.task id).Locks := by rw [isTask]; trivial
      have noSpawn : (slot.task id).spawnPc = none := by rw [isTask]; rfl
      obtain ⟨quiet, core⟩ := inv.holder_idle isLocking noSpawn
      simp only [Slot.stepMonitor] at taken
      split at taken
      · cases taken
        have left := inv.leaveBackoff .stopped (by decide)
        have same := slot.task_leaveBackoff .stopped id
        obtain ⟨-, leftCore⟩ := left.core_own (same.symm ▸ isLocking)
        rw [same, noSpawn] at leftCore
        exact left.givesUp (same.symm ▸ isLocking) (by rwa [same]) leftCore
      · cases taken
        refine inv.moves isLocking quiet (core.idle ?_) ?_
        · -- the current child is the monitor's own, which is dead
          rintro ⟨child, isCurrent, alive⟩
          have isOwn := ok.own (ok.rechecked rfl).symm
          rw [Option.some.inj (isOwn.symm.trans isCurrent)] at dead
          exact dead alive
        · rintro _ _ ⟨⟩
          exact ⟨ok.started, ok.counted, ok.own, fun _ => dead, by rintro ⟨⟩⟩
  | spawning pc =>
      have dead := ok.dead fun early => early
      have isPc : (slot.task id).spawnPc = some pc := by rw [isTask]; rfl
      have retrying : slot.MonitorOk monitor .retrying :=
        ⟨ok.started, ok.counted, ok.own, fun _ => dead, by rintro ⟨⟩⟩
      simp only [Slot.stepMonitor] at taken
      split at taken
      · next after pc' stepped =>
        cases taken
        refine inv.spawn_more isPc stepped rfl ?_
        rintro _ _ ⟨⟩
        exact ⟨by rintro ⟨⟩, retrying⟩
      · next after stepped =>
        cases taken
        refine inv.spawn_failed isPc stepped (fun locks => locks) ?_
        rintro _ _ ⟨⟩
        exact ⟨by rintro ⟨⟩, retrying⟩
      · next after child generation stepped =>
        cases taken
        obtain ⟨holder, core⟩ := inv.core_own (locks_of_spawnPc isPc)
        rw [isPc] at core
        obtain ⟨rfl, rfl⟩ := stepSpawn_spawned core rfl stepped
        refine Inv.startHealth ?_ control child generation
        have isOpen : after.task id ≠ .done := by rw [isTask]; rintro ⟨⟩
        have replaces := replaces_setTask isOpen after.unlock
          (.monitor { monitor with child, generation } .watching) rfl
        have idle := core.forget (fun _ starts => starts) (fun marks => marks)
        refine inv.releases replaces holder rfl (fun locks => locks)
          ⟨idle.registered, idle.live, idle.shown, by rintro _ ⟨⟩⟩ (.of_same rfl rfl rfl) ?_ fun _ => ?_
        · rintro _ _ ⟨⟩
          have given := core.monitorOk monitor.port monitor.attempts
          exact given.evolves (.of_same rfl rfl rfl) given.dead given.rechecked
        · refine .inl ⟨id, ?_⟩
          rw [replaces.own]
          exact ⟨(core.spawns _ rfl).2.symm, trivial⟩

end Monitor

theorem Inv.stepHealth (inv : slot.Inv) {watch : Watch} {probing : Bool}
    (isTask : slot.task id = .health watch probing)
    (taken : slot.stepHealth control id answer watch probing = some next) : next.Inv := by
  have passes {slot : Slot} (inv : slot.Inv) (isTask : slot.task id = .health watch probing)
      {after : Task} (stays : ¬ after.Locks) (noMonitor : ∀ held pc, after ≠ .monitor held pc) :
      (slot.setTask id after).Inv :=
    inv.passes isTask nofun (fun locks => locks) stays
      (fun held pc isMonitor => absurd isMonitor (noMonitor held pc))
      fun _ isWatching => absurd isWatching fun watches => watches
  cases probing with
  | false =>
      simp only [Slot.stepHealth] at taken
      split at taken
      · split at taken <;> cases taken
        exact passes inv isTask (fun locks => locks) nofun
      · split at taken <;> cases taken
        · exact passes inv isTask (fun locks => locks) nofun
        · exact passes inv isTask (fun locks => locks) nofun
  | true =>
      simp only [Slot.stepHealth] at taken
      generalize (if answer.accepts = true then 0 else watch.fails + 1) = fails at taken
      split at taken
      · cases taken
        exact passes inv isTask (fun locks => locks) nofun
      · split at taken
        · cases taken
          exact passes inv isTask (fun locks => locks) nofun
        · cases taken
          exact passes (inv.ends watch.child .unclean) ((slot.task_ends _ _ id).trans isTask)
            (fun locks => locks) nofun

end Steps

/-- A sound action keeps the invariant. -/
theorem Inv.step (inv : slot.Inv) {control : Control} {action : SlotAction}
    (sound : slot.Sound action) (taken : slot.step control action = some next) : next.Inv := by
  cases action with
  | connect =>
      cases taken
      exact inv.start (fun locks => locks) nofun
  | exit child status =>
      cases taken
      exact inv.ends child status
  | step id answer =>
      simp only [Slot.step] at taken
      split at taken
      · next pc isTask => exact inv.stepEnsure isTask sound taken
      · next monitor pc isTask => exact inv.stepMonitor isTask sound taken
      · next watch probing isTask => exact inv.stepHealth isTask taken
      · cases taken

theorem inv_new (fixedPort : Option Nat) : (new fixedPort).Inv := by
  refine ⟨nofun, ⟨nofun, nofun, ?_, nofun⟩, nofun, nofun⟩
  rintro ⟨child, isCurrent, -⟩
  cases isCurrent

/-- A quiet slot shows `Running` exactly when the child of its generation is alive. -/
theorem Inv.shows (inv : slot.Inv) (quiet : slot.Quiet) :
    slot.phase = .running ↔ slot.CurrentAlive := by
  have idle : ∀ pc, slot.spawning ≠ some pc := by
    intro pc isSpawning
    obtain ⟨id, -, isPc⟩ := Option.bind_eq_some_iff.mp isSpawning
    have rests := quiet id
    cases isTask : slot.task id with
    | ensure at' =>
        rw [isTask] at rests isPc
        cases at' with
        | waiting => cases isPc
        | locked | probing | choosing | spawning => exact rests
    | monitor held at' =>
        rw [isTask] at rests isPc
        cases at' with
        | spawning => exact rests
        | watching | exited | settling | terminating | terminated | retrying | sleeping
        | relocking | relocked | rechecked => cases isPc
    | health | done =>
        rw [isTask] at isPc
        cases isPc
  constructor
  · intro running
    rcases inv.watched running with ⟨id, isWatching⟩ | ⟨child, isReturning⟩
    · have rests := quiet id
      cases isTask : slot.task id with
      | monitor held pc =>
          rw [isTask] at rests isWatching
          obtain ⟨generation, early⟩ := isWatching
          cases pc with
          | watching => exact ⟨held.child, (inv.monitors id held _ isTask).own generation, rests⟩
          | exited | settling | terminating | terminated => exact rests.elim
          | retrying | sleeping | relocking | relocked | rechecked | spawning => exact early.elim
      | ensure | health | done =>
          rw [isTask] at isWatching
          exact isWatching.elim
    · exact absurd isReturning (idle _)
  · intro alive
    exact (inv.core.shown alive).resolve_right fun ⟨pc, isPc, _⟩ => idle pc isPc

end Slot

/-- Every action is sound for its slot. -/
def Daemon.Sound (daemon : Daemon) : Action → Prop
  | .slot key action => (daemon.slots key).Sound action
  | _ => True

/-- In every run in which no probe of `ensure_running` fails on a live compute and no monitor
settles its phase over one, each slot has at most one live child at every point, and when nothing
is in progress its phase is `Running` exactly when the child of its generation is alive. -/
theorem one_live_compute {mainPort : Nat} {leader healthChecks : Bool} {daemon : Daemon}
    (run : Run Daemon.step Daemon.Sound (Daemon.initial mainPort leader healthChecks) daemon)
    (key : String) :
    (daemon.slots key).OneLive ∧
      ((daemon.slots key).Quiet →
        ((daemon.slots key).phase = .running ↔ (daemon.slots key).CurrentAlive)) := by
  have inv : ∀ key, (daemon.slots key).Inv := by
    induction run with
    | refl => exact fun _ => Slot.inv_new _
    | @step middle last action _ sound taken ih =>
        intro other
        cases action with
        | lead | shutDown =>
            cases taken
            exact ih other
        | slot key action =>
            simp only [Daemon.step, Option.bind_eq_bind, Option.bind_eq_some_iff,
              Option.some.injEq] at taken
            obtain ⟨slot, stepped, rfl⟩ := taken
            simp only
            split
            · exact (ih key).step sound stepped
            · exact ih other
  exact ⟨(inv key).core.oneLive, (inv key).shows⟩

instance (daemon : Daemon) : DecidablePred daemon.Sound
  | .slot key action => inferInstanceAs (Decidable ((daemon.slots key).Sound action))
  | .lead _ | .shutDown => .isTrue trivial

/-- A task of the main slot takes some steps of which only the last needs an answer. -/
def steps (task : TaskId) (count : Nat) (answer : Answer) : List Action :=
  List.replicate count (.slot "main" (.step task {})) ++ [.slot "main" (.step task answer)]

/-- The first connection wakes the main compute: task 0 spawns child 0, task 1 monitors it. -/
def wakes : List Action :=
  [.slot "main" .connect] ++ steps 0 5 { accepts := true } ++ steps 0 2 {}

/-- The compute crashes, and its monitor settles the slot and restarts it. -/
def restarted : Daemon :=
  execute Daemon.step (fun daemon action => decide (daemon.Sound action))
    (Daemon.initial 55432 true false)
    (wakes ++ [.slot "main" (.exit 0 .unclean)] ++ steps 1 10 { accepts := true } ++ steps 1 2 {})

theorem one_live_compute_restarted :
    (restarted.slots "main").children = [some .unclean, none] ∧
      (restarted.slots "main").OneLive := by
  have run : Run Daemon.step Daemon.Sound (Daemon.initial 55432 true false) restarted :=
    run_execute (fun _ _ => of_decide_eq_true) _ _
  exact ⟨by decide +kernel, (one_live_compute run "main").1⟩

/-- A second connection probes the live compute's port, and the probe times out. -/
def probedTwice : List Action :=
  wakes ++ [.slot "main" .connect] ++ steps 2 7 {}

/-- A monitor checks its generation, a connection restarts the stopped compute, and the monitor
writes the phase over the new one's. -/
def settledLate : List Action :=
  wakes ++ [.slot "main" (.exit 0 .clean)] ++ steps 1 1 {} ++ [.slot "main" .connect] ++
    steps 2 6 { accepts := true } ++ steps 2 2 {} ++ steps 1 0 {}

/-- A failed probe of a live compute starts a second one beside it. A late write leaves a slot
`Stopped` whose compute is alive, with nothing in progress. -/
theorem two_live_computes :
    let probed := execute Daemon.step (fun _ _ => true) (Daemon.initial 55432 true false)
      probedTwice
    let settled := execute Daemon.step (fun _ _ => true) (Daemon.initial 55432 true false)
      settledLate
    Run Daemon.step Unrestricted (Daemon.initial 55432 true false) probed ∧
      ¬ (probed.slots "main").OneLive ∧
      Run Daemon.step Unrestricted (Daemon.initial 55432 true false) settled ∧
      (settled.slots "main").Quiet ∧ (settled.slots "main").phase = .stopped ∧
      (settled.slots "main").CurrentAlive := by
  refine ⟨run_execute (fun _ _ _ => trivial) _ _, fun one => ?_,
    run_execute (fun _ _ _ => trivial) _ _, ?_, by decide +kernel, by decide +kernel⟩
  · have bothLive := one 0 1 (by decide +kernel) (by decide +kernel)
    cases bothLive
  · rw [Slot.quiet_iff]
    decide +kernel

end Icegres.Icegresd
