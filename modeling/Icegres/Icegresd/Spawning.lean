import Icegres.Icegresd.Slot
import Mathlib.Data.List.GetD

/-!
# Spawning under the lock

What the lock holder's spawn, the children and the phase of a slot have to do with each other:
a child is started where none is alive, is counted with its generation before anyone can see it
run, and is shown as `Running` from then on.
-/

namespace Icegres.Icegresd

/-- The child is started and not yet counted. -/
def SpawnPc.Starts (child : ChildId) : SpawnPc → Prop
  | .forked started | .polling started | .accepted started => started = child
  | _ => False

/-- The child is counted, and the phase not yet `Running`. -/
def SpawnPc.Marks : SpawnPc → Prop
  | .counted _ _ => True
  | _ => False

/-- The monitor waits for its child's end or has not settled it. -/
def MonitorPc.Watching : MonitorPc → Prop
  | .watching | .exited _ | .settling _ | .terminating | .terminated => True
  | _ => False

/-- The monitor's child may be alive. -/
def MonitorPc.Early : MonitorPc → Prop
  | .watching | .terminating => True
  | _ => False

namespace Task

/-- The task holds the spawn lock. -/
def Locks : Task → Prop
  | .ensure .waiting => False
  | .ensure _ => True
  | .monitor _ .relocked | .monitor _ .rechecked | .monitor _ (.spawning _) => True
  | _ => False

/-- Where the task stands in a spawn, once nothing but the spawn is left to decide. -/
def spawnPc : Task → Option SpawnPc
  | .ensure .choosing => some .forking
  | .ensure (.spawning _ pc) => some pc
  | .monitor _ (.spawning pc) => some pc
  | _ => none

/-- A monitor of the generation that has not settled its child. -/
def Watches (generation : Nat) : Task → Prop
  | .monitor held pc => held.generation = generation ∧ pc.Watching
  | _ => False

/-- The step takes the slot's compute for dead: a probe of `ensure_running` fails, or a monitor
settles the phase. -/
def presumesDead (answer : Answer) : Task → Bool
  | .ensure (.probing _) => !answer.accepts
  | .monitor _ (.settling _) | .monitor _ .terminated => true
  | _ => false

/-- Nothing is in progress: no call past the lock, no child whose end is not settled. -/
def Rests (slot : Slot) : Task → Prop
  | .ensure .waiting => True
  | .ensure _ => False
  | .monitor held .watching => slot.Alive held.child
  | .monitor _ .retrying | .monitor _ .sleeping | .monitor _ .relocking => True
  | .monitor _ _ => False
  | .health _ _ | .done => True

end Task

namespace Slot

/-- The child of the current generation is alive. -/
def CurrentAlive (slot : Slot) : Prop := ∃ child, slot.current = some child ∧ slot.Alive child

instance (slot : Slot) : DecidablePred (Task.Rests slot)
  | .monitor held .watching => inferInstanceAs (Decidable (slot.Alive held.child))
  | .ensure .waiting | .monitor _ .retrying | .monitor _ .sleeping | .monitor _ .relocking
  | .health _ _ | .done => .isTrue trivial
  | .ensure .locked | .ensure (.probing _) | .ensure .choosing | .ensure (.spawning ..)
  | .monitor _ (.exited _) | .monitor _ (.settling _) | .monitor _ .terminating
  | .monitor _ .terminated | .monitor _ .relocked | .monitor _ .rechecked
  | .monitor _ (.spawning _) => .isFalse id

/-- At most one child is alive. -/
def OneLive (slot : Slot) : Prop := ∀ left right, slot.Alive left → slot.Alive right → left = right

/-- No transition is in progress. -/
def Quiet (slot : Slot) : Prop := ∀ id, (slot.task id).Rests slot

instance (slot : Slot) : Decidable slot.CurrentAlive :=
  decidable_of_iff (∃ child ∈ slot.current, slot.Alive child) Iff.rfl

/-- Only the tasks that were started can be in progress. -/
theorem quiet_iff (slot : Slot) : slot.Quiet ↔ ∀ task ∈ slot.tasks, task.Rests slot := by
  constructor
  · intro quiet task mem
    obtain ⟨id, inside, rfl⟩ := List.getElem_of_mem mem
    have rests := quiet id
    rwa [Slot.task, List.getD_eq_getElem _ _ inside] at rests
  · intro rests id
    rw [Slot.task, List.getD_eq_getElem?_getD]
    cases isTask : slot.tasks[id]? with
    | none => trivial
    | some task => exact rests task (List.mem_of_getElem? isTask)

/-- The step takes no live compute for dead. -/
def Sound (slot : Slot) : SlotAction → Prop
  | .step id answer => (slot.task id).presumesDead answer = true → ¬ slot.CurrentAlive
  | _ => True

instance (slot : Slot) : DecidablePred slot.Sound
  | .step id answer =>
      inferInstanceAs (Decidable ((slot.task id).presumesDead answer = true → ¬ slot.CurrentAlive))
  | .connect | .exit _ _ => .isTrue trivial

/-- What the lock holder's spawn has reached. -/
def spawning (slot : Slot) : Option SpawnPc := slot.lock.bind fun id => (slot.task id).spawnPc

def SpawnOk (slot : Slot) : SpawnPc → Prop
  | .forking => ¬ slot.CurrentAlive
  | .forked child => child < slot.children.length ∧ ¬ slot.CurrentAlive
  | .polling child | .accepted child =>
      child < slot.children.length ∧ ¬ slot.CurrentAlive ∧ slot.phase ≠ .running
  | .counted child generation =>
      slot.current = some child ∧ slot.generation = generation ∧ slot.phase ≠ .running
  | .returning child generation => slot.current = some child ∧ slot.generation = generation

/-- What the children, the generation and the phase have to do with a spawn. -/
structure Core (slot : Slot) (spawning : Option SpawnPc) : Prop where
  registered : ∀ child, slot.current = some child → child < slot.children.length
  live : ∀ child, slot.Alive child →
    slot.current = some child ∨ ∃ pc, spawning = some pc ∧ pc.Starts child
  shown : slot.CurrentAlive → slot.phase = .running ∨ ∃ pc, spawning = some pc ∧ pc.Marks
  spawns : ∀ pc, spawning = some pc → slot.SpawnOk pc

/-- A monitor's child has the monitor's generation, and is dead once the monitor moved on. -/
structure MonitorOk (slot : Slot) (monitor : Monitor) (pc : MonitorPc) : Prop where
  started : monitor.child < slot.children.length
  counted : monitor.generation ≤ slot.generation
  own : monitor.generation = slot.generation → slot.current = some monitor.child
  dead : ¬ pc.Early → ¬ slot.Alive monitor.child
  rechecked : pc = .rechecked → slot.generation = monitor.generation

/-- A `Running` slot has a monitor of its generation, or is about to start one. -/
def Watched (slot : Slot) : Prop :=
  slot.phase = .running → (∃ id, (slot.task id).Watches slot.generation) ∨
    ∃ child, slot.spawning = some (.returning child slot.generation)

structure Inv (slot : Slot) : Prop where
  locks : ∀ id, (slot.task id).Locks → slot.lock = some id
  core : slot.Core slot.spawning
  monitors : ∀ id monitor pc, slot.task id = .monitor monitor pc → slot.MonitorOk monitor pc
  watched : slot.Watched

section Tasks

variable {slot : Slot} {id other : TaskId} {task : Task}

theorem task_setTask (inside : id < slot.tasks.length) :
    (slot.setTask id task).task other = if other = id then task else slot.task other := by
  simp only [Slot.task, setTask, List.getD_eq_getElem?_getD, List.getElem?_set]
  by_cases same : other = id
  · subst same
    simp [inside]
  · simp [same, Ne.symm same]

theorem task_start :
    (slot.start task).task other = if other = slot.tasks.length then task else slot.task other := by
  simp only [Slot.task, start, List.getD_eq_getElem?_getD, List.getElem?_append]
  split
  · next inside =>
    rw [if_neg (Nat.ne_of_lt inside)]
  · next beyond =>
    by_cases same : other = slot.tasks.length
    · subst same
      simp
    · have further : slot.tasks.length < other :=
        Nat.lt_of_le_of_ne (Nat.le_of_not_lt beyond) (Ne.symm same)
      rw [if_neg same, List.getElem?_eq_none (Nat.le_of_lt further),
        List.getElem?_eq_none (Nat.sub_pos_of_lt further)]

theorem task_of_length_le (beyond : slot.tasks.length ≤ id) : slot.task id = .done := by
  simp [Slot.task, List.getD_eq_getElem?_getD, List.getElem?_eq_none beyond]

theorem inside_of_task (isTask : slot.task id ≠ .done) : id < slot.tasks.length := by
  by_contra beyond
  exact isTask (task_of_length_le (Nat.le_of_not_lt beyond))

end Tasks

variable {slot next : Slot} {spawning : Option SpawnPc}

/-- Children only end. -/
structure Dies (slot next : Slot) : Prop where
  length : next.children.length = slot.children.length
  alive : ∀ child, next.Alive child → slot.Alive child

theorem Dies.of_same (same : next.children = slot.children) : slot.Dies next :=
  ⟨congrArg List.length same, fun _ alive => by rwa [Alive, same] at alive⟩

theorem Dies.refl (slot : Slot) : slot.Dies slot := .of_same rfl

theorem dies_ends (slot : Slot) (child : ChildId) (status : Exit) :
    slot.Dies (slot.ends child status) := by
  rw [ends]
  split
  · refine ⟨List.length_set, fun other alive => ?_⟩
    simp only [Alive, List.getElem?_set] at alive
    split at alive
    · split at alive <;> cases alive
    · exact alive
  · exact .refl slot

/-- A child's end leaves everything else alone. -/
theorem ends_eq (slot : Slot) (child : ChildId) (status : Exit) :
    ∃ children, slot.ends child status = { slot with children := children } := by
  rw [ends]
  split
  · exact ⟨_, rfl⟩
  · exact ⟨_, rfl⟩

theorem not_alive_ends (slot : Slot) (child : ChildId) (status : Exit) :
    ¬ (slot.ends child status).Alive child := by
  rw [ends]
  split
  · simp only [Alive, List.getElem?_set_self']
    cases slot.children[child]? <;> simp
  · next dead => exact dead

theorem Dies.currentAlive (dies : slot.Dies next) (current : next.current = slot.current)
    (alive : next.CurrentAlive) : slot.CurrentAlive := by
  obtain ⟨child, isCurrent, childAlive⟩ := alive
  exact ⟨child, current ▸ isCurrent, dies.alive child childAlive⟩

/-- With nothing but deaths and a phase that hides no live compute, the core stays. -/
theorem Core.dies (core : slot.Core spawning) (dies : slot.Dies next)
    (generation : next.generation = slot.generation) (current : next.current = slot.current)
    (hides : next.CurrentAlive → slot.phase = .running → next.phase = .running)
    (phase : next.phase = .running → slot.phase = .running) : next.Core spawning := by
  refine ⟨?_, ?_, ?_, ?_⟩
  · rw [current, dies.length]
    exact core.registered
  · intro child alive
    rw [current]
    exact core.live child (dies.alive child alive)
  · intro alive
    exact (core.shown (dies.currentAlive current alive)).imp_left (hides alive)
  · intro pc isPc
    have ok := core.spawns pc isPc
    have dead (notAlive : ¬ slot.CurrentAlive) : ¬ next.CurrentAlive :=
      fun alive => notAlive (dies.currentAlive current alive)
    cases pc with
    | forking => exact dead ok
    | forked child => exact ⟨dies.length ▸ ok.1, dead ok.2⟩
    | polling child | accepted child =>
        exact ⟨dies.length ▸ ok.1, dead ok.2.1, fun running => ok.2.2 (phase running)⟩
    | counted child bumped =>
        exact ⟨current ▸ ok.1, generation ▸ ok.2.1, fun running => ok.2.2 (phase running)⟩
    | returning child bumped => exact ⟨current ▸ ok.1, generation ▸ ok.2⟩

/-- A spawn begins or ends where no compute is alive, or a counted child is shown. -/
theorem Core.idle (core : slot.Core none) (dead : ¬ slot.CurrentAlive) :
    slot.Core (some .forking) :=
  ⟨core.registered, fun child alive => (core.live child alive).imp_right nofun,
    fun alive => absurd alive dead, fun _ isPc => Option.some.inj isPc ▸ dead⟩

theorem Core.oneLive (core : slot.Core spawning) : slot.OneLive := by
  intro left right leftAlive rightAlive
  -- a started child that is not counted excludes a live current one
  have exclusive (child : ChildId) (isCurrent : slot.current = some child)
      (alive : slot.Alive child) (other : ChildId) :
      ¬ ∃ pc, spawning = some pc ∧ pc.Starts other := by
    rintro ⟨pc, isPc, starts⟩
    have ok := core.spawns pc isPc
    cases pc with
    | forked => exact ok.2 ⟨child, isCurrent, alive⟩
    | polling | accepted => exact ok.2.1 ⟨child, isCurrent, alive⟩
    | forking | counted | returning => exact starts
  rcases core.live left leftAlive with isCurrent | ⟨pc, isPc, starts⟩
  · rcases core.live right rightAlive with alsoCurrent | started
    · exact Option.some.inj (isCurrent.symm.trans alsoCurrent)
    · exact absurd started (exclusive left isCurrent leftAlive right)
  · rcases core.live right rightAlive with alsoCurrent | ⟨other, isOther, alsoStarts⟩
    · exact absurd ⟨pc, isPc, starts⟩ (exclusive right alsoCurrent rightAlive left)
    · obtain rfl := Option.some.inj (isPc.symm.trans isOther)
      cases pc with
      | forked | polling | accepted => exact starts.symm.trans alsoStarts
      | forking | counted | returning => exact starts.elim

/-- What every step leaves of the children and the generation. -/
structure Evolves (slot next : Slot) : Prop where
  length : slot.children.length ≤ next.children.length
  alive : ∀ child < slot.children.length, next.Alive child → slot.Alive child
  generation : next.generation = slot.generation ∧ next.current = slot.current ∨
    slot.generation < next.generation

theorem Dies.evolves (dies : slot.Dies next) (generation : next.generation = slot.generation)
    (current : next.current = slot.current) : slot.Evolves next :=
  ⟨Nat.le_of_eq dies.length.symm, fun child _ => dies.alive child, .inl ⟨generation, current⟩⟩

theorem Evolves.of_same (children : next.children = slot.children)
    (generation : next.generation = slot.generation) (current : next.current = slot.current) :
    slot.Evolves next := (Dies.of_same children).evolves generation current

theorem Evolves.refl (slot : Slot) : slot.Evolves slot := .of_same rfl rfl rfl

/-- A spawn's step, by where it leaves the spawn. -/
theorem Core.stepSpawn {pc : SpawnPc} (core : slot.Core (some pc)) (port : Nat) (answer : Answer) :
    let after := slot.stepSpawn port answer pc
    (after.1.lock = slot.lock ∧ after.1.tasks = slot.tasks ∧ slot.Evolves after.1) ∧
      (after.1.phase = .running →
        slot.phase = .running ∧ after.1.generation = slot.generation ∨
          ∃ child, after.2 = .more (.returning child after.1.generation)) ∧
      match after.2 with
      | .more pc => after.1.Core (some pc)
      | .failed => after.1.Core none
      | .spawned child generation => after.1 = slot ∧ pc = .returning child generation := by
  have ok := core.spawns pc rfl
  -- a spawn that started no live child leaves nothing behind
  have settled {next : Slot} (dies : slot.Dies next)
      (generation : next.generation = slot.generation)
      (current : next.current = slot.current) (dead : ¬ slot.CurrentAlive)
      (ended : ∀ child, next.Alive child → ¬ pc.Starts child) : next.Core none := by
    refine ⟨?_, ?_, ?_, nofun⟩
    · rw [current, dies.length]
      exact core.registered
    · intro child alive
      rw [current]
      rcases core.live child (dies.alive child alive) with isCurrent | ⟨_, isPc, starts⟩
      · exact .inl isCurrent
      · exact absurd starts (Option.some.inj isPc ▸ ended child alive)
    · exact fun alive => absurd (dies.currentAlive current alive) dead
  cases pc with
  | forking =>
      simp only [Slot.stepSpawn]
      split
      · exact ⟨⟨rfl, rfl, .refl slot⟩, fun running => .inl ⟨running, rfl⟩,
          settled (.refl slot) rfl rfl ok fun _ _ => id⟩
      · have old : ∀ child < slot.children.length,
            ({ slot with children := slot.children ++ [none] } : Slot).Alive child →
              slot.Alive child := by
          intro child inside alive
          simpa only [Alive, List.getElem?_append_left inside] using alive
        have dead : ¬ ({ slot with children := slot.children ++ [none] } : Slot).CurrentAlive := by
          rintro ⟨child, isCurrent, alive⟩
          exact ok ⟨child, isCurrent, old child (core.registered child isCurrent) alive⟩
        refine ⟨⟨rfl, rfl, ?_, old, .inl ⟨rfl, rfl⟩⟩, fun running => .inl ⟨running, rfl⟩, ?_, ?_,
          fun alive => absurd alive dead, ?_⟩
        · simp
        · intro child isCurrent
          exact Nat.lt_of_lt_of_le (core.registered child isCurrent) (by simp)
        · intro child alive
          by_cases inside : child < slot.children.length
          · refine .inl ((core.live child (old child inside alive)).resolve_right ?_)
            rintro ⟨_, isPc, starts⟩
            cases isPc
            exact starts
          · refine .inr ⟨_, rfl, ?_⟩
            have bound := (List.getElem?_eq_some_iff.mp alive).1
            simp only [List.length_append, List.length_singleton] at bound
            exact Nat.le_antisymm (Nat.le_of_not_lt inside) (Nat.le_of_lt_succ bound)
        · rintro _ ⟨⟩
          exact ⟨by simp, dead⟩
  | forked child =>
      have starting : Phase.starting ≠ .running := nofun
      refine ⟨⟨rfl, rfl, .of_same rfl rfl rfl⟩, fun running => absurd running starting,
        core.registered, ?_, fun alive => absurd alive ok.2, ?_⟩
      · intro other alive
        exact (core.live other alive).imp_right fun ⟨_, isPc, starts⟩ =>
          ⟨_, rfl, by cases isPc; exact starts⟩
      · rintro _ ⟨⟩
        exact ⟨ok.1, ok.2, starting⟩
  | polling child =>
      simp only [Slot.stepSpawn]
      have killed : ∀ other, (slot.kill child).Alive other →
          ¬ (SpawnPc.polling child).Starts other := by
        rintro other alive rfl
        exact not_alive_ends slot _ _ alive
      have failed : Phase.failed ≠ .running := nofun
      split
      · refine ⟨⟨rfl, rfl, .refl slot⟩, fun running => .inl ⟨running, rfl⟩, core.registered, ?_,
          fun alive => absurd alive ok.2.1, ?_⟩
        · intro other alive
          exact (core.live other alive).imp_right fun ⟨_, isPc, starts⟩ =>
            ⟨_, rfl, by cases isPc; exact starts⟩
        · rintro _ ⟨⟩
          exact ok
      · split
        · have dies := slot.dies_ends child .unclean
          obtain ⟨children, killEq⟩ := slot.ends_eq child .unclean
          have result : (slot.kill child).Core none :=
            settled dies (by rw [kill, killEq]) (by rw [kill, killEq]) ok.2.1 killed
          rw [kill, killEq] at result ⊢
          rw [killEq] at dies
          exact ⟨⟨rfl, rfl, dies.evolves rfl rfl⟩, fun running => .inl ⟨running, rfl⟩, result⟩
        · split
          · next dead =>
            refine ⟨⟨rfl, rfl, .of_same rfl rfl rfl⟩, fun running => absurd running failed,
              settled (.of_same rfl) rfl rfl ok.2.1 ?_⟩
            rintro other alive rfl
            exact dead alive
          · split
            · have dies := slot.dies_ends child .unclean
              obtain ⟨children, killEq⟩ := slot.ends_eq child .unclean
              rw [kill, killEq] at killed ⊢
              rw [killEq] at dies
              exact ⟨⟨rfl, rfl, Dies.evolves ⟨dies.length, dies.alive⟩ rfl rfl⟩,
                fun running => absurd running failed,
                settled ⟨dies.length, dies.alive⟩ rfl rfl ok.2.1 killed⟩
            · exact ⟨⟨rfl, rfl, .refl slot⟩, fun running => .inl ⟨running, rfl⟩, core⟩
  | accepted child =>
      refine ⟨⟨rfl, rfl, Nat.le_refl _, fun _ _ alive => alive, .inr (Nat.lt_succ_self _)⟩,
        fun running => absurd running ok.2.2, ?_, ?_, fun _ => .inr ⟨_, rfl, trivial⟩, ?_⟩
      · rintro _ ⟨⟩
        exact ok.1
      · intro other alive
        rcases core.live other alive with isCurrent | ⟨_, isPc, starts⟩
        · exact absurd ⟨other, isCurrent, alive⟩ ok.2.1
        · cases isPc
          exact .inl (congrArg some starts)
      · rintro _ ⟨⟩
        exact ⟨rfl, rfl, ok.2.2⟩
  | counted child generation =>
      refine ⟨⟨rfl, rfl, .of_same rfl rfl rfl⟩, fun _ => .inr ⟨child, by rw [← ok.2.1]; rfl⟩,
        core.registered, ?_, fun _ => .inl rfl, ?_⟩
      · intro other alive
        refine .inl ((core.live other alive).resolve_right ?_)
        rintro ⟨_, isPc, starts⟩
        cases isPc
        exact starts
      · rintro _ ⟨⟩
        exact ⟨ok.1, ok.2.1⟩
  | returning child generation =>
      exact ⟨⟨rfl, rfl, .refl slot⟩, fun running => .inl ⟨running, rfl⟩, rfl, rfl⟩

end Slot

end Icegres.Icegresd
