import Icegres.Transition

/-!
# Compute slots

The process-mode half of `icegresd`: per slot a spawn lock, a state every task writes, and the
children. `ensure_running` and `monitor_compute` spawn under the lock; a monitor settles its
slot's phase after its child's exit without it. A task is a program counter between two points
at which another task can run.
-/

namespace Icegres.Icegresd

/-- Lifecycle phase of one compute slot. -/
inductive Phase where
  | stopped
  | starting
  | running
  | backoff
  | failed
  deriving DecidableEq

/-- Children are numbered in the order in which they were started. -/
abbrev ChildId := Nat

abbrev TaskId := Nat

/-- How a child ended: with code zero, or otherwise. -/
inductive Exit where
  | clean
  | unclean
  deriving DecidableEq

/-- Consecutive failed health probes before a compute is killed. -/
def healthMaxFails : Nat := 3

/-- Restart attempts per crash episode. -/
def restartMaxAttempts : Nat := 3

/-- Where `spawn_compute` stands. -/
inductive SpawnPc where
  | forking
  /-- The process runs, and the state does not say so yet. -/
  | forked (child : ChildId)
  | polling (child : ChildId)
  /-- The port accepted a connection. -/
  | accepted (child : ChildId)
  /-- The generation is bumped. -/
  | counted (child : ChildId) (generation : Nat)
  /-- The phase is `Running`. -/
  | returning (child : ChildId) (generation : Nat)

/-- Where `ensure_running` stands. -/
inductive EnsurePc where
  /-- Before the spawn lock. -/
  | waiting
  | locked
  /-- The state says `Running`: probe the port. -/
  | probing (port : Nat)
  | choosing
  | spawning (port : Nat) (pc : SpawnPc)

/-- Where `monitor_compute` stands. -/
inductive MonitorPc where
  | watching
  /-- `child.wait()` returned. -/
  | exited (status : Exit)
  /-- The generation was still current; the pool is being cleared. -/
  | settling (status : Exit)
  /-- A demotion or the shutdown sent the child SIGTERM. -/
  | terminating
  | terminated
  /-- Top of the restart loop. -/
  | retrying
  | sleeping
  | relocking
  | relocked
  /-- The generation was still current under the lock. -/
  | rechecked
  | spawning (pc : SpawnPc)

/-- The locals of `monitor_compute`. -/
structure Monitor where
  child : ChildId
  generation : Nat
  port : Nat
  attempts : Nat

/-- The locals of `health_watch`. -/
structure Watch where
  child : ChildId
  generation : Nat
  fails : Nat

inductive Task where
  | ensure (pc : EnsurePc)
  | monitor (monitor : Monitor) (pc : MonitorPc)
  | health (watch : Watch) (probing : Bool)
  | done

structure Slot where
  /-- The main slot's port; branch and replica slots take a free one at each spawn. -/
  fixedPort : Option Nat
  phase : Phase
  pid : Option ChildId
  port : Nat
  generation : Nat
  /-- The task that holds `spawn_lock`. -/
  lock : Option TaskId
  /-- How each child ended; `none` while it is alive. -/
  children : List (Option Exit)
  tasks : List Task
  /-- The child that the current generation was counted for. -/
  current : Option ChildId

/-- What the daemon's other parts show a slot's tasks. -/
structure Control where
  leader : Bool
  /-- The daemon is shutting down. -/
  shutdown : Bool
  /-- `--health-check-ms` is on. -/
  healthChecks : Bool

/-- Which branch of a `select!` completes. -/
inductive Arm where
  /-- The child's exit, or the end of the delay. -/
  | awaited
  | demoted
  | shutdown

/-- What the network, the system and the clock answer a task's next step. -/
structure Answer where
  /-- The probe succeeds. -/
  accepts : Bool := false
  /-- The system call fails. -/
  errs : Bool := false
  /-- The deadline has passed; of a monitor, the child was up long enough. -/
  late : Bool := false
  /-- The free port the kernel names. -/
  port : Nat := 0
  arm : Arm := .awaited

/-- How a step of `spawn_compute` leaves it. -/
inductive SpawnResult where
  | more (pc : SpawnPc)
  | failed
  | spawned (child : ChildId) (generation : Nat)

inductive SlotAction where
  /-- A connection calls `ensure_running`. -/
  | connect
  /-- A child ends by itself: its idle stop or a crash. -/
  | exit (child : ChildId) (status : Exit)
  /-- A task takes its next step. -/
  | step (task : TaskId) (answer : Answer)

namespace Slot

/-- A slot that was never used. -/
def new (fixedPort : Option Nat) : Slot where
  fixedPort := fixedPort
  phase := .stopped
  pid := none
  port := fixedPort.getD 0
  generation := 0
  lock := none
  children := []
  tasks := []
  current := none

/-- The child runs. -/
def Alive (slot : Slot) (child : ChildId) : Prop := slot.children[child]? = some none

instance (slot : Slot) (child : ChildId) : Decidable (slot.Alive child) :=
  inferInstanceAs (Decidable (_ = _))

def task (slot : Slot) (id : TaskId) : Task := slot.tasks.getD id .done

def setTask (slot : Slot) (id : TaskId) (task : Task) : Slot :=
  { slot with tasks := slot.tasks.set id task }

/-- Start a task. -/
def start (slot : Slot) (task : Task) : Slot := { slot with tasks := slot.tasks ++ [task] }

def unlock (slot : Slot) : Slot := { slot with lock := none }

/-- A child ends, if it is alive. -/
def ends (slot : Slot) (child : ChildId) (status : Exit) : Slot :=
  if slot.Alive child then
    { slot with children := slot.children.set child (some status) }
  else
    slot

/-- SIGKILL. -/
def kill (slot : Slot) (child : ChildId) : Slot := slot.ends child .unclean

/-- Write the phase of a slot without a process. -/
def down (slot : Slot) (phase : Phase) : Slot := { slot with phase := phase, pid := none }

def failSlot (slot : Slot) : Slot := slot.down .failed

/-- Leave `Backoff`, unless another task has left it. -/
def leaveBackoff (slot : Slot) (phase : Phase) : Slot :=
  if slot.phase = .backoff then { slot with phase := phase } else slot

/-- One step of `spawn_compute`. -/
def stepSpawn (slot : Slot) (port : Nat) (answer : Answer) : SpawnPc → Slot × SpawnResult
  | .forking =>
      if answer.errs then
        (slot, .failed)
      else
        ({ slot with children := slot.children ++ [none] }, .more (.forked slot.children.length))
  | .forked child =>
      ({ slot with phase := .starting, pid := some child, port := port }, .more (.polling child))
  | .polling child =>
      if answer.accepts then
        (slot, .more (.accepted child))
      else if answer.errs then
        -- the child could not be waited for, and is killed when it is dropped
        (slot.kill child, .failed)
      else if ¬ slot.Alive child then
        (slot.failSlot, .failed)
      else if answer.late then
        ((slot.kill child).failSlot, .failed)
      else
        (slot, .more (.polling child))
  | .accepted child =>
      ({ slot with generation := slot.generation + 1, current := some child },
        .more (.counted child (slot.generation + 1)))
  | .counted child generation =>
      ({ slot with phase := .running }, .more (.returning child generation))
  | .returning child generation => (slot, .spawned child generation)

/-- `spawn_compute` started a child: watch its health, if asked to. -/
def startHealth (slot : Slot) (control : Control) (child : ChildId) (generation : Nat) : Slot :=
  if control.healthChecks then slot.start (.health ⟨child, generation, 0⟩ false) else slot

/-- One step of `ensure_running`. -/
def stepEnsure (slot : Slot) (control : Control) (id : TaskId) (answer : Answer) :
    EnsurePc → Option Slot
  | .waiting =>
      if slot.lock = none then
        some ({ slot with lock := some id }.setTask id (.ensure .locked))
      else
        none
  | .locked =>
      if ¬ control.leader then some (slot.unlock.setTask id .done)
      else if slot.phase = .running then some (slot.setTask id (.ensure (.probing slot.port)))
      else some (slot.setTask id (.ensure .choosing))
  | .probing _ =>
      if answer.accepts then some (slot.unlock.setTask id .done)
      else some (slot.setTask id (.ensure .choosing))
  | .choosing =>
      match slot.fixedPort with
      | some port => some (slot.setTask id (.ensure (.spawning port .forking)))
      | none =>
          if answer.errs then some (slot.unlock.setTask id .done)
          else some (slot.setTask id (.ensure (.spawning answer.port .forking)))
  | .spawning port pc =>
      match slot.stepSpawn port answer pc with
      | (slot, .more pc) => some (slot.setTask id (.ensure (.spawning port pc)))
      | (slot, .failed) => some (slot.unlock.setTask id .done)
      | (slot, .spawned child generation) =>
          some (((slot.unlock.setTask id .done).startHealth control child generation).start
            (.monitor ⟨child, generation, port, 0⟩ .watching))

/-- One step of `monitor_compute`. -/
def stepMonitor (slot : Slot) (control : Control) (id : TaskId) (answer : Answer)
    (monitor : Monitor) : MonitorPc → Option Slot
  | .watching =>
      match answer.arm with
      | .awaited =>
          match slot.children[monitor.child]? with
          | some (some status) => some (slot.setTask id (.monitor monitor (.exited status)))
          | _ => none
      | .demoted =>
          if control.leader then none
          else some (slot.setTask id (.monitor monitor .terminating))
      | .shutdown =>
          if control.shutdown then some (slot.setTask id (.monitor monitor .terminating))
          else none
  | .exited status =>
      if slot.generation ≠ monitor.generation then some (slot.setTask id .done)
      else some (slot.setTask id (.monitor monitor (.settling status)))
  | .settling .clean => some ((slot.down .stopped).setTask id .done)
  | .settling .unclean =>
      let attempts := if answer.late then 0 else monitor.attempts
      some ((slot.down .backoff).setTask id (.monitor { monitor with attempts } .retrying))
  | .terminating =>
      if ¬ slot.Alive monitor.child then some (slot.setTask id (.monitor monitor .terminated))
      else if answer.late then
        some ((slot.kill monitor.child).setTask id (.monitor monitor .terminated))
      else none
  | .terminated => some ((slot.down .stopped).setTask id .done)
  | .retrying =>
      let monitor := { monitor with attempts := monitor.attempts + 1 }
      if monitor.attempts > restartMaxAttempts then
        some ((slot.leaveBackoff .failed).setTask id .done)
      else
        some (slot.setTask id (.monitor monitor .sleeping))
  | .sleeping =>
      match answer.arm with
      | .awaited => some (slot.setTask id (.monitor monitor .relocking))
      | .demoted =>
          if control.leader then none
          else some ((slot.leaveBackoff .stopped).setTask id .done)
      | .shutdown => if control.shutdown then some (slot.setTask id .done) else none
  | .relocking =>
      if slot.lock = none then
        some ({ slot with lock := some id }.setTask id (.monitor monitor .relocked))
      else
        none
  | .relocked =>
      if slot.generation ≠ monitor.generation then some (slot.unlock.setTask id .done)
      else some (slot.setTask id (.monitor monitor .rechecked))
  | .rechecked =>
      if ¬ control.leader then
        some ((slot.leaveBackoff .stopped).unlock.setTask id .done)
      else
        some (slot.setTask id (.monitor monitor (.spawning .forking)))
  | .spawning pc =>
      match slot.stepSpawn monitor.port answer pc with
      | (slot, .more pc) => some (slot.setTask id (.monitor monitor (.spawning pc)))
      | (slot, .failed) => some (slot.unlock.setTask id (.monitor monitor .retrying))
      | (slot, .spawned child generation) =>
          some ((slot.unlock.setTask id
            (.monitor { monitor with child, generation } .watching)).startHealth control child
              generation)

/-- One step of `health_watch`. -/
def stepHealth (slot : Slot) (control : Control) (id : TaskId) (answer : Answer) (watch : Watch) :
    Bool → Option Slot
  | false =>
      match answer.arm with
      | .shutdown => if control.shutdown then some (slot.setTask id .done) else none
      | _ =>
          if slot.generation ≠ watch.generation ∨ slot.phase ≠ .running ∨
              slot.pid ≠ some watch.child then
            some (slot.setTask id .done)
          else
            some (slot.setTask id (.health watch true))
  | true =>
      let fails := if answer.accepts then 0 else watch.fails + 1
      if fails < healthMaxFails then some (slot.setTask id (.health { watch with fails } false))
      else if slot.generation ≠ watch.generation then some (slot.setTask id .done)
      else some ((slot.kill watch.child).setTask id .done)

/-- One action of a slot, when it is possible. -/
def step (slot : Slot) (control : Control) : SlotAction → Option Slot
  | .connect => some (slot.start (.ensure .waiting))
  | .exit child status => some (slot.ends child status)
  | .step id answer =>
      match slot.task id with
      | .ensure pc => slot.stepEnsure control id answer pc
      | .monitor monitor pc => slot.stepMonitor control id answer monitor pc
      | .health watch probing => slot.stepHealth control id answer watch probing
      | .done => none

end Slot

/-- One `icegresd` instance in process mode. -/
structure Daemon where
  control : Control
  slots : String → Slot

inductive Action where
  /-- The lease is won or lost. -/
  | lead (leader : Bool)
  | shutDown
  | slot (key : String) (action : SlotAction)

namespace Daemon

/-- The daemon starts; every slot but the main one is created on first use. -/
def initial (mainPort : Nat) (leader healthChecks : Bool) : Daemon where
  control := { leader, shutdown := false, healthChecks }
  slots key := Slot.new (if key = "main" then some mainPort else none)

def step (daemon : Daemon) : Action → Option Daemon
  | .lead leader => some { daemon with control := { daemon.control with leader } }
  | .shutDown => some { daemon with control := { daemon.control with shutdown := true } }
  | .slot key action => do
      let slot ← (daemon.slots key).step daemon.control action
      some { daemon with slots := fun other => if other = key then slot else daemon.slots other }

end Daemon

end Icegres.Icegresd
