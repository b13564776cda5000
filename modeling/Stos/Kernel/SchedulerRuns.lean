import Stos.Kernel.Wait

/-!
# Runs of the scheduler

What the kernel does to the queues of the scheduler, one operation at a time. All of them run with
interrupts off or under `scheduler_lock`, so a run is a sequence of operations: a timer interrupt or
an interrupt that wakes a task up falls between two of them, also between the moment at which a task
puts itself in a blocked state and the moment at which it gives up the processor.
-/

namespace Stos.Kernel

namespace Tasks

/-- A zeroed task record with some fields set, stored in the task table
(`task_allocate`, `task.c:137-190`). -/
def newTask (s : Tasks) (t : Nat) (x : Task) : Tasks :=
  { s with table := insert t s.table, task := Function.update s.task t x }

/-- After `scheduler_init` (`scheduler.c:413-431`) the idle task is the only one, and it runs. -/
structure Initial (s : Tasks) (idle : Nat) : Prop where
  address : idle ≠ 0 ∧ idle < walkLimit
  table : s.table = {idle}
  state : (s.task idle).state = .running
  links : (s.task idle).prev = 0 ∧ (s.task idle).next = 0
  idlePid : (s.task idle).pid = s.idleTaskPid
  current : s.currentTask = idle
  queues : ∀ q, s.queueHead q = 0
  waiters : ∀ w, (s.waitObj w).waiters = []

/-- A new task: everything but the `pid` is null. -/
def blankTask (pid : Nat) : Task :=
  { pid, state := .waiting, exitCode := 0, parent := 0, firstChild := 0, prevSibling := 0,
    nextSibling := 0, prev := 0, next := 0, waitingQueue := 0, childrenWaitQueue := 0,
    sigPending := 0, sigBlocked := 0 }

/-- A kernel that has just started, with the idle task at address 16. -/
def bootTasks : Tasks :=
  { table := {16}, task := fun _ => { blankTask 0 with state := .running },
    waitObj := fun _ => { waiters := [], wakeupAll := true }, queueHead := fun _ => 0,
    currentTask := 16, idleTaskPid := 0, anyChildZombieFound := 0 }

theorem bootTasks_initial : Initial bootTasks 16 :=
  ⟨by decide, rfl, rfl, ⟨rfl, rfl⟩, rfl, rfl, fun _ => rfl, fun _ => rfl⟩

/-- Every task of the table is either the running one or exactly once in the queue of its state,
and the queues are lists linked in both directions. -/
structure InPlaces (s : Tasks) (qs : Queue → List Nat) : Prop where
  dll : ∀ q, IsDll 0 (fun t => (s.task t).next) (fun t => (s.task t).prev) (s.queueHead q) (qs q)
  live : ∀ q, ∀ t ∈ qs q, t ∈ s.table
  place : ∀ t ∈ s.table,
    ((s.task t).state = .running ∧ s.currentTask = t ∧ ∀ q, t ∉ qs q) ∨
      ∃ q, (s.task t).state.queue = some q ∧ (qs q).count t = 1 ∧ ∀ q', q' ≠ q → t ∉ qs q'

/-- Every live task is in one place. -/
def EachTaskInPlace (s : Tasks) : Prop := ∃ qs, InPlaces s qs

/-- At most one task is ready to run. -/
def FewReady (s : Tasks) : Prop :=
  s.queueHead .waiting = 0 ∨ (s.task (s.queueHead .waiting)).next = 0

instance (s : Tasks) : Decidable s.FewReady := inferInstanceAs (Decidable (_ ∨ _))

end Tasks

/-- An operation of the kernel on the scheduler. -/
inductive SchedOp where
  /-- a new task `t` with record `x` is given to the scheduler -/
  | create (t : Nat) (x : Task)
  /-- a wait object is allocated at `w` -/
  | allocate (w : Nat) (wakeupAll : Bool)
  /-- the current task starts to wait on `w` -/
  | start (w : Nat) (blockState : TaskState)
  /-- the current task leaves `w` -/
  | finish (w : Nat) (blockState : TaskState)
  | wakeUp (w : Nat)
  | signal (t sig : Nat)
  /-- the current task yields, or the timer takes the processor away -/
  | reschedule

/-- The states in which tasks wait (`wait.c:67`, `132`). -/
def TaskState.Blocking (st : TaskState) : Prop := st = .blocked ∨ st = .sleeping

instance (st : TaskState) : Decidable st.Blocking := inferInstanceAs (Decidable (_ ∨ _))

namespace SchedOp

/-- What the operation does. -/
def exec (s : Tasks) : SchedOp → Option Tasks
  | create t x => (s.newTask t x).schedulerAddTask t
  | allocate w wakeupAll => some (s.waitAlloc w wakeupAll)
  | start w blockState => s.waitStart w blockState
  | finish w blockState => s.waitFinish w s.currentTask blockState
  | wakeUp w => s.waitWakeUp w
  | signal t sig => s.sysSigsendImpl t sig
  | reschedule => s.schedulerReschedule

/-- When the operation can happen: memory of a new task or wait object is not in use, a new task
has a `pid` of its own, the idle task never waits, and signals go to tasks of the table. -/
def Allowed (s : Tasks) : SchedOp → Prop
  | create t x =>
    (t ∉ s.table ∧ t ≠ 0 ∧ t < Tasks.walkLimit) ∧ (x.prev = 0 ∧ x.next = 0) ∧
      ∀ u ∈ s.table, (s.task u).pid ≠ x.pid
  | allocate w _ => (s.waitObj w).waiters = []
  | start _ blockState =>
    blockState.Blocking ∧ (s.task s.currentTask).pid ≠ s.idleTaskPid
  | finish _ blockState => blockState.Blocking
  | wakeUp _ => True
  | signal t _ => t ∈ s.table
  | reschedule => True

instance (s : Tasks) : DecidablePred (Allowed s)
  | create _ _ => inferInstanceAs (Decidable ((_ ∧ _ ∧ _) ∧ (_ ∧ _) ∧ _))
  | allocate _ _ => inferInstanceAs (Decidable (_ = _))
  | start _ _ => inferInstanceAs (Decidable (_ ∧ _))
  | finish _ blockState => inferInstanceAs (Decidable blockState.Blocking)
  | wakeUp _ => inferInstanceAs (Decidable True)
  | signal _ _ => inferInstanceAs (Decidable (_ ∈ _))
  | reschedule => inferInstanceAs (Decidable True)

/-- The processor is given away only while at most one task is ready. -/
def FewReady (s : Tasks) : SchedOp → Prop
  | reschedule => s.FewReady
  | _ => True

/-- The state after some operations, if each is allowed and returns. -/
def execAll : List SchedOp → Tasks → Option Tasks
  | [], s => some s
  | op :: ops, s => if op.Allowed s then (op.exec s).bind (execAll ops) else none

end SchedOp

namespace Tasks

/-- One operation. -/
def SchedStep (s s' : Tasks) : Prop := ∃ op : SchedOp, op.Allowed s ∧ op.exec s = some s'

/-- One operation that gives the processor away only while at most one task is ready. -/
def FewReadyStep (s s' : Tasks) : Prop :=
  ∃ op : SchedOp, op.Allowed s ∧ op.FewReady s ∧ op.exec s = some s'

/-- Any number of operations. -/
def SchedRun : Tasks → Tasks → Prop := Relation.ReflTransGen SchedStep

/-- Any number of operations that give the processor away only while at most one task is ready. -/
def FewReadyRun : Tasks → Tasks → Prop := Relation.ReflTransGen FewReadyStep

end Tasks

end Stos.Kernel
