import Stos.Kernel.SchedulerRuns

/-!
# Waiting tasks over time

Two views of a wait object: the tasks that wake-ups of a queue-mode object make runnable, and one
call of `wait_on_condition_impl` from its start to its return while other tasks run.
-/

namespace Stos.Kernel

namespace Tasks

/-! ## Wake-ups of a queue -/

/-- The task waits. -/
def IsBlocked (s : Tasks) (t : Nat) : Prop := (s.task t).state.Blocking

instance (s : Tasks) (t : Nat) : Decidable (s.IsBlocked t) :=
  inferInstanceAs (Decidable (s.task t).state.Blocking)

/-- The tasks that wait on `w`, in the order in which they started to. -/
def blockedWaiters (s : Tasks) (w : Nat) : List Nat :=
  (s.waitObj w).waiters.filter fun t => s.IsBlocked t

/-- The tasks that wait on `w` in `s` and are ready in `s'`. -/
def madeRunnable (w : Nat) (s s' : Tasks) : List Nat :=
  (s.blockedWaiters w).filter fun t => (s'.task t).state = .waiting

/-- If tasks wait on `w` then the first task in the queue of `w` is one of them. -/
def FirstBlocked (w : Nat) (s : Tasks) : Prop :=
  s.blockedWaiters w ≠ [] → ∃ t ∈ (s.waitObj w).waiters.head?, s.IsBlocked t

/-- What happens between wake-ups of `w`: the current task starts to wait on `w` or leaves it, or
the processor goes from task to task. Only wake-ups of `w` unblock the tasks that wait on it, a
task does not wait anew while it is registered in `w`, and a task that waits does not get the
processor. -/
inductive QueueStep (w : Nat) (s : Tasks) : Tasks → Prop
  | start {blockState : TaskState} {s' : Tasks} : blockState.Blocking →
      s.currentTask ∉ (s.waitObj w).waiters → s.waitStart w blockState = some s' → QueueStep w s s'
  | finish {blockState : TaskState} {s' : Tasks} : blockState.Blocking →
      s.waitFinish w s.currentTask blockState = some s' → QueueStep w s s'
  | schedule {s' : Tasks} : s'.waitObj w = s.waitObj w →
      (∀ t ∈ (s.waitObj w).waiters, s'.IsBlocked t ↔ s.IsBlocked t) →
      (s'.currentTask = s.currentTask ∨ ¬ s.IsBlocked s'.currentTask) → s'.currentTask ≠ 0 →
      QueueStep w s s'

/-- `k` wake-ups of `w`, each of them in a state that meets `ok`, make the tasks in `woken`
runnable, in this order. -/
inductive QueueRun (w : Nat) (ok : Tasks → Prop) (s : Tasks) : Nat → List Nat → Tasks → Prop
  | refl : QueueRun w ok s 0 [] s
  | step {k : Nat} {woken : List Nat} {s1 s2 : Tasks} : QueueRun w ok s k woken s1 →
      QueueStep w s1 s2 → QueueRun w ok s k woken s2
  | wakeUp {k : Nat} {woken : List Nat} {s1 s2 : Tasks} : QueueRun w ok s k woken s1 → ok s1 →
      s1.waitWakeUp w = some s2 → QueueRun w ok s (k + 1) (woken ++ madeRunnable w s1 s2) s2

/-- Tasks wait on `w`, a queue-mode object in which every task is registered once at most. -/
structure QueueOk (s : Tasks) (w : Nat) : Prop where
  mode : (s.waitObj w).wakeupAll = false
  nodup : (s.waitObj w).waiters.Nodup
  ne_zero : ∀ t ∈ (s.waitObj w).waiters, t ≠ 0
  current : s.currentTask ≠ 0

/-! ## One call of `wait_on_condition_impl` -/

/-- A signal is pending for `t` and not blocked (`sighandler.c:77`). -/
def Deliverable (s : Tasks) (t : Nat) : Prop := (s.task t).sigPending &&& ~~~(s.task t).sigBlocked ≠ 0

instance (s : Tasks) (t : Nat) : Decidable (s.Deliverable t) := inferInstanceAs (Decidable (_ ≠ _))

/-- The fixed data of a call: the object, the task that waits, its blocked state, and the condition,
which may depend on all data of the kernel. -/
structure WaitArgs (E : Type) where
  w : Nat
  task : Nat
  blockState : TaskState
  condition : Tasks → E → Bool

variable {E : Type} (a : WaitArgs E)

/-- What others do while the task has not got the processor: wake-ups, signals and any other change
of tasks and data, except that tasks enter and leave wait objects only by themselves. -/
def Others (x y : Tasks × E) : Prop :=
  (y.1.waitObj a.w).waiters.count a.task = (x.1.waitObj a.w).waiters.count a.task

/-- Whether the loop goes round once more in a state. -/
def Again (x : Tasks × E) : Prop :=
  x.1.waitAgain a.task a.blockState (a.condition x.1 x.2) = true

/-- The loop (`wait.c:50-52`) from a first test on: the states in which it is tested, of which only
the last is not followed by `scheduler_yield`. -/
inductive WaitLoop : Tasks × E → List (Tasks × E) → Tasks × E → Prop
  | leave {x : Tasks × E} : ¬ Again a x → WaitLoop x [x] x
  | yield {x y z : Tasks × E} {tests : List (Tasks × E)} : Again a x → Others a x y →
      WaitLoop y tests z → WaitLoop x (x :: tests) z

/-- A call in state `s` by the current task, which tests its loop in the states of `tests`, for the
last time in state `z`, and returns in state `s'`. Others may act between the start and the first
test. No one does between the last test and the return. -/
structure WaitCall (s : Tasks) (tests : List (Tasks × E)) (z : Tasks × E) (s' : Tasks) : Prop where
  caller : s.currentTask = a.task
  start : ∃ s1 e, s.waitStart a.w a.blockState = some s1 ∧
    ∃ y, Others a (s1, e) y ∧ WaitLoop a y tests z
  finish : z.1.waitFinish a.w a.task a.blockState = some s'

/-- The wait has not been ended by others, or with a reason: the condition is true or a signal can
be delivered. -/
def Reasoned (x : Tasks × E) : Prop :=
  (x.1.task a.task).state = a.blockState ∨ a.condition x.1 x.2 = true ∨ x.1.Deliverable a.task

end Tasks

end Stos.Kernel
