import Stos.Kernel.Scheduler

/-!
# Waiting

Wait objects (`kernel/task/wait.c`) and the part of `sys_sigsend` (`kernel/task/syscall/sigsend.c`)
that ends a wait. `wait_on_condition_impl` gives up the processor inside its loop, so it is cut
there: `waitStart` is the code before the loop, `waitFinish` the code after it, and the test of the
loop is `waitAgain`. The array of waiters grows as needed; its storage is left out.
-/

namespace Stos.Kernel

namespace Tasks

variable (s : Tasks)

/-- `enqueue_waiter` (`wait.c:8-19`). -/
def enqueueWaiter (w waiter : Nat) : Tasks :=
  s.setWaitObj w { s.waitObj w with waiters := (s.waitObj w).waiters ++ [waiter] }

/-- `dequeue_waiter` (`wait.c:21-38`). -/
def dequeueWaiter (w waiter : Nat) : Tasks :=
  s.setWaitObj w { s.waitObj w with waiters := (s.waitObj w).waiters.erase waiter }

/-- `wait_on_condition_impl` up to its loop (`wait.c:46-49`). -/
def waitStart (w : Nat) (blockState : TaskState) : Option Tasks :=
  if s.currentTask = 0 then some s
  else
    (s.schedulerMoveTaskToState s.currentTask blockState).map fun s' =>
      s'.enqueueWaiter w s.currentTask

/-- The test of the loop (`wait.c:50`): whether `task` gives up the processor once more.
`condition` is the value that the condition would have. -/
def waitAgain (task : Nat) (blockState : TaskState) (condition : Bool) : Bool :=
  (s.task task).state = blockState && !condition

/-- `wait_on_condition_impl` after its loop (`wait.c:53-59`). -/
def waitFinish (w task : Nat) (blockState : TaskState) : Option Tasks :=
  let s := s.dequeueWaiter w task
  if (s.task task).state = blockState then s.schedulerMoveTaskToState task .running else some s

/-- `wait_wake_up` (`wait.c:70-79`). -/
def waitWakeUp (w : Nat) : Option Tasks :=
  if (s.waitObj w).wakeupAll then
    (s.waitObj w).waiters.foldlM (fun s t => s.schedulerMoveTaskToState t .waiting) s
  else
    match (s.waitObj w).waiters with
    | [] => some s
    | t :: _ => s.schedulerMoveTaskToState t .waiting

/-- `wait_alloc` (`wait.c:81-88`), which got the object at `w`. -/
def waitAlloc (w : Nat) (wakeupAll : Bool) : Tasks :=
  s.setWaitObj w { waiters := [], wakeupAll }

/-- `sigaddset` (`libc/src/signal/sigaddset.c:5-10`) on a set of pending signals. -/
def sigaddset (set : BitVec 32) (sig : Nat) : BitVec 32 := set ||| 1#32 <<< sig

/-- Recording a signal for `receiver` (`sigsend.c:13`). -/
def addPending (receiver sig : Nat) : Tasks :=
  s.modify receiver fun x => { x with sigPending := sigaddset x.sigPending sig }

/-- `sys_sigsend_impl` (`sigsend.c:8-18`). -/
def sysSigsendImpl (receiver sig : Nat) : Option Tasks :=
  let s := s.addPending receiver sig
  if (s.task receiver).state = .blocked ∨ (s.task receiver).state = .sleeping then
    s.schedulerMoveTaskToState receiver .waiting
  else some s

end Tasks

end Stos.Kernel
