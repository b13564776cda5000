import Stos.Kernel.Wait

/-!
# Processes

Creating, ending and waiting for tasks: `task_fork`, `task_exit` and `task_wait`
(`kernel/task/task.c`) and `sys_wait` (`kernel/task/syscall/wait.c`), as far as tasks, wait objects
and the tree of processes are concerned. `task_wait` gives up the processor inside
`wait_on_condition`, so it is cut there: `taskWaitSelect` is the part before, `taskWaitEnd` a test
of the condition and, if that ends the wait, the part after. Walks along sibling links that never
end are `none`.
-/

namespace Stos.Kernel

namespace Tasks

variable (s : Tasks)

/-- The first child of `parent` that meets `p`, or 0. -/
def findChildWhere (parent : Nat) (p : Task → Bool) : Option Nat :=
  dllFind 0 (fun t => (s.task t).nextSibling) (fun t => p (s.task t)) (walkLimit + 1)
    (s.task parent).firstChild

/-- The children of `parent`. -/
def childList (parent : Nat) : List Nat :=
  dllNodes 0 (fun t => (s.task t).nextSibling) walkLimit (s.task parent).firstChild

/-! ## Creating tasks -/

/-- A zeroed task record in the task table with its own wait objects (`task_allocate`,
`task.c:137-190`). -/
def taskAllocate (t pid waitingQueue childrenWaitQueue : Nat) : Tasks :=
  let s := { s with
    table := insert t s.table
    task := Function.update s.task t
      { pid, state := .waiting, exitCode := 0, parent := 0, firstChild := 0, prevSibling := 0,
        nextSibling := 0, prev := 0, next := 0, waitingQueue, childrenWaitQueue, sigPending := 0,
        sigBlocked := 0 } }
  (s.waitAlloc waitingQueue true).waitAlloc childrenWaitQueue true

/-- Putting a new task at the end of the children of `parent` (`task.c:736-748`; the same code is in
`task_create`, `task.c:276-293`). -/
def attachChild (parent child : Nat) : Option Tasks :=
  let s := s.setParent child parent
  if (s.task parent).firstChild = 0 then some (s.setFirstChild parent child)
  else
    (dllLast 0 (fun t => (s.task t).nextSibling) walkLimit (s.task parent).firstChild).map
      fun last => (s.setNextSibling last child).setPrevSibling child last

/-- `task_fork` (`task.c:626-753`), which got memory for the task at `t`. -/
def taskFork (t pid waitingQueue childrenWaitQueue : Nat) : Option Tasks :=
  let parent := s.currentTask
  let s := s.taskAllocate t pid waitingQueue childrenWaitQueue
  let s := s.modify t fun x => { x with sigBlocked := (s.task parent).sigBlocked }
  (s.attachChild parent t).bind fun s => (s.setState t .waiting).schedulerAddTask t

/-! ## Ending tasks -/

/-- The loop over the children in `task_exit` (`task.c:489-520`) from `child` on. -/
def exitChildren (s : Tasks) (current : Nat) : Nat → Nat → Option Tasks
  | 0, _ => none
  | n + 1, child =>
    if child = 0 then some s
    else
      let nextChild := (s.task child).nextSibling
      if (s.task child).state = .zombie then
        (s.schedulerMoveTaskToState child .dead).bind fun s => exitChildren s current n nextChild
      else
        exitChildren (s.setParent child (s.task current).parent) current n nextChild

/-- `task_exit` (`task.c:454-526`) up to `scheduler_yield`. -/
def taskExit (exitCode : Int) : Option Tasks :=
  let current := s.currentTask
  let s := s.modify current fun x => { x with exitCode := exitCode }
  (s.schedulerMoveTaskToState current .zombie).bind fun s =>
    (s.waitWakeUp (s.task current).waitingQueue).bind fun s =>
      (if (s.task current).parent ≠ 0 then
        s.waitWakeUp (s.task (s.task current).parent).childrenWaitQueue else some s).bind fun s =>
          s.exitChildren current (walkLimit + 1) (s.task current).firstChild

/-! ## Waiting for children -/

/-- What a call of `task_wait` waits for: a child that it has found, or any child. -/
inductive WaitSel where
  | child (pid c : Nat)
  | any
  deriving DecidableEq, Repr

/-- `task_wait` up to `wait_on_condition` (`task.c:757-776`): a result, or what to wait for. -/
def taskWaitSelect (pid : Int) : Option (Int ⊕ WaitSel) :=
  let parent := s.currentTask
  if (s.task parent).firstChild = 0 then some (.inl (-1))
  else if 0 ≤ pid then
    (s.findChildWhere parent fun x => x.pid = pid.toNat).map fun c =>
      if c = 0 then .inl (-2) else .inr (.child pid.toNat c)
  else some (.inr .any)

/-- The wait object on which `parent` waits (`task.c:785`, `813`). -/
def waitSelObj (parent : Nat) : WaitSel → Nat
  | .child _ c => (s.task c).waitingQueue
  | .any => (s.task parent).childrenWaitQueue

/-- `task_wait_for_child` (`task.c:540-570`). -/
def taskWaitForChild (pid : Nat) : Option Bool :=
  (s.findChildWhere s.currentTask fun x => x.pid = pid).map fun c =>
    c ≠ 0 && (s.task c).state = .zombie

/-- `task_wait_for_any_child` (`task.c:575-599`), which notes the child in a static variable. -/
def taskWaitForAnyChild : Option (Bool × Tasks) :=
  (s.findChildWhere s.currentTask fun x => x.state = .zombie).map fun c =>
    if c = 0 then (false, s) else (true, { s with anyChildZombieFound := c })

/-- The condition of a wait, with its stores. -/
def waitSelCondition : WaitSel → Option (Bool × Tasks)
  | .child pid _ => (s.taskWaitForChild pid).map fun b => (b, s)
  | .any => s.taskWaitForAnyChild

/-- Taking `child` out of the forward links (`task.c:792-796`, `822-826`). -/
def unlinkForward (parent child : Nat) : Tasks :=
  if (s.task child).prevSibling ≠ 0 then
    s.setNextSibling (s.task child).prevSibling (s.task child).nextSibling
  else s.setFirstChild parent (s.task child).nextSibling

/-- Taking `child` out of the backward links (`task.c:797-799`, `827-829`). -/
def unlinkBackward (child : Nat) : Tasks :=
  if (s.task child).nextSibling ≠ 0 then
    s.setPrevSibling (s.task child).nextSibling (s.task child).prevSibling
  else s

/-- Unlinking and marking a child (`task.c:792-803`, `822-832`). -/
def reapChild (parent child : Nat) : Tasks :=
  let s := (s.unlinkForward parent child).unlinkBackward child
  ((s.setPrevSibling child 0).setNextSibling child 0).setState child .dead

/-- What `task_wait` reports: a task, its `pid` and its exit code. -/
structure Report where
  child : Nat
  pid : Nat
  exitCode : Int
  deriving DecidableEq, Repr

/-- The test of the loop in `wait_on_condition`: whether it ends the wait, after the stores of the
condition. -/
def taskWaitTest (sel : WaitSel) : Option (Bool × Tasks) :=
  if (s.task s.currentTask).state = .blocked then s.waitSelCondition sel else some (true, s)

/-- The task that `task_wait` reports. -/
def waitSelTask : WaitSel → Nat
  | .child _ c => c
  | .any => s.anyChildZombieFound

/-- One test in `wait_on_condition` on `w` and, unless the current task has to wait on, the rest of
`task_wait` (`task.c:788-804`, `817-834`). -/
def taskWaitEnd (w : Nat) (sel : WaitSel) : Option (Option (Tasks × Report)) :=
  let parent := s.currentTask
  (s.taskWaitTest sel).bind fun (ended, s) =>
    if ended then
      (s.waitFinish w parent .blocked).map fun s =>
        let c := s.waitSelTask sel
        some (s.reapChild parent c,
          { child := c, pid := (s.task c).pid, exitCode := (s.task c).exitCode })
    else some none

/-- `task_wait` if it does not have to give up the processor: its result and the exit code that it
stores. `none` if it has to. -/
def taskWaitNow (pid : Int) : Option (Tasks × Int × Option Int) :=
  (s.taskWaitSelect pid).bind fun
    | .inl code => some (s, code, none)
    | .inr sel =>
      let w := s.waitSelObj s.currentTask sel
      (s.waitStart w .blocked).bind fun s => (s.taskWaitEnd w sel).bind fun r =>
        r.map fun (s, r) => (s, (r.pid : Int), some r.exitCode)

/-! ## `sys_wait` -/

/-- `find_child` (`syscall/wait.c:8-18`). -/
def findChild (parent : Nat) (pid : Int) : Option Nat :=
  (s.findChildWhere parent fun x => x.pid = (pid % 2 ^ 32).toNat).map fun c =>
    if c ≠ 0 ∧ (s.task c).state = .zombie then c else 0

/-- `find_any_zombie_child` (`syscall/wait.c:20-27`). -/
def findAnyZombieChild (parent : Nat) : Option Nat :=
  s.findChildWhere parent fun x => x.state = .zombie

/-- `-ECHILD`. -/
def noChild : Int := -2

/-- `-ENOTSUP`. -/
def notSupported : Int := -14

/-- What `sys_wait` makes of the result of `task_wait` (`syscall/wait.c:60-66`). -/
def sysWaitReap (pid : Int) : Option (Tasks × Int × Option Int) :=
  (s.taskWaitNow pid).map fun (s, reaped, exitCode) =>
    (s, if reaped > 0 then reaped else notSupported, exitCode)

/-- `sys_wait` (`syscall/wait.c:29-67`) with `WNOHANG`. -/
def sysWaitNohang (pid : Int) : Option (Tasks × Int × Option Int) :=
  let curr := s.currentTask
  if curr = 0 then some (s, notSupported, none)
  else if pid > 0 then
    (s.findChild curr pid).bind fun child =>
      if child = 0 then some (s, noChild, none)
      else if (s.task child).state ≠ .zombie then some (s, 0, none)
      else s.sysWaitReap pid
  else if (s.task curr).firstChild = 0 then some (s, noChild, none)
  else
    (s.findAnyZombieChild curr).bind fun zombie =>
      if zombie = 0 then some (s, 0, none) else s.sysWaitReap pid

end Tasks

end Stos.Kernel
