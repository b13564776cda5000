import Stos.Kernel.Task
import Stos.Misc.Dll

/-!
# The scheduler

The queues and the choice of the next task of `kernel/task/scheduler.c`. The lists of tasks are
searched for their last task; `none` stands for a search that never ends, and for `abort()`. The
counters of `scheduler_stats` and the switch of stacks and page directories are left out.
-/

namespace Stos.Kernel

namespace Tasks

variable (s : Tasks)

/-- `if (t != NULL) t->next = v`. -/
def linkNext (t v : Nat) : Tasks := if t ≠ 0 then s.setNext t v else s

/-- `if (t != NULL) t->prev = v`. -/
def linkPrev (t v : Nat) : Tasks := if t ≠ 0 then s.setPrev t v else s

/-- `remove_from_queue` (`scheduler.c:34-65`). -/
def removeFromQueue (t : Nat) : Tasks :=
  if t = 0 then s
  else
    let s := s.linkNext (s.task t).prev (s.task t).next
    let s := s.linkPrev (s.task t).next (s.task t).prev
    let s :=
      { s with
        queueHead := fun q => if s.queueHead q = t then (s.task t).next else s.queueHead q }
    (s.setPrev t 0).setNext t 0

/-- The last task of queue `q`, which is not empty (`scheduler.c:102-105`, `267-270`). -/
def lastTask (q : Queue) : Option Nat :=
  dllLast 0 (fun t => (s.task t).next) walkLimit (s.queueHead q)

/-- `add_to_queue` (`scheduler.c:71-110`). -/
def addToQueue (t : Nat) : Option Tasks :=
  if t = 0 then some s
  else
    match (s.task t).state.queue with
    | none => some s
    | some q =>
      if s.queueHead q = 0 then some (((s.setHead q t).setPrev t 0).setNext t 0)
      else (s.lastTask q).map fun last => ((s.setNext last t).setPrev t last).setNext t 0

/-- `scheduler_move_task_to_state` (`scheduler.c:112-160`). -/
def schedulerMoveTaskToState (t : Nat) (newState : TaskState) : Option Tasks :=
  if t = 0 then some s else ((s.removeFromQueue t).setState t newState).addToQueue t

/-- `scheduler_add_task` (`scheduler.c:353-356`). -/
def schedulerAddTask (t : Nat) : Option Tasks := s.schedulerMoveTaskToState t .waiting

/-- `task_destroy` (`task.c:301-368`) as far as the task table is concerned. -/
def taskDestroy (t : Nat) : Tasks := { s with table := s.table.erase t }

/-- The loop of `cleanup_dead_tasks` (`scheduler.c:165-182`) from `zombie` on. -/
def cleanupFrom (s : Tasks) : Nat → Nat → Option Tasks
  | 0, _ => none
  | n + 1, zombie =>
    if zombie = 0 then some s
    else
      let next := (s.task zombie).next
      let s :=
        if (s.task zombie).state = .dead then (s.removeFromQueue zombie).taskDestroy zombie else s
      cleanupFrom s n next

/-- `cleanup_dead_tasks` (`scheduler.c:165-182`). -/
def cleanupDeadTasks : Option Tasks :=
  s.cleanupFrom (walkLimit + 1) (s.queueHead .zombie)

/-- Moving the idle task, the first in the queue, to its end (`scheduler.c:265-275`). -/
def rotateIdle (first last : Nat) : Tasks :=
  let s := (s.setNext last first).setPrev first last
  let s := (s.setHead .waiting (s.task first).next).setNext first 0
  s.setPrev (s.queueHead .waiting) 0

/-- `scheduler_get_next_task` (`scheduler.c:230-281`): the task to run, 0 for `NULL`. After the
idle task has been moved to the end of the queue the function calls itself. -/
def schedulerGetNextTask (s : Tasks) : Nat → Option (Nat × Tasks)
  | 0 => none
  | n + 1 =>
    let first := s.queueHead .waiting
    if first = 0 then some (0, s)
    else if (s.task first).pid ≠ s.idleTaskPid then
      some (first, (s.setHead .waiting (s.task first).next).setNext first 0)
    else if (s.task first).next = 0 then
      if (s.task s.currentTask).state = .running ∨ (s.task s.currentTask).state = .waiting then
        some (0, s)
      else some (first, ((s.setHead .waiting 0).setNext first 0).setPrev first 0)
    else
      match s.lastTask .waiting with
      | none => none
      | some last => schedulerGetNextTask (s.rotateIdle first last) n

/-- A zombie or dead task must be left even if there is nothing but the idle task
(`scheduler.c:294-314`). -/
def forceIdle : Option (Nat × Tasks) :=
  let nextTask := s.queueHead .waiting
  if nextTask = 0 then none
  else if (s.task nextTask).pid = s.idleTaskPid then
    let s := s.setHead .waiting (s.task nextTask).next
    let s := s.linkPrev (s.queueHead .waiting) 0
    some (nextTask, (s.setNext nextTask 0).setPrev nextTask 0)
  else some (nextTask, s)

/-- The last part of `scheduler_reschedule` (`scheduler.c:320-337`). -/
def switchTo (oldTask nextTask : Nat) : Option Tasks :=
  let s := if (s.task oldTask).state = .running then s.setState oldTask .waiting else s
  let s := s.setState nextTask .running
  let s? := if (s.task oldTask).state = .waiting then s.addToQueue oldTask else some s
  s?.map fun s => { s with currentTask := nextTask }

/-- `scheduler_reschedule` (`scheduler.c:287-338`). -/
def schedulerReschedule : Option Tasks :=
  match s.cleanupDeadTasks with
  | none => none
  | some s =>
    let oldTask := s.currentTask
    match s.schedulerGetNextTask walkLimit with
    | none => none
    | some (nextTask, s) =>
      if (s.task oldTask).state = .zombie ∨ (s.task oldTask).state = .dead then
        if nextTask = 0 then
          match s.forceIdle with
          | none => none
          | some (nextTask, s) => s.switchTo oldTask nextTask
        else s.switchTo oldTask nextTask
      else if nextTask = 0 then some s
      else s.switchTo oldTask nextTask

end Tasks

end Stos.Kernel
