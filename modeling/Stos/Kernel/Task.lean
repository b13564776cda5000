import Mathlib

/-!
# Tasks

The fields of `task_t` (`kernel/task/task.h`) that scheduling, waiting and the process tree use,
and the static data of `task.c` and `scheduler.c`. Tasks and wait objects are named by their
addresses, with 0 for `NULL`.
-/

namespace Stos.Kernel

open Function

/-- `task_state_t` (`task.h:17-30`). -/
inductive TaskState where
  | waiting
  | running
  | blocked
  | sleeping
  | zombie
  | dead
  deriving DecidableEq, Repr

/-- The queues of `scheduler.c:19-22`. -/
inductive Queue where
  | waiting
  | blocked
  | sleeping
  | zombie
  deriving DecidableEq, Repr

/-- The queue for tasks of a state (`scheduler.c:75-94`). -/
def TaskState.queue : TaskState → Option Queue
  | .waiting => some .waiting
  | .blocked => some .blocked
  | .sleeping => some .sleeping
  | .zombie => some .zombie
  | .running => none
  | .dead => none

/-- `wait_obj_t` (`wait.h:10-20`) with the array of waiters as a list. -/
structure WaitObj where
  waiters : List Nat
  wakeupAll : Bool
  deriving DecidableEq, Repr

/-- `task_t`. -/
structure Task where
  pid : Nat
  state : TaskState
  exitCode : Int
  parent : Nat
  firstChild : Nat
  prevSibling : Nat
  nextSibling : Nat
  prev : Nat
  next : Nat
  waitingQueue : Nat
  childrenWaitQueue : Nat
  sigPending : BitVec 32
  sigBlocked : BitVec 32
  deriving DecidableEq, Repr

/-- All tasks, the wait objects, and the static data of `scheduler.c` and `task.c`. -/
structure Tasks where
  /-- the tasks in the array `tasks` -/
  table : Finset Nat
  task : Nat → Task
  waitObj : Nat → WaitObj
  /-- the first task of each queue -/
  queueHead : Queue → Nat
  currentTask : Nat
  idleTaskPid : Nat
  anyChildZombieFound : Nat

namespace Tasks

variable (s : Tasks)

/-- Storing to fields of task `t`. -/
def modify (t : Nat) (f : Task → Task) : Tasks :=
  { s with task := update s.task t (f (s.task t)) }

/-- `task->prev = v`. -/
def setPrev (t v : Nat) : Tasks := s.modify t fun x => { x with prev := v }

/-- `task->next = v`. -/
def setNext (t v : Nat) : Tasks := s.modify t fun x => { x with next := v }

/-- `task->state = v`. -/
def setState (t : Nat) (v : TaskState) : Tasks :=
  s.modify t fun x => { x with state := v }

/-- `task->parent = v`. -/
def setParent (t v : Nat) : Tasks := s.modify t fun x => { x with parent := v }

/-- `task->first_child = v`. -/
def setFirstChild (t v : Nat) : Tasks := s.modify t fun x => { x with firstChild := v }

/-- `task->prev_sibling = v`. -/
def setPrevSibling (t v : Nat) : Tasks :=
  s.modify t fun x => { x with prevSibling := v }

/-- `task->next_sibling = v`. -/
def setNextSibling (t v : Nat) : Tasks :=
  s.modify t fun x => { x with nextSibling := v }

/-- Storing to the first task of queue `q`. -/
def setHead (q : Queue) (t : Nat) : Tasks :=
  { s with queueHead := update s.queueHead q t }

/-- Storing to wait object `w`. -/
def setWaitObj (w : Nat) (o : WaitObj) : Tasks :=
  { s with waitObj := update s.waitObj w o }

/-- The number of addresses. A walk along more links than this goes in circles. -/
def walkLimit : Nat := 2 ^ 32

/-! ## Fields after a store -/

section Stores

variable (t u v : Nat) (f : Task → Task) (q : Queue) (st : TaskState)

theorem modify_task : (s.modify t f).task u = if u = t then f (s.task t) else s.task u :=
  update_apply ..

@[simp] theorem modify_table : (s.modify t f).table = s.table := rfl
@[simp] theorem modify_waitObj : (s.modify t f).waitObj = s.waitObj := rfl
@[simp] theorem modify_queueHead : (s.modify t f).queueHead = s.queueHead := rfl
@[simp] theorem modify_currentTask : (s.modify t f).currentTask = s.currentTask := rfl
@[simp] theorem modify_idleTaskPid : (s.modify t f).idleTaskPid = s.idleTaskPid := rfl
@[simp] theorem setHead_table : (s.setHead q t).table = s.table := rfl
@[simp] theorem setHead_task : (s.setHead q t).task = s.task := rfl
@[simp] theorem setHead_waitObj : (s.setHead q t).waitObj = s.waitObj := rfl
@[simp] theorem setHead_currentTask : (s.setHead q t).currentTask = s.currentTask := rfl
@[simp] theorem setHead_idleTaskPid : (s.setHead q t).idleTaskPid = s.idleTaskPid := rfl

theorem setWaitObj_waitObj (w w' : Nat) (o : WaitObj) :
    (s.setWaitObj w o).waitObj w' = if w' = w then o else s.waitObj w' :=
  update_apply ..

/-- Storing what is there. -/
theorem modify_eq_self (h : f (s.task t) = s.task t) : s.modify t f = s := by
  unfold modify
  rw [h, update_eq_self]

end Stores

/-- A field after a store to a task. -/
theorem modify_field {α : Type} (g : Task → α) (s : Tasks) (t u : Nat) (f : Task → Task) :
    g ((s.modify t f).task u) = if u = t then g (f (s.task t)) else g (s.task u) := by
  rw [modify_task, apply_ite g]

theorem modify_field_same {α : Type} (g : Task → α) (s : Tasks) (t u : Nat) {f : Task → Task}
    (hf : ∀ x, g (f x) = g x) : g ((s.modify t f).task u) = g (s.task u) := by
  rw [modify_field g]
  split
  · next h => rw [hf, h]
  · rfl

end Tasks

end Stos.Kernel
