import Stos.Kernel.Process
import Stos.Kernel.SchedulerRuns

/-!
# Runs of processes

Sequences of forks, exits, waits and destructions of tasks, with any amount of scheduling in
between, and what they should do to the tree of processes.
-/

namespace Stos.Kernel

open Function

/-- The tasks, with the history that the statements about them need: the tasks that have called
`task_exit`, those that `task_wait` has marked for destruction, and the calls of `task_wait` that
have not returned, each with its wait object. -/
structure Processes where
  tasks : Tasks
  exited : Finset Nat
  reaped : Finset Nat
  waiting : Nat → Option (Nat × Tasks.WaitSel)

namespace Processes

open Tasks

variable (σ : Processes)

/-- The tasks that are neither destroyed nor marked for it. -/
def live : Finset Nat := σ.tasks.table \ σ.reaped

/-- The tasks that have not exited. -/
def running : Finset Nat := σ.live \ σ.exited

/-- The current task can start an operation: it has not exited and is not inside `task_wait`. -/
def Ready : Prop :=
  σ.tasks.currentTask ∈ σ.running ∧ σ.waiting σ.tasks.currentTask = none

/-- The part of a task that belongs to the tree of processes, and what `task_wait` reports. -/
def familyOf (x : Task) : Nat × Nat × Nat × Nat × Nat × Int :=
  (x.parent, x.firstChild, x.prevSibling, x.nextSibling, x.pid, x.exitCode)

/-- Scheduling, waiting on other objects, wake-ups and signals: neither the tree nor the table
changes, no task becomes a zombie, and the processor goes to a task that has not exited. -/
structure OtherStep (σ : Processes) (s' : Tasks) : Prop where
  table : s'.table = σ.tasks.table
  family : ∀ t, familyOf (s'.task t) = familyOf (σ.tasks.task t)
  zombie : ∀ t, (s'.task t).state = .zombie → (σ.tasks.task t).state = .zombie
  current : s'.currentTask = σ.tasks.currentTask ∨ s'.currentTask ∈ σ.running

/-- The kinds of steps; the end of a wait has its report. -/
inductive Event where
  | fork
  | exit
  | waitStart
  | waitEnd (sel : WaitSel) (r : Report)
  | destroy
  | other

/-- One step. -/
inductive Step (σ : Processes) : Event → Processes → Prop
  | fork {t pid waitingQueue childrenWaitQueue : Nat} {s' : Tasks} : σ.Ready →
      t ∉ σ.tasks.table ∧ t ≠ 0 ∧ t < walkLimit →
      σ.tasks.taskFork t pid waitingQueue childrenWaitQueue = some s' →
      Step σ .fork { σ with tasks := s' }
  | exit {exitCode : Int} {s' : Tasks} : σ.Ready → σ.tasks.taskExit exitCode = some s' →
      Step σ .exit { σ with tasks := s', exited := insert σ.tasks.currentTask σ.exited }
  | waitStart {pid : Int} {sel : WaitSel} {s' : Tasks} : σ.Ready →
      σ.tasks.taskWaitSelect pid = some (.inr sel) →
      σ.tasks.waitStart (σ.tasks.waitSelObj σ.tasks.currentTask sel) .blocked = some s' →
      Step σ .waitStart { σ with
        tasks := s'
        waiting := update σ.waiting σ.tasks.currentTask
          (some (σ.tasks.waitSelObj σ.tasks.currentTask sel, sel)) }
  | waitEnd {w : Nat} {sel : WaitSel} {s' : Tasks} {r : Report} :
      σ.waiting σ.tasks.currentTask = some (w, sel) →
      σ.tasks.taskWaitEnd w sel = some (some (s', r)) →
      Step σ (.waitEnd sel r) { σ with
        tasks := s'
        reaped := insert r.child σ.reaped
        waiting := update σ.waiting σ.tasks.currentTask none }
  | destroy {t : Nat} : t ∈ σ.reaped →
      Step σ .destroy { σ with
        tasks := σ.tasks.taskDestroy t
        exited := σ.exited.erase t
        reaped := σ.reaped.erase t }
  | other {s' : Tasks} : OtherStep σ s' → Step σ .other { σ with tasks := s' }

/-- A kernel that has just started has one task, without a family. -/
structure Initial (σ : Processes) (idle : Nat) : Prop where
  tasks : Tasks.Initial σ.tasks idle
  parent : (σ.tasks.task idle).parent = 0
  children : (σ.tasks.task idle).firstChild = 0
  history : σ.exited = ∅ ∧ σ.reaped = ∅ ∧ ∀ t, σ.waiting t = none

/-! ## Reports of `task_wait` -/

/-- When the current task ends its wait, the child that it has selected is a zombie; if it waits
for any child, it is still in its blocked state, so that the condition looks for a zombie now, or
the child noted last is a zombie among its children. -/
def WaitFounded : WaitSel → Prop
  | .child _ c => (σ.tasks.task c).state = .zombie
  | .any => (σ.tasks.task σ.tasks.currentTask).state = .blocked ∨
      σ.tasks.anyChildZombieFound ∈ σ.tasks.childList σ.tasks.currentTask ∧
        (σ.tasks.task σ.tasks.anyChildZombieFound).state = .zombie

/-- The report is about a child of the caller that is selected, has exited and has not been
reported before, with its own exit code, and the child is gone afterwards. -/
structure ReportOk (σ : Processes) (sel : WaitSel) (r : Report) (σ' : Processes) : Prop where
  child : r.child ∈ σ.tasks.childList σ.tasks.currentTask
  parent : (σ.tasks.task r.child).parent = σ.tasks.currentTask
  selected : ∀ pid c, sel = .child pid c → r.pid = pid
  zombie : (σ.tasks.task r.child).state = .zombie
  pid : r.pid = (σ.tasks.task r.child).pid
  exitCode : r.exitCode = (σ.tasks.task r.child).exitCode
  fresh : r.child ∉ σ.reaped
  gone : r.child ∈ σ'.reaped ∧ (σ'.tasks.task r.child).state = .dead ∧
    r.child ∉ σ'.tasks.childList σ.tasks.currentTask

/-- A wait that ends is founded. -/
def Event.Founded : Event → Prop
  | .waitEnd sel _ => σ.WaitFounded sel
  | _ => True

/-- Runs in which all waits that end are founded. -/
def FoundedRun : Processes → Processes → Prop :=
  Relation.ReflTransGen fun σ σ' => ∃ e, Step σ e σ' ∧ e.Founded σ

/-! ## The tree -/

/-- The child lists are linked in both directions, a task is in a child list exactly if it is in
that of its parent, and a parent is a task. -/
structure FamilyTree (σ : Processes) : Prop where
  lists : ∀ p ∈ σ.live, IsDll 0 (fun t => (σ.tasks.task t).nextSibling)
    (fun t => (σ.tasks.task t).prevSibling) (σ.tasks.task p).firstChild (σ.tasks.childList p)
  tasks : ∀ p ∈ σ.live, ∀ c ∈ σ.tasks.childList p, c ∈ σ.live
  iff : ∀ p ∈ σ.live, ∀ c ∈ σ.live,
    c ∈ σ.tasks.childList p ↔ (σ.tasks.task c).parent = p
  parent : ∀ c ∈ σ.live, (σ.tasks.task c).parent = 0 ∨ (σ.tasks.task c).parent ∈ σ.live

/-- A wait that ends is founded and a task that exits has no children. -/
def Event.Tidy : Event → Prop
  | .waitEnd sel _ => σ.WaitFounded sel
  | .exit => (σ.tasks.task σ.tasks.currentTask).firstChild = 0
  | _ => True

/-- Runs in which all waits that end are founded and only tasks without children exit. -/
def TidyRun : Processes → Processes → Prop :=
  Relation.ReflTransGen fun σ σ' => ∃ e, Step σ e σ' ∧ e.Tidy σ

/-! ## Runs that can be computed -/

instance : Decidable σ.Ready := inferInstanceAs (Decidable (_ ∧ _))

/-- A kernel that has just started. -/
def boot : Processes :=
  { tasks := bootTasks, exited := ∅, reaped := ∅, waiting := fun _ => none }

/-- Steps with what the current task asks for. -/
inductive Op where
  | fork (t pid waitingQueue childrenWaitQueue : Nat)
  | exit (exitCode : Int)
  | waitStart (pid : Int)
  | signal (t sig : Nat)
  | reschedule

/-- No task in the zombie queue is dead, so `cleanup_dead_tasks` destroys none. -/
def NothingToClean (s : Tasks) : Prop :=
  dllFind 0 (fun t => (s.task t).next) (fun t => (s.task t).state = .dead) (walkLimit + 1)
    (s.queueHead .zombie) = some 0

instance (s : Tasks) : Decidable (NothingToClean s) := inferInstanceAs (Decidable (_ = _))

namespace Op

/-- The state after the step, if it can happen, returns and is tidy. -/
def exec : Op → Option Processes
  | fork t pid w w' =>
    if σ.Ready ∧ t ∉ σ.tasks.table ∧ t ≠ 0 ∧ t < walkLimit then
      (σ.tasks.taskFork t pid w w').map fun s => { σ with tasks := s }
    else none
  | exit exitCode =>
    if σ.Ready ∧ (σ.tasks.task σ.tasks.currentTask).firstChild = 0 then
      (σ.tasks.taskExit exitCode).map fun s =>
        { σ with tasks := s, exited := insert σ.tasks.currentTask σ.exited }
    else none
  | waitStart pid =>
    match σ.tasks.taskWaitSelect pid with
    | some (.inr sel) =>
      let w := σ.tasks.waitSelObj σ.tasks.currentTask sel
      if σ.Ready then (σ.tasks.waitStart w .blocked).map fun s => { σ with
        tasks := s
        waiting := update σ.waiting σ.tasks.currentTask (some (w, sel)) }
      else none
    | _ => none
  | signal t sig => (σ.tasks.sysSigsendImpl t sig).map fun s => { σ with tasks := s }
  | reschedule =>
    if NothingToClean σ.tasks then
      σ.tasks.schedulerReschedule.bind fun s =>
        if s.currentTask ∈ σ.running then some { σ with tasks := s } else none
    else none

/-- Several steps. -/
def execAll : List Op → Processes → Option Processes
  | [], σ => some σ
  | op :: ops, σ => (op.exec σ).bind (execAll ops)

end Op

end Processes

end Stos.Kernel
