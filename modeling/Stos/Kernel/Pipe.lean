import Stos.Kernel.WaitRuns
import Stos.Libds.RingBuf

/-!
# Pipes

`kernel/vfs/pipe`. System calls run with interrupts off, so that a call is one step, except that
`pipe_read` gives up the processor while it waits: it is cut at the loop of `wait_on_condition_impl`.
The checks for `NULL` and the debug output are left out.
-/

namespace Stos.Kernel

open Libds Function

/-- `PIPE_BUF_SIZE`. -/
def pipeBufSize : Nat := 4096

/-- `pipe_node_meta_t`. -/
structure PipeNode where
  ringbuf : RingBuf (BitVec 8)
  readRefCount : Nat
  writeRefCount : Nat
  waitObj : Nat

/-- An open file of a pipe: `read_side` of its `pipe_file_meta_t` and the mode of the file. -/
structure PipeFile where
  readSide : Bool
  readable : Bool
  writeable : Bool

/-- What `pipe_write` returns: a number of bytes, or `-EPIPE`. -/
inductive PipeWritten where
  | bytes (n : Nat)
  | epipe
  deriving DecidableEq

/-- Whether `pipe_write` wakes a reader up (`write.c:62-64`). -/
def PipeWritten.wakes : PipeWritten → Bool
  | .bytes n => n > 0
  | .epipe => false

/-- The loop of `pipe_read` (`read.c:65-70`). -/
def popBytes (r : RingBuf (BitVec 8)) : Nat → List (BitVec 8) × RingBuf (BitVec 8)
  | 0 => ([], r)
  | n + 1 =>
    match r.pop with
    | none => ([], r)
    | some (b, r) => ((b :: (popBytes r n).1), (popBytes r n).2)

/-- The loop of `pipe_write` (`write.c:55-60`), with the number of bytes that were stored. -/
def pushBytes (r : RingBuf (BitVec 8)) : List (BitVec 8) → Nat × RingBuf (BitVec 8)
  | [] => (0, r)
  | b :: bs =>
    match r.push b with
    | none => (0, r)
    | some r => ((pushBytes r bs).1 + 1, (pushBytes r bs).2)

namespace PipeNode

variable (p : PipeNode)

/-- `is_buffer_ready` (`read.c:11-19`). -/
def isBufferReady : Bool := p.writeRefCount = 0 || p.ringbuf.size > 0

/-- The checks of `pipe_read` (`read.c:47-52`): whether the call goes on. -/
def readAllowed (file : PipeFile) : Bool :=
  p.readRefCount ≠ 0 && file.readSide && file.readable

/-- `pipe_read` after the wait (`read.c:56-72`). -/
def pipeRead (size : Nat) : List (BitVec 8) × PipeNode :=
  let currSize := p.ringbuf.size
  if currSize = 0 ∧ p.writeRefCount = 0 then ([], p)
  else
    let toRead := if currSize < size then currSize else size
    ((popBytes p.ringbuf toRead).1, { p with ringbuf := (popBytes p.ringbuf toRead).2 })

/-- `pipe_write` without the wake-up (`write.c:39-66`). -/
def pipeWrite (file : PipeFile) (bytes : List (BitVec 8)) : PipeWritten × PipeNode :=
  if p.writeRefCount = 0 then (.bytes 0, p)
  else if file.readSide || !file.writeable then (.bytes 0, p)
  else if p.readRefCount = 0 then (.epipe, p)
  else
    let emptySpace := p.ringbuf.freeSpace
    let toWrite := if emptySpace < bytes.length then emptySpace else bytes.length
    let (written, ringbuf) := pushBytes p.ringbuf (bytes.take toWrite)
    (.bytes written, { p with ringbuf })

/-- `pipe_close` (`close.c:5-33`), and whether it wakes a reader up. -/
def pipeClose (file : PipeFile) : PipeNode × Bool :=
  if file.readSide then
    if p.readRefCount > 0 then ({ p with readRefCount := p.readRefCount - 1 }, false) else (p, false)
  else if p.writeRefCount > 0 then
    ({ p with writeRefCount := p.writeRefCount - 1 }, p.writeRefCount - 1 = 0)
  else (p, false)

end PipeNode

/-! ## Calls of several tasks -/

/-- A pipe and the tasks; `reading` has the size asked for by each task that is in the wait of
`pipe_read`. -/
structure PipeState where
  tasks : Tasks
  node : PipeNode
  reading : Nat → Option Nat

/-- What a step returns. -/
inductive PipeEvent where
  | read (task size : Nat) (bytes : List (BitVec 8))
  | wrote (bytes : List (BitVec 8)) (result : PipeWritten)
  | other
  deriving DecidableEq

variable (s : PipeState)

namespace PipeState

/-- The task is blocked. -/
def IsBlocked (t : Nat) : Prop := (s.tasks.task t).state = .blocked

instance (t : Nat) : Decidable (s.IsBlocked t) := inferInstanceAs (Decidable (_ = _))

/-- The queue of the pipe's wait object. -/
def waiters : List Nat := (s.tasks.waitObj s.node.waitObj).waiters

/-- The current task runs, outside of `pipe_read`. -/
structure Running (s : PipeState) : Prop where
  notReading : s.reading s.tasks.currentTask = none
  notBlocked : ¬ s.IsBlocked s.tasks.currentTask

/-- `wait_wake_up` on the pipe's wait object, or nothing. -/
def wakeUp (wake : Bool) : Option Tasks :=
  if wake then s.tasks.waitWakeUp s.node.waitObj else some s.tasks

end PipeState

/-- One step of the current task, or a switch to another one. Without signals, tasks that wait on the
pipe are unblocked only by its wake-ups, and a blocked task does not get the processor. -/
inductive PipeStep (s : PipeState) : PipeEvent → PipeState → Prop
  /-- a call of `pipe_read` that does not have to wait -/
  | readAtOnce {file : PipeFile} {size : Nat} {s1 s2 : Tasks} : s.Running →
      s.node.readAllowed file = true → s.tasks.waitStart s.node.waitObj .blocked = some s1 →
      s1.waitAgain s.tasks.currentTask .blocked s.node.isBufferReady = false →
      s1.waitFinish s.node.waitObj s.tasks.currentTask .blocked = some s2 →
      PipeStep s (.read s.tasks.currentTask size (s.node.pipeRead size).1)
        { s with tasks := s2, node := (s.node.pipeRead size).2 }
  /-- a call of `pipe_read` that has to wait -/
  | readBlocks {file : PipeFile} {size : Nat} {s1 : Tasks} : s.Running →
      s.node.readAllowed file = true → s.tasks.waitStart s.node.waitObj .blocked = some s1 →
      s1.waitAgain s.tasks.currentTask .blocked s.node.isBufferReady = true →
      PipeStep s .other
        { s with tasks := s1, reading := update s.reading s.tasks.currentTask (some size) }
  /-- `pipe_read` goes on after the wait -/
  | readResumes {size : Nat} {s1 : Tasks} : s.reading s.tasks.currentTask = some size →
      s.tasks.waitAgain s.tasks.currentTask .blocked s.node.isBufferReady = false →
      s.tasks.waitFinish s.node.waitObj s.tasks.currentTask .blocked = some s1 →
      PipeStep s (.read s.tasks.currentTask size (s.node.pipeRead size).1)
        { tasks := s1, node := (s.node.pipeRead size).2,
          reading := update s.reading s.tasks.currentTask none }
  /-- a call of `pipe_read` on a file that is not an open read side -/
  | readRefused {file : PipeFile} : s.Running → s.node.readAllowed file = false →
      PipeStep s .other s
  | write {file : PipeFile} {bytes : List (BitVec 8)} {s1 : Tasks} : s.Running →
      s.wakeUp (s.node.pipeWrite file bytes).1.wakes = some s1 →
      PipeStep s (.wrote bytes (s.node.pipeWrite file bytes).1)
        { s with tasks := s1, node := (s.node.pipeWrite file bytes).2 }
  | close {file : PipeFile} {s1 : Tasks} : s.Running →
      s.wakeUp (s.node.pipeClose file).2 = some s1 →
      PipeStep s .other { s with tasks := s1, node := (s.node.pipeClose file).1 }
  | schedule {s1 : Tasks} : s1.waitObj s.node.waitObj = s.tasks.waitObj s.node.waitObj →
      (∀ t ∈ s.waiters, (s1.task t).state = .blocked ↔ s.IsBlocked t) →
      (s1.task s1.currentTask).state ≠ .blocked → s1.currentTask ≠ 0 →
      PipeStep s .other { s with tasks := s1 }

/-- A pipe that was just created (`pipe.c:38-113`), with any number of open files. -/
structure PipeState.Created (s : PipeState) : Prop where
  ringbuf : ∃ storage, s.node.ringbuf = RingBuf.create pipeBufSize true storage (by decide)
  noReader : ∀ t, s.reading t = none
  noWaiter : s.waiters = []
  queueMode : (s.tasks.waitObj s.node.waitObj).wakeupAll = false
  running : ¬ s.IsBlocked s.tasks.currentTask
  current : s.tasks.currentTask ≠ 0

/-- Steps that all meet a condition, with their events. -/
inductive PipeRun (ok : PipeState → PipeEvent → Prop) (s0 : PipeState) :
    List PipeEvent → PipeState → Prop
  | nil : PipeRun ok s0 [] s0
  | snoc {evs : List PipeEvent} {ev : PipeEvent} {s s' : PipeState} : PipeRun ok s0 evs s →
      ok s ev → PipeStep s ev s' → PipeRun ok s0 (evs ++ [ev]) s'

/-! ## What a pipe is for -/

namespace PipeEvent

/-- The bytes that a write has handed to the pipe, by its own account. -/
def accepted : PipeEvent → List (BitVec 8)
  | .wrote bytes (.bytes n) => bytes.take n
  | _ => []

/-- A write does not report more bytes than it was given. -/
def Honest : PipeEvent → Prop
  | .wrote bytes (.bytes n) => n ≤ bytes.length
  | _ => True

/-- The bytes that a read has returned. -/
def returned : PipeEvent → List (BitVec 8)
  | .read _ _ bytes => bytes
  | _ => []

/-- A read that is to return bytes and returns none does so at the end of the file. -/
def EndsRight : PipeEvent → Prop
  | .read _ size bytes => size ≠ 0 → bytes = [] →
      s.node.ringbuf.contents = [] ∧ s.node.writeRefCount = 0
  | _ => True

/-- The step does not take all bytes from a reader that was woken up, and does not leave bytes or the
end of the file to a reader that sleeps. A read at once and a read after a wait are told apart by
`reading`. -/
def Careful : PipeEvent → Prop
  | .read task size _ =>
    if s.reading task = none then
      (∀ t ∈ s.waiters, s.IsBlocked t) ∨ size < s.node.ringbuf.size ∨ s.node.writeRefCount = 0
    else
      (∀ t ∈ s.waiters, t = task) ∨ s.node.ringbuf.size ≤ size ∧ s.node.writeRefCount ≠ 0
  | _ => True

instance : DecidablePred (Careful s)
  | .read _ _ _ => inferInstanceAs (Decidable (ite _ _ _))
  | .wrote _ _ => inferInstanceAs (Decidable True)
  | .other => inferInstanceAs (Decidable True)

end PipeEvent

/-- If no task in the queue has been woken up, then the readers have a reason to wait: there are no
bytes, and a write side is open. -/
def PipeState.NoneStuck : Prop :=
  (∀ t ∈ s.waiters, s.IsBlocked t) →
    ∀ t, s.reading t ≠ none → s.node.ringbuf.contents = [] ∧ s.node.writeRefCount ≠ 0

end Stos.Kernel
