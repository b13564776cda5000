import Stos.Kernel.Signal

/-!
# Runs with signals

Sequences of system calls, signals and returns to user mode of any number of user tasks, and, for
one task, the nesting of its handlers.
-/

namespace Stos.Kernel

open Function SigAction

/-! ## Rights -/

namespace SyscallFrame

/-- The I/O privilege level of `EFLAGS`. -/
def iopl (f : SyscallFrame) : BitVec 32 := f.eflags &&& 0x3000

/-- The interrupt-enable bit of `EFLAGS`. -/
def interruptFlag (f : SyscallFrame) : BitVec 32 := f.eflags &&& 0x200

/-- What decides over the rights of a task after `iret`: the privilege level for I/O, whether
interrupts are enabled, and the selectors. -/
def rights (f : SyscallFrame) : BitVec 32 × BitVec 32 × BitVec 32 × BitVec 32 :=
  (f.iopl, f.interruptFlag, f.cs, f.ss)

/-- What the processor lets a program in user mode do to these: without I/O privilege nothing, with
I/O privilege it can disable interrupts. -/
def UserMode (f f' : SyscallFrame) : Prop :=
  f'.iopl = f.iopl ∧ f'.cs = f.cs ∧ f'.ss = f.ss ∧
    (f.iopl = 0x3000 ∨ f'.interruptFlag = f.interruptFlag)

instance (f f' : SyscallFrame) : Decidable (UserMode f f') :=
  inferInstanceAs (Decidable (_ ∧ _ ∧ _ ∧ _))

/-- The rights of a task in user mode. -/
def userRights : BitVec 32 × BitVec 32 × BitVec 32 × BitVec 32 := (0, 0x200, 0x1B, 0x23)

end SyscallFrame

/-! ## Tasks -/

/-- The user tasks. -/
abbrev SigTasks := Nat → Option SigTask

/-- What can happen to user tasks. The contents of user memory at a `sigreturn` are arbitrary. -/
inductive SigOp where
  | create (p : Nat) (eip esp : BitVec 32)
  | sigact (p : Nat) (sig : Int) (act : Option SigAction)
  | send (p : Nat) (sig : Fin 32)
  /-- the program runs until it makes a system call with these registers -/
  | user (p : Nat) (frame : SyscallFrame)
  /-- the task goes back to user mode after an interrupt, or for the first time -/
  | interrupt (p : Nat)
  | sigreturn (p : Nat) (m : Mem)
  /-- the task goes back to user mode after a system call -/
  | dispatch (p : Nat) (m : Mem)
  | fork (p c : Nat)
  | exec (p : Nat) (eip esp : BitVec 32)
  | exit (p : Nat)

namespace SigOp

/-- The tasks after an operation of task `p`. -/
def finish {α : Type} (σ : SigTasks) (p : Nat) (task : α → SigTask) : UserAccess α → SigTasks
  | .exits _ => update σ p none
  | .returns r _ => update σ p (some (task r))

/-- What the operation does, if it can happen. -/
def run (σ : SigTasks) : SigOp → Option SigTasks
  | create p eip esp =>
    if σ p = none then some (update σ p (some (.create eip esp))) else none
  | sigact p sig act => (σ p).map fun t => update σ p (some (t.sysSigact sig act).2.1)
  | send p sig => (σ p).map fun t => update σ p (some (t.addPending sig))
  | user p frame =>
    (σ p).bind fun t =>
      if t.frame.UserMode frame then some (update σ p (some { t with frame })) else none
  | interrupt p => (σ p).map fun _ => σ
  | sigreturn p m => (σ p).map fun t => finish σ p id (t.sysSigreturn m)
  | dispatch p m => (σ p).map fun t => finish σ p Prod.fst (t.taskSignalDispatchPending m)
  | fork p c =>
    (σ p).bind fun t => if σ c = none then some (update σ c (some t.fork)) else none
  | exec p eip esp => (σ p).map fun t => update σ p (some (t.exec eip esp))
  | exit p => (σ p).map fun _ => update σ p none

/-- Several operations. -/
def runAll : List SigOp → SigTasks → Option SigTasks
  | [], σ => some σ
  | op :: ops, σ => (op.run σ).bind (runAll ops)

/-- The word that `sigreturn` reads from its frame at `offset`. -/
def forged (t : SigTask) (m : Mem) (offset : Nat) : BitVec 32 :=
  loadWord m (returnFrame t.frame.esp.toNat + offset)

/-- The flags in the frame of a `sigreturn` have the privilege level and the interrupt-enable bit
that the task has. -/
def SameFlags (σ : SigTasks) : SigOp → Prop
  | sigreturn p m => ∀ t, σ p = some t →
      forged t m 44 &&& 0x3200 = t.frame.eflags &&& 0x3200
  | _ => True

end SigOp

/-- Runs without user tasks at the start in which every operation meets `P`. -/
def SigRun (P : SigTasks → SigOp → Prop) : SigTasks → Prop :=
  Relation.ReflTransGen (fun σ σ' => ∃ op : SigOp, P σ op ∧ op.run σ = some σ') fun _ => none

/-! ## Signals that cannot be caught -/

namespace SigTask

/-- Neither signal is in the set. -/
def Unblockable (set : BitVec 32) : Prop :=
  set.getLsbD sigkill = false ∧ set.getLsbD sigstop = false

instance (set : BitVec 32) : Decidable (Unblockable set) := inferInstanceAs (Decidable (_ ∧ _))

/-- `SIGKILL` and `SIGSTOP` are not blocked, caught or ignored. -/
structure Killable (t : SigTask) : Prop where
  blocked : Unblockable t.sigBlocked
  kill : (t.sigHandlers sigkill).saHandler = sigDfl
  stop : (t.sigHandlers sigstop).saHandler = sigDfl

/-- The disposition of `sig` is a function of the program. -/
def Caught (t : SigTask) (sig : Nat) : Prop :=
  (t.sigHandlers sig).saHandler ≠ sigIgn ∧ (t.sigHandlers sig).saHandler ≠ sigDfl

/-- There is room for a frame below the stack pointer. -/
def HasRoom (t : SigTask) : Prop := frameInRange (newUserEsp t.frame.esp.toNat) = true

/-- The lowest deliverable signal ends the task: by its default action, or because its handler
cannot be called. -/
def NextSignalEnds (t : SigTask) : Prop :=
  ∃ sig, t.nextSignal = some sig ∧
    ((t.sigHandlers sig).saHandler = sigDfl ∧ sig ∉ ignoredByDefault ∨
      t.Caught sig ∧ ¬ t.HasRoom)

end SigTask

namespace SigOp

/-- The operation brings task `p` back to user mode. -/
def ReturnsToUser (p : Nat) : SigOp → Prop
  | interrupt q => q = p
  | dispatch q _ => q = p
  | _ => False

/-- After the operation no task blocks, catches or ignores the two signals, and a task to which
`SIGKILL` had been sent has not come back to user mode. -/
structure KillOk (σ : SigTasks) (op : SigOp) (σ' : SigTasks) : Prop where
  killable : ∀ p t, σ' p = some t → t.Killable
  acted : ∀ p, op.ReturnsToUser p → ∀ t, σ p = some t → t.sigPending.getLsbD sigkill = true →
    σ' p = none

/-- The operations that keep the two signals effective: the mask in the frame of a `sigreturn`
does not have them, nor does the mask of a handler that is called, `SIGKILL` is not pending at a
return from an interrupt, and if it is pending at the return from a system call, the lowest
deliverable signal ends the task. -/
def KeepsKill (σ : SigTasks) : SigOp → Prop
  | sigreturn p m => ∀ t, σ p = some t →
      frameInRange (returnFrame t.frame.esp.toNat) = true →
        SigTask.Unblockable (forged t m 56)
  | dispatch p _ => ∀ t, σ p = some t →
      (∀ sig, t.nextSignal = some sig → t.Caught sig → t.HasRoom →
        SigTask.Unblockable (t.sigHandlers sig).saMask) ∧
      (t.sigPending.getLsbD sigkill = true → t.NextSignalEnds)
  | interrupt p => ∀ t, σ p = some t → t.sigPending.getLsbD sigkill = false
  | _ => True

end SigOp

/-! ## Handlers of replaced programs -/

namespace SigOp

/-- The handlers that each task has installed since its last `exec`, or inherited by `fork` since then,
after an operation. -/
def installed (σ : SigTasks) (h : Nat → List (BitVec 32)) : SigOp → Nat → List (BitVec 32)
  | create p _ _ => update h p []
  | sigact p sig (some act) =>
    if (σ p).any fun t => (t.sysSigact sig (some act)).1 = 0 then
      update h p (act.saHandler :: h p)
    else h
  | fork p c => update h c (h p)
  | exec p _ _ => update h p []
  | _ => h

/-- A task that replaces its program catches no signal, and no handler with `SA_RESETHAND` is called. -/
def KeepsHandlers (σ : SigTasks) : SigOp → Prop
  | exec p _ _ => ∀ t, σ p = some t → ∀ sig, ¬ t.Caught sig
  | dispatch p _ => ∀ t, σ p = some t → ∀ sig, t.nextSignal = some sig → t.Caught sig → t.HasRoom →
      (t.sigHandlers sig).saFlags &&& saResethand = 0
  | _ => True

end SigOp

/-- Runs with the handlers that each task has installed. -/
def HandlerRun (P : SigTasks → SigOp → Prop) : SigTasks × (Nat → List (BitVec 32)) → Prop :=
  Relation.ReflTransGen
    (fun x y => ∃ op : SigOp, P x.1 op ∧ op.run x.1 = some y.1 ∧ y.2 = op.installed x.1 x.2)
    (fun _ => none, fun _ => [])

/-! ## Nested handlers -/

/-- A frame that the kernel has put on the user stack, with what was interrupted. -/
structure SavedFrame where
  base : Nat
  frame : SyscallFrame
  sigBlocked : BitVec 32

/-- One task with its memory and the frames of the handlers that have not returned, innermost
first. -/
structure Handlers where
  task : SigTask
  mem : Mem
  saved : List SavedFrame

namespace Handlers

/-- The addresses of a frame. -/
def frameBytes (f : SavedFrame) : List Nat := userBytes f.base 0 sigframeSize

/-- The program has run on: it has not changed the frames of its handlers. Whatever else the kernel
does to its memory in a system call is included. -/
def FramesKept (σ : Handlers) (m : Mem) : Prop :=
  ∀ f ∈ σ.saved, ∀ a ∈ frameBytes f, m a = σ.mem a

/-- The frames of the handlers are part of the stack that is in use. -/
def OnStack (σ : Handlers) (esp : BitVec 32) : Prop := ∀ f ∈ σ.saved, esp.toNat ≤ f.base

/-- One step. -/
inductive Step (σ : Handlers) : Handlers → Prop
  /-- the program runs and makes a system call -/
  | user {t : SigTask} {m : Mem} : σ.FramesKept m → σ.OnStack t.frame.esp →
      Step σ { σ with task := t, mem := m }
  /-- a system call returns without calling a handler -/
  | quiet {t : SigTask} {m : Mem} :
      σ.task.taskSignalDispatchPending σ.mem = .returns (t, m) [] →
      Step σ { σ with task := t, mem := m }
  /-- a system call returns to a handler -/
  | push {t : SigTask} {m : Mem} {accessed : List Nat} :
      σ.task.taskSignalDispatchPending σ.mem = .returns (t, m) accessed → accessed ≠ [] →
      Step σ { task := t, mem := m, saved :=
        ⟨newUserEsp σ.task.frame.esp.toNat, σ.task.frame, σ.task.sigBlocked⟩ :: σ.saved }
  /-- the program runs, the innermost handler returns through the code in its frame, and that calls
  `sigreturn` -/
  | sigreturn {f : SavedFrame} {rest : List SavedFrame} {t t' : SigTask} {m : Mem}
      {accessed : List Nat} : σ.saved = f :: rest → σ.FramesKept m →
      t.frame.esp.toNat = (f.base + 4) % 2 ^ 32 → t.sysSigreturn m = .returns t' accessed →
      Step σ { task := t', mem := m, saved := rest }

/-- The registers and the mask are those that the frame has saved. -/
def Restored (t : SigTask) (f : SavedFrame) : Prop :=
  t.frame = { f.frame with cs := t.frame.cs, ss := t.frame.ss } ∧ t.sigBlocked = f.sigBlocked

/-- What should hold in a state: the next `sigreturn` restores what the innermost frame has saved,
and the next frame that is pushed leaves alone the user memory from the stack pointer on. -/
structure StackOk (σ : Handlers) : Prop where
  sigreturn : ∀ f rest (t : SigTask) m, σ.saved = f :: rest → σ.FramesKept m →
    t.frame.esp.toNat = (f.base + 4) % 2 ^ 32 →
      ∃ t' accessed, t.sysSigreturn m = .returns t' accessed ∧ Restored t' f
  push : ∀ t m accessed, σ.task.taskSignalDispatchPending σ.mem = .returns (t, m) accessed →
    ∀ a ∈ accessed, vmmUserStart ≤ a → a < vmmUserEnd → a < σ.task.frame.esp.toNat

/-- A frame is not pushed below a stack pointer in the first bytes of memory, from where it would
wrap around. -/
def StepInRange (σ σ' : Handlers) : Prop :=
  Step σ σ' ∧ (σ'.saved.length = σ.saved.length + 1 →
    σ.task.frame.esp.toNat < 4 ∨ sigframeSize ≤ σ.task.frame.esp.toNat)

/-- Runs of a task in which no frame wraps around. -/
def InRangeRun : Handlers → Handlers → Prop := Relation.ReflTransGen StepInRange

end Handlers

end Stos.Kernel
