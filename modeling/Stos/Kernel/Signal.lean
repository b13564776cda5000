import Stos.Kernel.UserMemory
import Stos.Kernel.Wait
import Stos.Misc.Bytes

/-!
# Signals

Delivering signals to user programs (`kernel/task/sighandler.c`) and the system calls around it
(`sigact.c`, `sigreturn.c`). A signal is delivered on the way back from a system call
(`arch/i386/idt/isr.s:42-72`): the registers that the processor and the stub have saved on the
kernel stack are copied into a frame on the user stack, and replaced so that the program goes on in
its handler; the handler returns into a few bytes of code in the frame that call `sigreturn`.

User memory is accessed directly, at 32-bit addresses that wrap around. Every function that does so
also reports which addresses it has accessed.
-/

namespace Stos.Kernel

/-- The registers saved by `syscall_stub`, in this order on the kernel stack
(`sighandler.c:10-23`). -/
structure SyscallFrame where
  eax : BitVec 32
  ecx : BitVec 32
  edx : BitVec 32
  ebx : BitVec 32
  ebp : BitVec 32
  esi : BitVec 32
  edi : BitVec 32
  eip : BitVec 32
  cs : BitVec 32
  eflags : BitVec 32
  esp : BitVec 32
  ss : BitVec 32
  deriving DecidableEq, Repr

/-- The fields of `struct sigaction` (`libc/include/signal.h:92-117`) that the kernel uses. -/
structure SigAction where
  saHandler : BitVec 32
  saMask : BitVec 32
  saFlags : BitVec 32
  deriving DecidableEq, Repr

namespace SigAction

/-- `SIG_DFL`. -/
def sigDfl : BitVec 32 := 0

/-- `SIG_IGN`. -/
def sigIgn : BitVec 32 := 1

/-- `SA_NODEFER`. -/
def saNodefer : BitVec 32 := 2

/-- `SA_RESETHAND`. -/
def saResethand : BitVec 32 := 4

/-- `task_reset_sighandler` (`sighandler.c:60-68`), which leaves the mask alone. -/
def reset (sa : SigAction) : SigAction := { sa with saHandler := sigDfl, saFlags := 0 }

end SigAction

/-- `SIGKILL`. -/
def sigkill : Nat := 9

/-- `SIGSEGV`. -/
def sigsegv : Nat := 11

/-- `SIGSTOP`. -/
def sigstop : Nat := 19

/-- The signals whose entry in `default_actions` (`sighandler.c:25-58`) is `SIG_ACTION_IGNORE`:
0, `SIGCHLD`, `SIGCONT`, `SIGURG` and `SIGWINCH`. -/
def ignoredByDefault : List Nat := [0, 17, 18, 23, 28]

/-- The part of a task that signals concern, with its saved registers. -/
structure SigTask where
  sigPending : BitVec 32
  sigBlocked : BitVec 32
  sigHandlers : Nat → SigAction
  frame : SyscallFrame

/-- `sigdelset` (`libc/src/signal/sigdelset.c:4-9`). -/
def sigdelset (set : BitVec 32) (sig : Nat) : BitVec 32 := set &&& ~~~(1#32 <<< sig)

/-! ## The frame on the user stack -/

/-- `sizeof(sigframe_t)`: two words, 13 words of `sigcontext_t` and 8 bytes (`task.h:176-205`). -/
def sigframeSize : Nat := 68

/-- The bytes of the trampoline (`sighandler.c:113-120`): `mov eax, SYS_SIGRETURN; int 0x80; nop`. -/
def trampoline : List (BitVec 8) := [0xb8, 0x52, 0, 0, 0, 0xcd, 0x80, 0x90]

/-- The words of a `sigframe_t` at `base` before its trampoline (`sighandler.c:122-137`). -/
def sigframeWords (base sig : Nat) (f : SyscallFrame) (blocked : BitVec 32) : List (BitVec 32) :=
  [BitVec.ofNat 32 (base + 60), BitVec.ofNat 32 sig, f.eax, f.ecx, f.edx, f.ebx, f.ebp, f.esi, f.edi,
    f.eip, f.cs, f.eflags, f.esp, f.ss, blocked]

/-- The bytes of a `sigframe_t`. -/
def sigframeBytes (base sig : Nat) (f : SyscallFrame) (blocked : BitVec 32) : List (BitVec 8) :=
  wordsBytes (sigframeWords base sig f blocked) ++ trampoline

/-- `(user_esp - sizeof(sigframe_t)) & ~0xF` (`sighandler.c:101`). -/
def newUserEsp (userEsp : Nat) : Nat := (userEsp + 2 ^ 32 - sigframeSize) % 2 ^ 32 / 16 * 16

/-- `user_esp - 4` (`sighandler.c:163`). -/
def returnFrame (userEsp : Nat) : Nat := (userEsp + 2 ^ 32 - 4) % 2 ^ 32

/-- The check of the address of a frame (`sighandler.c:103-106`, `165-166`). -/
def frameInRange (base : Nat) : Bool :=
  !(base < vmmUserStart || (base + sigframeSize) % 2 ^ 32 > vmmUserEnd)

namespace SigTask

variable (t : SigTask)

/-- The lowest signal in `sig_pending & ~sig_blocked` (`sighandler.c:77-82`). -/
def nextSignal : Option Nat :=
  (List.range 32).find? (t.sigPending &&& ~~~t.sigBlocked).getLsbD

/-- Going on in the handler of `sig` with the frame at `base` (`sighandler.c:139-149`). The handler
is read again after it may have been reset. -/
def enterHandler (sig base : Nat) : SigTask :=
  let sa := t.sigHandlers sig
  let blocked :=
    (if sa.saFlags &&& SigAction.saNodefer = 0 then Tasks.sigaddset t.sigBlocked sig
      else t.sigBlocked) ||| sa.saMask
  let handlers :=
    if sa.saFlags &&& SigAction.saResethand ≠ 0 then Function.update t.sigHandlers sig sa.reset
    else t.sigHandlers
  { t with
    sigBlocked := blocked
    sigHandlers := handlers
    frame := { t.frame with eip := (handlers sig).saHandler, esp := BitVec.ofNat 32 base } }

/-- The part of `task_signal_dispatch_pending` that calls a handler (`sighandler.c:98-149`). -/
def pushFrame (m : Mem) (sig : Nat) : UserAccess (SigTask × Mem) :=
  let base := newUserEsp t.frame.esp.toNat
  if !frameInRange base then .exits (-(sigsegv : Int))
  else
    .returns
      (t.enterHandler sig base, storeBytes m base (sigframeBytes base sig t.frame t.sigBlocked))
      (userBytes base 0 sigframeSize)

/-- `task_signal_dispatch_pending` (`sighandler.c:70-150`). -/
def taskSignalDispatchPending (m : Mem) : UserAccess (SigTask × Mem) :=
  match t.nextSignal with
  | none => .returns (t, m) []
  | some sig =>
    let t := { t with sigPending := sigdelset t.sigPending sig }
    if (t.sigHandlers sig).saHandler = SigAction.sigIgn then .returns (t, m) []
    else if (t.sigHandlers sig).saHandler = SigAction.sigDfl then
      if sig ∈ ignoredByDefault then .returns (t, m) [] else .exits (-(sig : Int))
    else t.pushFrame m sig

/-- `task_sigreturn` (`sighandler.c:152-185`): the registers and the mask are read from the frame
below `user_esp`. The result goes to `EAX` (`isr.s:59`). -/
def taskSigreturn (m : Mem) : UserAccess (BitVec 32 × SigTask) :=
  let sf := returnFrame t.frame.esp.toNat
  if !frameInRange sf then .exits (-(sigsegv : Int))
  else
    let word := fun offset => loadWord m (sf + offset)
    .returns
      (word 8,
        { t with
          frame :=
            { t.frame with
              ecx := word 12, edx := word 16, ebx := word 20, ebp := word 24, esi := word 28,
              edi := word 32, eip := word 36, eflags := word 44, esp := word 48 }
          sigBlocked := word 56 })
      (userBytes sf 12 28 ++ userBytes sf 44 8 ++ userBytes sf 56 4 ++ userBytes sf 8 4)

/-! ## System calls -/

/-- `sys_sigreturn` with the store of its result to the saved `EAX`. -/
def sysSigreturn (m : Mem) : UserAccess SigTask :=
  (t.taskSigreturn m).map fun r => { r.2 with frame := { r.2.frame with eax := r.1 } }

/-- `sys_sigact` (`sigact.c:8-32`): the result, the task and the old action. -/
def sysSigact (sig : Int) (act : Option SigAction) : Int × SigTask × Option SigAction :=
  if sig < 0 ∨ sig > 31 then (-5, t, none)
  else if sig = sigkill ∨ sig = sigstop then (-5, t, none)
  else
    (0, { t with
      sigHandlers := match act with
        | some act => Function.update t.sigHandlers sig.toNat act
        | none => t.sigHandlers }, some (t.sigHandlers sig.toNat))

/-- Recording a signal (`sigsend.c:13`). -/
def addPending (sig : Nat) : SigTask :=
  { t with sigPending := Tasks.sigaddset t.sigPending sig }

/-- The registers of a new user task (`task_setup_initial_stack`, `task.c:54-132`). -/
def initialFrame (eip esp : BitVec 32) : SyscallFrame :=
  { eax := 0, ecx := 0, edx := 0, ebx := 0, ebp := 0, esi := 0, edi := 0, eip, cs := 0x1B,
    eflags := 0x202, esp, ss := 0x23 }

/-- A new user task (`task_allocate`, `task.c:149-153`): the record is zeroed. -/
def create (eip esp : BitVec 32) : SigTask :=
  { sigPending := 0, sigBlocked := 0, sigHandlers := fun _ => ⟨0, 0, 0⟩,
    frame := initialFrame eip esp }

/-- The child of `task_fork` (`task.c:642-699`). -/
def fork : SigTask :=
  { sigPending := 0, sigBlocked := t.sigBlocked, sigHandlers := t.sigHandlers,
    frame :=
      { initialFrame t.frame.eip t.frame.esp with
        ecx := t.frame.ecx, edx := t.frame.edx, ebx := t.frame.ebx, ebp := t.frame.ebp,
        esi := t.frame.esi, edi := t.frame.edi } }

/-- What `task_exec` does to the saved registers (`task.c:916-924`). -/
def exec (eip esp : BitVec 32) : SigTask :=
  { t with frame := { t.frame with eip, esp } }

end SigTask

end Stos.Kernel
