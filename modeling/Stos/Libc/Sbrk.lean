import Stos.Kernel.Brk

/-!
# The program break in the C library

`brk` and `sbrk` of `libc/src/unistd`. The library keeps a copy of the program break, which it
fetches from the kernel once and from then on updates with what the kernel returns.
-/

namespace Stos.Libc

open Stos.Kernel

/-- `(void*)-1`. -/
def failed : Nat := 2 ^ 32 - 1

/-- A process as far as its heap is concerned: the machine, the fields of the kernel and the
static variables of `sbrk.c`. -/
structure Process where
  machine : Machine
  heap : TaskHeap
  currentBrk : Nat
  brkInitialized : Bool

namespace Process

variable (σ : Process)

/-- `brk` (`brk.c:8-16`). A negative result of the system call is an error number. -/
def brk (addr : Nat) : Nat × Process :=
  let (res, machine, heap) := σ.machine.sysBrk σ.heap addr
  (if res < 0 then failed else res.toNat, { σ with machine := machine, heap := heap })

/-- The first part of `sbrk` (`sbrk.c:14-17`). -/
def initBrk : Process :=
  if !σ.brkInitialized then
    let (currentBrk, σ) := σ.brk 0
    { σ with currentBrk := currentBrk, brkInitialized := true }
  else σ

/-- `sbrk` (`sbrk.c:12-36`). -/
def sbrk (increment : Int) : Nat × Process :=
  let σ := σ.initBrk
  if increment = 0 then (σ.currentBrk, σ)
  else
    let newBrk := ((σ.currentBrk + increment) % 2 ^ 32).toNat
    let (result, σ) := σ.brk newBrk
    if result = σ.currentBrk ∧ increment ≠ 0 then (failed, σ)
    else (σ.currentBrk, { σ with currentBrk := result })

/-- A process before its first call of `sbrk`. -/
structure Fresh (σ : Process) : Prop where
  heap : σ.heap.Ok
  notInitialized : σ.brkInitialized = false

/-- The kernel has moved the break by the increment. -/
def Moved (increment : Int) (σ' : Process) : Prop :=
  (σ'.heap.heapEnd : Int) = σ.heap.heapEnd + increment

/-- What `sbrk` promises: it returns -1 exactly when the kernel has not moved the break; it
returns the previous break otherwise; and afterwards the library knows the break of the
kernel. -/
def SbrkContract (increment : Int) : Prop :=
  ((σ.sbrk increment).1 = failed ↔ ¬ Moved σ increment (σ.sbrk increment).2) ∧
    ((σ.sbrk increment).1 ≠ failed → (σ.sbrk increment).1 = σ.heap.heapEnd) ∧
    (σ.sbrk increment).2.currentBrk = (σ.sbrk increment).2.heap.heapEnd

/-- The new break lies in the heap, or is the null pointer, which the kernel takes for a
question. -/
def BreakInHeap (increment : Int) : Prop :=
  increment = 0 ∨ (σ.heap.heapEnd : Int) + increment = 0 ∨
    (σ.heap.heapStart : Int) ≤ σ.heap.heapEnd + increment ∧
      (σ.heap.heapEnd : Int) + increment ≤ σ.heap.heapMax

end Process

/-- The sum of the increments of the successful calls. -/
def movedBy (calls : List (Int × Nat)) : Int :=
  ((calls.filter fun c => c.2 ≠ failed).map Prod.fst).sum

/-- Sequences of calls of `sbrk` with their increments and results, each allowed by `allowed`.
Between two calls the machine changes in any way: other tasks take and give back memory. -/
inductive SbrkRun (allowed : Process → Int → Prop) (σ0 : Process) :
    List (Int × Nat) → Process → Prop where
  | start : SbrkRun allowed σ0 [] σ0
  | call {calls σ increment} (run : SbrkRun allowed σ0 calls σ)
      (low : -2 ^ 31 ≤ increment) (high : increment < 2 ^ 31) (ok : allowed σ increment) :
      SbrkRun allowed σ0 (calls ++ [(increment, (σ.sbrk increment).1)]) (σ.sbrk increment).2
  | other {calls σ} (run : SbrkRun allowed σ0 calls σ) (machine : Machine) :
      SbrkRun allowed σ0 calls { σ with machine := machine }

end Stos.Libc
