import Stos.Kernel.UserMemory
import Stos.Misc.Bytes

/-!
# Arguments of programs

How `exec` hands `argv` and `envp` over: the copy into the kernel (`exec_copy_string_array`,
`kernel/task/syscall/exec.c`), the image on the stack of the new program (`task_push_args`,
`kernel/task/task_args.c`), and its reader (`_crt_start`, `usermode/crt0.c`). That `kmalloc` can fail
is left out.
-/

namespace Stos.Kernel

/-! ## The copy in the kernel -/

/-- `ptr_valid` (`exec.c:17-18`, `syscall.c:19-20`). -/
def ptrValid (ptr : Nat) : Bool := vmmUserStart ≤ ptr && ptr ≤ vmmUserEnd

/-- `EXEC_MAX_ARGS`. -/
def execMaxArgs : Nat := 64

/-- `EXEC_MAX_ARG_LEN`. -/
def execMaxArgLen : Nat := 255

/-- The loop that counts the strings (`exec.c:40-46`), with `n` rounds to go. -/
def execCountStrings (m : Mem) (usrc : Nat) : Nat → Nat → Option Nat
  | 0, count => some count
  | n + 1, count =>
    if !ptrValid (usrc + 4 * count) then none
    else if loadWord m (usrc + 4 * count) = 0 then some count
    else if !ptrValid (loadWord m (usrc + 4 * count)).toNat then none
    else execCountStrings m usrc n (count + 1)

/-- `exec_copy_string_array` (`exec.c:28-65`); `none` is the result -1. -/
def execCopyStringArray (m : Mem) (usrc : Nat) : Option (List CString) :=
  if usrc = 0 || !ptrValid usrc then some []
  else
    (execCountStrings m usrc execMaxArgs 0).map fun count =>
      (List.range count).map fun i =>
        readString m execMaxArgLen (loadWord m (usrc + 4 * i)).toNat

/-! ## The image on the stack -/

/-- The loop that copies strings, from the last to the first (`task_args.c:40-45`, `48-53`): the
stack pointer and the addresses of the strings. -/
def pushStrings (m : Mem) (sp : Nat) : List CString → Mem × Nat × List Nat
  | [] => (m, sp, [])
  | s :: rest =>
    let r := pushStrings m sp rest
    let sp := (r.2.1 + 2 ^ 32 - (s.length + 1)) % 2 ^ 32
    (storeBytes r.1 sp (s ++ [0]), sp, sp :: r.2.2)

/-- `sp -= 4; *(uint32_t* )sp = v`. -/
def pushWord (m : Mem) (sp : Nat) (v : BitVec 32) : Mem × Nat :=
  let sp := (sp + 2 ^ 32 - 4) % 2 ^ 32
  (storeBytes m sp (wordBytes v), sp)

/-- The loop that pushes words, from the last to the first (`task_args.c:62-65`, `70-73`). -/
def pushWords (m : Mem) (sp : Nat) : List (BitVec 32) → Mem × Nat
  | [] => (m, sp)
  | w :: rest =>
    let r := pushWords m sp rest
    pushWord r.1 r.2 w

/-- `task_push_args` (`task_args.c:22-83`): the memory and the stack pointer. -/
def taskPushArgs (m : Mem) (esp : Nat) (argv envp : List CString) : Mem × Nat :=
  let env := pushStrings m esp envp
  let arg := pushStrings env.1 env.2.1 argv
  let r := pushWord arg.1 (arg.2.1 / 4 * 4) 0
  let r := pushWords r.1 r.2 (env.2.2.map (BitVec.ofNat 32))
  let r := pushWord r.1 r.2 0
  let r := pushWords r.1 r.2 (arg.2.2.map (BitVec.ofNat 32))
  pushWord r.1 r.2 (BitVec.ofNat 32 argv.length)

/-- `USER_STACK_SIZE`. -/
def userStackSize : Nat := 8 * 1024

/-- `USER_STACK_TOP`. -/
def userStackTop : Nat := vmmUserEnd - 4096

/-- `USER_STACK_BASE`. -/
def userStackBase : Nat := userStackTop - userStackSize

/-! ## The reader -/

/-- `_crt_start` (`crt0.c:26-29`) and what `main` gets: `argc` and the strings of `argv` and `envp`,
whose pointers are read up to a null pointer. Arrays and strings are read up to length `n`. -/
def crtStart (m : Mem) (sp n : Nat) : Nat × List CString × List CString :=
  let argc := (loadWord m sp).toNat
  let strings := fun p => (readWords m n p).map fun q => readString m n q.toNat
  (argc, strings (sp + 4), strings (sp + 4 * (argc + 2)))

/-- The addresses of the strings that `main` gets. -/
def crtPointers (m : Mem) (sp n : Nat) : List Nat :=
  (readWords m n (sp + 4) ++ readWords m n (sp + 4 * ((loadWord m sp).toNat + 2))).map (·.toNat)

/-! ## What the image is for -/

/-- Nothing has changed outside of `[lo, hi)`. -/
def SameOutside (m m' : Mem) (lo hi : Nat) : Prop := ∀ b < 2 ^ 32, b < lo ∨ hi ≤ b → m' b = m b

/-- The bytes that strings take with their terminating zeros. -/
def stringsSize (ss : List CString) : Nat := (ss.map fun s => s.length + 1).sum

/-- The bytes of the image: strings, pointers with two null pointers, and `argc`. Alignment apart. -/
def imageSize (argv envp : List CString) : Nat :=
  stringsSize argv + stringsSize envp + 4 * (argv.length + envp.length + 3)

/-- The memory `m'` is `m` with the image of `argv` and `envp` in `[sp, esp)`: reading it far enough
gives the same strings, which lie in the area above the pointers, one after the other. -/
structure ImageOk (m m' : Mem) (esp sp : Nat) (argv envp : List CString) : Prop where
  read : ∀ n, esp ≤ n → crtStart m' sp n = (argv.length, argv, envp)
  room : sp + 4 * (argv.length + envp.length + 3) ≤ esp
  inside : ∀ n, esp ≤ n → ∀ x ∈ (crtPointers m' sp n).zip (argv ++ envp),
    sp + 4 * (argv.length + envp.length + 3) ≤ x.1 ∧ x.1 + x.2.length + 1 ≤ esp
  disjoint : ∀ n, esp ≤ n →
    ((crtPointers m' sp n).zip (argv ++ envp)).Pairwise fun x y => x.1 + x.2.length + 1 ≤ y.1
  frame : SameOutside m m' sp esp

end Stos.Kernel
