import Mathlib

/-!
# File descriptors

The tables of file descriptors of all tasks and the reference counts of the open files
(`vfs_open` and `vfs_close` of `kernel/vfs/vfs.c`, `task_add_fd`, `task_setup_stdio`, the descriptor
parts of `task_fork` and `task_destroy` of `kernel/task/task.c`, and the system calls `open`, `pipe`,
`close` and `dup`). A file is known by a number that is not used again. What a file system does when
a file of it is opened is left out, as are handles that file systems open for themselves.
-/

namespace Stos.Kernel

open Function

/-- The parts of `vfs_file_t` that matter here. `closed` counts how often the end of `vfs_close` has
run, which frees the handle. -/
structure OpenFile where
  refcount : Int
  closed : Nat
  deriving DecidableEq

/-- `task_file_descriptor_t`; no file is the null pointer. -/
structure Descriptor where
  identifier : BitVec 32
  file : Option Nat
  deriving DecidableEq

/-- `task->fd`. -/
abbrev FdTable := List Descriptor

namespace OpenFile

/-- What `vfs_open` returns (`vfs.c:45-46`). -/
def opened : OpenFile := { refcount := 1, closed := 0 }

/-- `vfs_close` (`vfs.c:268-288`). -/
def vfsClose (x : OpenFile) : OpenFile :=
  let refcount := x.refcount - 1
  if refcount ≠ 0 then { x with refcount } else { refcount, closed := x.closed + 1 }

/-- `vfs_bump_refcount` (`vfs.c:474-480`). -/
def vfsBumpRefcount (x : OpenFile) : OpenFile := { x with refcount := x.refcount + 1 }

end OpenFile

variable (fd : FdTable)

namespace FdTable

/-- Storing a file in the entry `i`. -/
def setFile (i : Nat) (file : Option Nat) : FdTable := fd.modify i ({ · with file })

/-- Giving the entry `i` another number. -/
def setIdentifier (i : Nat) (identifier : BitVec 32) : FdTable :=
  fd.modify i ({ · with identifier })

/-- The largest number in a table without a free entry (`task.c:988-1000`). -/
def largestIdentifier : Int :=
  fd.foldl (fun largest desc =>
    if desc.identifier.toInt > largest then desc.identifier.toInt else largest) (-1)

/-- `task_add_fd` (`task.c:980-1014`), with the place of the entry that it returns. -/
def taskAddFd (handler : Nat) : FdTable × Nat :=
  match fd.findIdx? (·.file = none) with
  | some i => (fd.setFile i (some handler), i)
  | none =>
    (fd ++ [{ identifier := BitVec.ofInt 32 (fd.largestIdentifier + 1), file := some handler }],
      fd.length)

/-- `syscall_get_descriptor_by_fd` (`syscall.c:166-186`): the place of the entry and its file. -/
def getDescriptorByFd (n : BitVec 32) : Option (Nat × Nat) :=
  if n.toInt < 0 then none
  else
    (fd.findIdx? fun desc => desc.file ≠ none ∧ desc.identifier = n).bind fun i =>
      (fd[i]?.bind Descriptor.file).map (i, ·)

end FdTable

/-- The tasks that are not destroyed, their tables and the files that have been opened, which have
the numbers below `nextFile`. -/
structure FdState where
  live : Finset Nat
  table : Nat → FdTable
  files : Nat → OpenFile
  nextFile : Nat

variable (s : FdState)

namespace FdState

def setTable (p : Nat) (fd : FdTable) : FdState :=
  { s with table := update s.table p fd }

/-- `vfs_close` on a file. -/
def vfsClose (f : Nat) : FdState :=
  { s with files := update s.files f (s.files f).vfsClose }

/-- `vfs_bump_refcount` on a file. -/
def vfsBumpRefcount (f : Nat) : FdState :=
  { s with files := update s.files f (s.files f).vfsBumpRefcount }

/-- `vfs_open`; the new file is `s.nextFile`. -/
def vfsOpen : FdState :=
  { s with files := update s.files s.nextFile .opened, nextFile := s.nextFile + 1 }

/-- `vfs_open` and `task_add_fd`. -/
def openFd (p : Nat) : FdState :=
  s.vfsOpen.setTable p ((s.table p).taskAddFd s.nextFile).1

/-- `vfs_open` when the file system reports an error (`vfs.c:246-263`). -/
def openFails : FdState := s.vfsOpen.vfsClose s.nextFile

/-- The end of `sys_open` (`open.c:53-63`). -/
def sysOpen (p : Nat) (opens : Bool) : FdState :=
  if opens then s.openFd p else s.openFails

/-- `pipe_create` (`pipe.c:84-113`). -/
def sysPipe (p : Nat) : FdState :=
  let readFile := s.nextFile
  let writeFile := s.nextFile + 1
  let s := s.vfsOpen.vfsOpen
  let s := s.setTable p ((s.table p).taskAddFd readFile).1
  s.setTable p ((s.table p).taskAddFd writeFile).1

/-- `sys_close` (`close.c:7-18`). -/
def sysClose (p : Nat) (n : BitVec 32) : FdState :=
  match (s.table p).getDescriptorByFd n with
  | none => s
  | some (i, file) => (s.vfsClose file).setTable p ((s.table p).setFile i none)

/-- `sys_dup_no_newfd` (`dup.c:10-22`). -/
def sysDupNoNewfd (p file : Nat) : FdState :=
  (s.setTable p ((s.table p).taskAddFd file).1).vfsBumpRefcount file

/-- `sys_dup_with_newfd` (`dup.c:27-63`). -/
def sysDupWithNewfd (p file : Nat) (newfd : BitVec 32) : FdState :=
  match (s.table p).findIdx? (·.identifier = newfd) with
  | none =>
    let (fd, i) := (s.table p).taskAddFd file
    (s.setTable p (fd.setIdentifier i newfd)).vfsBumpRefcount file
  | some j =>
    let s1 := match (s.table p)[j]?.bind Descriptor.file with
      | some old => s.vfsClose old
      | none => s
    (s1.setTable p ((s.table p).setFile j (some file))).vfsBumpRefcount file

/-- `sys_dup` (`dup.c:65-86`). -/
def sysDup (p : Nat) (oldfd newfd flags : BitVec 32) : FdState :=
  if flags ≠ 0 ∨ oldfd.toInt < 0 then s
  else
    match (s.table p).getDescriptorByFd oldfd with
    | none => s
    | some (_, file) =>
      if newfd = -1 then s.sysDupNoNewfd p file else s.sysDupWithNewfd p file newfd

/-- `vfs_bump_refcount` on all files of a table (`task.c:722-731`). -/
def bumpAll : FdState :=
  fd.foldl (fun s desc =>
    match desc.file with
    | some f => s.vfsBumpRefcount f
    | none => s) s

/-- `vfs_close` on all files of a table (`task.c:347-353`). -/
def closeAll : FdState :=
  fd.foldl (fun s desc =>
    match desc.file with
    | some f => s.vfsClose f
    | none => s) s

/-- The descriptors of a new task in `task_fork` (`task.c:718-732`). -/
def taskFork (p child : Nat) : FdState :=
  let s := s.bumpAll (s.table p)
  { s.setTable child (s.table p) with live := insert child s.live }

/-- The descriptors of a task in `task_destroy` (`task.c:346-354`). -/
def taskDestroy (p : Nat) : FdState :=
  let s := s.closeAll (s.table p)
  { s with live := s.live.erase p }

/-- `task_allocate` of a task that is not forked (`task.c:145-146`). -/
def taskAllocate (p : Nat) : FdState :=
  { s.setTable p [] with live := insert p s.live }

/-- `task_setup_stdio` (`task.c:930-978`), if the three files can be opened. -/
def taskSetupStdio (p : Nat) : FdState :=
  if s.table p = [] then
    s.vfsOpen.vfsOpen.vfsOpen.setTable p
      [⟨0, some s.nextFile⟩, ⟨1, some (s.nextFile + 1)⟩, ⟨2, some (s.nextFile + 2)⟩]
  else s

end FdState

/-! ## Runs -/

/-- The operations on descriptors. -/
inductive FdOp where
  | allocate (p : Nat)
  | stdio (p : Nat)
  | open (p : Nat) (opens : Bool)
  | pipe (p : Nat)
  | close (p : Nat) (n : BitVec 32)
  | dup (p : Nat) (oldfd newfd flags : BitVec 32)
  | fork (p child : Nat)
  | destroy (p : Nat)

namespace FdOp

/-- New tasks are not in use, and the others are not destroyed. -/
def Allowed : FdOp → Prop
  | allocate p => p ∉ s.live
  | fork p child => p ∈ s.live ∧ child ∉ s.live
  | stdio p | .open p _ | pipe p | close p _ | dup p _ _ _ | destroy p => p ∈ s.live

def exec : FdOp → FdState
  | allocate p => s.taskAllocate p
  | stdio p => s.taskSetupStdio p
  | .open p opens => s.sysOpen p opens
  | pipe p => s.sysPipe p
  | close p n => s.sysClose p n
  | dup p oldfd newfd flags => s.sysDup p oldfd newfd flags
  | fork p child => s.taskFork p child
  | destroy p => s.taskDestroy p

end FdOp

/-- Nothing has been opened and there are no tasks. -/
def FdState.initial (files : Nat → OpenFile) : FdState :=
  { live := ∅, table := fun _ => [], files, nextFile := 0 }

/-- The states that operations lead to, each of which meets a condition. -/
inductive FdRun (ok : FdState → FdOp → Prop) : FdState → Prop
  | initial (files : Nat → OpenFile) : FdRun ok (.initial files)
  | step {s : FdState} {op : FdOp} : FdRun ok s → op.Allowed s → ok s op → FdRun ok (op.exec s)

/-! ## What the counts are for -/

namespace FdTable

/-- The number of entries that refer to a file. -/
def refs (f : Nat) : Nat := fd.countP (·.file = some f)

/-- The number of free entries. -/
def free : Nat := fd.countP (·.file = none)

/-- The numbers of the open descriptors. -/
def openNumbers : List (BitVec 32) :=
  (fd.filter (·.file ≠ none)).map Descriptor.identifier

/-- With `n` more descriptors, of which those that find no free entry get numbers after the largest
one, no number leaves the range of `int`. -/
def RoomFor (n : Nat) (fd : FdTable) : Prop :=
  ∀ desc ∈ fd, desc.identifier.toInt + (n - fd.free : Nat) < 2 ^ 31

end FdTable

namespace FdState

/-- The number of descriptors of all tasks that refer to a file. -/
def refs (f : Nat) : Nat := ∑ p ∈ s.live, (s.table p).refs f

/-- Every file counts its descriptors and is closed once, when there are none; descriptors refer to
files, and the open descriptors of a task have different numbers. -/
structure Balanced : Prop where
  refcount : ∀ f < s.nextFile, (s.files f).refcount = s.refs f
  closed : ∀ f < s.nextFile, (s.files f).closed = if s.refs f = 0 then 1 else 0
  known : ∀ f, s.refs f ≠ 0 → f < s.nextFile
  distinct : ∀ p ∈ s.live, (s.table p).openNumbers.Nodup

end FdState

/-- New descriptors have numbers in the range of `int`, and a descriptor is not duplicated to itself
if it is the only one of its file. -/
def FdOp.Careful : FdOp → Prop
  | .open p _ => (s.table p).RoomFor 1
  | pipe p => (s.table p).RoomFor 2
  | dup p oldfd newfd _ =>
    if newfd = -1 then (s.table p).RoomFor 1
    else
      oldfd = newfd → ∀ desc ∈ s.table p, desc.identifier = oldfd →
        ∀ f ∈ desc.file, s.refs f ≠ 1
  | _ => True

end Stos.Kernel
