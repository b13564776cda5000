import Stos.Kernel.AddressSpaces
import Stos.Kernel.Memory.Vmm

/-!
# The program break

`sys_brk` of `task/syscall/brk.c` on the heap fields of the calling task and the machine whose
current directory is that of the task. A request that grows the heap maps one new page after
the other and unmaps them again when memory runs out.
-/

namespace Stos.Kernel

/-- The heap fields of `task_t` (`task.h:119-124`). -/
structure TaskHeap where
  heapStart : Nat
  heapEnd : Nat
  heapMax : Nat
  deriving DecidableEq, Repr

variable (s : Machine)

namespace Machine

/-- The body of the two rollback loops of `sys_brk` (`brk.c:72-78`, `87-93`). -/
def brkRollbackPage (oldHeapEnd : Nat) (s : Machine) (j : Nat) : Machine :=
  let vaddrRollback := oldHeapEnd + j * 4096
  let physRollback := s.pagingGetPhysicalAddress vaddrRollback
  (s.pagingUnmapPage vaddrRollback).freePage physRollback

/-- The rollback loops: the first `i` new pages are unmapped and given back. -/
def brkRollback (oldHeapEnd i : Nat) (s : Machine) : Machine :=
  (List.range i).foldl (brkRollbackPage oldHeapEnd) s

/-- The loop that expands the heap (`brk.c:65-99`), with `n` pages left from page `i` on;
`false` when a page could not be allocated or mapped. -/
def brkExpand (oldHeapEnd : Nat) (s : Machine) : Nat → Nat → Bool × Machine
  | _, 0 => (true, s)
  | i, n + 1 =>
    let vaddr := oldHeapEnd + i * 4096
    let (phys, s) := s.allocPage
    if phys = 0 then (false, s.brkRollback oldHeapEnd i)
    else
      -- PAGE_FLAGS_USER
      match s.pagingMapPage vaddr phys 0x7 with
      | (false, s) => (false, (s.freePage phys).brkRollback oldHeapEnd i)
      | (true, s) => brkExpand oldHeapEnd (s.zeroPage phys) (i + 1) n

/-- The body of the loop that shrinks the heap (`brk.c:103-110`). -/
def brkShrinkPage (newHeapEnd : Nat) (s : Machine) (i : Nat) : Machine :=
  let vaddr := newHeapEnd + i * 4096
  let phys := s.pagingGetPhysicalAddress vaddr
  if phys ≠ 0 then (s.pagingUnmapPage vaddr).freePage phys else s

/-- `sys_brk` (`brk.c:25-116`) for a task with the heap `h`: the value returned, the machine
and the heap afterwards. `ENOMEM` is 12. -/
def sysBrk (h : TaskHeap) (addr : Nat) : Int × Machine × TaskHeap :=
  if addr = 0 then (h.heapEnd, s, h)
  else if addr < h.heapStart then (0, s, h)
  else if addr > h.heapMax then (-12, s, h)
  else
    let oldHeapEnd := pageAlignUp h.heapEnd
    let newHeapEnd := pageAlignUp addr
    if oldHeapEnd = newHeapEnd then (h.heapEnd, s, h)
    else if newHeapEnd > oldHeapEnd then
      match s.brkExpand oldHeapEnd 0 ((newHeapEnd - oldHeapEnd) / 4096) with
      | (false, s) => (h.heapEnd, s, h)
      | (true, s) => (addr, s, { h with heapEnd := addr })
    else
      let s := (List.range ((oldHeapEnd - newHeapEnd) / 4096)).foldl (brkShrinkPage newHeapEnd) s
      (addr, s, { h with heapEnd := addr })

end Machine

/-! ## The heap of a task -/

/-- `heap_start` and `heap_max` are multiples of the page size (`create_task.c:68-80`,
`task.c:908-911`) and the heap lies in user space. The break leaves the bottom of the heap only
for an address up to `heap_max`. -/
structure TaskHeap.Ok (h : TaskHeap) : Prop where
  start_aligned : h.heapStart % 4096 = 0
  max_aligned : h.heapMax % 4096 = 0
  start_user : 0x400000 ≤ h.heapStart
  max_user : h.heapMax ≤ 0x40000000
  start_le : h.heapStart ≤ h.heapEnd
  end_user : h.heapEnd ≤ 0x40000000
  end_le : h.heapEnd = h.heapStart ∨ h.heapEnd ≤ h.heapMax

/-- `v` is the address of a page between `heap_start` and `heap_max`. -/
def TaskHeap.HasPage (h : TaskHeap) (v : Nat) : Prop :=
  v % 4096 = 0 ∧ h.heapStart ≤ v ∧ v < h.heapMax

/-- The current directory maps `v` for user mode. -/
def Machine.UserMapped (v : Nat) : Prop :=
  match (s.pagingGetPageTable v false).1 with
  | none => False
  | some pt =>
      (s.entry pt (pagingGetPtIndex v)).present = true ∧
        (s.entry pt (pagingGetPtIndex v)).user = true

/-- The mapped user pages of the heap. -/
def Machine.heapPages (h : TaskHeap) : Set Nat :=
  { v | h.HasPage v ∧ s.UserMapped v }

/-- The pages on the free lists; all others are allocated. -/
def Machine.freePages : Set Nat := { q | PageFree s q }

/-- The directory indices of user space. -/
def UserIndex (i : Nat) : Prop := 1 ≤ i ∧ i < 256

/-- The slots of directory `d`. -/
def UserSlot (d : Nat) (x : Slot) : Prop := x.1 = d ∧ UserIndex x.2.1 ∧ x.2.2 < 1024

/-- The entry in slot `x`, if it is present, with the tables that the directories hold. -/
def Machine.slotEntry (x : Slot) : Option PageEntry := s.userEntry s.tableOf x

/-- The user half of the current directory `d`: its tables and the pages it maps are pages in
use and no two of them are the same, except that a page may be mapped more than once if its
reference count says so. Counts may be higher than the number of mappings: pages are shared
with other directories, and `sys_brk` unmaps a shared page without lowering its count. -/
structure DirectoryOk (blk : Blocks) (d : Nat) : Prop where
  steady : Steady s.pmm blk
  current : s.currentPageDirectory = d * 4096
  dir : IsPage blk d
  table : ∀ i t, UserIndex i → s.tableOf d i = some t → IsPage blk t ∧ t ≠ d
  table_inj : ∀ i i' t, UserIndex i → UserIndex i' → s.tableOf d i = some t →
    s.tableOf d i' = some t → i = i'
  frame : ∀ x e, UserSlot d x → s.slotEntry x = some e →
    IsPage blk e.page ∧ e.page ≠ d ∧ ∀ i, UserIndex i → s.tableOf d i ≠ some e.page
  shared : ∀ x y e f, UserSlot d x → UserSlot d y → x ≠ y →
    s.slotEntry x = some e → s.slotEntry y = some f → e.page = f.page → 2 ≤ s.refs e.page

/-- A state in which a task with the heap `h` and the directory `d` calls the kernel: the pages
of the heap below the break are mapped for user mode and the others are not mapped. -/
structure HeapReady (h : TaskHeap) (d : Nat) : Prop where
  ok : h.Ok
  directory : ∃ blk, DirectoryOk s blk d
  below : ∀ v, h.HasPage v → v < h.heapEnd → s.UserMapped v
  above : ∀ v, h.HasPage v → h.heapEnd ≤ v → s.pagingIsMapped v = false

/-- What `sys_brk(addr)` promises. It reports success by returning the address asked for. -/
def BrkContract (h : TaskHeap) (addr : Nat) : Prop :=
  let (ret, s', h') := s.sysBrk h addr
  if ret = addr then
    h'.heapEnd = addr ∧
      s'.heapPages h' = { v | v % 4096 = 0 ∧ h'.heapStart ≤ v ∧ v < h'.heapEnd }
  else
    h'.heapEnd = h.heapEnd ∧ s'.heapPages h' = s.heapPages h ∧
      s'.freePages = s.freePages

/-- The number of pages that a break at `addr` adds. -/
def TaskHeap.newPages (h : TaskHeap) (addr : Nat) : Nat :=
  (pageAlignUp addr - pageAlignUp h.heapEnd) / 4096

/-- The directory indices of the first `n` pages from `base` on that have no table. -/
def Machine.missingTables (d base n : Nat) : Finset Nat :=
  ((Finset.range n).image fun j => pagingGetPdIndex (base + j * 4096)).filter
    fun i => s.tableOf d i = none

/-- The request is refused at once, or there is memory for all new pages and the tables that
they need, or memory runs out before the first of these tables is made. -/
def BrkNoTableLost (h : TaskHeap) (d addr : Nat) : Prop :=
  h.heapMax < addr ∨
    h.newPages addr + (s.missingTables d (pageAlignUp h.heapEnd) (h.newPages addr)).card ≤
      s.freePages.ncard ∨
    ∀ j, j < h.newPages addr →
      s.tableOf d (pagingGetPdIndex (pageAlignUp h.heapEnd + j * 4096)) = none →
      s.freePages.ncard < j + 2

end Stos.Kernel
