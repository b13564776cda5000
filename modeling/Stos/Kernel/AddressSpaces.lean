import Stos.Kernel.Elf
import Stos.Kernel.PagingInvariant

/-!
# Runs of the address spaces

The kernel with all its live page directories as a state machine. The steps are the
operations that create, use and remove user mappings, in any order and by any task: fork and
exec (`paging_clone_directory`), copy-on-write faults, writes of user programs, new user
pages, ELF loading, task switches and teardown. A directory is named by its page.
-/

namespace Stos.Kernel

/-- The addresses of user space, `VMM_USER_START` to `VMM_USER_END`. -/
def UserAddr (addr : Nat) : Prop := 0x400000 ≤ addr ∧ addr < 0x40000000

instance (addr : Nat) : Decidable (UserAddr addr) := inferInstanceAs (Decidable (_ ∧ _))

/-- The machine and the pages of the live directories. -/
abbrev Spaces := Machine × Finset Nat

/-- All pages of the segment are addresses of user space, and it can be read. -/
structure ElfSegment.InUser (seg : ElfSegment) : Prop where
  low : 0x400000 ≤ seg.vaddr
  high : seg.vaddr + seg.memsz < 0x40000000
  present : hasFlag seg.pageFlags 0x1 = true

/-- What an operation did: the directory it worked on and what the invariants of runs need to
know about its arguments. -/
inductive SpaceEvent where
  | fork (src dst : Nat) (usermode : Bool)
  | fault (d addr : Nat)
  | write (d addr : Nat) (v : BitVec 8)
  | map (d virt : Nat)
  | load (d : Nat) (elf : Elf) (loaded : Bool)
  | switch (d : Nat)
  | teardown (d : Nat)

/-- The page of the current directory. -/
def Machine.current (s : Machine) : Nat := s.currentPageDirectory / 4096

/-- One operation. -/
inductive SpaceStep : Spaces → SpaceEvent → Spaces → Prop where
  /-- a clone of a live directory, as `task_fork`, `task_create` and `task_exec` make it -/
  | fork {s dirs src usermode userStackBase userStackSize addr s'} (hsrc : src ∈ dirs)
      (run : s.pagingCloneDirectory (src * 4096) usermode userStackBase userStackSize =
        some (addr, s')) :
      SpaceStep (s, dirs) (.fork src (addr / 4096) usermode) (s', insert (addr / 4096) dirs)
  /-- a page fault in user space -/
  | fault {s dirs present writeAccess addr recovered s'} (haddr : UserAddr addr)
      (run : s.pageFaultTryRecover present writeAccess addr = some (recovered, s')) :
      SpaceStep (s, dirs) (.fault s.current addr) (s', dirs)
  /-- a write by the current task -/
  | write {s dirs addr v s'} (haddr : UserAddr addr) (run : s.userWrite addr v = some s') :
      SpaceStep (s, dirs) (.write s.current addr v) (s', dirs)
  /-- a new page for the current task, whether or not there is one -/
  | map {s : Machine} {dirs virt flags} (haddr : UserAddr virt)
      (hnew : s.pagingIsMapped virt = false) (hflags : hasFlag flags 0x1 = true) :
      SpaceStep (s, dirs) (.map s.current virt) ((s.mapNewPage virt flags).2, dirs)
  /-- loading an image into the current directory -/
  | load {s : Machine} {dirs file elf} (hsegs : ∀ seg ∈ elf.segments, seg.InUser) :
      SpaceStep (s, dirs) (.load s.current elf (s.elfLoadSegments file elf).1)
        ((s.elfLoadSegments file elf).2, dirs)
  | switch {s : Machine} {dirs d} (hd : d ∈ dirs) :
      SpaceStep (s, dirs) (.switch d) (s.pagingSwitchDirectory (d * 4096), dirs)
  /-- `paging_free_user_pages` and `pmm_free_page` of a directory that is neither the current
  one nor the kernel's (`task_destroy`, `task_exec`) -/
  | teardown {s : Machine} {dirs d s'} (hd : d ∈ dirs) (hcur : s.currentPageDirectory ≠ d * 4096)
      (hkernel : s.kernelPageDirectory ≠ d * 4096)
      (run : s.pagingFreeUserPages (d * 4096) = some s') :
      SpaceStep (s, dirs) (.teardown d) (s'.freePage (d * 4096), dirs.erase d)

/-- The byte at `addr` in directory `d` after an operation, when it was `b` before: only the
directory's own writes change it. -/
def SpaceEvent.byteAfter (d addr : Nat) (b : BitVec 8) : SpaceEvent → BitVec 8
  | .write d' addr' v => if d' = d ∧ addr' = addr then v else b
  | _ => b

theorem SpaceEvent.byteAfter_write (d addr d' addr' : Nat) (b v : BitVec 8) :
    (SpaceEvent.write d' addr' v).byteAfter d addr b =
      if d' = d ∧ addr' = addr then v else b := rfl

/-- The pages of the segment, by address. -/
def ElfSegment.HasPage (seg : ElfSegment) (virt : Nat) : Prop :=
  ∃ k < seg.numPages, virt = seg.vaddrStart + k * 4096

/-- How the set of pages that `elf_load_segments` has mapped without write permission
changes: a page is named by its directory and its address, and a clone of user space
inherits the pages of its source. -/
def SpaceEvent.readOnlyAfter (pages : Set (Nat × Nat)) : SpaceEvent → Set (Nat × Nat)
  | .load d elf true => pages ∪ {x | x.1 = d ∧ ∃ seg ∈ elf.segments,
      hasFlag seg.pageFlags 0x2 = false ∧ seg.HasPage x.2}
  | .fork src dst true => pages ∪ {x | x.1 = dst ∧ (src, x.2) ∈ pages}
  | .teardown d => {x | x ∈ pages ∧ x.1 ≠ d}
  | _ => pages

/-- The pages that a run has mapped without write permission. -/
def readOnlyPages (evs : List SpaceEvent) : Set (Nat × Nat) :=
  evs.foldl SpaceEvent.readOnlyAfter ∅

/-- No user address space is cloned while it holds such a page. -/
def ForksWritable (evs : List SpaceEvent) : Prop :=
  ∀ before src dst after, evs = before ++ .fork src dst true :: after →
    ∀ virt, (src, virt) ∉ readOnlyPages before

/-- No reference count has reached the value at which counting stops. -/
def Unsaturated (σ : Spaces) : Prop := ∀ p, σ.1.refs p < 65535

/-- Sequences of operations in which no count saturates. -/
inductive SpaceRun : Spaces → List SpaceEvent → Spaces → Prop where
  | nil (σ : Spaces) : SpaceRun σ [] σ
  | snoc {σ τ υ : Spaces} {evs : List SpaceEvent} {ev : SpaceEvent} (run : SpaceRun σ evs τ)
      (step : SpaceStep τ ev υ) (unsaturated : Unsaturated υ) : SpaceRun σ (evs ++ [ev]) υ

/-- The state in which runs start: the kernel directory is the only one and is current, and
maps nothing in user space. -/
structure Booted (s : Machine) (blk : Blocks) (d : Nat) : Prop where
  steady : Steady s.pmm blk
  page : IsPage blk d
  one : s.refs d = 1
  kernel : s.kernelPageDirectory = d * 4096
  current : s.currentPageDirectory = d * 4096
  empty : ∀ i, 1 ≤ i → i < 256 → (s.entry (d * 4096) i).present = false

/-- The number of user page table entries, over all live directories, that map page `p`. -/
def mapCount (σ : Spaces) (p : Nat) : Nat :=
  refsTo (allSlots σ.2) (targets PageEntry.page (σ.1.userEntry σ.1.tableOf)) p

/-- Page `p` is in a block on one of the free lists. -/
def PageFree (s : Machine) (p : Nat) : Prop :=
  ∃ o addr, o ≤ 10 ∧ OnFreeList s.pmm o addr ∧ PageBlock.Has ⟨pmmAddrToPage addr, o⟩ p

end Stos.Kernel
