import Stos.Kernel.Paging

/-!
# Memory accesses through the page tables

The check that the processor makes for a write, the recovery of a page fault
(`kernel/page_fault.c`), and what a program sees in its address space. `CR0.WP` is set
(`paging_asm.s`), so writes of the kernel obey the writable bits as well. The accessed and
dirty bits that the processor sets are not modelled, nor are the fault statistics. The kernel
registers no custom fault handler.
-/

namespace Stos.Kernel

namespace Machine

variable (s : Machine)

/-- Both levels of the translation of `addr` are present. -/
def isPresent (addr : Nat) : Bool :=
  let pde := s.entry s.currentPageDirectory (pagingGetPdIndex addr)
  pde.present && (s.entry pde.addr (pagingGetPtIndex addr)).present

/-- The processor lets a write to `addr` pass. -/
def isWritable (supervisor : Bool) (addr : Nat) : Bool :=
  let pde := s.entry s.currentPageDirectory (pagingGetPdIndex addr)
  let pte := s.entry pde.addr (pagingGetPtIndex addr)
  pde.present && pte.present && pde.rw && pte.rw && (supervisor || pde.user && pte.user)

/-- The physical address that `addr` translates to. -/
def translate (addr : Nat) : Nat :=
  let pde := s.entry s.currentPageDirectory (pagingGetPdIndex addr)
  (s.entry pde.addr (pagingGetPtIndex addr)).addr + addr % 4096

/-- A write of one byte; `none` is a page fault. -/
def store (supervisor : Bool) (addr : Nat) (v : BitVec 8) : Option Machine :=
  if s.isWritable supervisor addr then some (s.setMem (write8 s.mem (s.translate addr) v))
  else none

/-- `page_fault_try_recover` (`page_fault.c:357-391`). -/
def pageFaultTryRecover (present writeAccess : Bool) (faultingAddress : Nat) :
    Option (Bool × Machine) :=
  if present && writeAccess then s.pagingHandlePageFaultCow faultingAddress
  else some (false, s)

/-- A write of one byte by a user program. After a recovered fault the instruction runs
again; `none` when the fault is not recovered (the kernel then does not return). A second
fault of the same instruction is not recovered, as the first recovery clears the
copy-on-write mark. -/
def userWrite (addr : Nat) (v : BitVec 8) : Option Machine :=
  match s.store false addr v with
  | some s' => some s'
  | none =>
      match s.pageFaultTryRecover (s.isPresent addr) true addr with
      | some (true, s') => s'.store false addr v
      | _ => none

/-- The byte at `addr` in the address space of directory page `d`, if it is mapped. -/
def userByte (d addr : Nat) : Option (BitVec 8) :=
  let pde := s.entry (d * 4096) (pagingGetPdIndex addr)
  if !pde.present then none
  else
    let pte := s.entry pde.addr (pagingGetPtIndex addr)
    if !pte.present then none else some (s.mem (pte.addr + addr % 4096))

/-- A new page at `virt` in the current directory, the way `elf_load_segments`
(`load_segments.c:52-67`), `sys_brk` (`brk.c:67-86`) and `vmm_alloc` (`vmm.c:188-220`) map
one: the physical address, 0 on failure. -/
def mapNewPage (virt : Nat) (flags : BitVec 32) : Nat × Machine :=
  let (phys, s) := s.allocPage
  if phys = 0 then (0, s)
  else
    match s.pagingMapPage virt phys flags with
    | (true, s) => (phys, s)
    | (false, s) => (0, s.freePage phys)

end Machine

end Stos.Kernel
