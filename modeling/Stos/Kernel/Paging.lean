import Stos.Kernel.Memory.Pmm
import Stos.Kernel.PageEntry

/-!
# Paging

The mapping, cloning, copy-on-write and teardown functions of
`arch/i386/paging/paging.c`, after `paging_init`. Directories and tables are named by their
physical addresses: `PHYS_TO_VIRT` and `VIRT_TO_PHYS` only add and subtract the base of the
window on physical memory. The TLB is not modelled; the code flushes it wherever it changes
an entry. `abort()` stops the machine and is `none`.
-/

namespace Stos.Kernel

open List

/-- Physical memory with its manager and the static data of `paging.c`. -/
structure Machine where
  pmm : Pmm
  kernelPageDirectory : Nat
  currentPageDirectory : Nat
  pagesSavedByCow : BitVec 32

/-- `paging_get_pd_index` (`paging.h:232-235`). -/
def pagingGetPdIndex (virt : Nat) : Nat := virt / 2 ^ 22

/-- `paging_get_pt_index` (`paging.h:241-244`). -/
def pagingGetPtIndex (virt : Nat) : Nat := virt / 4096 % 1024

/-- `paging_align_down`. -/
def pagingAlignDown (addr : Nat) : Nat := addr / 4096 * 4096

/-- `entry.frame << 12`. -/
def PageEntry.addr (e : PageEntry) : Nat := e.frame.toNat * 4096

/-- `phys >> 12` as it is stored in an entry. -/
def frameOf (phys : Nat) : BitVec 20 := BitVec.ofNat 20 (phys / 4096)

/-- The bit `mask` of `flags` is set. -/
def hasFlag (flags mask : BitVec 32) : Bool := decide (flags &&& mask ≠ 0)

namespace Machine

variable (s : Machine)

/-- The bytes of physical memory. -/
def mem : Mem := s.pmm.mem

/-- Replacing the bytes of physical memory. -/
def setMem (m : Mem) : Machine := { s with pmm := { s.pmm with mem := m } }

/-- `pmm_alloc_page()`. -/
def allocPage : Nat × Machine :=
  let r := s.pmm.pmmAllocPage
  (r.1, { s with pmm := r.2 })

/-- `pmm_free_page(addr)`. -/
def freePage (addr : Nat) : Machine := { s with pmm := s.pmm.pmmFreePage addr }

/-- `pmm_inc_refcount(addr)`. -/
def incRefcount (addr : Nat) : Option (Nat × Machine) :=
  (s.pmm.pmmIncRefcount addr).map fun r => (r.1, { s with pmm := r.2 })

/-- `pmm_dec_refcount(addr)`. -/
def decRefcount (addr : Nat) : Option (Nat × Machine) :=
  (s.pmm.pmmDecRefcount addr).map fun r => (r.1, { s with pmm := r.2 })

/-- `memset(page, 0, PAGE_SIZE)`. -/
def zeroPage (addr : Nat) : Machine := s.setMem (fillBytes s.mem addr 0 4096)

/-- `memcpy(dst, src, PAGE_SIZE)`. -/
def copyPage (dst src : Nat) : Machine := s.setMem (copyBytes s.mem dst src 4096)

/-- Entry `i` of the table or directory at `base`. -/
def entry (base i : Nat) : PageEntry := readEntry s.mem base i

/-- Storing entry `i` of the table or directory at `base`. -/
def setEntry (base i : Nat) (e : PageEntry) : Machine :=
  s.setMem (writeEntry s.mem base i e)

/-! ## Mapping -/

/-- `paging_get_page_table` (`paging.c:58-102`): the address of the table, `none` for `NULL`. -/
def pagingGetPageTable (virt : Nat) (create : Bool) : Option Nat × Machine :=
  let pde := s.entry s.currentPageDirectory (pagingGetPdIndex virt)
  if !pde.present then
    if !create then (none, s)
    else
      let (ptPhys, s) := s.allocPage
      if ptPhys = 0 then (none, s)
      else
        let s := s.zeroPage ptPhys
        let pde := s.entry s.currentPageDirectory (pagingGetPdIndex virt)
        let inUsermode := decide (virt ≥ 0x400000 ∧ virt < 0x40000000)
        (some ptPhys,
          s.setEntry s.currentPageDirectory (pagingGetPdIndex virt)
            { pde with present := true, rw := true, user := inUsermode, frame := frameOf ptPhys })
  else (some pde.addr, s)

/-- `paging_map_page` (`paging.c:317-358`). -/
def pagingMapPage (virt phys : Nat) (flags : BitVec 32) : Bool × Machine :=
  let virt := pagingAlignDown virt
  let phys := pagingAlignDown phys
  match s.pagingGetPageTable virt true with
  | (none, s) => (false, s)
  | (some pt, s) =>
      let pte := s.entry pt (pagingGetPtIndex virt)
      (true,
        s.setEntry pt (pagingGetPtIndex virt)
          { pte with
            present := hasFlag flags 0x1, rw := hasFlag flags 0x2, user := hasFlag flags 0x4,
            pwt := hasFlag flags 0x8, pcd := hasFlag flags 0x10, pat := hasFlag flags 0x80,
            global := hasFlag flags 0x100, frame := frameOf phys })

/-- `paging_unmap_page` (`paging.c:360-383`). -/
def pagingUnmapPage (virt : Nat) : Machine :=
  let virt := pagingAlignDown virt
  match s.pagingGetPageTable virt false with
  | (none, s) => s
  | (some pt, s) =>
      if (s.entry pt (pagingGetPtIndex virt)).present then
        s.setMem (fillBytes s.mem (pt + 4 * pagingGetPtIndex virt) 0 4)
      else s

/-- `paging_get_physical_address` (`paging.c:385-406`). -/
def pagingGetPhysicalAddress (virt : Nat) : Nat :=
  match (s.pagingGetPageTable virt false).1 with
  | none => 0
  | some pt =>
      let pte := s.entry pt (pagingGetPtIndex virt)
      if !pte.present then 0 else pte.addr + virt % 4096

/-- `paging_is_mapped` (`paging.c:408-421`). -/
def pagingIsMapped (virt : Nat) : Bool :=
  match (s.pagingGetPageTable virt false).1 with
  | none => false
  | some pt => (s.entry pt (pagingGetPtIndex virt)).present

/-- `paging_switch_directory` (`paging.c:423-443`). -/
def pagingSwitchDirectory (pd : Nat) : Machine :=
  { s with currentPageDirectory := pd }

/-! ## Cloning -/

/-- `paging_create_directory` (`paging.c:460-474`): 0 for `NULL`. -/
def pagingCreateDirectory : Nat × Machine :=
  let (pdPhys, s) := s.allocPage
  if pdPhys = 0 then (0, s) else (pdPhys, s.zeroPage pdPhys)

/-- The page at `virt` belongs to the user stack (`paging.c:768-773`). -/
def isStackPage (virt userStackBase userStackSize : Nat) : Bool :=
  decide (userStackSize > 0 ∧ virt ≥ userStackBase ∧
    virt < (userStackBase + userStackSize) % 2 ^ 32)

/-- The entry of a stack page on top of what the table holds. -/
def stackEntry (e : PageEntry) (phys : Nat) : PageEntry :=
  { e with present := true, rw := true, user := true, frame := frameOf phys }

/-- The entry of a shared page: read-only and marked copy-on-write. -/
def cowEntry (e : PageEntry) : PageEntry := { e with rw := false, available := e.available ||| 1 }

/-- The body of the loop of `paging_clone_page_table` (`paging.c:762-848`) for entry `i`. All
failures end in `abort()`. -/
def clonePageTableEntry (srcPt dstPt pdIndex userStackBase userStackSize : Nat) (s : Machine)
    (i : Nat) : Option Machine :=
  let virt := pdIndex * (1024 * 4096) + i * 4096
  if isStackPage virt userStackBase userStackSize then
    let (newPhys, s) := s.allocPage
    if newPhys = 0 then none
    else
      let srcPte := s.entry srcPt i
      let s := if srcPte.present then s.copyPage newPhys srcPte.addr else s.zeroPage newPhys
      some (s.setEntry dstPt i (stackEntry (s.entry dstPt i) newPhys))
  else if (s.entry srcPt i).present then
    match s.incRefcount (s.entry srcPt i).addr with
    | none => none
    | some (refcount, s) =>
        if refcount = 0 then none
        else
          let s := s.setEntry dstPt i (s.entry srcPt i)
          let s := s.setEntry srcPt i (cowEntry (s.entry srcPt i))
          some (s.setEntry dstPt i (cowEntry (s.entry dstPt i)))
  else some s

/-- `paging_clone_page_table` (`paging.c:737-852`): the address of the new table. -/
def pagingClonePageTable (srcPt pdIndex userStackBase userStackSize : Nat) :
    Option (Nat × Machine) :=
  let (dstPt, s) := s.allocPage
  if dstPt = 0 then none
  else
    let s := s.zeroPage dstPt
    ((range 1024).foldlM
      (clonePageTableEntry srcPt dstPt pdIndex userStackBase userStackSize) s).map (dstPt, ·)

/-- The body of the loop of `paging_create_stack_page_table` (`paging.c:875-901`). A failure
to allocate makes the caller abort. -/
def createStackEntry (pt pdIndex userStackBase userStackSize : Nat) (s : Machine) (i : Nat) :
    Option Machine :=
  let virt := pdIndex * 1024 * 4096 + i * 4096
  if virt ≥ userStackBase ∧ virt < (userStackBase + userStackSize) % 2 ^ 32 then
    let (phys, s) := s.allocPage
    if phys = 0 then none
    else
      let s := s.zeroPage phys
      some (s.setEntry pt i (stackEntry (s.entry pt i) phys))
  else some s

/-- `paging_create_stack_page_table` (`paging.c:857-904`). -/
def pagingCreateStackPageTable (pdIndex userStackBase userStackSize : Nat) :
    Option (Nat × Machine) :=
  let (pt, s) := s.allocPage
  if pt = 0 then none
  else
    let s := s.zeroPage pt
    ((range 1024).foldlM (createStackEntry pt pdIndex userStackBase userStackSize) s).map
      (pt, ·)

/-- Copying the entries `lo` to `hi - 1` that are present. -/
def copyPresentEntries (dst src lo hi : Nat) (s : Machine) : Machine :=
  (range' lo (hi - lo)).foldl
    (fun s i => if (s.entry src i).present then s.setEntry dst i (s.entry src i) else s) s

/-- The directory entry of a new stack table on top of what the directory holds. -/
def stackDirEntry (e : PageEntry) (pt : Nat) : PageEntry :=
  { e with present := true, rw := true, user := true, frame := frameOf pt }

/-- The body of the loop over user space in `paging_clone_directory` (`paging.c:961-1064`). -/
def cloneUserEntry (dst src userStackBase userStackSize : Nat) (s : Machine) (pdIdx : Nat) :
    Option Machine :=
  let srcPde := s.entry src pdIdx
  let pdVirtStart := pdIdx * (1024 * 4096)
  let containsStack := decide (userStackSize > 0 ∧ userStackBase ≥ pdVirtStart ∧
    userStackBase < pdVirtStart + 1024 * 4096)
  if !srcPde.present then
    if containsStack then
      match s.pagingCreateStackPageTable pdIdx userStackBase userStackSize with
      | none => none
      | some (stackPt, s) =>
          some (s.setEntry dst pdIdx (stackDirEntry (s.entry dst pdIdx) stackPt))
    else some s
  else
    match s.pagingClonePageTable srcPde.addr pdIdx userStackBase userStackSize with
    | none => none
    | some (dstPt, s) =>
        let s := s.setEntry dst pdIdx (s.entry src pdIdx)
        some (s.setEntry dst pdIdx { s.entry dst pdIdx with frame := frameOf dstPt })

/-- `paging_clone_directory` (`paging.c:906-1086`): the address of the new directory. -/
def pagingCloneDirectory (src : Nat) (usermode : Bool)
    (userStackBase userStackSize : Nat) : Option (Nat × Machine) :=
  if src = 0 then none
  else
    let (dst, s) := s.pagingCreateDirectory
    if dst = 0 then none
    else
      let s := s.setEntry dst 0 (s.entry src 0)
      let s := copyPresentEntries dst src 768 1024 s
      let s := copyPresentEntries dst src 256 768 s
      if usermode then
        ((range' 1 255).foldlM (cloneUserEntry dst src userStackBase userStackSize) s).map
          (dst, ·)
      else some (dst, s)

/-! ## Copy-on-write faults -/

/-- `paging_handle_page_fault_cow` (`paging.c:1088-1153`). -/
def pagingHandlePageFaultCow (faultingAddr : Nat) : Option (Bool × Machine) :=
  let pageAddr := pagingAlignDown faultingAddr
  let ptIndex := pagingGetPtIndex pageAddr
  let pde := s.entry s.currentPageDirectory (pagingGetPdIndex pageAddr)
  if !pde.present then some (false, s)
  else
    let pt := pde.addr
    let pte := s.entry pt ptIndex
    if !pte.present then some (false, s)
    else if !pte.cow then some (false, s)
    else
      let (newPhys, s) := s.allocPage
      if newPhys = 0 then some (false, s)
      else
        let oldPhys := (s.entry pt ptIndex).addr
        let s := s.copyPage newPhys oldPhys
        let pte := s.entry pt ptIndex
        let s := s.setEntry pt ptIndex
          { pte with frame := frameOf newPhys, rw := true, available := pte.available &&& ~~~1 }
        match s.decRefcount oldPhys with
        | none => none
        | some (oldRefcount, s) =>
            let s := if oldRefcount = 0 then s.freePage oldPhys else s
            some (true, { s with pagesSavedByCow := s.pagesSavedByCow + 1 })

/-! ## Teardown -/

/-- The body of the loop over a user page table in `paging_free_user_pages`
(`paging.c:1182-1214`). -/
def freeUserPage (pt : Nat) (s : Machine) (ptIdx : Nat) : Option Machine :=
  let pte := s.entry pt ptIdx
  if !pte.present then some s
  else if pte.cow then
    match s.decRefcount pte.addr with
    | none => none
    | some (newRefcount, s) => some (if newRefcount = 0 then s.freePage pte.addr else s)
  else some (s.freePage pte.addr)

/-- The body of the loop over the directory in `paging_free_user_pages`
(`paging.c:1169-1220`). -/
def freeUserTable (pd : Nat) (s : Machine) (pdIdx : Nat) : Option Machine :=
  let pde := s.entry pd pdIdx
  if !pde.present then some s
  else
    ((range 1024).foldlM (freeUserPage pde.addr) s).map fun s =>
      s.freePage (s.entry pd pdIdx).addr

/-- `paging_free_user_pages` (`paging.c:1155-1225`). -/
def pagingFreeUserPages (pd : Nat) : Option Machine :=
  if pd = 0 then some s else (range' 1 255).foldlM (freeUserTable pd) s

end Machine

end Stos.Kernel
