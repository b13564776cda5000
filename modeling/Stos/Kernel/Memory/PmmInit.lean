import Stos.Kernel.Memory.Pmm
import Stos.Kernel.Multiboot2

/-!
# Setting up the physical memory manager

`pmm_init` and its helpers (`memory/pmm.c:510-726`). The three metadata maps are fields of
`Pmm` and not bytes of `mem`; the pages they lie in are reserved by the code itself.
-/

namespace Stos.Kernel

/-- Where the kernel image lies; the linker script puts `_kernel_start` first. -/
structure KernelImage where
  kernelStart : BitVec 32
  kernelEnd : BitVec 32
  ordered : kernelStart.toNat ≤ kernelEnd.toNat

namespace Pmm

/-- The search for the largest order that fits (`pmm.c:543-566`), from order `o` downwards. -/
def buddyRegionOrder (s : Pmm) (currentAddr remainingPages : Nat) : Nat → Nat
  | 0 => 0
  | o + 1 =>
      if 2 ^ (o + 1) ≤ remainingPages ∧ buddyIsOrderAligned currentAddr (o + 1) ∧
          (List.range (2 ^ (o + 1))).all fun p =>
            decide (pmmAddrToPage currentAddr + p < s.pmmTotalPages) &&
              !s.buddyIsAllocated (pmmAddrToPage currentAddr + p) then o + 1
      else buddyRegionOrder s currentAddr remainingPages o

/-- The loop of `buddy_add_region` (`pmm.c:522-575`). Every turn moves on by a page at least,
so as many turns as the region has pages are enough. -/
def buddyAddRegionLoop (endAddr : Nat) : Nat → Pmm → Nat → Pmm
  | 0, s, _ => s
  | fuel + 1, s, currentAddr =>
      if currentAddr < endAddr then
        let remainingPages := (endAddr - currentAddr) / 4096
        if remainingPages = 0 then s
        else
          let page := pmmAddrToPage currentAddr
          if s.buddyIsAllocated page then
            buddyAddRegionLoop endAddr fuel s ((currentAddr + 4096) % 2 ^ 32)
          else
            let order := s.buddyRegionOrder currentAddr remainingPages 10
            let s := (s.buddySetOrder page order).buddyMarkFree page
            let s := s.buddyAddToFreeList currentAddr order
            buddyAddRegionLoop endAddr fuel s ((currentAddr + 2 ^ order * 4096) % 2 ^ 32)
      else s

/-- `buddy_add_region` (`pmm.c:510-576`). -/
def buddyAddRegion (s : Pmm) (startAddr endAddr : Nat) : Pmm :=
  let startAddr := pmmAlignUp startAddr
  let endAddr := pmmAlignDown endAddr
  if startAddr ≥ endAddr then s
  else buddyAddRegionLoop endAddr ((endAddr - startAddr) / 4096) s startAddr

/-- The loop of `buddy_reserve_region` (`pmm.c:597-611`). -/
def buddyReserveRegionLoop (endAddr : Nat) : Nat → Pmm → Nat → Pmm
  | 0, s, _ => s
  | fuel + 1, s, addr =>
      if addr < endAddr then
        let page := pmmAddrToPage addr
        if page ≥ s.pmmTotalPages then s
        else
          let s :=
            if !s.buddyIsAllocated page then
              { s.buddyMarkAllocated page with pmmUsedPages := s.pmmUsedPages + 1 }
            else s
          buddyReserveRegionLoop endAddr fuel s ((addr + 4096) % 2 ^ 32)
      else s

/-- `buddy_reserve_region` (`pmm.c:584-613`). -/
def buddyReserveRegion (s : Pmm) (startAddr endAddr : Nat) : Pmm :=
  let startAddr := pmmAlignDown startAddr
  let endAddr := pmmAlignUp endAddr
  if startAddr ≥ endAddr then s
  else buddyReserveRegionLoop endAddr ((endAddr - startAddr) / 4096) s startAddr

end Pmm

/-- The end address passed to `buddy_add_region` (`pmm.c:717-721`). The test
`end > 0xFFFFFFFF` on a `uint32_t` is always false. -/
def MmapEntry.regionEnd (e : MmapEntry) : Nat :=
  let start := e.base % 2 ^ 32
  let entryEnd := (e.base + e.length) % 2 ^ 64 % 2 ^ 32
  if entryEnd < start then 0xFFFFFFFF else entryEnd

/-- One turn of the loop over the memory map (`pmm.c:697-725`). -/
def pmmAddEntry (s : Pmm) (e : MmapEntry) : Pmm :=
  if e.type ≠ 1 then s
  else if e.base ≥ 0xFFFFFFFF then s
  else s.buddyAddRegion (e.base % 2 ^ 32) e.regionEnd

section Layout

variable (k : KernelImage) (mb : Multiboot2)

/-- `pmm_total_pages` (`pmm.c:630`). -/
def initTotalPages : Nat := mb.pmmMaxMemory / 4096

/-- The sizes of the order, status and reference count maps (`pmm.c:632-642`). -/
def orderMapSize : Nat := pmmAlignUp ((initTotalPages mb * 4 + 7) / 8)

@[inherit_doc orderMapSize]
def statusMapSize : Nat := pmmAlignUp ((initTotalPages mb + 7) / 8)

@[inherit_doc orderMapSize]
def refcountMapSize : Nat := pmmAlignUp (initTotalPages mb * 2)

/-- `safe_metadata_start` (`pmm.c:645-652`): the end of the kernel and of all modules. -/
def safeMetadataStart : Nat :=
  mb.bootModules.foldl
    (fun safe m => if m.modulePhysAddrEnd.toNat > safe then m.modulePhysAddrEnd.toNat else safe)
    k.kernelEnd.toNat

/-- `metadata_start` (`pmm.c:653`). -/
def metadataStart : Nat := pmmAlignUp (safeMetadataStart k mb)

/-- `metadata_end` (`pmm.c:655-661`). -/
def metadataEnd : Nat :=
  (metadataStart k mb + orderMapSize mb + statusMapSize mb + refcountMapSize mb) % 2 ^ 32

end Layout

/-- The static data before `pmm_init`. -/
def pmmBoot (mem : Mem) : Pmm where
  mem := mem
  buddyFreeLists := fun _ => 0
  buddyOrderMap := fun _ => 0
  buddyStatusMap := fun _ => 0
  buddyRefcountMap := fun _ => 0
  pmmTotalPages := 0
  pmmUsedPages := 0
  buddyAllocCount := fun _ => 0

/-- The state of `pmm_init` once all regions to keep are reserved (`pmm.c:663-691`). -/
def pmmReserved (k : KernelImage) (mb : Multiboot2) (mem : Mem) : Pmm :=
  let s := { pmmBoot mem with pmmTotalPages := initTotalPages mb }
  let s := s.buddyReserveRegion 0 0x100000
  let s := s.buddyReserveRegion k.kernelStart.toNat (metadataEnd k mb)
  mb.bootModules.foldl
    (fun s m => s.buddyReserveRegion m.modulePhysAddrStart.toNat m.modulePhysAddrEnd.toNat) s

/-- `pmm_init` (`pmm.c:619-726`). -/
def pmmInit (k : KernelImage) (mb : Multiboot2) (mem : Mem) : Pmm :=
  if mb.pmmMaxMemory = 0 then pmmBoot mem
  else mb.savedMmap.foldl pmmAddEntry (pmmReserved k mb mem)

end Stos.Kernel
