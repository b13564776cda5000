import Stos.Misc.Tiling

/-!
# The virtual memory manager

Model of `src/kernel/kernel/memory/vmm.c`: the list of regions that covers the kernel's part of
the address space and user space, and the pool that the region records are taken from. The
doubly linked list is the Lean list of its records. Whether a page of an allocation gets a
physical page and a mapping is decided by the page allocator and by paging; here it is the
argument `backed`, so that results hold whichever page the machine runs out at. Statistics and
debug output are left out.
-/

namespace Stos.Kernel

/-- `vmm_region_t` (`vmm.h:33-40`). `dynamic` tells a record of the dedicated page from one of
the bootstrap pool. -/
structure Region where
  start : Nat
  stop : Nat
  flags : BitVec 32
  isFree : Bool
  dynamic : Bool
deriving DecidableEq, Repr

/-- The variables of `vmm.c:16-33`; of `vmm_region_free_list` only its length matters. -/
structure Vmm where
  regionList : List Region
  bootstrapPoolIndex : Nat
  useDynamicAllocation : Bool
  vmmRegionPageIndex : Nat
  vmmRegionFreeList : Nat
deriving DecidableEq, Repr

/-- `is_kernel_address` (`vmm.c:49-52`). -/
def isKernelAddress (addr : Nat) : Bool :=
  decide (addr ≥ 0x100000 ∧ addr < 0x400000) || decide (addr ≥ 0x40000000 ∧ addr < 0xC0000000)

/-- `PAGE_ALIGN_UP` (`vmm.h:29`) on 32-bit values. -/
def pageAlignUp (addr : Nat) : Nat := (addr + 4095) % 2 ^ 32 / 4096 * 4096

variable (s : Vmm)

namespace Vmm

/-- `vmm_create_region` (`vmm.c:504-566`): a record holds 24 bytes, so the dedicated page
holds 170. -/
def vmmCreateRegion (start stop : Nat) (flags : BitVec 32) (isFree : Bool) : Option Region × Vmm :=
  if s.useDynamicAllocation then
    if s.vmmRegionFreeList ≠ 0 then
      (some ⟨start, stop, flags, isFree, true⟩,
        { s with vmmRegionFreeList := s.vmmRegionFreeList - 1 })
    else if s.vmmRegionPageIndex ≥ 170 then (none, s)
    else
      (some ⟨start, stop, flags, isFree, true⟩,
        { s with vmmRegionPageIndex := s.vmmRegionPageIndex + 1 })
  else if s.bootstrapPoolIndex ≥ 32 then (none, s)
  else
    (some ⟨start, stop, flags, isFree, false⟩,
      { s with bootstrapPoolIndex := s.bootstrapPoolIndex + 1 })

/-- `vmm_insert_region` (`vmm.c:606-641`). -/
def vmmInsertRegion (region : Region) : List Region → List Region
  | [] => [region]
  | current :: rest =>
      if current.start < region.start then current :: vmmInsertRegion region rest
      else region :: current :: rest

/-- One of the three blocks of `vmm_init`. -/
def vmmAddRegion (start stop : Nat) (flags : BitVec 32) (isFree : Bool) : Option Vmm :=
  match s.vmmCreateRegion start stop flags isFree with
  | (none, _) => none
  | (some region, s) => some { s with regionList := vmmInsertRegion region s.regionList }

/-- The state before `vmm_init`. -/
def unused : Vmm := ⟨[], 0, false, 0, 0⟩

/-- `vmm_init` (`vmm.c:91-143`): the kernel image, user space and the kernel heap. -/
def vmmInit : Vmm :=
  ((unused.vmmAddRegion 0x100000 0x400000 0x3 false).bind fun s =>
    (s.vmmAddRegion 0x400000 0x40000000 0x6 true).bind fun s =>
      s.vmmAddRegion 0x40000000 0xC0000000 0x2 true).getD unused

/-- `vmm_enable_dynamic_allocation` (`vmm.c:58-86`); `page` says whether a physical page was
left for the records. -/
def vmmEnableDynamicAllocation (page : Bool) : Vmm :=
  if s.useDynamicAllocation then s
  else if !page then s
  else { s with useDynamicAllocation := true, vmmRegionPageIndex := 0 }

/-- `vmm_find_region` (`vmm.c:667-678`). -/
def vmmFindRegion (virt : Nat) : Option Region :=
  s.regionList.find? fun r => decide (r.start ≤ virt) && decide (virt < r.stop)

/-- The loop of `vmm_merge_free_regions` from `region` on: the regions that are left and the
number of records that go back to the free list. -/
def vmmMergeFrom (region : Region) : List Region → List Region × Nat
  | [] => ([region], 0)
  | next :: rest =>
      if region.isFree && next.isFree && decide (region.stop = next.start) then
        let (regions, records) := vmmMergeFrom { region with stop := next.stop } rest
        (regions, if next.dynamic then records + 1 else records)
      else
        let (regions, records) := vmmMergeFrom next rest
        (region :: regions, records)

/-- `vmm_merge_free_regions` (`vmm.c:683-702`). -/
def vmmMergeFreeRegions : Vmm :=
  match s.regionList with
  | [] => s
  | region :: rest =>
      { s with
        regionList := (vmmMergeFrom region rest).1
        vmmRegionFreeList := s.vmmRegionFreeList + (vmmMergeFrom region rest).2 }

/-- `vmm_split_region` (`vmm.c:707-734`): the two parts. -/
def vmmSplitRegion (region : Region) (splitPoint : Nat) : Option (Region × Region) × Vmm :=
  if splitPoint ≤ region.start ∨ splitPoint ≥ region.stop then (none, s)
  else
    match s.vmmCreateRegion splitPoint region.stop region.flags region.isFree with
    | (none, s) => (none, s)
    | (some second, s) => (some ({ region with stop := splitPoint }, second), s)

/-- The region at `virt` becomes free. -/
def vmmMarkFree (virt : Nat) : Vmm :=
  { s with
    regionList := s.regionList.replaceF fun r =>
      if r.start ≤ virt ∧ virt < r.stop then some { r with isFree := true } else none }

/-- The rollback of `vmm_alloc` (`vmm.c:189-195`). -/
def vmmRollback (allocStart : Nat) : Vmm :=
  match s.vmmFindRegion allocStart with
  | none => s
  | some _ => (s.vmmMarkFree allocStart).vmmMergeFreeRegions

/-- The test of a region in the loop of `vmm_alloc` (`vmm.c:158-164`). -/
def suits (size : Nat) (flags : BitVec 32) (region : Region) : Bool :=
  region.isFree && decide (region.stop - region.start ≥ size)
    && (decide (flags &&& 0x4 = 0) == isKernelAddress region.start)

/-- The part of `vmm_alloc` that takes `size` bytes off a suitable region
(`vmm.c:167-184`): what the region becomes. -/
def vmmTake (region : Region) (size : Nat) (flags : BitVec 32) : Option (List Region × Vmm) :=
  if region.stop - region.start = size then
    some ([{ region with isFree := false, flags := flags ||| 0x1 }], s)
  else
    match s.vmmSplitRegion region (region.start + size) with
    | (none, _) => none
    | (some (allocated, second), s) =>
        some ([{ allocated with isFree := false, flags := flags ||| 0x1 }, second], s)

/-- `vmm_alloc` (`vmm.c:148-231`). -/
def vmmAlloc (pages : Nat) (flags : BitVec 32) (backed : Nat → Bool) : Nat × Vmm :=
  if pages = 0 then (0, s)
  else
    let size := pages * 4096 % 2 ^ 32
    let before := s.regionList.takeWhile fun r => !suits size flags r
    match s.regionList.dropWhile fun r => !suits size flags r with
    | [] => (0, s)
    | region :: after =>
        match s.vmmTake region size flags with
        | none => (0, s)
        | some (taken, s) =>
            let s := { s with regionList := before ++ (taken ++ after) }
            if ∀ i < pages, backed i = true then (region.start, s)
            else (0, s.vmmRollback region.start)

/-- The pages that `vmm_unmap_region` unmaps (`vmm.c:330-339`). -/
def vmmUnmapRegion (virt pages : Nat) : List Nat :=
  (List.range pages).map fun i => (virt + i * 4096) % 2 ^ 32

/-- `vmm_free` (`vmm.c:236-280`), which unmaps `vmmUnmapRegion virt pages` when it returns true. -/
def vmmFree (virt pages : Nat) : Bool × Vmm :=
  if virt = 0 ∨ pages = 0 then (false, s)
  else if virt % 4096 ≠ 0 then (false, s)
  else
    match s.vmmFindRegion virt with
    | none => (false, s)
    | some region =>
        if region.isFree then (false, s)
        else if region.stop - region.start ≠ pages * 4096 % 2 ^ 32 then (false, s)
        else (true, (s.vmmMarkFree virt).vmmMergeFreeRegions)

/-- `vmm_kernel_alloc` (`vmm.c:470-481`). -/
def vmmKernelAlloc (size : Nat) (backed : Nat → Bool) : Nat × Vmm :=
  if size = 0 then (0, s)
  else s.vmmAlloc (pageAlignUp size / 4096) 0x2 backed

/-- `vmm_kernel_free` (`vmm.c:486-497`). -/
def vmmKernelFree (ptr size : Nat) : Vmm :=
  if ptr = 0 ∨ size = 0 then s
  else (s.vmmFree ptr (pageAlignUp size / 4096)).2

end Vmm

/-! ## Runs -/

/-- A call of the manager. -/
inductive VmmCall where
  | alloc (pages : Nat) (flags : BitVec 32) (backed : Nat → Bool)
  | free (virt pages : Nat)
  | enableDynamicAllocation (page : Bool)

/-- Arguments are 32-bit values, and no machine has pages for the whole address space: page 0 is
never handed out. -/
def VmmCall.Valid : VmmCall → Prop
  | .alloc pages _ backed => pages < 2 ^ 32 ∧ ∃ i < 2 ^ 20, backed i = false
  | .free virt pages => virt < 2 ^ 32 ∧ pages < 2 ^ 32
  | .enableDynamicAllocation _ => True

def Vmm.perform : VmmCall → Vmm
  | .alloc pages flags backed => (s.vmmAlloc pages flags backed).2
  | .free virt pages => (s.vmmFree virt pages).2
  | .enableDynamicAllocation page => s.vmmEnableDynamicAllocation page

/-- The states that sequences of calls lead to from `vmm_init`, each call allowed in the state
it was made in. -/
inductive VmmRun (allowed : Vmm → VmmCall → Prop) : Vmm → Prop where
  | init : VmmRun allowed Vmm.vmmInit
  | call {s : Vmm} {c : VmmCall} (run : VmmRun allowed s) (valid : c.Valid)
      (hallowed : allowed s c) : VmmRun allowed (s.perform c)

/-- The two regions that meet at `boundary` are not both free. -/
def Shut (boundary : Nat) (regions : List Region) : Prop :=
  regions.IsChain fun r next => ¬ (r.isFree = true ∧ next.isFree = true ∧ r.stop = boundary)

/-- The regions meeting at the borders of user space, `0x400000` and `0x40000000`, are not both
free. -/
def BordersShut (regions : List Region) : Prop := Shut 0x400000 regions ∧ Shut 0x40000000 regions

/-- The borders of user space are shut when a call merges free regions: when an allocation that
found a region runs out of physical pages, and when a region in use is freed, which then counts
as free. -/
def MergesApart : VmmCall → Prop
  | .alloc pages flags backed =>
      (∀ i < pages, backed i = true) ∨
        (∀ r ∈ s.regionList, Vmm.suits (pages * 4096 % 2 ^ 32) flags r = false) ∨
          BordersShut s.regionList
  | .free virt pages =>
      ∀ r, s.vmmFindRegion virt = some r → r.isFree = false →
        r.stop - r.start = pages * 4096 % 2 ^ 32 → BordersShut (s.vmmMarkFree virt).regionList
  | .enableDynamicAllocation _ => True

/-- A region that lies on both sides of `boundary`. -/
def Region.Straddles (r : Region) (boundary : Nat) : Prop := r.start < boundary ∧ boundary < r.stop

/-- The regions are sorted, without gap or overlap, over the whole range. -/
def Vmm.Tiled : Prop :=
  Tiles Region.start Region.stop 0x100000 0xC0000000 s.regionList

/-- The range `[start, stop)` is a region in use. -/
def Vmm.InUse (start stop : Nat) : Prop :=
  ∃ r ∈ s.regionList, r.start = start ∧ r.stop = stop ∧ r.isFree = false

/-- `size` bytes from `start` on lie in the kernel's part of the address space. -/
def InKernelSpace (start size : Nat) : Prop :=
  (0x100000 ≤ start ∧ start + size ≤ 0x400000) ∨
    (0x40000000 ≤ start ∧ start + size ≤ 0xC0000000)

/-- `size` bytes from `start` on lie in user space. -/
def InUserSpace (start size : Nat) : Prop := 0x400000 ≤ start ∧ start + size ≤ 0x40000000

end Stos.Kernel
