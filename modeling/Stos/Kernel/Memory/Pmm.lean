import Stos.Misc.Bytes
import Stos.Misc.BitMap

/-!
# The physical memory manager

The buddy allocator of `kernel/kernel/memory/pmm.c`. Physical addresses, page
numbers and orders are natural numbers, reduced modulo `2 ^ 32` where the C arithmetic can
wrap; `PMM_PAGE_SIZE` is 4096 and `BUDDY_MAX_ORDER` is 10. The free lists run through
headers in the free pages, so the state carries the physical memory.
`pmm_access_block` gives the block at a physical address (below 1 GiB once paging is
enabled) and is the identity here. Each exported function holds `pmm_lock` for its whole
body, so a call is one step.
-/

namespace Stos.Kernel

open Function

/-- The static variables of `pmm.c:50-78`, and physical memory. -/
structure Pmm where
  mem : Mem
  buddyFreeLists : Nat → Nat
  buddyOrderMap : Words
  buddyStatusMap : Words
  buddyRefcountMap : Nat → Nat
  pmmTotalPages : Nat
  pmmUsedPages : BitVec 32
  buddyAllocCount : Nat → BitVec 32

/-! ## Address arithmetic (`pmm.h`) -/

/-- `(addr & (PMM_PAGE_SIZE - 1)) == 0` (`pmm.h:153-156`). -/
def pmmIsAligned (addr : Nat) : Bool := addr % 4096 == 0

/-- `(addr + PMM_PAGE_SIZE - 1) & ~(PMM_PAGE_SIZE - 1)` (`pmm.h:164-167`). -/
def pmmAlignUp (addr : Nat) : Nat := (addr + 4095) % 2 ^ 32 / 4096 * 4096

/-- `addr & ~(PMM_PAGE_SIZE - 1)` (`pmm.h:175-178`). -/
def pmmAlignDown (addr : Nat) : Nat := addr / 4096 * 4096

/-- `pmm.h:186-189`. -/
def pmmAddrToPage (addr : Nat) : Nat := addr / 4096

/-- `pmm.h:197-200`. -/
def pmmPageToAddr (page : Nat) : Nat := page * 4096 % 2 ^ 32

/-! ## Block headers and metadata -/

/-- `pmm_access_block(addr)->next`. -/
def blockNext (m : Mem) (addr : Nat) : Nat := (read32 m addr).toNat

/-- `pmm_access_block(addr)->prev`. -/
def blockPrev (m : Mem) (addr : Nat) : Nat := (read32 m (addr + 4)).toNat

/-- `pmm_access_block(addr)->next = v`. -/
def setBlockNext (m : Mem) (addr v : Nat) : Mem := write32 m addr (BitVec.ofNat 32 v)

/-- `pmm_access_block(addr)->prev = v`. -/
def setBlockPrev (m : Mem) (addr v : Nat) : Mem := write32 m (addr + 4) (BitVec.ofNat 32 v)

variable (s : Pmm)

namespace Pmm

/-- `buddy_get_order` (`pmm.c:106-116`). -/
def buddyGetOrder (page : Nat) : Nat := (nibbleGet s.buddyOrderMap page).toNat

/-- `buddy_set_order` (`pmm.c:121-131`). -/
def buddySetOrder (page order : Nat) : Pmm :=
  { s with buddyOrderMap := nibbleSet s.buddyOrderMap page (BitVec.ofNat 32 order) }

/-- `buddy_is_allocated` (`pmm.c:136-141`). -/
def buddyIsAllocated (page : Nat) : Bool := bitGet s.buddyStatusMap page

/-- `buddy_mark_allocated` (`pmm.c:146-151`). -/
def buddyMarkAllocated (page : Nat) : Pmm :=
  { s with buddyStatusMap := bitSet s.buddyStatusMap page }

/-- `buddy_mark_free` (`pmm.c:156-161`). -/
def buddyMarkFree (page : Nat) : Pmm :=
  { s with buddyStatusMap := bitClear s.buddyStatusMap page }

/-- `buddy_get_refcount` (`pmm.c:163-169`). -/
def buddyGetRefcount (page : Nat) : Nat :=
  if page ≥ s.pmmTotalPages then 0 else s.buddyRefcountMap page

/-- `buddy_set_refcount` (`pmm.c:171-176`). -/
def buddySetRefcount (page count : Nat) : Pmm :=
  if page < s.pmmTotalPages then
    { s with buddyRefcountMap := update s.buddyRefcountMap page count }
  else s

/-- `buddy_inc_refcount` (`pmm.c:178-190`): a count of `UINT16_MAX` stays. -/
def buddyIncRefcount (page : Nat) : Nat × Pmm :=
  if page ≥ s.pmmTotalPages then (0, s)
  else
    let current := s.buddyRefcountMap page
    if current = 65535 then (65535, s)
    else
      (current + 1,
        { s with buddyRefcountMap := update s.buddyRefcountMap page (current + 1) })

/-- `buddy_dec_refcount` (`pmm.c:192-211`); `none` is the `abort()` on a count of zero. -/
def buddyDecRefcount (page : Nat) : Option (Nat × Pmm) :=
  if page ≥ s.pmmTotalPages then some (0, s)
  else
    let current := s.buddyRefcountMap page
    if current = 0 then none
    else if current = 65535 then some (65535, s)
    else
      some (current - 1,
        { s with buddyRefcountMap := update s.buddyRefcountMap page (current - 1) })

/-- `buddy_is_page_shared` (`pmm.c:213-219`). -/
def buddyIsPageShared (page : Nat) : Bool :=
  if page ≥ s.pmmTotalPages then false else decide (s.buddyRefcountMap page ≥ 2)

end Pmm

/-- `buddy_get_buddy_page` (`pmm.c:228-232`). -/
def buddyGetBuddyPage (page order : Nat) : Nat := page ^^^ 2 ^ order

/-- `buddy_is_order_aligned` (`pmm.c:237-241`). -/
def buddyIsOrderAligned (addr order : Nat) : Bool := addr % (4096 * 2 ^ order) == 0

/-- The loop of `buddy_calculate_order` (`pmm.c:256-259`) with `power` a `size_t` and
`order` a `uint8_t`; `none` when the fuel is used up before the loop ends. -/
def buddyCalculateOrderLoop (count : Nat) : Nat → Nat → Nat → Option Nat
  | 0, _, _ => none
  | fuel + 1, power, order =>
      if power < count then
        buddyCalculateOrderLoop count fuel (power * 2 % 2 ^ 32) ((order + 1) % 256)
      else some order

/-- `buddy_calculate_order` (`pmm.c:247-266`). -/
def buddyCalculateOrder (fuel count : Nat) : Option Nat :=
  if count = 0 then some 0
  else if count = 1 then some 0
  else
    (buddyCalculateOrderLoop count fuel 1 0).map fun order => if order > 10 then 10 else order

namespace Pmm

/-! ## Free list management -/

/-- `buddy_add_to_free_list` (`pmm.c:275-289`). -/
def buddyAddToFreeList (addr order : Nat) : Pmm :=
  let head := s.buddyFreeLists order
  let mem := setBlockPrev (setBlockNext s.mem addr head) addr 0
  { s with
    mem := if head ≠ 0 then setBlockPrev mem head addr else mem
    buddyFreeLists := update s.buddyFreeLists order addr }

/-- `buddy_remove_from_free_list` (`pmm.c:294-310`). -/
def buddyRemoveFromFreeList (addr order : Nat) : Pmm :=
  let s :=
    if blockPrev s.mem addr ≠ 0 then
      { s with mem := setBlockNext s.mem (blockPrev s.mem addr) (blockNext s.mem addr) }
    else
      -- the block was the head of the list
      { s with buddyFreeLists := update s.buddyFreeLists order (blockNext s.mem addr) }
  if blockNext s.mem addr ≠ 0 then
    { s with mem := setBlockPrev s.mem (blockNext s.mem addr) (blockPrev s.mem addr) }
  else s

/-! ## Core operations -/

/-- `buddy_split_block` (`pmm.c:320-337`). -/
def buddySplitBlock (s : Pmm) (addr : Nat) : Nat → Nat → Pmm
  | 0, _ => s
  | fromOrder + 1, toOrder =>
      if fromOrder + 1 > toOrder then
        let buddyAddr := (addr + 4096 * 2 ^ fromOrder) % 2 ^ 32
        let s := s.buddyAddToFreeList buddyAddr fromOrder
        let buddyPage := pmmAddrToPage buddyAddr
        let s := (s.buddySetOrder buddyPage fromOrder).buddyMarkFree buddyPage
        buddySplitBlock s addr fromOrder toOrder
      else s

/-- The loop of `buddy_coalesce` (`pmm.c:347-374`); the order grows with every turn, so
`fuel` turns are enough once `10 ≤ order + fuel`. -/
def buddyCoalesceLoop : Nat → Pmm → Nat → Nat → Nat → Nat × Pmm
  | 0, s, _, addr, _ => (addr, s)
  | fuel + 1, s, page, addr, order =>
      if order < 10 then
        let buddyPage := buddyGetBuddyPage page order
        if buddyPage ≥ s.pmmTotalPages then (addr, s)
        else if s.buddyIsAllocated buddyPage ∨ s.buddyGetOrder buddyPage ≠ order then (addr, s)
        else
          let buddyAddr := pmmPageToAddr buddyPage
          let s := s.buddyRemoveFromFreeList buddyAddr order
          -- merge: the lower address starts the merged block
          let page' := if buddyPage < page then buddyPage else page
          let addr' := if buddyPage < page then buddyAddr else addr
          buddyCoalesceLoop fuel (s.buddySetOrder page' (order + 1)) page' addr' (order + 1)
      else (addr, s)

/-- `buddy_coalesce` (`pmm.c:343-377`). -/
def buddyCoalesce (addr order : Nat) : Nat × Pmm :=
  buddyCoalesceLoop (10 - order) s (pmmAddrToPage addr) addr order

/-- The search of `buddy_alloc_order` (`pmm.c:390-393`): the first order from `order` on
whose list is not empty, 11 if there is none. -/
def buddyFindOrder (s : Pmm) : Nat → Nat → Nat
  | 0, order => order
  | fuel + 1, order =>
      if order ≤ 10 ∧ s.buddyFreeLists order = 0 then s.buddyFindOrder fuel (order + 1) else order

/-- `for (i = 0; i < n; i++) buddy_set_refcount(page + i, count)`. -/
def buddySetRefcounts (page n count : Nat) : Pmm :=
  (List.range n).foldl (fun s i => s.buddySetRefcount (page + i) count) s

/-- `buddy_alloc_order` (`pmm.c:382-431`). -/
def buddyAllocOrder (order : Nat) : Nat × Pmm :=
  if order > 10 then (0, s)
  else
    let currentOrder := s.buddyFindOrder (11 - order) order
    if currentOrder > 10 then (0, s)
    else
      let addr := s.buddyFreeLists currentOrder
      let s := s.buddyRemoveFromFreeList addr currentOrder
      let page := pmmAddrToPage addr
      let s := if currentOrder > order then s.buddySplitBlock addr currentOrder order else s
      let s := (s.buddySetOrder page order).buddyMarkAllocated page
      let s := s.buddySetRefcounts page (2 ^ order) 1
      (addr,
        { s with
          pmmUsedPages := s.pmmUsedPages + BitVec.ofNat 32 (2 ^ order)
          buddyAllocCount :=
            update s.buddyAllocCount order (s.buddyAllocCount order + 1) })

/-- `buddy_free_order` (`pmm.c:436-499`). -/
def buddyFreeOrder (addr order : Nat) : Pmm :=
  let addr := if pmmIsAligned addr then addr else pmmAlignDown addr
  let page := pmmAddrToPage addr
  if page ≥ s.pmmTotalPages then s
  else if !s.buddyIsAllocated page then s
  else if (List.range (2 ^ order)).any fun i => s.buddyGetRefcount (page + i) > 1 then
    -- a page of the block is still referenced elsewhere
    s
  else
    let s := (s.buddyMarkFree page).buddySetRefcounts page (2 ^ order) 0
    let s :=
      { s with
        pmmUsedPages := s.pmmUsedPages - BitVec.ofNat 32 (2 ^ order)
        buddyAllocCount :=
          if s.buddyAllocCount order ≠ 0 then
            update s.buddyAllocCount order (s.buddyAllocCount order - 1)
          else s.buddyAllocCount }
    let (addr, s) := s.buddyCoalesce addr order
    s.buddyAddToFreeList addr (s.buddyGetOrder (pmmAddrToPage addr))

/-! ## Public API -/

/-- `pmm_alloc_page` (`pmm.c:733-739`): the physical address, 0 when out of memory. -/
def pmmAllocPage : Nat × Pmm := s.buddyAllocOrder 0

/-- `pmm_alloc_pages` (`pmm.c:741-752`); `none` when the order computation has not ended
after `fuel` turns. -/
def pmmAllocPages (fuel count : Nat) : Option (Nat × Pmm) :=
  if count = 0 then some (0, s)
  else (buddyCalculateOrder fuel count).map s.buddyAllocOrder

/-- `pmm_free_page` (`pmm.c:754-761`). -/
def pmmFreePage (addr : Nat) : Pmm :=
  s.buddyFreeOrder addr (s.buddyGetOrder (pmmAddrToPage addr))

/-- `pmm_get_refcount` (`pmm.c:880-893`). -/
def pmmGetRefcount (physAddr : Nat) : Nat :=
  if pmmIsAligned physAddr then s.buddyGetRefcount (pmmAddrToPage physAddr) else 0

/-- `pmm_inc_refcount` (`pmm.c:895-915`); `none` is the `abort()` on a free page. -/
def pmmIncRefcount (physAddr : Nat) : Option (Nat × Pmm) :=
  if !pmmIsAligned physAddr then some (0, s)
  else if !s.buddyIsAllocated (pmmAddrToPage physAddr) then none
  else some (s.buddyIncRefcount (pmmAddrToPage physAddr))

/-- `pmm_dec_refcount` (`pmm.c:917-937`); `none` is the `abort()` on a free page. -/
def pmmDecRefcount (physAddr : Nat) : Option (Nat × Pmm) :=
  if !pmmIsAligned physAddr then some (0, s)
  else if !s.buddyIsAllocated (pmmAddrToPage physAddr) then none
  else s.buddyDecRefcount (pmmAddrToPage physAddr)

end Pmm

end Stos.Kernel
