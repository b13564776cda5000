import Stos.Kernel.Memory.Pmm
import Stos.Misc.AlignedBlocks
import Stos.Misc.Dll

/-!
# What a consistent buddy state is

Only the first page of a block carries meaningful status and order bits, and the bits of
the pages inside a block are left over from earlier splits and merges. The invariant is
therefore stated through a map of the pages into naturally aligned blocks that the program
does not store: `BuddyInv s blk` says that the free lists and the two bit maps of `s`
describe the blocks of `blk`.
-/

namespace Stos.Kernel

/-- What a block of pages is used for. -/
inductive BlockKind where
  /-- on the free list of its order -/
  | free
  /-- handed out to a caller -/
  | live
  /-- marked allocated at boot and never handed out -/
  | reserved
  /-- taken off the lists by an operation that has not finished -/
  | held
  deriving DecidableEq, Repr

/-- The cut of physical memory into blocks of pages. -/
abbrev Blocks := BlockMap BlockKind

/-- The free list of order `o` is the doubly linked list of the addresses `xs`. -/
def FreeList (s : Pmm) (o : Nat) (xs : List Nat) : Prop :=
  IsDll 0 (blockNext s.mem) (blockPrev s.mem) (s.buddyFreeLists o) xs

/-- Each free list holds exactly the addresses of the free blocks of its order. -/
def ListsInv (s : Pmm) (blk : Blocks) : Prop :=
  ∀ o, o ≤ 10 → ∃ xs, FreeList s o xs ∧
    ∀ a, a ∈ xs ↔ ∃ p, a = p * 4096 ∧ blk.HasBlock p o .free

/-- Following the free list of order `o` from its head reaches the block at `addr`. -/
def OnFreeList (s : Pmm) (o addr : Nat) : Prop :=
  ∃ n, (blockNext s.mem)^[n] (s.buddyFreeLists o) = addr ∧
    ∀ i, i ≤ n → (blockNext s.mem)^[i] (s.buddyFreeLists o) ≠ 0

/-- No two buddies of one order below the largest are both free. -/
def FullyCoalesced (s : Pmm) : Prop :=
  ∀ p o, o < 10 → OnFreeList s o (p * 4096) → ¬ OnFreeList s o (buddyGetBuddyPage p o * 4096)

/-- The free lists and the bit maps describe the blocks of `blk`. -/
structure BlocksInv (s : Pmm) (blk : Blocks) : Prop where
  total_le : s.pmmTotalPages ≤ 2 ^ 20
  aligned : blk.Aligned
  order_le : ∀ q o k, blk q = some (o, k) → o ≤ 10
  inRange : ∀ q o k, blk q = some (o, k) → q < s.pmmTotalPages
  lists : ListsInv s blk
  maps : ∀ p o k, blk.HasBlock p o k → k ≠ .held →
    s.buddyGetOrder p = o ∧ s.buddyIsAllocated p = decide (k ≠ .free)

/-- A page of no block may exist below `pmm_total_pages` (a hole of the memory map); its
order bits are zero and the page it could be merged with is not in use. -/
structure BuddyInv (s : Pmm) (blk : Blocks) : Prop extends BlocksInv s blk where
  hole : ∀ h, h < s.pmmTotalPages → blk h = none →
    s.buddyGetOrder h = 0 ∧ ∀ o k, blk (h ^^^ 1) = some (o, k) → k = .reserved

/-- The state between two operations. Address 0 is the end of every list and the failure
result, so page 0 is neither free (`BuddyInv.lists`) nor live. -/
structure Steady (s : Pmm) (blk : Blocks) : Prop extends BuddyInv s blk where
  settled : ∀ q o, blk q ≠ some (o, .held)
  zero_not_live : ∀ o, blk 0 ≠ some (o, .live)

/-- A well-formed state: all pages below `pmm_total_pages` are cut into free, live and
reserved blocks. -/
structure WellFormed (s : Pmm) (blk : Blocks) : Prop extends Steady s blk where
  covered : ∀ q, q < s.pmmTotalPages → ∃ o k, blk q = some (o, k)

/-- A block of `2 ^ order` pages from `page` on. -/
structure PageBlock where
  page : Nat
  order : Nat
  deriving DecidableEq, Repr

/-- `q` is one of the pages of the block. -/
def PageBlock.Has (b : PageBlock) (q : Nat) : Prop := b.page ≤ q ∧ q < b.page + 2 ^ b.order

/-- `live` lists exactly the live blocks of `blk`. -/
def LiveBlocks (blk : Blocks) (live : Finset PageBlock) : Prop :=
  ∀ b, b ∈ live ↔ blk.HasBlock b.page b.order .live

/-- What callers do with the allocator: sequences of calls from `s0`, where `live` holds the
blocks handed out and not yet freed, and `out` and `back` count the pages handed out and
freed. Between calls the owners of live blocks write to them. Only starts of live blocks
are freed; freeing a block with a shared page has no effect. -/
inductive PmmRun (s0 : Pmm) (live0 : Finset PageBlock) :
    Pmm → Finset PageBlock → Nat → Nat → Prop where
  | start : PmmRun s0 live0 s0 live0 0 0
  | allocPage {s live out back} (run : PmmRun s0 live0 s live out back)
      (ret : s.pmmAllocPage.1 ≠ 0) :
      PmmRun s0 live0 s.pmmAllocPage.2 (insert ⟨pmmAddrToPage s.pmmAllocPage.1, 0⟩ live)
        (out + 1) back
  | allocPageFailed {s live out back} (run : PmmRun s0 live0 s live out back)
      (ret : s.pmmAllocPage.1 = 0) : PmmRun s0 live0 s.pmmAllocPage.2 live out back
  | allocPages {s live out back} (run : PmmRun s0 live0 s live out back)
      {fuel count order addr s'} (horder : buddyCalculateOrder fuel count = some order)
      (ret : s.pmmAllocPages fuel count = some (addr, s')) (hne : addr ≠ 0) :
      PmmRun s0 live0 s' (insert ⟨pmmAddrToPage addr, order⟩ live) (out + 2 ^ order) back
  | allocPagesFailed {s live out back} (run : PmmRun s0 live0 s live out back)
      {fuel count s'} (ret : s.pmmAllocPages fuel count = some (0, s')) :
      PmmRun s0 live0 s' live out back
  | freePage {s live out back} (run : PmmRun s0 live0 s live out back) {b : PageBlock}
      (hb : b ∈ live) (unshared : ∀ q, b.Has q → s.buddyRefcountMap q ≤ 1) :
      PmmRun s0 live0 (s.pmmFreePage (pmmPageToAddr b.page)) (live.erase b) out
        (back + 2 ^ b.order)
  | freeShared {s live out back} (run : PmmRun s0 live0 s live out back) {b : PageBlock}
      (hb : b ∈ live) {q : Nat} (hq : b.Has q) (shared : s.buddyRefcountMap q > 1) :
      PmmRun s0 live0 (s.pmmFreePage (pmmPageToAddr b.page)) live out back
  | write {s live out back} (run : PmmRun s0 live0 s live out back) {mem' : Mem}
      (owned : ∀ a, (∀ b ∈ live, ¬ b.Has (a / 4096)) → mem' a = s.mem a) :
      PmmRun s0 live0 { s with mem := mem' } live out back

end Stos.Kernel
