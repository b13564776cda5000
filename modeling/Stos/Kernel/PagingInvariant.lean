import Stos.Kernel.Paging
import Stos.Kernel.Memory.PmmInvariant
import Stos.Misc.Sharing

/-!
# What consistent address spaces are

The user half of all live page directories together. A slot is one page table entry of user
space, named by its directory, its directory index and its table index. `UserSpaces` holds
what the program does not store: the live directories, which page is the table of which
directory index, and the slots that count. Inside `paging_clone_directory` a new table is
not yet entered in its directory, and inside `paging_free_user_pages` entries that were
dropped are still in memory, so the three are kept apart from the bytes; between two
operations they are read off them (`Rooted`).
-/

namespace Stos.Kernel

/-! ## Pages seen by their users -/

/-- Page `q` is in a block on a free list. -/
def IsFree (blk : Blocks) (q : Nat) : Prop := ∃ o, blk q = some (o, .free)

/-- Page `q` was handed out as a block of its own. -/
def IsPage (blk : Blocks) (q : Nat) : Prop := blk q = some (0, .live)

/-- The reference count of page `q`. -/
def Machine.refs (s : Machine) (q : Nat) : Nat := s.pmm.buddyRefcountMap q

/-- The frame rule of the development: of the pages in use before (not on a free list), only
those of `W` change their bytes, only those of `R` their reference count, and only those of
both may be given back. Pages that were free are not mentioned, so an allocation is framed by
empty sets. -/
structure Keeps (s : Machine) (blk : Blocks) (s' : Machine) (blk' : Blocks) (W R : Set Nat) :
    Prop where
  steady : Steady s'.pmm blk'
  status : ∀ q, ¬ IsFree blk q → (q ∈ W → q ∉ R) → blk' q = blk q
  mem : ∀ a, ¬ IsFree blk (a / 4096) → a / 4096 ∉ W → s'.mem a = s.mem a
  refs : ∀ q, ¬ IsFree blk q → q ∉ R → s'.refs q = s.refs q
  kernel : s'.kernelPageDirectory = s.kernelPageDirectory
  current : s'.currentPageDirectory = s.currentPageDirectory

/-! ## Address spaces -/

/-- The page an entry refers to. -/
def PageEntry.page (e : PageEntry) : Nat := e.frame.toNat

/-- The entry is marked copy-on-write and does not allow writes. -/
def PageEntry.Locked (e : PageEntry) : Prop := e.cow = true ∧ e.rw = false

/-- A page table entry of user space: the page of its directory, the index in the directory
and the index in the table. -/
abbrev Slot := Nat × Nat × Nat

/-- The live directories, their tables and the slots that count. -/
structure UserSpaces where
  dirs : Finset Nat
  table : Nat → Nat → Option Nat
  slots : Finset Slot

/-- The entry in slot `x`, if it is present. -/
def Machine.userEntry (s : Machine) (table : Nat → Nat → Option Nat) (x : Slot) :
    Option PageEntry :=
  (table x.1 x.2.1).bind fun t =>
    let e := s.entry (t * 4096) x.2.2
    if e.present then some e else none

/-- Entries that are not present carry no copy-on-write mark, so that mapping a page there
(`paging_map_page` keeps the available bits) does not make one. -/
def Machine.Clean (s : Machine) (u : UserSpaces) : Prop :=
  ∀ d i t, u.table d i = some t → ∀ j, j < 1024 →
    (s.entry (t * 4096) j).present = false → (s.entry (t * 4096) j).cow = false

/-- Directories, tables and mapped pages are three disjoint sets of pages in use; directories
and tables have one owner, and the reference counts of mapped pages count the slots. -/
structure UserInv (s : Machine) (blk : Blocks) (u : UserSpaces) : Prop where
  steady : Steady s.pmm blk
  dir : ∀ d ∈ u.dirs, IsPage blk d ∧ s.refs d = 1
  table : ∀ d i t, u.table d i = some t → IsPage blk t ∧ s.refs t = 1 ∧ t ∉ u.dirs
  table_inj : ∀ d i d' i' t, u.table d i = some t → u.table d' i' = some t → d = d' ∧ i = i'
  table_dir : ∀ d i t, u.table d i = some t → d ∈ u.dirs ∧ 1 ≤ i ∧ i < 256
  slot_lt : ∀ x ∈ u.slots, x.2.2 < 1024
  clean : s.Clean u
  frame : ∀ x ∈ u.slots, ∀ e, s.userEntry u.table x = some e →
    IsPage blk e.page ∧ e.page ∉ u.dirs ∧ ∀ d i, u.table d i ≠ some e.page
  shared : Shared PageEntry.page PageEntry.Locked 65535 u.slots (s.userEntry u.table) s.refs

/-- The page of the table that entry `i` of directory `d` refers to. -/
def Machine.tableOf (s : Machine) (d i : Nat) : Option Nat :=
  let e := s.entry (d * 4096) i
  if e.present then some e.page else none

/-- The slots of the directories `dirs`: user space is entries 1 to 255. -/
def allSlots (dirs : Finset Nat) : Finset Slot := dirs ×ˢ (Finset.Ico 1 256 ×ˢ Finset.range 1024)

/-- The tables are those that the directories hold. -/
def Rooted (s : Machine) (u : UserSpaces) : Prop :=
  ∀ d ∈ u.dirs, ∀ i, 1 ≤ i → i < 256 → u.table d i = s.tableOf d i

end Stos.Kernel
