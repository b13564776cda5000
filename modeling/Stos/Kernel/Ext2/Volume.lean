import Stos.Misc.BitMap
import Stos.Misc.LittleEndian

/-!
# Blocks and inodes of an ext2 volume

`ext2_alloc_block`, `ext2_free_block` and `ext2_alloc_inode` (`kernel/vfs/mount/ext2`). The device is an
array of bytes; a read or a write goes to the lowest 32 bits of the offset that was set by `vfs_seek`, and
a write needs a handle that is writeable.

`kmalloc` has no memory for sizes from 1025 to 2048, so a buffer for a block of 2048 bytes is `NULL`. The
page at address 0 is mapped, so all such buffers are the same memory.
-/

namespace Stos.Kernel.Ext2

/-- The bytes of the device, and the memory at address 0. -/
structure Volume where
  disk : Mem
  low : Mem

/-! ## Handles of the device -/

def oRdonly : Nat := 0x01

def oWronly : Nat := 0x02

def oRdwr : Nat := 0x04

/-- `handle->writeable` (`vfs.c:49`). -/
def writeable (mode : Nat) : Bool := mode &&& (oWronly ||| oRdwr) ≠ 0

namespace Volume

/-- `vfs_seek` and `vfs_read`. -/
def read (v : Volume) (offset : Nat) : Mem := fun i => v.disk (offset % 2 ^ 32 + i)

/-- `vfs_seek` and `vfs_write`: `hd_write` refuses a handle that is not writeable (`hd/write.c:46-48`). -/
def write (v : Volume) (mode offset n : Nat) (buffer : Mem) : Volume :=
  if writeable mode then { v with disk := writeBytes v.disk (offset % 2 ^ 32) buffer n } else v

/-- The contents of a buffer for a block. -/
def useBuffer (v : Volume) (blockSize : Nat) (buffer : Mem) : Volume :=
  if blockSize = 2048 then { v with low := writeBytes v.low 0 buffer 2048 } else v

end Volume

/-! ## Allocation -/

/-- The block group descriptors are in the block behind the superblock. -/
def gdtStart (blockSize : Nat) : Nat := (if blockSize = 1024 then 2 else 1) * blockSize

/-- Subtraction of `uint32_t`. -/
def sub32 (a b : Nat) : Nat := (a + (2 ^ 32 - b % 2 ^ 32)) % 2 ^ 32

/-- The fields that `ext2_alloc_block` and `ext2_alloc_inode` use: offsets in the superblock (90 bytes) and
in a group descriptor (32 bytes), the mode of the handle, the number of the first bit of group 0 and the
first number that may be given out. -/
structure Allocator where
  sbTotal : Nat
  sbFree : Nat
  sbPerGroup : Nat
  gdtBitmap : Nat
  gdtFree : Nat
  mode : Nat
  first : Nat
  usable : Mem → Nat

namespace Allocator

variable (A : Allocator) (blockSize : Nat)

/-- Writing back the bitmap, the descriptor and the superblock. -/
def commit (v : Volume) (bitmapAddr gdtAddr : Nat) (bitmap gdt sb : Mem) : Volume :=
  ((v.write A.mode bitmapAddr blockSize bitmap).write A.mode gdtAddr 32 gdt).write A.mode 1024 90 sb

/-- The number of groups that are looked at. -/
def groupCount (sb : Mem) : Nat :=
  sub32 (readLE sb A.sbTotal 4 + readLE sb A.sbPerGroup 4) 1 / readLE sb A.sbPerGroup 4

/-- The bits of a group that are looked at. -/
def bitsInGroup (sb : Mem) (count g : Nat) : Nat :=
  let perGroup := readLE sb A.sbPerGroup 4
  if g = sub32 count 1 then sub32 (readLE sb A.sbTotal 4) (g * perGroup) else perGroup

/-- The number that a bit of a group stands for. -/
def number (sb : Mem) (g bit : Nat) : Nat := (g * readLE sb A.sbPerGroup 4 + bit + A.first) % 2 ^ 32

/-- The loop over the bits: the first one that is clear and may be given out. -/
def findBit (sb : Mem) (count g : Nat) (bitmap : Mem) : Option Nat :=
  (List.range (A.bitsInGroup sb count g)).find? fun bit =>
    !byteBit bitmap bit && decide (A.usable sb ≤ A.number sb g bit)

/-- One turn of the loop over the groups: the number, or 0 to go on. -/
def allocGroup (count g : Nat) (v : Volume) (sb : Mem) : Nat × Volume × Mem :=
  let gdtAddr := gdtStart blockSize + g * 32
  let gdt := v.read gdtAddr
  if readLE gdt A.gdtFree 2 = 0 then (0, v, sb)
  else
    let bitmapAddr := readLE gdt A.gdtBitmap 4 * blockSize
    let bitmap := v.read bitmapAddr
    match A.findBit sb count g bitmap with
    | none => (0, v.useBuffer blockSize bitmap, sb)
    | some bit =>
      let result := A.number sb g bit
      let bitmap := setByteBit bitmap bit
      let gdt := writeLE gdt A.gdtFree 2 (readLE gdt A.gdtFree 2 - 1)
      let sb := writeLE sb A.sbFree 4 (sub32 (readLE sb A.sbFree 4) 1)
      (result, A.commit blockSize (v.useBuffer blockSize bitmap) bitmapAddr gdtAddr bitmap gdt sb, sb)

/-- The loop over the groups, which ends when there is a number other than 0. -/
def allocLoop (count : Nat) : (left g : Nat) → Volume → Mem → Nat × Volume
  | 0, _, v, _ => (0, v)
  | left + 1, g, v, sb =>
    let (result, v, sb) := A.allocGroup blockSize count g v sb
    if result = 0 then allocLoop count left (g + 1) v sb else (result, v)

/-- `ext2_alloc_block` and `ext2_alloc_inode`. -/
def allocate (v : Volume) : Nat × Volume :=
  let sb := v.read 1024
  if readLE sb A.sbFree 4 = 0 then (0, v)
  else A.allocLoop blockSize (A.groupCount sb) (A.groupCount sb) 0 v sb

end Allocator

/-- The blocks: `total_blocks`, `total_unalloc_blocks`, `blocks_per_group`, `block_usage_bitmap_addr` and
`unalloc_blocks_count`. The device is opened with `O_RDWR`. -/
def blocks : Allocator := ⟨4, 12, 32, 0, 12, oRdwr, 0, fun _ => 0⟩

/-- The inodes, whose numbers start at 1: `total_inodes`, `total_unalloc_inodes`, `inodes_per_group`,
`inode_usage_bitmap_addr` and `unalloc_inodes_count`. The device is opened with `O_RDONLY`. Inodes below
`first_unreserved_inode` are passed over. -/
def inodes : Allocator := ⟨0, 16, 40, 4, 14, oRdonly, 1, fun sb => readLE sb 84 4⟩

/-- `ext2_alloc_block` (`alloc_block.c:8-80`). -/
def allocBlock (blockSize : Nat) (v : Volume) : Nat × Volume := blocks.allocate blockSize v

/-- `ext2_alloc_inode` (`alloc_inode.c:7-86`). -/
def allocInode (blockSize : Nat) (v : Volume) : Nat × Volume := inodes.allocate blockSize v

/-- `ext2_free_block` (`free_block.c:7-49`). -/
def freeBlock (blockSize : Nat) (v : Volume) (block : Nat) : Volume :=
  let sb := v.read 1024
  let perGroup := readLE sb 32 4
  let gdtAddr := gdtStart blockSize + block / perGroup * 32
  let gdt := v.read gdtAddr
  let bitmapAddr := readLE gdt 0 4 * blockSize
  let bitmap := clearByteBit (v.read bitmapAddr) (block % perGroup)
  let gdt := writeLE gdt 12 2 (readLE gdt 12 2 + 1)
  let sb := writeLE sb 12 4 (readLE sb 12 4 + 1)
  blocks.commit blockSize (v.useBuffer blockSize bitmap) bitmapAddr gdtAddr bitmap gdt sb

/-! ## The format -/

variable (d : Mem)

/-- `total_unalloc_blocks`. -/
def totalUnallocBlocks : Nat := readLE d (1024 + 12) 4

/-- Where the parts of a volume are. Group `g` covers the blocks from `firstData + g * perGroup` on. The
blocks before the end of the descriptors and the bitmaps are metadata, and there may be more. -/
structure Layout where
  blockSize : Nat
  total : Nat
  perGroup : Nat
  bitmapBlock : Nat → Nat
  inodeTable : Nat → Nat
  metadata : Nat → Prop
  blockSize_eq : blockSize = 1024 ∨ blockSize = 2048 ∨ blockSize = 4096
  perGroup_pos : 0 < perGroup
  perGroup_le : perGroup ≤ 8 * blockSize
  total_pos : 1 < total
  total_lt : total < 2 ^ 32

namespace Layout

variable (L : Layout)

/-- The first block of group 0. -/
def firstData : Nat := if L.blockSize = 1024 then 1 else 0

/-- The number of groups. -/
def groups : Nat := (L.total - L.firstData + L.perGroup - 1) / L.perGroup

/-- The address behind the group descriptors. -/
def gdtEnd : Nat := gdtStart L.blockSize + L.groups * 32

/-- The group of a block. -/
def group (b : Nat) : Nat := (b - L.firstData) / L.perGroup

/-- The bitmap of a group. -/
def bitmap (g : Nat) : Mem := fun i => d (L.bitmapBlock g * L.blockSize + i)

/-- A block is marked as used. -/
def used (b : Nat) : Bool := byteBit (L.bitmap d (L.group b)) ((b - L.firstData) % L.perGroup)

/-- The blocks that are not marked. -/
def freeSet : Finset Nat :=
  (Finset.range L.total).filter fun b => L.firstData ≤ b ∧ L.used d b = false

/-- `unalloc_blocks_count` of a group. -/
def unallocBlocksCount (g : Nat) : Nat := readLE d (gdtStart L.blockSize + g * 32 + 12) 2

/-- The parts do not overlap and are metadata. -/
structure Sound : Prop where
  bitmap_lt : ∀ g < L.groups, L.bitmapBlock g < L.total
  bitmap_ge : ∀ g < L.groups, L.gdtEnd ≤ L.bitmapBlock g * L.blockSize
  bitmap_inj : ∀ g < L.groups, ∀ g' < L.groups, L.bitmapBlock g = L.bitmapBlock g' → g = g'
  bitmap_metadata : ∀ g < L.groups, L.metadata (L.bitmapBlock g)
  head_metadata : ∀ b, b * L.blockSize < L.gdtEnd → L.metadata b

/-- The superblock and the descriptors say what the layout says, and metadata is marked as used. -/
structure Shaped (d : Mem) : Prop where
  sound : L.Sound
  total : readLE d (1024 + 4) 4 = L.total
  perGroup : readLE d (1024 + 32) 4 = L.perGroup
  bitmapBlock : ∀ g < L.groups, readLE d (gdtStart L.blockSize + g * 32) 4 = L.bitmapBlock g
  inodeTable : ∀ g < L.groups, readLE d (gdtStart L.blockSize + g * 32 + 8) 4 = L.inodeTable g
  metadata : ∀ b, L.metadata b → L.firstData ≤ b → b < L.total → L.used d b

/-- A volume whose counts are right, too. -/
structure WellFormed (d : Mem) : Prop extends L.Shaped d where
  totalUnallocBlocks : totalUnallocBlocks d = (L.freeSet d).card
  unallocBlocksCount : ∀ g < L.groups,
    L.unallocBlocksCount d g = ((L.freeSet d).filter fun b => L.group b = g).card

/-- The superblock and the descriptors say where the bitmaps are. -/
structure Described (d : Mem) : Prop where
  sound : L.Sound
  total : readLE d (1024 + 4) 4 = L.total
  perGroup : readLE d (1024 + 32) 4 = L.perGroup
  bitmapBlock : ∀ g < L.groups, readLE d (gdtStart L.blockSize + g * 32) 4 = L.bitmapBlock g

/-- The counts agree with the bitmaps, whether metadata is marked or not. -/
structure Counted (d : Mem) : Prop extends L.Described d where
  totalUnallocBlocks : totalUnallocBlocks d = (L.freeSet d).card
  unallocBlocksCount : ∀ g < L.groups,
    L.unallocBlocksCount d g = ((L.freeSet d).filter fun b => L.group b = g).card

/-- The result of an allocation: 0, or a block of the volume that was free, is no metadata and is now
marked as used. No other block is marked or unmarked. -/
def Allocates (result : Nat) (d' : Mem) : Prop :=
  (result = 0 ∨ result ∈ L.freeSet d ∧ ¬ L.metadata result) ∧
    L.freeSet d' = if result = 0 then L.freeSet d else (L.freeSet d).erase result

/-- The mark of a block is removed, and no other one. -/
def Frees (block : Nat) (d' : Mem) : Prop := L.freeSet d' = insert block (L.freeSet d)

/-- The loop of `ext2_alloc_block` passes over a group. -/
def Exhausted (g : Nat) : Prop :=
  L.unallocBlocksCount d g = 0 ∨ ∀ b ∈ L.freeSet d, L.group b ≠ g

/-- What `ext2_alloc_block` reads of a group is below 4 GiB. -/
def Below (g : Nat) : Prop :=
  gdtStart L.blockSize + (g + 1) * 32 ≤ 2 ^ 32 ∧ (L.bitmapBlock g + 1) * L.blockSize ≤ 2 ^ 32

/-- A call of `ext2_alloc_block` looks at no group, or the blocks are numbered from 0 and the groups that
it looks at are below 4 GiB. -/
def Careful : Prop :=
  totalUnallocBlocks d = 0 ∨ 2 ^ 32 < L.total + L.perGroup ∨
    L.blockSize ≠ 1024 ∧ ∀ g < L.groups, (∀ g' < g, L.Exhausted d g') → L.Below g

/-- The states of a volume that is changed by careful allocations and by freeing what was allocated. -/
inductive Run : Volume → List Nat → Prop
  | init {v : Volume} : L.WellFormed v.disk → Run v []
  | alloc {v : Volume} {returned : List Nat} : Run v returned → L.Careful v.disk →
    Run (allocBlock L.blockSize v).2 (if (allocBlock L.blockSize v).1 = 0 then returned
      else (allocBlock L.blockSize v).1 :: returned)
  | free {v : Volume} {returned : List Nat} {block : Nat} : Run v returned → block ∈ returned →
    Run (freeBlock L.blockSize v block) returned

/-- If a block is free, then block 0 is not, the number of groups does not wrap around, and the group of
the first free block is below 4 GiB. -/
def Reachable : Prop :=
  ∀ b ∈ L.freeSet d, b ≠ 0 ∧ L.total + L.perGroup ≤ 2 ^ 32 ∧
    ((∀ b' ∈ L.freeSet d, b ≤ b') → L.Below (L.group b))

/-- The states of a volume that is changed by allocations that reach a free block and by freeing blocks that
are marked as used. -/
inductive CountRun : Volume → Prop
  | init {v : Volume} : L.WellFormed v.disk → CountRun v
  | alloc {v : Volume} : CountRun v → L.Reachable v.disk → CountRun (allocBlock L.blockSize v).2
  | free {v : Volume} {block : Nat} : CountRun v → block < L.total → L.used v.disk block →
    L.Below (L.group block) → CountRun (freeBlock L.blockSize v block)

end Layout

/-! ## Inodes -/

/-- `inodes_per_group`. -/
def inodesPerGroup : Nat := readLE d (1024 + 40) 4

/-- `first_unreserved_inode`. -/
def firstUnreservedInode : Nat := readLE d (1024 + 84) 4

/-- `inode_usage_bitmap_addr` of a group. -/
def inodeBitmapBlock (blockSize : Nat) (d : Mem) (g : Nat) : Nat :=
  readLE d (gdtStart blockSize + g * 32 + 4) 4

/-- An inode is marked as used. -/
def inodeUsed (blockSize : Nat) (d : Mem) (ino : Nat) : Bool :=
  byteBit (fun i => d (inodeBitmapBlock blockSize d ((ino - 1) / inodesPerGroup d) * blockSize + i))
    ((ino - 1) % inodesPerGroup d)

/-- The inodes that are not marked. -/
def freeInodes (blockSize total : Nat) (d : Mem) : Finset Nat :=
  (Finset.range (total + 1)).filter fun ino => 1 ≤ ino ∧ inodeUsed blockSize d ino = false

/-- A volume whose inode bitmaps are apart from the block bitmaps and have the right counts. Reserved
inodes are marked as used. -/
structure Layout.InodesFormed (L : Layout) (d : Mem) : Prop where
  perGroup_pos : 0 < inodesPerGroup d
  perGroup_le : inodesPerGroup d ≤ 8 * L.blockSize
  total : readLE d 1024 4 = L.groups * inodesPerGroup d
  bitmap_metadata : ∀ g < L.groups, L.metadata (inodeBitmapBlock L.blockSize d g)
  bitmap_inj : ∀ g < L.groups, ∀ g' < L.groups,
    inodeBitmapBlock L.blockSize d g = inodeBitmapBlock L.blockSize d g' → g = g'
  bitmap_ne : ∀ g < L.groups, ∀ g' < L.groups, inodeBitmapBlock L.blockSize d g ≠ L.bitmapBlock g'
  totalUnallocInodes : readLE d (1024 + 16) 4 = (freeInodes L.blockSize (readLE d 1024 4) d).card
  unallocInodesCount : ∀ g < L.groups, readLE d (gdtStart L.blockSize + g * 32 + 14) 2 =
    ((freeInodes L.blockSize (readLE d 1024 4) d).filter fun ino => (ino - 1) / inodesPerGroup d = g).card
  reserved : ∀ ino, 1 ≤ ino → ino < firstUnreservedInode d → inodeUsed L.blockSize d ino

/-- A sequence of calls of `ext2_alloc_inode`: the device before each call, the result and the device after
it. -/
def inodeCalls (blockSize : Nat) : Nat → Volume → List (Mem × Nat × Mem)
  | 0, _ => []
  | n + 1, v =>
    (v.disk, (allocInode blockSize v).1, (allocInode blockSize v).2.disk) ::
      inodeCalls blockSize n (allocInode blockSize v).2

/-- Each inode that is returned was free before the call and is marked after it, and no inode is returned
twice. -/
def InodesFresh (blockSize : Nat) (calls : List (Mem × Nat × Mem)) : Prop :=
  (∀ call ∈ calls, call.2.1 ≠ 0 →
    inodeUsed blockSize call.1 call.2.1 = false ∧ inodeUsed blockSize call.2.2 call.2.1 = true) ∧
  ((calls.map fun call => call.2.1).filter (· ≠ 0)).Nodup

/-- A group has no inode left by its count, or no clear bit of an inode that is not reserved. -/
def NoneInGroup (blockSize : Nat) (v : Volume) (sb : Mem) (g : Nat) : Prop :=
  readLE (v.read (gdtStart blockSize + g * 32)) inodes.gdtFree 2 = 0 ∨
    ∀ bit < inodes.bitsInGroup sb (inodes.groupCount sb) g,
      byteBit (v.read (readLE (v.read (gdtStart blockSize + g * 32)) inodes.gdtBitmap 4 * blockSize)) bit ∨
        inodes.number sb g bit < inodes.usable sb

/-- No group has an inode left. -/
def NoInodeLeft (blockSize : Nat) (v : Volume) : Prop :=
  readLE (v.read 1024) inodes.sbFree 4 = 0 ∨
    ∀ g < inodes.groupCount (v.read 1024), NoneInGroup blockSize v (v.read 1024) g

end Stos.Kernel.Ext2
