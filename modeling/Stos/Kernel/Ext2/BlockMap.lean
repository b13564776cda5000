import Stos.Kernel.Ext2.Volume
import Stos.Misc.PointerTree

/-!
# The block map of an inode

`ext2_block_id_to_addr`, `ext2_set_block_id` and the loops of `ext2_truncate` that free the blocks
(`kernel/vfs/mount/ext2`). An `ext2_inode_t` is its 128 bytes, as they are in memory and on the device. Its
block pointers are 15 numbers at offset 40: 12 direct ones, and one of each depth up to three.
-/

namespace Stos.Kernel.Ext2

/-! ## Fields of `ext2_inode_t` -/

/-- `size_lo`. -/
def sizeLo (inode : Mem) : Nat := readLE inode 4 4

/-- A block pointer: `direct_block_pointers[j]` for `j < 12`, then the indirect ones. -/
def blockPtr (inode : Mem) (j : Nat) : Nat := readLE inode (40 + j * 4) 4

def setSizeLo (inode : Mem) (size : Nat) : Mem := writeLE inode 4 4 size

def setBlockPtr (inode : Mem) (j block : Nat) : Mem := writeLE inode (40 + j * 4) 4 block

/-! ## Looking up a block -/

variable (v : Volume)

/-- `read_block_ptr` (`block_id_to_addr.c:7-17`). -/
def readBlockPtr (blockSize blockNum index : Nat) : Nat :=
  readLE (v.read (blockNum * blockSize + index * 4)) 0 4

/-- `ext2_block_id_to_addr` (`block_id_to_addr.c:19-61`). -/
def blockIdToAddr (inode : Mem) (blockId blockSize : Nat) : Nat :=
  if sizeLo inode ≤ blockId * blockSize then 0
  else if blockId < 12 then blockPtr inode blockId * blockSize % 2 ^ 32
  else
    let i := blockId - 12
    let ppb := blockSize / 4
    let read := readBlockPtr v blockSize
    let blockNum :=
      if i < ppb then read (blockPtr inode 12) i
      else
        let i := i - ppb
        if i < ppb * ppb then read (read (blockPtr inode 13) (i / ppb)) (i % ppb)
        else
          let i := i - ppb * ppb
          read (read (read (blockPtr inode 14) (i / (ppb * ppb))) (i / ppb % ppb)) (i % ppb)
    blockNum * blockSize % 2 ^ 32

/-! ## Setting a block -/

/-- What is in a buffer of zeros for a block. -/
def Volume.zeros (blockSize : Nat) : Mem := if blockSize = 2048 then v.low else fun _ => 0

/-- A block is filled from a buffer of zeros. -/
def Volume.zeroBlock (mode blockSize block : Nat) : Volume :=
  v.write mode (block * blockSize) blockSize (v.zeros blockSize)

/-- A pointer is stored in a table. -/
def writeBlockPtr (blockSize blockNum index block : Nat) : Volume :=
  v.write oRdwr (blockNum * blockSize + index * 4) 4 (writeLE (fun _ => 0) 0 4 block)

/-- `ensure_indirect` (`set_block_ptr.c:15-37`): the block number, 0 on failure. -/
def ensureIndirect (blockSize ptr : Nat) : Nat × Volume :=
  if ptr ≠ 0 then (ptr, v)
  else
    let (block, v) := allocBlock blockSize v
    if block = 0 then (0, v) else (block, v.zeroBlock oRdwr blockSize block)

/-- The next table on the way down, which is allocated if it is missing (`set_block_ptr.c:82-107`,
`126-151` and `153-178`). -/
def nextTable (blockSize table index : Nat) : Nat × Volume :=
  let next := readBlockPtr v blockSize table index
  if next ≠ 0 then (next, v)
  else
    let (block, v) := allocBlock blockSize v
    if block = 0 then (0, v)
    else (block, writeBlockPtr (v.zeroBlock oRdwr blockSize block) blockSize table index block)

/-- `ext2_set_block_id` (`set_block_ptr.c:39-195`). -/
def setBlockId (inode : Mem) (blockId blockSize newBlock : Nat) : Bool × Mem × Volume :=
  if blockId < 12 then (true, setBlockPtr inode blockId newBlock, v)
  else
    let i := blockId - 12
    let ppb := blockSize / 4
    if i < ppb then
      let (l1, v) := ensureIndirect v blockSize (blockPtr inode 12)
      if l1 = 0 then (false, inode, v)
      else (true, setBlockPtr inode 12 l1, writeBlockPtr v blockSize l1 i newBlock)
    else
      let i := i - ppb
      if i < ppb * ppb then
        let (l1, v) := ensureIndirect v blockSize (blockPtr inode 13)
        if l1 = 0 then (false, inode, v)
        else
          let inode := setBlockPtr inode 13 l1
          let (l2, v) := nextTable v blockSize l1 (i / ppb)
          if l2 = 0 then (false, inode, v)
          else (true, inode, writeBlockPtr v blockSize l2 (i % ppb) newBlock)
      else
        let i := i - ppb * ppb
        let (l1, v) := ensureIndirect v blockSize (blockPtr inode 14)
        if l1 = 0 then (false, inode, v)
        else
          let inode := setBlockPtr inode 14 l1
          let (l2, v) := nextTable v blockSize l1 (i / (ppb * ppb))
          if l2 = 0 then (false, inode, v)
          else
            let (l3, v) := nextTable v blockSize l2 (i / ppb % ppb)
            if l3 = 0 then (false, inode, v)
            else (true, inode, writeBlockPtr v blockSize l3 (i % ppb) newBlock)

/-! ## Freeing the blocks -/

/-- The pointers of a table that is read into a buffer: the buffer for a block of 2048 bytes is also the
one that `ext2_free_block` uses. -/
def tablePtr (blockSize : Nat) (table : Mem) (i : Nat) : Nat :=
  readLE (if blockSize = 2048 then v.low else table) (i * 4) 4

/-- The loop of `free_indirect1`, `free_indirect2` and `free_indirect3` over the pointers. -/
def freeEntries (free : Volume → Nat → Volume) (blockSize : Nat) (table : Mem) (v : Volume) : Volume :=
  (List.range (blockSize / 4)).foldl (fun v i =>
    if tablePtr v blockSize table i ≠ 0 then free v (tablePtr v blockSize table i) else v) v

/-- `free_indirect1`, `free_indirect2` and `free_indirect3` (`truncate.c:14-69`): the pointers of the block
are freed and then the block itself; depth 0 is `ext2_free_block`. -/
def freeIndirect (blockSize : Nat) : Nat → Volume → Nat → Volume
  | 0, v, block => freeBlock blockSize v block
  | k + 1, v, block =>
    let table := v.read (block * blockSize)
    let v := freeEntries (freeIndirect blockSize k) blockSize table (v.useBuffer blockSize table)
    freeBlock blockSize v block

/-- The part of `ext2_truncate` that frees the blocks (`truncate.c:86-126`). The pointers of the inode are
0 afterwards. -/
def freePointers (blockSize : Nat) (v : Volume) (inode : Mem) : Volume × Mem :=
  (List.range 15).foldl (fun (v, inode) j =>
    if blockPtr inode j ≠ 0 then
      (freeIndirect blockSize (j - 11) v (blockPtr inode j), setBlockPtr inode j 0)
    else (v, inode)) (v, inode)

/-- The trees of block pointers of an inode. -/
def roots (inode : Mem) : List (Nat × Nat) := (List.range 15).map fun j => (j - 11, blockPtr inode j)

end Stos.Kernel.Ext2
