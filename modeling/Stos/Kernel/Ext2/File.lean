import Stos.Kernel.Ext2.BlockMap

/-!
# Files

`ext2_write`, `ext2_read` and `ext2_truncate` (`kernel/vfs/mount/ext2`) through one handle. The handle has
its own copy of the inode; the length is that of the `vfs_node_t`. `file`, `ptr` and the metadata are not
`NULL`, and the device can be opened.
-/

namespace Stos.Kernel.Ext2

/-- The number of an inode and what is needed to find it on the device (`ext2_file_metadata_t`). -/
structure InodeRef where
  number : Nat
  inodeSize : Nat
  inodesPerGroup : Nat

/-- An open file with the device below it. -/
structure OpenFile where
  vol : Volume
  inode : Mem
  length : Nat
  readable : Bool
  writeable : Bool

/-- `ext2_write_inode` (`write_inode.c:6-34`). -/
def writeInode (v : Volume) (r : InodeRef) (blockSize : Nat) (inode : Mem) : Volume :=
  let gdt := v.read (gdtStart blockSize + (r.number - 1) / r.inodesPerGroup * 32)
  v.write oRdwr (readLE gdt 8 4 * blockSize + (r.number - 1) % r.inodesPerGroup * r.inodeSize) 128 inode

/-! ## `ext2_write` -/

/-- The variables of the loop of `ext2_write`. -/
structure WriteState where
  vol : Volume
  inode : Mem
  written : Nat
  dirty : Bool

/-- A block is allocated and put behind the others (`write.c:90-118`): the address of the block, or `none`
if the loop is left. -/
def appendBlock (blockSize i : Nat) (s : WriteState) : Option Nat × WriteState :=
  let (newBlock, v) := allocBlock blockSize s.vol
  if newBlock = 0 then (none, { s with vol := v })
  else
    let (ok, inode, v) := setBlockId v s.inode i blockSize newBlock
    if !ok then (none, { s with vol := v, inode := inode })
    else (some (newBlock * blockSize % 2 ^ 32),
      { s with vol := v.zeroBlock oWronly blockSize newBlock, inode := inode, dirty := true })

/-- The bytes of a block that are read or written: their start and their number (`write.c:74-80`,
`read.c:74-81`). -/
def blockRange (blockSize offset size i : Nat) : Nat × Nat :=
  let stop := (offset + size) % 2 ^ 32
  let start := if i = offset / blockSize then offset else i * blockSize % 2 ^ 32
  let stop := if i = stop / blockSize then stop else (i * blockSize + blockSize) % 2 ^ 32
  (start, sub32 stop start)

/-- The loop of `ext2_write` from block `i` on (`write.c:73-125`). -/
def writeLoop (blockSize offset size : Nat) (data : Mem) : (left i : Nat) → WriteState → WriteState
  | 0, _, s => s
  | left + 1, i, s =>
    let (start, n) := blockRange blockSize offset size i
    if n = 0 then s
    else
      let addr := blockIdToAddr s.vol s.inode i blockSize
      match (if addr = 0 then appendBlock blockSize i s else (some addr, s)) with
      | (none, s) => s
      | (some addr, s) =>
        let vol := s.vol.write oWronly (addr + sub32 start (i * blockSize)) n fun k => data (s.written + k)
        writeLoop blockSize offset size data left (i + 1) { s with vol := vol, written := s.written + n }

/-- The number of turns of the loops of `ext2_write` and `ext2_read`. -/
def blockTurns (blockSize offset size : Nat) : Nat :=
  (offset + size) % 2 ^ 32 / blockSize + 1 - offset / blockSize

/-- `ext2_write` (`write.c:13-149`) at the time `now`: the number of bytes that were written. -/
def ext2Write (blockSize : Nat) (r : InodeRef) (f : OpenFile) (now offset size : Nat) (data : Mem) :
    Nat × OpenFile :=
  if !f.writeable || decide (f.length < offset) || decide (size = 0) then (0, f)
  else
    let inode := writeLE f.inode 16 4 now
    let vol := writeInode f.vol r blockSize inode
    let s := writeLoop blockSize offset size data (blockTurns blockSize offset size) (offset / blockSize)
      ⟨vol, inode, 0, false⟩
    let newEnd := (offset + s.written) % 2 ^ 32
    let grows := decide (f.length < newEnd)
    let inode := if grows then setSizeLo s.inode newEnd else s.inode
    let vol := if grows || s.dirty then writeInode s.vol r blockSize inode else s.vol
    (s.written, { f with vol := vol, inode := inode, length := if grows then newEnd else f.length })

/-! ## `ext2_read` -/

/-- The loop of `ext2_read` from block `i` on (`read.c:73-101`): the number of bytes and the buffer. -/
def readLoop (v : Volume) (inode : Mem) (blockSize offset size : Nat) :
    (left i count : Nat) → Mem → Nat × Mem
  | 0, _, count, out => (count, out)
  | left + 1, i, count, out =>
    let (start, n) := blockRange blockSize offset size i
    if n = 0 then (count, out)
    else
      let addr := blockIdToAddr v inode i blockSize
      if addr = 0 then (count, out)
      else readLoop v inode blockSize offset size left (i + 1) (count + n)
        (writeBytes out count (v.read (addr + sub32 start (i * blockSize))) n)

/-- `ext2_read` (`read.c:11-105`) at the time `now` into a buffer. -/
def ext2Read (blockSize : Nat) (r : InodeRef) (f : OpenFile) (now offset size : Nat) (out : Mem) :
    (Nat × Mem) × OpenFile :=
  if !f.readable || decide (f.length ≤ offset) then ((0, out), f)
  else
    let size := if f.length < (offset + size) % 2 ^ 32 then f.length - offset else size
    if size = 0 then ((0, out), f)
    else
      let inode := writeLE f.inode 8 4 now
      let vol := writeInode f.vol r blockSize inode
      (readLoop vol inode blockSize offset size (blockTurns blockSize offset size) (offset / blockSize) 0 out,
        { f with vol := vol, inode := inode })

/-! ## `ext2_truncate` -/

/-- `ext2_truncate` (`truncate.c:71-153`) at the time `now`. -/
def ext2Truncate (blockSize : Nat) (r : InodeRef) (f : OpenFile) (now : Nat) : OpenFile :=
  if f.length = 0 then f
  else
    let (vol, inode) := freePointers blockSize f.vol f.inode
    let inode := writeLE (writeLE (setSizeLo inode 0) 28 4 0) 16 4 now
    { f with vol := writeInode vol r blockSize inode, inode := inode, length := 0 }

end Stos.Kernel.Ext2
