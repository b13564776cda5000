import Stos.Kernel.Ext2.Proofs.FileSpec
import Stos.Misc.Calls

/-!
# Calls on an open file

Sequences of `ext2_write`, `ext2_read` and `ext2_truncate` through one handle, and the array of bytes that a
file is meant to be.
-/

namespace Stos.Kernel.Ext2

open PointerTree Calls

/-- A call on an open file, with the time at which it is made. -/
inductive FileCall where
  | write (now offset : Nat) (data : List (BitVec 8))
  | read (now offset size : Nat)
  | truncate (now : Nat)

/-- What a call returns: the number of bytes written, the bytes read. -/
inductive FileReply where
  | written (count : Nat)
  | bytes (bytes : List (BitVec 8))
  | done
  deriving DecidableEq

/-- The bytes that a pointer argument points to. -/
def bufferOf (data : List (BitVec 8)) : Mem := fun k => data.getD k 0

/-- A call of the code. -/
def fileCall (blockSize : Nat) (r : InodeRef) : FileCall → OpenFile → FileReply × OpenFile
  | .write now offset data, f =>
    let (written, f) := ext2Write blockSize r f now offset data.length (bufferOf data)
    (.written written, f)
  | .read now offset size, f =>
    let ((count, out), f) := ext2Read blockSize r f now offset size (bufferOf [])
    (.bytes (firstBytes out count), f)
  | .truncate now, f => (.done, ext2Truncate blockSize r f now)

/-! ## Files as arrays -/

/-- A growable array of bytes and what its handle allows. -/
structure ByteFile where
  bytes : List (BitVec 8)
  readable : Bool
  writeable : Bool

/-- A call on an array. -/
def arrayCall : FileCall → ByteFile → FileReply × ByteFile
  | .write _ offset data, a =>
    if a.writeable ∧ offset ≤ a.bytes.length then
      (.written data.length, { a with bytes := putBytes a.bytes offset data })
    else (.written 0, a)
  | .read _ offset size, a => (.bytes (if a.readable then (a.bytes.drop offset).take size else []), a)
  | .truncate _, a => (.done, { a with bytes := [] })

/-- The array that an open file stands for. -/
def OpenFile.array (L : Layout) (f : OpenFile) : ByteFile := ⟨contents L f, f.readable, f.writeable⟩

/-- The number of blocks that a write up to `stop` takes for a file of the given length. -/
def writeCost (L : Layout) (length stop : Nat) : Nat :=
  cost (width L.blockSize) (blockCount L.blockSize length) (blockCount L.blockSize stop)

/-- Offsets and addresses do not wrap around, and there are enough free blocks for a write. -/
def FileCall.Fits (L : Layout) : FileCall → OpenFile → Prop
  | .write _ offset data, f => offset + data.length < 2 ^ 32 ∧
    (f.writeable = true → offset ≤ f.length →
      writeCost L f.length (offset + data.length) ≤ (L.freeSet f.vol.disk).card ∧
      L.LowFree f.vol.disk (writeCost L f.length (offset + data.length)))
  | .read _ offset size, _ => offset + size < 2 ^ 32
  | .truncate _, _ => True

/-- Blocks are appended and freed only where the code can. -/
def FileCall.Sane (L : Layout) : FileCall → OpenFile → Prop
  | .write _ offset data, f =>
    f.writeable = true → offset ≤ f.length → CanAppend L f.length (offset + data.length)
  | .read _ _ _, _ => True
  | .truncate _, f => CanTruncate L f.length

/-- After some calls, the file is the array after the same calls, which gave the same replies, and the blocks
of other files are as they were. -/
structure ActsAsArray (L : Layout) (r : InodeRef) (f : OpenFile) (calls : List FileCall) : Prop where
  replies : (run (fileCall L.blockSize r) calls f).1 = (run arrayCall calls (f.array L)).1
  array : (run (fileCall L.blockSize r) calls f).2.array L = (run arrayCall calls (f.array L)).2
  others : ∀ b, L.Taken f.vol.disk b → b ∉ fileBlocks L f →
    L.Taken (run (fileCall L.blockSize r) calls f).2.vol.disk b ∧
    Agree L.blockSize f.vol.disk (run (fileCall L.blockSize r) calls f).2.vol.disk b

/-! ## Writes to a new file -/

/-- The arguments of a call of `ext2_write`. -/
structure WriteArgs where
  now : Nat
  offset : Nat
  data : List (BitVec 8)

def writeCall (blockSize : Nat) (r : InodeRef) (w : WriteArgs) (f : OpenFile) : Nat × OpenFile :=
  ext2Write blockSize r f w.now w.offset w.data.length (bufferOf w.data)

/-- Some writes, then `ext2_truncate`. -/
def writesThenTruncate (blockSize : Nat) (r : InodeRef) (writes : List WriteArgs) (now : Nat) (f : OpenFile) :
    OpenFile :=
  ext2Truncate blockSize r (run (writeCall blockSize r) writes f).2 now

/-- The bitmaps mark the same blocks as used. -/
def SameUsed (L : Layout) (d d' : Mem) : Prop := ∀ b, L.firstData ≤ b → b < L.total → L.used d' b = L.used d b

/-- A write wraps around to an earlier block, or it can append blocks, and free blocks do not run out between
a block of data and its tables. -/
def WriteArgs.Whole (L : Layout) (w : WriteArgs) (f : OpenFile) : Prop :=
  f.writeable = true → w.offset ≤ f.length →
    (w.offset + w.data.length) % 2 ^ 32 / L.blockSize < w.offset / L.blockSize ∨
    w.offset + w.data.length < 2 ^ 32 ∧ CanAppend L f.length (w.offset + w.data.length) ∧
      Roomy (width L.blockSize) (L.freeSet f.vol.disk).card (blockCount L.blockSize f.length)
        (blockCount L.blockSize (w.offset + w.data.length)) ∧
      L.LowFree f.vol.disk (writeCost L f.length (w.offset + w.data.length))

end Stos.Kernel.Ext2
