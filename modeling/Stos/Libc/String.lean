import Stos.Misc.Bytes
import Stos.Misc.Loop

/-!
# Memory and string functions of the C library

`memmove` (`libc/src/string/memmove.c`) over the flat 32-bit memory of a process. Pointers are
numbers below `2 ^ 32`, pointer arithmetic wraps around.
-/

namespace Stos.Libc

/-- The memory and the variables `dst`, `src` and `size` of `memmove`. -/
structure Move where
  mem : Mem
  dst : Nat
  src : Nat
  size : Nat

namespace Move

/-- `*dst++ = *src++; size--;` -/
def byteUp (s : Move) : Move where
  mem := write8 s.mem s.dst (s.mem s.src)
  dst := (s.dst + 1) % 2 ^ 32
  src := (s.src + 1) % 2 ^ 32
  size := s.size - 1

/-- `*d32++ = *s32++; size -= 4;` The source pointer need not be aligned. -/
def wordUp (s : Move) : Move where
  mem := write32 s.mem s.dst (loadWord s.mem s.src)
  dst := (s.dst + 4) % 2 ^ 32
  src := (s.src + 4) % 2 ^ 32
  size := s.size - 4

/-- `*--dst = *--src; size--;` -/
def byteDown (s : Move) : Move :=
  let dst := (s.dst + 2 ^ 32 - 1) % 2 ^ 32
  let src := (s.src + 2 ^ 32 - 1) % 2 ^ 32
  { mem := write8 s.mem dst (s.mem src), dst, src, size := s.size - 1 }

/-- `*--d32 = *--s32; size -= 4;` -/
def wordDown (s : Move) : Move :=
  let dst := (s.dst + 2 ^ 32 - 4) % 2 ^ 32
  let src := (s.src + 2 ^ 32 - 4) % 2 ^ 32
  { mem := write32 s.mem dst (loadWord s.mem src), dst, src, size := s.size - 4 }

/-- The three loops of one direction: bytes until `dst` is aligned, words, the bytes left
(memmove.c:11-26, 31-46). -/
def run (byte word : Move → Move) (s : Move) : Move :=
  let s := whileLoop (fun s => 0 < s.size && s.dst % 4 != 0) byte s.size s
  let s := whileLoop (fun s => 4 ≤ s.size) word s.size s
  whileLoop (fun s => s.size != 0) byte s.size s

end Move

/-- `memmove` (memmove.c:4-52): the memory afterwards and the returned pointer. -/
def memmove (m : Mem) (dstptr srcptr size : Nat) : Mem × Nat :=
  let s := if dstptr < srcptr then
      Move.run Move.byteUp Move.wordUp { mem := m, dst := dstptr, src := srcptr, size }
    else
      Move.run Move.byteDown Move.wordDown
        { mem := m, dst := (dstptr + size) % 2 ^ 32, src := (srcptr + size) % 2 ^ 32, size }
  (s.mem, dstptr)

end Stos.Libc
