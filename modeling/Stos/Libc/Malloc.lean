import Stos.Misc.LittleEndian

/-!
# The heap of a user program

`malloc`, `realloc` and `free` of `libc/src/stdlib`. The headers of the blocks are in the memory of the
program, in front of the bytes that the program gets, and each one points to the next. What `sbrk` does
is given for each call: it fails, or it adds an area behind the last one.
-/

namespace Stos.Libc

/-! ## Headers -/

/-- `sizeof(stdlib_mem_alloc_header_t)` (`_stdlib_mem.h:20-33`): the flags are at 0, the length is at 4
and the pointer to the next block at 8. -/
def headerSize : Nat := 12

/-- `STDLIB_MEM_ALLOC_MIN_ALLOC` -/
def minAlloc : Nat := 16

/-- `STDLIB_MEM_ALLOC_PAGE_SIZE` -/
def allocPageSize : Nat := 4096

/-- `flags & STDLIB_MEM_ALLOC_FLAGS_PRESENT` -/
def isPresent (m : Mem) (a : Nat) : Bool := m a &&& 1 ≠ 0

def lengthAt (m : Mem) (a : Nat) : Nat := readLE m (a + 4) 4

def nextAt (m : Mem) (a : Nat) : Nat := readLE m (a + 8) 4

def setFlags (m : Mem) (a : Nat) (flags : BitVec 8) : Mem := write8 m a flags

def setLength (m : Mem) (a length : Nat) : Mem := writeLE m (a + 4) 4 length

def setNext (m : Mem) (a next : Nat) : Mem := writeLE m (a + 8) 4 next

/-! ## The heap -/

/-- The memory of a program, the end of the area that `sbrk` has given it, and the static variables
of `malloc.c` and `_stdlib_mem.c`. -/
structure UserHeap where
  mem : Mem
  brk : Nat
  heapStart : Nat
  heapEnd : Nat

variable (s : UserHeap)

/-- A contiguous `sbrk`: the area behind the break with what is in it, or none. -/
def UserHeap.sbrk (increment : Nat) (area : Option Mem) : Option (UserHeap × Nat) :=
  match area with
  | none => none
  | some fresh =>
    if s.brk + increment < 2 ^ 32 then
      some ({ s with mem := writeBytes s.mem s.brk fresh increment, brk := s.brk + increment }, s.brk)
    else none

section Loops

variable (m : Mem)

/-- The loop of `find_fit` (`malloc.c:16-28`), with 0 for `NULL`. -/
def findFit (size : Nat) : (fuel current : Nat) → Option Nat
  | 0, _ => none
  | fuel + 1, current =>
    if current = 0 then some 0
    else if isPresent m current ∨ lengthAt m current < size then findFit size fuel (nextAt m current)
    else some current

/-- The loop that looks for the last entry in `extend_heap` (`malloc.c:60-63`). -/
def lastEntry : (fuel last : Nat) → Option Nat
  | 0, _ => none
  | fuel + 1, last => if nextAt m last ≠ 0 then lastEntry fuel (nextAt m last) else some last

/-- The loop of `__stdlib_mem_get_previous` (`_stdlib_mem.h:53-65`). -/
def getPrevious (entry : Nat) : (fuel previous : Nat) → Option Nat
  | 0, _ => none
  | fuel + 1, previous =>
    if previous = 0 then some 0
    else if nextAt m previous = entry then some previous
    else getPrevious entry fuel (nextAt m previous)

end Loops

namespace UserHeap

/-- A turn for each byte of the heap. -/
def fuel : Nat := s.heapEnd - s.heapStart + 1

/-- The size of the area that `extend_heap` asks for (`malloc.c:36-40`): at least a page. -/
def totalSize (size : Nat) : Nat :=
  let totalSize := (size + headerSize) % 2 ^ 32
  if totalSize < allocPageSize then allocPageSize else totalSize

/-- The part of `extend_heap` that makes a block of a new area (`malloc.c:46-72`). -/
def linkEntry (ptr totalSize : Nat) : Option (UserHeap × Nat) :=
  let s := { s with heapEnd := ptr + totalSize }
  let m := setFlags s.mem ptr 0
  let m := setLength m ptr (totalSize - headerSize)
  let m := setNext m ptr 0
  if ptr = s.heapStart then some ({ s with mem := m }, ptr)
  else do
    let last ← lastEntry m s.fuel s.heapStart
    if isPresent m last then some ({ s with mem := setNext m last ptr }, ptr)
    else some ({ s with mem := setLength m last ((lengthAt m last + totalSize) % 2 ^ 32) }, last)

/-- `extend_heap` (`malloc.c:34-73`). -/
def extendHeap (size : Nat) (area : Option Mem) : Option (UserHeap × Nat) :=
  match s.sbrk (totalSize size) area with
  | none => some (s, 0)
  | some (s, ptr) => s.linkEntry ptr (totalSize size)

/-- `split_block` (`malloc.c:81-109`). An allocated block makes the program abort. -/
def splitBlock (m : Mem) (block size : Nat) : Option Mem :=
  if isPresent m block then none
  else
    let remainder := (lengthAt m block + 2 ^ 32 - size) % 2 ^ 32
    if remainder < headerSize + minAlloc then some m
    else
      let m := setLength m block size
      let nextBlock := block + headerSize + size
      let m := setFlags m nextBlock 0
      let m := setLength m nextBlock (remainder - headerSize)
      let m := setNext m nextBlock (nextAt m block)
      some (setNext m block nextBlock)

/-- The part of `malloc` that runs before the first block exists (`malloc.c:113-133`). `none` if the
page is refused. -/
def mallocInit (page : Option Mem) : UserHeap × Bool :=
  let s := { s with heapStart := s.brk }
  match s.sbrk allocPageSize page with
  | none => (s, false)
  | some (s, initial) =>
    let m := setFlags s.mem s.heapStart 0
    let m := setLength m s.heapStart (allocPageSize - headerSize)
    let m := setNext m s.heapStart 0
    ({ s with mem := m, heapEnd := initial + allocPageSize }, true)

/-- The last part of `malloc`, with a free block that is large enough (`malloc.c:159-164`). -/
def give (entry size : Nat) : Option (UserHeap × Nat) := do
  let m ← splitBlock s.mem entry size
  some ({ s with mem := setFlags m entry (m entry ||| 1) }, entry + headerSize)

/-- The part of `malloc` with an initialised heap (`malloc.c:135-165`). -/
def mallocBlock (size : Nat) (area : Option Mem) : Option (UserHeap × Nat) :=
  if size = 0 then some (s, 0)
  else
    let size := if size < minAlloc then minAlloc else size
    (findFit s.mem size s.fuel s.heapStart).bind fun entry =>
      if entry = 0 then
        (s.extendHeap size area).bind fun (s, entry) =>
          if entry = 0 then some (s, 0) else s.give entry size
      else s.give entry size

/-- `malloc` (`malloc.c:111-166`). The first two arguments are what `sbrk` gives for the first page and
for more. -/
def malloc (page area : Option Mem) (s : UserHeap) (size : Nat) : Option (UserHeap × Nat) :=
  if s.heapStart = 0 then
    match s.mallocInit page with
    | (s, true) => s.mallocBlock size area
    | (s, false) => some (s, 0)
  else s.mallocBlock size area

/-- Coalescing with the next entry in `free` (`free.c:19-27`). -/
def coalesceNext (m : Mem) (entry : Nat) : Mem :=
  let next := nextAt m entry
  if next ≠ 0 ∧ !isPresent m next then
    let m := setNext m entry (nextAt m next)
    let m := setLength m entry ((lengthAt m entry + lengthAt m next) % 2 ^ 32)
    setLength m entry ((lengthAt m entry + headerSize) % 2 ^ 32)
  else m

/-- Coalescing with the previous entry in `free` (`free.c:30-37`). -/
def coalescePrevious (m : Mem) (previous entry : Nat) : Mem :=
  if previous ≠ 0 ∧ !isPresent m previous then
    let m := setLength m previous ((lengthAt m previous + lengthAt m entry) % 2 ^ 32)
    let m := setLength m previous ((lengthAt m previous + headerSize) % 2 ^ 32)
    setNext m previous (nextAt m entry)
  else m

/-- `free` (`free.c:6-40`). -/
def free (ptr : Nat) : Option UserHeap :=
  if ptr = 0 then some s
  else do
    let entry := ptr - headerSize
    let m := coalesceNext (setFlags s.mem entry 0) entry
    let previous ← getPrevious m entry s.fuel s.heapStart
    some { s with mem := coalescePrevious m previous entry }

/-- `realloc` (`realloc.c:9-36`). -/
def realloc (page area : Option Mem) (s : UserHeap) (ptr size : Nat) : Option (UserHeap × Nat) :=
  if ptr = 0 then s.malloc page area size
  else if size = 0 then (s.free ptr).map fun s => (s, 0)
  else do
    let entry := ptr - headerSize
    let (s, newptr) ← s.malloc page area size
    if newptr = 0 then some (s, 0)
    else
      let length := lengthAt s.mem entry
      let m := copyBytes s.mem newptr ptr (if size < length then size else length)
      let s ← { s with mem := m }.free ptr
      some (s, newptr)

end UserHeap

/-! ## Blocks -/

/-- A block of the heap, with the address of its header. -/
structure Block where
  addr : Nat
  length : Nat
  present : Bool
  deriving DecidableEq

/-- The address behind a block. -/
def Block.stop (b : Block) : Nat := b.addr + headerSize + b.length

/-- The header of a block in memory. -/
structure HasHeader (m : Mem) (b : Block) (next : Nat) : Prop where
  present : isPresent m b.addr = b.present
  length : lengthAt m b.addr = b.length
  next : nextAt m b.addr = next

/-- The address of the first block, or `next` if there is none. -/
def firstAddr (next : Nat) : List Block → Nat
  | [] => next
  | b :: _ => b.addr

/-- The blocks follow each other from `a` to `e` without gap or overlap, each one points to the one
behind it, and the last one to `next`. -/
def Laid (m : Mem) : (a e next : Nat) → List Block → Prop
  | a, e, _, [] => a = e
  | a, e, next, b :: rest =>
    b.addr = a ∧ HasHeader m b (firstAddr next rest) ∧ Laid m b.stop e next rest

/-! ## Programs -/

/-- The bytes that a program has asked for and not given back, with what it has stored in them. -/
structure Allocation where
  ptr : Nat
  bytes : List (BitVec 8)

/-- What a program does with its heap, with what `sbrk` does. The first page is given. -/
inductive HeapCall
  | malloc (size : Nat) (page : Mem) (area : Option Mem)
  | realloc (ptr size : Nat) (page : Mem) (area : Option Mem)
  | free (ptr : Nat)
  | store (ptr i : Nat) (v : BitVec 8)

variable (live : List Allocation)

namespace HeapCall

/-- The result of `free` and of a store is not used. -/
def exec : HeapCall → Option (UserHeap × Nat)
  | malloc size page area => s.malloc (some page) area size
  | realloc ptr size page area => s.realloc (some page) area ptr size
  | free ptr => (s.free ptr).map fun s => (s, 0)
  | store ptr i v => some ({ s with mem := write8 s.mem (ptr + i) v }, 0)

/-- Pointers are `NULL` or live, sizes are below 2^31, and a store is in its block. -/
def Allowed : HeapCall → Prop
  | malloc size _ _ => size < 2 ^ 31
  | realloc ptr size _ _ => size < 2 ^ 31 ∧ (ptr = 0 ∨ ∃ x ∈ live, x.ptr = ptr)
  | free ptr => ptr = 0 ∨ ∃ x ∈ live, x.ptr = ptr
  | store ptr i _ => ∃ x ∈ live, x.ptr = ptr ∧ i < x.bytes.length

end HeapCall

/-- The bytes of a new block are those that are there. -/
def allocated (s : UserHeap) (size ret : Nat) : List Allocation :=
  if ret = 0 then live else ⟨ret, takeBytes s.mem ret size⟩ :: live

def released (ptr : Nat) : List Allocation := live.filter fun x => x.ptr ≠ ptr

/-- The first bytes of the new block are those that the program has stored in the old one. -/
def moved (s : UserHeap) (ptr size ret : Nat) : List Allocation :=
  if ret = 0 then live
  else
    let old := ((live.find? fun x => x.ptr = ptr).map Allocation.bytes).getD []
    ⟨ret, old.take size ++ (takeBytes s.mem ret size).drop old.length⟩ :: released live ptr

/-- What the program has after a call that returned `ret` in the state `s`. -/
def HeapCall.after (s : UserHeap) (ret : Nat) : HeapCall → List Allocation
  | malloc size _ _ => allocated live s size ret
  | realloc ptr size _ _ =>
    if ptr = 0 then allocated live s size ret
    else if size = 0 then released live ptr
    else moved live s ptr size ret
  | free ptr => released live ptr
  | store ptr i v => live.map fun x => if x.ptr = ptr then ⟨x.ptr, x.bytes.set i v⟩ else x

/-- The states of a program whose break is `start` at first. -/
inductive HeapRun (start : Nat) : UserHeap → List Allocation → Prop
  | init (m : Mem) : HeapRun start ⟨m, start, 0, 0⟩ []
  | step {s s' : UserHeap} {live : List Allocation} {call : HeapCall} {ret : Nat} :
    HeapRun start s live → call.Allowed live → call.exec s = some (s', ret) →
      HeapRun start s' (call.after live s' ret)

/-- The block of an allocation. -/
structure Holds (x : Allocation) (b : Block) : Prop where
  present : b.present = true
  ptr : x.ptr = b.addr + headerSize
  large : x.bytes.length ≤ b.length

/-- Two allocations have no byte in common. -/
def Apart (x y : Allocation) : Prop :=
  x.ptr + x.bytes.length ≤ y.ptr ∨ y.ptr + y.bytes.length ≤ x.ptr

/-- The headers tile the heap, no two neighbours are free, each allocation has a block that is large
enough, and the allocations are disjoint and keep what is in them. Before the first call there is no
heap. -/
structure HeapRight (live : List Allocation) : Prop where
  blocks : (s.heapStart = 0 ∧ live = []) ∨ ∃ blocks, Laid s.mem s.heapStart s.heapEnd 0 blocks ∧
    blocks.IsChain (fun b c => b.present ∨ c.present) ∧ ∀ x ∈ live, ∃ b ∈ blocks, Holds x b
  apart : live.Pairwise Apart
  contents : ∀ x ∈ live, takeBytes s.mem x.ptr x.bytes.length = x.bytes

end Stos.Libc
