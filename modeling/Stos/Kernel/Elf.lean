import Stos.Kernel.PageFault

/-!
# Loading an ELF image

`elf_load_segments` (`kernel/elf/load_segments.c`) into the current directory. The image is
given by what `elf_parse` has read from its headers and by the bytes of the file, at offsets from
`elf_data` that wrap around after 32 bits; the stores into a page that was just mapped go through
that mapping.
-/

namespace Stos.Kernel

/-- `elf_segment_t`. -/
structure ElfSegment where
  vaddr : Nat
  memsz : Nat
  filesz : Nat
  offset : Nat
  pageFlags : BitVec 32
  deriving DecidableEq

/-- The fields of `elf_t` that the loader reads. -/
structure Elf where
  entryPoint : Nat
  segments : List ElfSegment
  deriving DecidableEq

/-- `in_userspace` (`load_segments.c:11-14`). -/
def inUserspace (addr : Nat) : Bool := decide (addr < 0x40000000)

namespace ElfSegment

variable (seg : ElfSegment)

/-- `PAGE_ALIGN_DOWN(segment.vaddr)`. -/
def vaddrStart : Nat := seg.vaddr / 4096 * 4096

/-- `PAGE_ALIGN_UP(segment.vaddr + segment.memsz)`. -/
def vaddrEnd : Nat := (seg.vaddr + seg.memsz + 4095) % 2 ^ 32 / 4096 * 4096

/-- `(vaddr_end - vaddr_start) / PAGE_SIZE`. -/
def numPages : Nat := (seg.vaddrEnd + 2 ^ 32 - seg.vaddrStart) % 2 ^ 32 / 4096

/-- `vaddr_start + (p * PAGE_SIZE)`. -/
def pageAddr (p : Nat) : Nat := (seg.vaddrStart + p * 4096) % 2 ^ 32

/-- `vaddr - segment.vaddr` (`load_segments.c:72`). For a page that begins before the segment it wraps
around to a large value. -/
def pageOffset (vaddr : Nat) : Nat := (vaddr + 2 ^ 32 - seg.vaddr) % 2 ^ 32

/-- `bytes_to_copy` (`load_segments.c:74-77`). -/
def bytesToCopy (vaddr : Nat) : Nat :=
  if (seg.pageOffset vaddr + 4096) % 2 ^ 32 > seg.filesz then seg.filesz - seg.pageOffset vaddr
  else 4096

/-- The byte at `k` in the page at `vaddr`, as it is filled. -/
def pageByte (file : Nat → BitVec 8) (vaddr k : Nat) : BitVec 8 :=
  if seg.pageOffset vaddr < seg.filesz ∧ k < seg.bytesToCopy vaddr then
    file ((seg.offset + seg.pageOffset vaddr + k) % 2 ^ 32)
  else 0

end ElfSegment

namespace Machine

/-- The contents of the page at `vaddr` (`load_segments.c:69-91`). -/
def elfFillPage (s : Machine) (file : Nat → BitVec 8) (seg : ElfSegment) (vaddr : Nat) : Machine :=
  let pageOffset := seg.pageOffset vaddr
  let page := s.pagingGetPhysicalAddress vaddr
  if pageOffset < seg.filesz then
    let bytesToCopy := seg.bytesToCopy vaddr
    let s := s.setMem
      (writeBytes s.mem page (fun k => file ((seg.offset + pageOffset + k) % 2 ^ 32)) bytesToCopy)
    if bytesToCopy < 4096 then
      s.setMem (fillBytes s.mem (page + bytesToCopy) 0 (4096 - bytesToCopy))
    else s
  else s.setMem (fillBytes s.mem page 0 4096)

/-- The body of the loop over the pages of a segment (`load_segments.c:46-96`); `false` is
the return from `elf_load_segments`. -/
def elfLoadPage (s : Machine) (file : Nat → BitVec 8) (seg : ElfSegment) (vaddr : Nat) :
    Bool × Machine :=
  if s.pagingIsMapped vaddr then (false, s)
  else
    let (phys, s) := s.mapNewPage vaddr (seg.pageFlags ||| 0x2)
    if phys = 0 then (false, s)
    else
      let s := s.elfFillPage file seg vaddr
      if !hasFlag seg.pageFlags 0x2 then (true, (s.pagingMapPage vaddr phys seg.pageFlags).2)
      else (true, s)

/-- The loop over the pages of a segment. -/
def elfLoadSegment (file : Nat → BitVec 8) (seg : ElfSegment) (s : Machine) : Bool × Machine :=
  (List.range' 0 seg.numPages).foldl
    (fun r p => if r.1 then r.2.elfLoadPage file seg (seg.pageAddr p) else r) (true, s)

/-- `elf_load_segments` (`load_segments.c:16-101`). -/
def elfLoadSegments (s : Machine) (file : Nat → BitVec 8) (elf : Elf) : Bool × Machine :=
  if !inUserspace elf.entryPoint then (false, s)
  else if elf.segments.any fun seg =>
      !inUserspace seg.vaddr || !inUserspace ((seg.vaddr + seg.memsz) % 2 ^ 32) then (false, s)
  else
    elf.segments.foldl (fun r seg => if r.1 then r.2.elfLoadSegment file seg else r) (true, s)

end Machine

end Stos.Kernel
