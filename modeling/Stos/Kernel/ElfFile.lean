import Stos.Kernel.AddressSpaces
import Stos.Kernel.UserMemory

/-!
# ELF files

`elf_validate` (`kernel/elf/validate.c`) and `elf_parse` (`kernel/elf/parse.c`) with the bytes of the
file that they read, and the bytes that `elf_load_segments` reads. The file is the memory at
`elf_data`, at offsets that wrap around after 32 bits: nothing keeps the functions from reading behind
its end. The debug output is left out, and so are `min_vaddr` and `max_vaddr`, which the loader does
not read.
-/

namespace Stos.Kernel

open List

/-! ## Reading a file -/

/-- A result with the offsets of the bytes that were read for it. -/
structure Reading (α : Type) where
  val : α
  used : List Nat

namespace Reading

instance : Monad Reading where
  pure a := ⟨a, []⟩
  bind x f := ⟨(f x.val).val, x.used ++ (f x.val).used⟩

/-- A loop from 0 to `n - 1`. -/
def forRange {α : Type} (n : Nat) (f : Nat → Reading α) : Reading (List α) :=
  ⟨(range n).map fun i => (f i).val, (range n).flatMap fun i => (f i).used⟩

end Reading

variable (file : Mem)

/-- A field of `size` bytes at offset `off`, lowest byte first. -/
def readField (off size : Nat) : Reading Nat :=
  ⟨((range size).map fun j => (file ((off + j) % 2 ^ 32)).toNat * 256 ^ j).sum,
    (range size).map fun j => (off + j) % 2 ^ 32⟩

/-- The field of the header or of a table entry at `off` must have the value `v`. -/
structure FieldCheck where
  off : Nat
  size : Nat
  v : Nat

/-- Checks of fields one after the other, up to the first that fails. -/
def checkFields (file : Mem) : List FieldCheck → Reading Bool
  | [] => pure true
  | c :: cs => do
    let v ← readField file c.off c.size
    if v = c.v then checkFields file cs else pure false

/-! ## `elf_validate` -/

/-- The checks of `magic`, `class`, `endianness`, `version`, `machine` and `obj_type`
(`validate.c:24-68`). -/
def headerChecks : List FieldCheck :=
  [⟨0, 1, 0x7F⟩, ⟨1, 1, 0x45⟩, ⟨2, 1, 0x4C⟩, ⟨3, 1, 0x46⟩, ⟨4, 1, 1⟩, ⟨5, 1, 1⟩, ⟨6, 1, 1⟩,
    ⟨18, 2, 3⟩, ⟨16, 2, 2⟩]

/-- The offset of entry `i` of a table: the fields of the header that hold the pointer and the size of
an entry are at `pointer` and `entrySize`. -/
def tableEntry (pointer entrySize i : Nat) : Reading Nat := do
  let base ← readField file pointer 4
  let size ← readField file entrySize 2
  pure ((base + size * i) % 2 ^ 32)

/-- `&pht[phti]`. -/
def phtEntry (phti : Nat) : Reading Nat := tableEntry file 28 42 phti

/-- `&sht[shti]`. -/
def shtEntry (shti : Nat) : Reading Nat := tableEntry file 32 46 shti

/-- The body of the loop over the program headers (`validate.c:75-106`). -/
def validatePht (phti : Nat) : Reading Bool := do
  let pht ← phtEntry file phti
  let type ← readField file pht 4
  if type = 0 then pure true
  else do
    let _flags ← readField file (pht + 24) 4
    pure (decide (type ≤ 4))

/-- The body of the loop over the section headers (`validate.c:113-165`); the types 0x0C and 0x0D are
not known. -/
def validateSht (shti : Nat) : Reading Bool := do
  let sht ← shtEntry file shti
  let type ← readField file (sht + 4) 4
  if type = 0 then pure true
  else do
    let _flags ← readField file (sht + 8) 4
    pure (decide (type ≤ 0x0B ∨ 0x0E ≤ type ∧ type ≤ 0x13))

/-- `elf_validate` (`validate.c:8-173`). -/
def elfValidate : Reading Bool := do
  let header ← checkFields file headerChecks
  if header then do
    let phtNum ← readField file 44 2
    let pht ← Reading.forRange phtNum (validatePht file)
    let shtNum ← readField file 48 2
    let sht ← Reading.forRange shtNum (validateSht file)
    pure (pht.all id && sht.all id)
  else pure false

/-! ## `elf_parse` -/

/-- The body of the loop over the program headers (`parse.c:26-49`): the segment that is stored. -/
def parsePht (phti : Nat) : Reading (Option ElfSegment) := do
  let pht ← phtEntry file phti
  let type ← readField file pht 4
  if type = 1 then do
    let vaddr ← readField file (pht + 8) 4
    let memsz ← readField file (pht + 20) 4
    let filesz ← readField file (pht + 16) 4
    let offset ← readField file (pht + 4) 4
    let flags ← readField file (pht + 24) 4
    pure (some ⟨vaddr, memsz, filesz, offset, if hasFlag (.ofNat 32 flags) 0x2 then 0x7 else 0x5⟩)
  else pure none

/-- `elf_parse` (`parse.c:11-58`): `none` where `success` is false. -/
def elfParse : Reading (Option Elf) := do
  let valid ← elfValidate file
  if valid then do
    let entryPoint ← readField file 24 4
    let phtNum ← readField file 44 2
    let segments ← Reading.forRange phtNum (parsePht file)
    pure (some ⟨entryPoint, segments.filterMap id⟩)
  else pure none

/-! ## `elf_load_segments` -/

/-- The offsets from which the page at `vaddr` is filled (`load_segments.c:72-82`). -/
def ElfSegment.pageUses (seg : ElfSegment) (vaddr : Nat) : List Nat :=
  if seg.pageOffset vaddr < seg.filesz then
    (range (seg.bytesToCopy vaddr)).map fun k =>
      (seg.offset + seg.pageOffset vaddr + k) % 2 ^ 32
  else []

/-- The offsets that `elf_load_segments` reads when it returns true. -/
def Elf.loadUses (elf : Elf) : List Nat :=
  elf.segments.flatMap fun seg =>
    (range seg.numPages).flatMap fun p => seg.pageUses (seg.pageAddr p)

/-- The pages that `elf_load_segments` maps when it returns true. -/
def Elf.loadPages (elf : Elf) : List Nat :=
  elf.segments.flatMap fun seg => (range seg.numPages).map seg.pageAddr

/-! ## Files of a given length -/

/-- All bytes that were read are among the first `len`. -/
def Reading.Within {α : Type} (len : Nat) (r : Reading α) : Prop := ∀ n ∈ r.used, n < len

/-- The number of entries of `elf_t.segments`. -/
def elfMaxSegments : Nat := 32

/-- A file of `len` bytes that is loaded is read within its bounds, its segments fit in the table, and
only pages of user space are mapped. -/
structure ElfSafe (file : Mem) (len : Nat) (elf : Elf) : Prop where
  parsed : (elfParse file).Within len
  loaded : ∀ n ∈ elf.loadUses, n < len
  segments : elf.segments.length ≤ elfMaxSegments
  pages : ∀ a ∈ elf.loadPages, a < vmmUserEnd

/-- `task_exec` (`task.c:836-880`) rejects the file or loads it safely. -/
def ElfHandled (s : Machine) (file : Mem) (len : Nat) : Prop :=
  ∀ elf, (elfParse file).val = some elf → (s.elfLoadSegments file elf).1 = true →
    ElfSafe file len elf

/-- The `size` bytes at offset `off` are in a file of `len` bytes. -/
def FieldIn (len off size : Nat) : Prop := off % 2 ^ 32 + size ≤ len

/-- What the fields of the file must say for it to be loaded safely. -/
structure ElfFits (file : Mem) (len : Nat) (elf : Elf) : Prop where
  header : 50 ≤ len
  pht : ∀ i < (readField file 44 2).val, ∃ pht type, (phtEntry file i).val = pht ∧
    (readField file pht 4).val = type ∧ FieldIn len pht 4 ∧ (type ≠ 0 → FieldIn len (pht + 24) 4) ∧
      (type = 1 → ∀ f ∈ [4, 8, 16, 20], FieldIn len (pht + f) 4)
  sht : ∀ i < (readField file 48 2).val, ∃ sht type, (shtEntry file i).val = sht ∧
    (readField file (sht + 4) 4).val = type ∧ FieldIn len (sht + 4) 4 ∧
      (type ≠ 0 → FieldIn len (sht + 8) 4)
  count : elf.segments.length ≤ elfMaxSegments
  bytes : ∀ seg ∈ elf.segments, ∀ p < seg.numPages,
    seg.pageOffset (seg.pageAddr p) < seg.filesz →
      FieldIn len (seg.offset + seg.pageOffset (seg.pageAddr p)) (seg.bytesToCopy (seg.pageAddr p))
  last : ∀ seg ∈ elf.segments, seg.vaddrStart + seg.numPages * 4096 ≤ vmmUserEnd

/-! ## The image in memory -/

namespace ElfSegment

/-- The byte of the segment at `k`: from the file, and zero behind its file part. -/
def imageByte (seg : ElfSegment) (file : Mem) (k : Nat) : BitVec 8 :=
  if k < seg.filesz then file ((seg.offset + k) % 2 ^ 32) else 0

/-- Directory `d` has the segment at its addresses in user space. -/
def Loaded (seg : ElfSegment) (s : Machine) (d : Nat) (file : Mem) : Prop :=
  ∀ k < seg.memsz, UserAddr (seg.vaddr + k) ∧
    s.userByte d (seg.vaddr + k) = some (seg.imageByte file k)

/-- The segment ends below 2 ^ 32, and what the file holds for the rest of a page in the middle of
which the segment begins is zero. -/
structure LoadsWell (seg : ElfSegment) (file : Mem) : Prop where
  below : seg.vaddr + seg.memsz < 2 ^ 32
  first : seg.vaddr % 4096 ≠ 0 → ∀ k < seg.filesz, k < 4096 - seg.vaddr % 4096 →
    file ((seg.offset + k) % 2 ^ 32) = 0

end ElfSegment

end Stos.Kernel
