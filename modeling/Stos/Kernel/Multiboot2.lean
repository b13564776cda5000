import Mathlib

/-!
# Boot information

The part of `arch/i386/multiboot2.c` that memory management reads: the memory map and the
boot modules. The walk over the tags is modelled on the list of tags; the other kinds of
tag leave this data alone.
-/

namespace Stos.Kernel

/-- `saved_mmap_entry_t` (`multiboot2.h:140-146`). -/
structure MmapEntry where
  baseLow : BitVec 32
  baseHigh : BitVec 32
  lengthLow : BitVec 32
  lengthHigh : BitVec 32
  type : BitVec 32
  deriving DecidableEq, Repr

namespace MmapEntry

/-- `((uint64_t)entry->base_high << 32) | entry->base_low`. -/
def base (e : MmapEntry) : Nat := (e.baseHigh ++ e.baseLow : BitVec 64).toNat

/-- `((uint64_t)entry->length_high << 32) | entry->length_low`. -/
def length (e : MmapEntry) : Nat := (e.lengthHigh ++ e.lengthLow : BitVec 64).toNat

end MmapEntry

/-- The addresses of a `multiboot_tag_boot_module_t` (`multiboot2.h:71-77`). -/
structure BootModule where
  modulePhysAddrStart : BitVec 32
  modulePhysAddrEnd : BitVec 32
  deriving DecidableEq, Repr

/-- The tags of the boot information. -/
inductive MultibootTag where
  | tagEnd
  | memoryMap (entries : List MmapEntry)
  | module (m : BootModule)
  | other
  deriving DecidableEq, Repr

/-- The static data of `multiboot2.c`. -/
structure Multiboot2 where
  savedMmap : List MmapEntry
  pmmMaxMemory : Nat
  bootModules : List BootModule
  deriving DecidableEq, Repr

/-- The end of an available entry as the code computes it (`multiboot2.c:55-65`): a 64-bit
sum, cut off at `0xFFFFFFFF`. -/
def MmapEntry.usableEnd (e : MmapEntry) : Nat :=
  let entryEnd := (e.base + e.length) % 2 ^ 64
  if entryEnd > 0xFFFFFFFF then 0xFFFFFFFF else entryEnd

/-- `multiboot2_process_memory_map` (`multiboot2.c:38-74`). -/
def multiboot2ProcessMemoryMap (mb : Multiboot2) : Multiboot2 :=
  if mb.savedMmap = [] then mb
  else
    { mb with
      pmmMaxMemory := mb.savedMmap.foldl
        (fun maxMemory entry =>
          if entry.type = 1 ∧ entry.usableEnd > maxMemory then entry.usableEnd else maxMemory) 0 }

/-- The loop of `multiboot2_init` (`multiboot2.c:76-205`): at most 16 entries of a memory map
and at most 16 modules are kept. -/
def multiboot2InitLoop : List MultibootTag → Multiboot2 → Multiboot2
  | [], mb => multiboot2ProcessMemoryMap mb
  | .tagEnd :: _, mb => multiboot2ProcessMemoryMap mb
  | .memoryMap entries :: tags, mb =>
      multiboot2InitLoop tags { mb with savedMmap := entries.take 16 }
  | .module m :: tags, mb =>
      multiboot2InitLoop tags
        { mb with
          bootModules := if mb.bootModules.length < 16 then mb.bootModules ++ [m]
            else mb.bootModules }
  | .other :: tags, mb => multiboot2InitLoop tags mb

/-- `multiboot2_init`. -/
def multiboot2Init (tags : List MultibootTag) : Multiboot2 :=
  multiboot2InitLoop tags ⟨[], 0, []⟩

end Stos.Kernel
