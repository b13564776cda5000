import Stos.Misc.Bytes
import Stos.Misc.Sll
import Stos.Kernel.Memory.Vmm

/-!
# The slab allocator

Model of `src/kernel/kernel/memory/slab.c`. Memory is the kernel's virtual memory. The magic word
of a slab and the links of its free objects are bytes of memory, the other fields of a slab header
are kept in a record per slab address, and the three doubly linked lists of a cache are lists of
slab addresses. Statistics, locks and debug output are left out.
-/

namespace Stos.Kernel

/-- `SLAB_MAGIC` (`slab.h:34`). -/
def slabMagic : BitVec 32 := 0x5AB5AB5A

/-- `slab_list_type_t` (`slab.h:44-48`). -/
inductive SlabListType where
  | empty
  | partly
  | full
deriving DecidableEq, Repr

/-- `slab_t` (`slab.h:53-64`) without its magic word and list links; `cache` is the index of the
cache. -/
structure Slab where
  cache : Nat
  objectsStart : Nat
  freeList : Nat
  numObjects : Nat
  numFree : Nat
  objectSize : Nat
  currentList : SlabListType
deriving DecidableEq, Repr

/-- `slab_cache_t` (`slab.h:69-86`). -/
structure SlabCache where
  objectSize : Nat
  objectsPerSlab : Nat
  slabPages : Nat
  partialSlabs : List Nat
  fullSlabs : List Nat
  emptySlabs : List Nat
deriving DecidableEq, Repr

def SlabCache.list (c : SlabCache) : SlabListType → List Nat
  | .empty => c.emptySlabs
  | .partly => c.partialSlabs
  | .full => c.fullSlabs

/-- A store to one of the three list heads. -/
def SlabCache.setList (c : SlabCache) (k : SlabListType) (xs : List Nat) : SlabCache :=
  match k with
  | .empty => { c with emptySlabs := xs }
  | .partly => { c with partialSlabs := xs }
  | .full => { c with fullSlabs := xs }

/-- `SLAB_SIZE_CLASSES` (`slab.c:13-15`). -/
def slabSizeClasses : List Nat := [8, 16, 32, 64, 128, 256, 512, 1024]

/-- `calculate_slab_pages` (`slab.c:29-44`); `sizeof(slab_t)` is 36. -/
def calculateSlabPages (objectSize : Nat) : Nat :=
  if (4096 - 36) / objectSize ≥ 8 ∨ objectSize ≥ 512 then 1 else 2

/-- `calculate_objects_per_slab` (`slab.c:49-54`). -/
def calculateObjectsPerSlab (objectSize pages : Nat) : Nat := (pages * 4096 - 36) / objectSize

/-- `init_cache` (`slab.c:59-72`). -/
def initCache (objectSize : Nat) : SlabCache :=
  let pages := calculateSlabPages objectSize
  ⟨objectSize, calculateObjectsPerSlab objectSize pages, pages, [], [], []⟩

/-- The kernel heap: memory, slab headers, the caches and the virtual memory manager. -/
structure Heap where
  mem : Mem
  slabs : Nat → Slab
  slabCaches : Nat → SlabCache
  slabInitialized : Bool
  vmm : Vmm

variable (h : Heap)

namespace Heap

/-- `slab_init` (`slab.c:74-94`). -/
def slabInit : Heap :=
  if h.slabInitialized then h
  else
    { h with
      slabCaches := fun i => initCache (slabSizeClasses.getD i 0)
      slabInitialized := true }

/-- `slab_find_cache` (`slab.c:96-109`): the index of the cache. -/
def slabFindCache (size : Nat) : Option Nat :=
  if size = 0 ∨ size > 2048 then none
  else (List.range 8).find? fun i => decide (size ≤ slabSizeClasses.getD i 0)

/-- Stores to fields of the header at `slab`. -/
def setSlab (slab : Nat) (fields : Slab) : Heap :=
  { h with slabs := Function.update h.slabs slab fields }

def setCache (cache : Nat) (fields : SlabCache) : Heap :=
  { h with slabCaches := Function.update h.slabCaches cache fields }

/-- `remove_from_list` (`slab.c:114-127`). -/
def removeFromList (slab cache : Nat) (k : SlabListType) : Heap :=
  h.setCache cache ((h.slabCaches cache).setList k (((h.slabCaches cache).list k).erase slab))

/-- `add_to_list` (`slab.c:132-141`). -/
def addToList (slab cache : Nat) (k : SlabListType) : Heap :=
  h.setCache cache ((h.slabCaches cache).setList k (slab :: (h.slabCaches cache).list k))

/-- The loop of `slab_create_slab` that threads `n` objects from `ptr` on
(`slab.c:168-173`): memory and the head of the list. -/
def threadObjects (mem : Mem) (objectSize : Nat) : Nat → Nat → Nat → Mem × Nat
  | 0, _, freeList => (mem, freeList)
  | n + 1, ptr, freeList =>
      threadObjects (write32 mem ptr (BitVec.ofNat 32 freeList)) objectSize n (ptr + objectSize) ptr

/-- `slab_create_slab` (`slab.c:143-186`). -/
def slabCreateSlab (cache : Nat) (backed : Nat → Bool) : Option Nat × Heap :=
  let c := h.slabCaches cache
  let (slabMemory, vmm) := h.vmm.vmmKernelAlloc (c.slabPages * 4096) backed
  let h := { h with vmm := vmm }
  if slabMemory = 0 then (none, h)
  else
    let mem := write32 h.mem slabMemory slabMagic
    let (mem, freeList) :=
      threadObjects mem c.objectSize c.objectsPerSlab (slabMemory + 36) 0
    let h := { h with mem := mem }
    let h := h.setSlab slabMemory
      ⟨cache, slabMemory + 36, freeList, c.objectsPerSlab, c.objectsPerSlab, c.objectSize, .empty⟩
    (some slabMemory, h.addToList slabMemory cache .empty)

/-- The magic word at `slab` is that of a slab. -/
def hasMagic (slab : Nat) : Bool := decide (read32 h.mem slab = slabMagic)

end Heap

/-- The list that a slab with these counters belongs to (`slab.c:222-230`). -/
def Slab.targetList (s : Slab) : SlabListType :=
  if s.numFree = 0 then .full else if s.numFree = s.numObjects then .empty else .partly

namespace Heap

/-- `slab_destroy_slab` (`slab.c:188-213`). -/
def slabDestroySlab (slab : Nat) : Heap :=
  if slab = 0 ∨ h.hasMagic slab = false then h
  else
    let s := h.slabs slab
    let h := h.removeFromList slab s.cache s.targetList
    { h with
      mem := write32 h.mem slab 0
      vmm := h.vmm.vmmKernelFree slab ((h.slabCaches s.cache).slabPages * 4096) }

/-- `slab_update_lists` (`slab.c:215-277`). -/
def slabUpdateLists (slab : Nat) : Heap :=
  if slab = 0 ∨ h.hasMagic slab = false then h
  else
    let s := h.slabs slab
    if s.currentList = s.targetList then h
    else
      let h := h.removeFromList slab s.cache s.currentList
      let h := h.addToList slab s.cache s.targetList
      h.setSlab slab { s with currentList := s.targetList }

/-- The `next` field of the free object at `obj`. -/
def next (obj : Nat) : Nat := (read32 h.mem obj).toNat

/-- `slab_alloc_from_slab` (`slab.c:279-295`). -/
def slabAllocFromSlab (slab : Nat) : Nat × Heap :=
  let s := h.slabs slab
  if slab = 0 ∨ h.hasMagic slab = false ∨ s.numFree = 0 then (0, h)
  else if s.freeList = 0 then (0, h)
  else
    (s.freeList, h.setSlab slab { s with freeList := h.next s.freeList, numFree := s.numFree - 1 })

/-- `slab_free_to_slab` (`slab.c:297-319`). A free list has at most 65535 objects, as many as
`num_objects` can count, so the walk along it ends. -/
def slabFreeToSlab (slab ptr : Nat) : Bool × Heap :=
  let s := h.slabs slab
  if slab = 0 ∨ h.hasMagic slab = false ∨ ptr = 0 then (false, h)
  else if sllFind 0 h.next ptr 65536 s.freeList then (false, h)
  else
    let h := { h with mem := write32 h.mem ptr (BitVec.ofNat 32 s.freeList) }
    (true, h.setSlab slab { s with freeList := ptr, numFree := (s.numFree + 1) % 65536 })

/-- The slab that `slab_alloc` takes an object from (`slab.c:340-358`). -/
def slabChoose (cache : Nat) (backed : Nat → Bool) : Option Nat × Heap :=
  match (h.slabCaches cache).partialSlabs with
  | slab :: _ => (some slab, h)
  | [] =>
      match (h.slabCaches cache).emptySlabs with
      | slab :: _ => (some slab, h)
      | [] => h.slabCreateSlab cache backed

/-- `slab_alloc` (`slab.c:321-378`). -/
def slabAlloc (size : Nat) (backed : Nat → Bool) : Nat × Heap :=
  if h.slabInitialized = false then (0, h)
  else if size = 0 ∨ size > 2048 then (0, h)
  else
    match slabFindCache size with
    | none => (0, h)
    | some cache =>
        match h.slabChoose cache backed with
        | (none, h) => (0, h)
        | (some slab, h) =>
            let (ptr, h) := h.slabAllocFromSlab slab
            if ptr = 0 then (0, h) else (ptr, h.slabUpdateLists slab)

/-- `slab_get_slab` (`slab.c:380-405`). -/
def slabGetSlab (ptr : Nat) : Option Nat :=
  if ptr = 0 then none
  else
    let slab := ptr / 4096 * 4096
    if h.hasMagic slab = false then none
    else
      let objStart := (h.slabs slab).objectsStart
      let objEnd := objStart + (h.slabs slab).numObjects * (h.slabs slab).objectSize
      if ptr < objStart ∨ ptr ≥ objEnd then none else some slab

/-- `slab_free` (`slab.c:407-453`). -/
def slabFree (ptr : Nat) : Bool × Heap :=
  if ptr = 0 ∨ h.slabInitialized = false then (false, h)
  else
    match h.slabGetSlab ptr with
    | none => (false, h)
    | some slab =>
        match h.slabFreeToSlab slab ptr with
        | (false, h) => (false, h)
        | (true, h) =>
            let h := h.slabUpdateLists slab
            let s := h.slabs slab
            let empty := (h.slabCaches s.cache).emptySlabs
            -- the second empty slab of a cache is given back
            if s.numFree = s.numObjects ∧ empty.head? ≠ some slab ∧ empty[1]? = some slab then
              (true, h.slabDestroySlab slab)
            else (true, h)

end Heap

/-! ## Runs -/

namespace Heap

/-- `slab` is on one of the lists of `cache`. -/
def IsSlab (cache slab : Nat) : Prop :=
  cache < 8 ∧ ∃ k, slab ∈ (h.slabCaches cache).list k

/-- Object `i` of `slab`. -/
def object (slab i : Nat) : Nat :=
  (h.slabs slab).objectsStart + i * (h.slabs slab).objectSize

/-- The object at `ptr` is on the free list of `slab`. -/
def OnFreeList (slab ptr : Nat) : Prop :=
  sllFind 0 h.next ptr 65536 (h.slabs slab).freeList = true

/-- `ptr` is the start of an allocated object of `slab`. -/
def IsAllocated (slab ptr : Nat) : Prop :=
  (∃ i < (h.slabs slab).numObjects, ptr = h.object slab i) ∧ ¬ h.OnFreeList slab ptr

/-- `ptr` points into an object of the slab that contains it, but not to its start. -/
def IsInterior (ptr : Nat) : Prop :=
  ∃ cache slab, h.IsSlab cache slab ∧ slab ≤ ptr ∧ ptr < slab + 4096 ∧
    ∃ i < (h.slabs slab).numObjects, h.object slab i < ptr ∧ ptr < h.object slab (i + 1)

/-- The bytes that the users of the heap may write: allocated objects, and every page that is no
slab. -/
def Writable (a : Nat) : Prop :=
  ∀ cache slab, h.IsSlab cache slab → slab ≤ a → a < slab + 4096 →
    ∃ ptr, h.IsAllocated slab ptr ∧ ptr ≤ a ∧ a < ptr + (h.slabs slab).objectSize

/-- The page of `ptr` is a slab, or its first word is not the magic word of one. -/
def PageTold (ptr : Nat) : Prop :=
  (∃ cache, h.IsSlab cache (ptr / 4096 * 4096)) ∨ h.hasMagic (ptr / 4096 * 4096) = false

end Heap

/-- A call of the virtual memory manager by other users leaves the slabs alone. -/
def VmmCall.Spares : VmmCall → Prop
  | .free virt _ => ∀ cache slab, h.IsSlab cache slab → virt < slab ∨ slab + 4096 ≤ virt
  | _ => True

/-- The states of the heap: allocations, frees of pointers that are not interior, writes of the
users to what is theirs, and other uses of the virtual memory manager. -/
inductive SlabRun : Heap → Prop where
  | init {h : Heap} (fresh : h.slabInitialized = false)
      (vmm : VmmRun (fun _ _ => True) h.vmm) : SlabRun h.slabInit
  | alloc {h : Heap} {size : Nat} {backed : Nat → Bool} (run : SlabRun h) (hsize : size < 2 ^ 32)
      (hbacked : ∃ i < 2 ^ 20, backed i = false) : SlabRun (h.slabAlloc size backed).2
  | free {h : Heap} {ptr : Nat} (run : SlabRun h) (hptr : ptr < 2 ^ 32) (page : h.PageTold ptr)
      (notInterior : ¬ h.IsInterior ptr) : SlabRun (h.slabFree ptr).2
  | write {h : Heap} {mem : Mem} (run : SlabRun h)
      (frame : ∀ a, ¬ h.Writable a → mem a = h.mem a) : SlabRun { h with mem := mem }
  | vmm {h : Heap} {c : VmmCall} (run : SlabRun h) (valid : c.Valid) (spares : c.Spares h) :
      SlabRun { h with vmm := h.vmm.perform c }

/-- No object of `slab` is allocated. -/
def Heap.IsEmptySlab (cache slab : Nat) : Prop :=
  h.IsSlab cache slab ∧ (h.slabs slab).numFree = (h.slabs slab).numObjects

/-- No cache has two empty slabs. -/
def Heap.OneEmpty : Prop :=
  ∀ cache slab slab', h.IsEmptySlab cache slab → h.IsEmptySlab cache slab' → slab = slab'

/-- `ptr` is the last allocated object of its slab, in a cache with an empty slab. -/
def Heap.EmptiesSecond (ptr : Nat) : Prop :=
  ∃ cache slab, ptr / 4096 * 4096 = slab ∧ h.IsSlab cache slab ∧ h.IsAllocated slab ptr ∧
    (h.slabs slab).numFree + 1 = (h.slabs slab).numObjects ∧ (h.slabCaches cache).emptySlabs ≠ []

/-- Runs in which no free empties a second slab of a cache; all else leaves the lists alone. -/
inductive SpareRun : Heap → Prop where
  | init {h : Heap} (fresh : h.slabInitialized = false)
      (vmm : VmmRun (fun _ _ => True) h.vmm) : SpareRun h.slabInit
  | alloc {h : Heap} {size : Nat} {backed : Nat → Bool} (run : SpareRun h) (hsize : size < 2 ^ 32)
      (hbacked : ∃ i < 2 ^ 20, backed i = false) : SpareRun (h.slabAlloc size backed).2
  | free {h : Heap} {ptr : Nat} (run : SpareRun h) (hptr : ptr < 2 ^ 32) (page : h.PageTold ptr)
      (notInterior : ¬ h.IsInterior ptr) (spare : ¬ h.EmptiesSecond ptr) :
      SpareRun (h.slabFree ptr).2
  | other {h h' : Heap} (run : SpareRun h) (same : h'.slabCaches = h.slabCaches)
      (reached : SlabRun h') : SpareRun h'

end Stos.Kernel
