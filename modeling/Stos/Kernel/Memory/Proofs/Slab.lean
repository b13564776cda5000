import Stos.Kernel.Memory.Slab
import Stos.Kernel.Memory.Proofs.Vmm

/-!
# The slab allocator along runs

What a slab is worth is local to its page: `SlabOk` reads its header and the bytes of its page
only. An operation changes one slab and the lists of its cache, so each preservation proof is one
`SlabOk` of the changed slab and the frame for the others. Between an operation on a slab and
`slab_update_lists` the slab may be on the wrong list; `SlabInv` names the slabs this is allowed
for.
-/

namespace Stos.Kernel

open Heap List Function BitVec Nat Slab SlabCache

variable {h h' : Heap} {cache slab ptr i size freeList c base n a : Nat} {xs xs' : List Nat}
  {k : SlabListType} {E F : Nat → Prop} {backed : Nat → Bool} {mem : Mem} {vmm : Vmm}

/-- The object size of a cache. -/
def classSize (cache : Nat) : Nat := slabSizeClasses.getD cache 0

/-- The number of objects in a slab of a cache. -/
def classCount (cache : Nat) : Nat := 4060 / classSize cache

theorem classSize_bounds (hcache : cache < 8) :
    8 ≤ classSize cache ∧ classSize cache ≤ 1024 ∧ 3 ≤ classCount cache ∧ classCount cache ≤ 507 ∧
      classCount cache * classSize cache ≤ 4060 := by
  revert cache
  decide

/-- A slab of `cache` in its page, with the free objects `xs`. -/
structure SlabOk (h : Heap) (cache slab : Nat) (xs : List Nat) : Prop where
  index : cache < 8
  magic : read32 h.mem slab = slabMagic
  cacheEq : (h.slabs slab).cache = cache
  start : (h.slabs slab).objectsStart = slab + 36
  size : (h.slabs slab).objectSize = classSize cache
  count : (h.slabs slab).numObjects = classCount cache
  chain : IsSll 0 h.next (h.slabs slab).freeList xs
  nodup : xs.Nodup
  objects : ∀ x ∈ xs, ∃ i < classCount cache, x = slab + 36 + i * classSize cache
  free : (h.slabs slab).numFree = xs.length
  page : 4096 ∣ slab
  low : 0x100000 ≤ slab
  high : slab + 4096 ≤ 0xC0000000

theorem SlabOk.object_eq (ok : SlabOk h cache slab xs) (i : Nat) :
    h.object slab i = slab + 36 + i * classSize cache := by
  unfold object
  rw [ok.start, ok.size]

/-- Object `i` lies in the page, behind the header. -/
theorem object_bounds (hcache : cache < 8) (hi : i < classCount cache) :
    i * classSize cache + classSize cache ≤ 4060 := by
  obtain ⟨-, -, -, -, hfit⟩ := classSize_bounds hcache
  calc i * classSize cache + classSize cache = (i + 1) * classSize cache :=
        (succ_mul i _).symm
    _ ≤ classCount cache * classSize cache := mul_le_mul_right _ hi
    _ ≤ 4060 := hfit

section

variable (ok : SlabOk h cache slab xs)

include ok

theorem SlabOk.free_bounds (hptr : ptr ∈ xs) :
    slab + 36 ≤ ptr ∧ ptr + classSize cache ≤ slab + 4096 := by
  obtain ⟨i, hi, rfl⟩ := ok.objects ptr hptr
  have := object_bounds ok.index hi
  omega

/-- The free list has at most as many objects as the slab. -/
theorem SlabOk.length_le : xs.length ≤ classCount cache := by
  have hsub : xs ⊆ (range (classCount cache)).map fun i => slab + 36 + i * classSize cache := by
    intro x hx
    obtain ⟨i, hi, rfl⟩ := ok.objects x hx
    exact mem_map.mpr ⟨i, mem_range.mpr hi, rfl⟩
  have hle := (subperm_of_subset ok.nodup hsub).length_le
  simpa using hle

theorem SlabOk.onFreeList_iff : h.OnFreeList slab ptr ↔ ptr ∈ xs := by
  refine ok.chain.sllFind_iff ?_
  have hle := ok.length_le
  obtain ⟨-, -, -, hcount, -⟩ := classSize_bounds ok.index
  omega

theorem SlabOk.target_empty_iff :
    (h.slabs slab).targetList = .empty ↔ xs.length = classCount cache := by
  obtain ⟨-, -, hthree, -⟩ := classSize_bounds ok.index
  unfold targetList
  rw [ok.free, ok.count]
  split_ifs with hnone hall
  · simp
    omega
  · simp [hall]
  · simp [hall]

/-- The slab with another free list and another list label. -/
theorem SlabOk.change {numFree : Nat}
    (hself : h'.slabs slab = { h.slabs slab with freeList := freeList, numFree := numFree, currentList := k })
    (hmem : ∀ a, slab ≤ a → a < slab + 36 → h'.mem a = h.mem a)
    (chain : IsSll 0 h'.next freeList xs') (nodup : xs'.Nodup)
    (objects : ∀ x ∈ xs', ∃ i < classCount cache, x = slab + 36 + i * classSize cache)
    (free : numFree = xs'.length) : SlabOk h' cache slab xs' := by
  have hmagic : read32 h'.mem slab = read32 h.mem slab :=
    read32_congr fun a ha hlt => hmem a ha (by omega)
  refine ⟨ok.index, hmagic.trans ok.magic, ?_, ?_, ?_, ?_, ?_, nodup, objects, ?_, ok.page, ok.low,
    ok.high⟩
  · rw [hself]
    exact ok.cacheEq
  · rw [hself]
    exact ok.start
  · rw [hself]
    exact ok.size
  · rw [hself]
    exact ok.count
  · rw [hself]
    exact chain
  · rw [hself]
    exact free

/-- A slab depends on its header and on the bytes of its page. -/
theorem SlabOk.congr (hslab : h'.slabs slab = h.slabs slab)
    (hmem : ∀ a, slab ≤ a → a < slab + 36 → h'.mem a = h.mem a)
    (hlinks : ∀ x ∈ xs, h'.next x = h.next x) : SlabOk h' cache slab xs :=
  ok.change hslab hmem (ok.chain.congr hlinks) ok.nodup ok.objects ok.free

/-- The list label does not matter for what a slab holds. -/
theorem SlabOk.relabel (hmem : h'.mem = h.mem)
    (hslab : h'.slabs slab = { h.slabs slab with currentList := k }) : SlabOk h' cache slab xs := by
  have hnext : h'.next = h.next := by
    unfold Heap.next
    rw [hmem]
  exact ok.change hslab (fun a _ _ => by rw [hmem]) (hnext ▸ ok.chain) ok.nodup ok.objects ok.free

end

/-- The invariant of the heap; the slabs of `E` may be on the wrong list of their cache. -/
structure SlabInv (h : Heap) (E : Nat → Prop) : Prop where
  init : h.slabInitialized = true
  sizes : ∀ c < 8, (h.slabCaches c).objectSize = classSize c ∧
    (h.slabCaches c).objectsPerSlab = classCount c ∧ (h.slabCaches c).slabPages = 1
  ok : ∀ c slab, h.IsSlab c slab → ∃ xs, SlabOk h c slab xs
  listed : ∀ c < 8, ∀ k, ∀ slab ∈ (h.slabCaches c).list k,
    (h.slabs slab).currentList = k ∧ (¬ E slab → (h.slabs slab).targetList = k)
  nodup : ∀ c < 8, ∀ k, ((h.slabCaches c).list k).Nodup
  vmm : VmmOk h.vmm
  region : ∀ c slab, h.IsSlab c slab → h.vmm.InUse slab (slab + 4096)

/-- No slab is on a wrong list. -/
abbrev SlabInv.All (h : Heap) : Prop := SlabInv h fun _ => False

namespace SlabInv

variable {c' : Nat}

/-- A slab belongs to one cache. -/
theorem cache_eq (inv : SlabInv h E) (hs : h.IsSlab c slab) (hs' : h.IsSlab c' slab) : c = c' := by
  obtain ⟨xs, ok⟩ := inv.ok c slab hs
  obtain ⟨xs', ok'⟩ := inv.ok c' slab hs'
  exact ok.cacheEq.symm.trans ok'.cacheEq

/-- Pages of two slabs do not overlap. -/
theorem apart {slab' : Nat} (inv : SlabInv h E) (hs : h.IsSlab c slab) (hs' : h.IsSlab c' slab')
    (hne : slab' ≠ slab) : slab + 4096 ≤ slab' ∨ slab' + 4096 ≤ slab := by
  obtain ⟨xs, ok⟩ := inv.ok c slab hs
  obtain ⟨xs', ok'⟩ := inv.ok c' slab' hs'
  obtain ⟨m, rfl⟩ := ok.page
  obtain ⟨m', rfl⟩ := ok'.page
  omega

/-- A slab is on one list of one cache. -/
theorem mem_list_iff (inv : SlabInv h E) (hslab : h.IsSlab cache slab) (hc : c < 8) :
    slab ∈ (h.slabCaches c).list k ↔ c = cache ∧ k = (h.slabs slab).currentList := by
  constructor
  · intro hk
    exact ⟨inv.cache_eq ⟨hc, k, hk⟩ hslab, (inv.listed c hc k slab hk).1.symm⟩
  · rintro ⟨rfl, rfl⟩
    obtain ⟨-, k, hk⟩ := hslab
    rwa [(inv.listed c hc k slab hk).1]

/-- Users and the virtual memory manager change memory and the regions; headers, free objects and
the pages of the slabs stay. -/
theorem frame (inv : SlabInv h E) (hok : VmmOk vmm)
    (hregion : ∀ c b, h.IsSlab c b → vmm.InUse b (b + 4096))
    (hheader : ∀ c b, h.IsSlab c b → ∀ a, b ≤ a → a < b + 36 → mem a = h.mem a)
    (hlinks : ∀ c b xs, h.IsSlab c b → SlabOk h c b xs →
      ∀ x ∈ xs, read32 mem x = read32 h.mem x) : SlabInv { h with mem := mem, vmm := vmm } E := by
  refine ⟨inv.init, inv.sizes, fun c b hb => ?_, inv.listed, inv.nodup, hok, hregion⟩
  obtain ⟨xs, ok⟩ := inv.ok c b hb
  exact ⟨xs, ok.congr rfl (hheader c b hb) fun x hx => congrArg BitVec.toNat (hlinks c b xs hb ok x hx)⟩

theorem setVmm (inv : SlabInv h E) (hok : VmmOk vmm)
    (hin : ∀ start stop, h.vmm.InUse start stop → vmm.InUse start stop) :
    SlabInv { h with vmm := vmm } E :=
  inv.frame hok (fun c b hb => hin _ _ (inv.region c b hb)) (fun _ _ _ _ _ _ => rfl)
    fun _ _ _ _ _ _ _ => rfl

/-- The slab of a pointer is the page it lies in. -/
theorem page_eq (inv : SlabInv h E) (hs : h.IsSlab cache slab) (hlo : slab ≤ ptr)
    (hhi : ptr < slab + 4096) : ptr / 4096 * 4096 = slab := by
  obtain ⟨xs, ok⟩ := inv.ok cache slab hs
  obtain ⟨m, rfl⟩ := ok.page
  omega

end SlabInv

/-! ## Freeing a pointer that is not an allocated object -/

theorem hasMagic_of_ok (ok : SlabOk h cache slab xs) : h.hasMagic slab = true := by
  unfold hasMagic
  rw [ok.magic]
  decide

/-- `slab_get_slab` finds the slab of every pointer into its objects, and of no other. -/
theorem slabGetSlab_eq_some_iff (inv : SlabInv h E) (page : h.PageTold ptr) :
    h.slabGetSlab ptr = some slab ↔
      ∃ c, h.IsSlab c slab ∧ slab + 36 ≤ ptr ∧ ptr < slab + 36 + classCount c * classSize c := by
  unfold slabGetSlab
  constructor
  · intro hget
    split at hget
    case isTrue => cases hget
    dsimp only at hget
    split at hget
    case isTrue => cases hget
    split at hget
    case isTrue => cases hget
    case isFalse hmagic hrange =>
      cases hget
      obtain ⟨c, hslab⟩ := page.resolve_right hmagic
      obtain ⟨xs, ok⟩ := inv.ok c _ hslab
      rw [ok.start, ok.count, ok.size] at hrange
      exact ⟨c, hslab, by omega, by omega⟩
  · rintro ⟨c, hslab, hlo, hhi⟩
    obtain ⟨xs, ok⟩ := inv.ok c slab hslab
    obtain ⟨-, -, -, -, hfit⟩ := classSize_bounds ok.index
    have hpage : ptr / 4096 * 4096 = slab := inv.page_eq hslab (by omega) (by omega)
    rw [if_neg (by omega)]
    rw [hpage, if_neg (by simp [hasMagic_of_ok ok]), ok.start, ok.count, ok.size, if_neg (by omega)]

/-- A pointer into the objects of a slab points into one of them. -/
theorem exists_object (hcache : c < 8) (hlo : slab + 36 ≤ ptr)
    (hhi : ptr < slab + 36 + classCount c * classSize c) :
    ∃ i < classCount c, slab + 36 + i * classSize c ≤ ptr ∧
      ptr < slab + 36 + (i + 1) * classSize c := by
  obtain ⟨hpos, -⟩ := classSize_bounds hcache
  refine ⟨(ptr - (slab + 36)) / classSize c, ?_, ?_, ?_⟩
  · exact (div_lt_iff_lt_mul (by omega)).mpr (by omega)
  · have := div_mul_le_self (ptr - (slab + 36)) (classSize c)
    omega
  · have hlt := lt_mul_div_succ (ptr - (slab + 36)) (show 0 < classSize c by omega)
    rw [Nat.mul_comm] at hlt
    omega

theorem object_lt_succ (hcache : cache < 8) (i : Nat) :
    i * classSize cache < (i + 1) * classSize cache := by
  have hpos := (classSize_bounds hcache).1
  rw [Nat.succ_mul]
  omega

/-- Objects do not overlap. -/
theorem object_apart {j : Nat} (size : Nat) (hij : i ≠ j) :
    (i + 1) * size ≤ j * size ∨ (j + 1) * size ≤ i * size := by
  rcases lt_or_gt_of_ne hij with hlt | hlt
  · exact .inl (mul_le_mul_right _ hlt)
  · exact .inr (mul_le_mul_right _ hlt)

theorem object_unique {j : Nat} (hi : base + i * size ≤ ptr) (hi' : ptr < base + (i + 1) * size)
    (hj : base + j * size ≤ ptr) (hj' : ptr < base + (j + 1) * size) : i = j := by
  by_contra hij
  have := object_apart size hij
  omega

theorem isInterior_iff (inv : SlabInv h E) (hslab : h.IsSlab c slab) (hlo : slab ≤ ptr)
    (hhi : ptr < slab + 4096) :
    h.IsInterior ptr ↔ ∃ i < classCount c, slab + 36 + i * classSize c < ptr ∧
      ptr < slab + 36 + (i + 1) * classSize c := by
  constructor
  · rintro ⟨c', slab', hslab', hlo', hhi', i, hi, hin⟩
    obtain rfl : slab' = slab := by
      rw [← inv.page_eq hslab' hlo' hhi', inv.page_eq hslab hlo hhi]
    obtain ⟨xs, ok⟩ := inv.ok c slab' hslab
    rw [ok.count] at hi
    rw [ok.object_eq, ok.object_eq] at hin
    exact ⟨i, hi, hin⟩
  · rintro ⟨i, hi, hin⟩
    obtain ⟨xs, ok⟩ := inv.ok c slab hslab
    refine ⟨c, slab, hslab, hlo, hhi, i, ok.count ▸ hi, ?_⟩
    rwa [ok.object_eq, ok.object_eq]

theorem SlabOk.ne_zero (ok : SlabOk h cache slab xs) : slab ≠ 0 := by
  have := ok.low
  omega

/-- A pointer that is on the free list is rejected; any other one is accepted. -/
theorem slabFreeToSlab_eq (ok : SlabOk h cache slab xs) (hptr : ptr ≠ 0) :
    h.slabFreeToSlab slab ptr =
      if ptr ∈ xs then (false, h)
      else (true, ({ h with mem := write32 h.mem ptr (BitVec.ofNat 32 (h.slabs slab).freeList) } :
        Heap).setSlab slab { h.slabs slab with
          freeList := ptr, numFree := ((h.slabs slab).numFree + 1) % 65536 }) := by
  unfold slabFreeToSlab
  have hguard : ¬ (slab = 0 ∨ h.hasMagic slab = false ∨ ptr = 0) := by
    rw [hasMagic_of_ok ok]
    simp [ok.ne_zero, hptr]
  rw [if_neg hguard]
  by_cases hmem : ptr ∈ xs
  · have hfind : sllFind 0 h.next ptr 65536 (h.slabs slab).freeList = true :=
      ok.onFreeList_iff.mpr hmem
    rw [if_pos hmem, if_pos hfind]
  · have hfind : ¬ sllFind 0 h.next ptr 65536 (h.slabs slab).freeList = true :=
      fun hfind => hmem (ok.onFreeList_iff.mp hfind)
    rw [if_neg hmem, if_neg hfind]

theorem slabFree_of_none (hget : h.slabGetSlab ptr = none) : h.slabFree ptr = (false, h) := by
  unfold slabFree
  rw [hget]
  split
  · rfl
  · rfl

theorem slabFree_fst_of_accepted {h1 : Heap} (hinit : h.slabInitialized = true) (hptr : ptr ≠ 0)
    (hget : h.slabGetSlab ptr = some slab) (hfree : h.slabFreeToSlab slab ptr = (true, h1)) :
    (h.slabFree ptr).1 = true := by
  unfold slabFree
  rw [if_neg (by simp [hptr, hinit]), hget]
  dsimp only
  rw [hfree]
  dsimp only
  split
  · rfl
  · rfl

theorem slabFree_eq_of_rejected (hinit : h.slabInitialized = true) (hptr : ptr ≠ 0)
    (hget : h.slabGetSlab ptr = some slab) (hfree : h.slabFreeToSlab slab ptr = (false, h)) :
    h.slabFree ptr = (false, h) := by
  unfold slabFree
  rw [if_neg (by simp [hptr, hinit]), hget]
  dsimp only
  rw [hfree]

/-- Of the pointers that are not allocated objects, exactly the interior ones are accepted. -/
theorem slabFree_eq_iff (inv : SlabInv h E) (page : h.PageTold ptr)
    (hnot : ¬ h.IsAllocated (ptr / 4096 * 4096) ptr) :
    h.slabFree ptr = (false, h) ↔ ¬ h.IsInterior ptr := by
  cases hget : h.slabGetSlab ptr with
  | none =>
    refine iff_of_true (slabFree_of_none hget) ?_
    rintro ⟨c, slab, hslab, hlo, hhi, i, hi, hin⟩
    obtain ⟨xs, ok⟩ := inv.ok c slab hslab
    rw [ok.count] at hi
    rw [ok.object_eq, ok.object_eq] at hin
    have hend : (i + 1) * classSize c ≤ classCount c * classSize c := mul_le_mul_right _ hi
    have hsome := (slabGetSlab_eq_some_iff inv page).mpr ⟨c, hslab, by omega, by omega⟩
    cases hget.symm.trans hsome
  | some slab =>
    obtain ⟨c, hslab, hlo, hhi⟩ := (slabGetSlab_eq_some_iff inv page).mp hget
    obtain ⟨xs, ok⟩ := inv.ok c slab hslab
    obtain ⟨-, -, -, -, hfit⟩ := classSize_bounds ok.index
    have hzero : ptr ≠ 0 := by omega
    have hpage : ptr / 4096 * 4096 = slab := inv.page_eq hslab (by omega) (by omega)
    rw [hpage] at hnot
    obtain ⟨i, hi, hle, hlt⟩ := exists_object ok.index hlo hhi
    rw [isInterior_iff inv hslab (by omega) (by omega)]
    rcases lt_or_eq_of_le hle with hin | hstart
    · -- inside object `i`: no object starts here, so the pointer is not on the free list
      have hout : ptr ∉ xs := by
        intro hmem
        obtain ⟨j, hj, hjeq⟩ := ok.objects ptr hmem
        have hnext := object_lt_succ ok.index j
        have hij : i = j := object_unique hle hlt (le_of_eq hjeq.symm) (by omega)
        subst hij
        omega
      have hfree := slabFreeToSlab_eq ok hzero
      rw [if_neg hout] at hfree
      have htrue := slabFree_fst_of_accepted inv.init hzero hget hfree
      refine iff_of_false (fun e => ?_) (not_not.mpr ⟨i, hi, hin, hlt⟩)
      rw [e] at htrue
      cases htrue
    · -- the start of object `i`: it is free
      have hmem : ptr ∈ xs := by
        by_contra hout
        refine hnot ⟨⟨i, ok.count ▸ hi, ?_⟩, fun hfree => hout (ok.onFreeList_iff.mp hfree)⟩
        rw [ok.object_eq]
        exact hstart.symm
      have hfree := slabFreeToSlab_eq ok hzero
      rw [if_pos hmem] at hfree
      refine iff_of_true (slabFree_eq_of_rejected inv.init hzero hget hfree) ?_
      rintro ⟨j, hj, hjlt, hjgt⟩
      have hij : i = j := object_unique hle hlt hjlt.le hjgt
      subst hij
      omega

/-! ## One slab changes -/

/-- An operation on one slab: all other slabs keep their header, their page and their list. -/
theorem SlabInv.step (inv : SlabInv h E) (hinit : h'.slabInitialized = h.slabInitialized)
    (hsizes : ∀ c, (h'.slabCaches c).objectSize = (h.slabCaches c).objectSize ∧
      (h'.slabCaches c).objectsPerSlab = (h.slabCaches c).objectsPerSlab ∧
      (h'.slabCaches c).slabPages = (h.slabCaches c).slabPages) (hvmm : VmmOk h'.vmm)
    (hin : ∀ start stop, h.vmm.InUse start stop → h'.vmm.InUse start stop)
    (hslabs : ∀ b ≠ slab, h'.slabs b = h.slabs b)
    (hmem : ∀ a, a < slab ∨ slab + 4096 ≤ a → h'.mem a = h.mem a)
    (hapart : ∀ c b, h.IsSlab c b → b ≠ slab → slab + 4096 ≤ b ∨ b + 4096 ≤ slab)
    (ok' : SlabOk h' cache slab xs') (hregion : h'.vmm.InUse slab (slab + 4096))
    (hnodup : ∀ c < 8, ∀ k, ((h'.slabCaches c).list k).Nodup)
    (hlists : ∀ c < 8, ∀ k b, b ∈ (h'.slabCaches c).list k ↔ b ≠ slab ∧ b ∈ (h.slabCaches c).list k ∨
      b = slab ∧ c = cache ∧ k = (h'.slabs slab).currentList)
    (htarget : ¬ F slab → (h'.slabs slab).targetList = (h'.slabs slab).currentList)
    (hE : ∀ b ≠ slab, E b → F b) : SlabInv h' F := by
  have hisSlab : ∀ c b, h'.IsSlab c b → b ≠ slab ∧ h.IsSlab c b ∨ b = slab ∧ c = cache := by
    rintro c b ⟨hc, k, hb⟩
    rcases (hlists c hc k b).mp hb with ⟨hne, hold⟩ | ⟨rfl, rfl, -⟩
    · exact .inl ⟨hne, hc, k, hold⟩
    · exact .inr ⟨rfl, rfl⟩
  refine ⟨hinit.trans inv.init, fun c hc => ?_, fun c b hb => ?_, fun c hc k b hb => ?_, hnodup,
    hvmm, fun c b hb => ?_⟩
  · rw [(hsizes c).1, (hsizes c).2.1, (hsizes c).2.2]
    exact inv.sizes c hc
  · rcases hisSlab c b hb with ⟨hne, hold⟩ | ⟨rfl, rfl⟩
    · obtain ⟨xs, ok⟩ := inv.ok c b hold
      have hout := hapart c b hold hne
      refine ⟨xs, ok.congr (hslabs b hne) (fun a ha hlt => hmem a (by omega)) fun x hx => ?_⟩
      have hbounds := ok.free_bounds hx
      have hsize := (classSize_bounds ok.index).1
      unfold Heap.next
      rw [read32_congr fun a ha hlt => hmem a (by omega)]
    · exact ⟨xs', ok'⟩
  · rcases (hlists c hc k b).mp hb with ⟨hne, hold⟩ | ⟨rfl, -, rfl⟩
    · obtain ⟨hcur, hold⟩ := inv.listed c hc k b hold
      rw [hslabs b hne]
      exact ⟨hcur, fun hout => hold fun hb => hout (hE b hne hb)⟩
    · exact ⟨rfl, htarget⟩
  · rcases hisSlab c b hb with ⟨-, hold⟩ | ⟨rfl, -⟩
    · exact hin _ _ (inv.region c b hold)
    · exact hregion

@[simp] theorem SlabCache.list_setList (c : SlabCache) (k k' : SlabListType) (ys : List Nat) :
    (c.setList k ys).list k' = if k' = k then ys else c.list k' := by
  cases k <;> cases k' <;> rfl

@[simp] theorem SlabCache.setList_sizes (c : SlabCache) (k : SlabListType) (ys : List Nat) :
    (c.setList k ys).objectSize = c.objectSize ∧
      (c.setList k ys).objectsPerSlab = c.objectsPerSlab ∧
      (c.setList k ys).slabPages = c.slabPages := by
  cases k <;> exact ⟨rfl, rfl, rfl⟩

theorem slabUpdateLists_of_eq (hlist : (h.slabs slab).currentList = (h.slabs slab).targetList) :
    h.slabUpdateLists slab = h := by
  unfold slabUpdateLists
  split
  · rfl
  · exact if_pos hlist

/-- The slab moves to the head of the list that its counters ask for, if it is on another one. -/
theorem slabUpdateLists_eq (ok : SlabOk h cache slab xs) :
    let h' := h.slabUpdateLists slab
    h'.mem = h.mem ∧ h'.vmm = h.vmm ∧ h'.slabInitialized = h.slabInitialized ∧
      h'.slabs = update h.slabs slab
        { h.slabs slab with currentList := (h.slabs slab).targetList } ∧
      (∀ c, (h'.slabCaches c).objectSize = (h.slabCaches c).objectSize ∧
        (h'.slabCaches c).objectsPerSlab = (h.slabCaches c).objectsPerSlab ∧
        (h'.slabCaches c).slabPages = (h.slabCaches c).slabPages) ∧
      ∀ c k, (h'.slabCaches c).list k =
        if (h.slabs slab).currentList = (h.slabs slab).targetList then (h.slabCaches c).list k
        else if c = cache ∧ k = (h.slabs slab).targetList then slab :: (h.slabCaches c).list k
        else if c = cache ∧ k = (h.slabs slab).currentList then
          ((h.slabCaches c).list k).erase slab
        else (h.slabCaches c).list k := by
  by_cases hmove : (h.slabs slab).currentList = (h.slabs slab).targetList
  · rw [slabUpdateLists_of_eq hmove, ← hmove]
    exact ⟨rfl, rfl, rfl, (update_eq_self ..).symm, fun _ => ⟨rfl, rfl, rfl⟩,
      fun _ _ => (if_pos rfl).symm⟩
  have hguard : ¬ (slab = 0 ∨ h.hasMagic slab = false) := by
    rw [hasMagic_of_ok ok]
    simp [ok.ne_zero]
  unfold slabUpdateLists
  rw [if_neg hguard]
  dsimp only
  rw [if_neg hmove, ok.cacheEq]
  refine ⟨rfl, rfl, rfl, rfl, fun c => ?_, fun c k => ?_⟩
  · by_cases hc : c = cache <;> simp [setSlab, addToList, removeFromList, setCache, hc]
  · rw [if_neg hmove]
    by_cases hc : c = cache
    · subst hc
      simp only [setSlab, addToList, removeFromList, setCache, update_self,
        list_setList, true_and]
      by_cases hk : k = (h.slabs slab).targetList
      · rw [if_pos hk, if_pos hk, if_neg (Ne.symm hmove), hk]
      · rw [if_neg hk, if_neg hk]
        split
        case isTrue e => rw [e]
        case isFalse => rfl
    · simp [setSlab, addToList, removeFromList, setCache, hc]

/-- Afterwards the slab is on the right list. -/
theorem SlabInv.updateLists (inv : SlabInv h fun b => b = slab) (hslab : h.IsSlab cache slab) :
    SlabInv.All (h.slabUpdateLists slab) := by
  obtain ⟨xs, ok⟩ := inv.ok cache slab hslab
  obtain ⟨hmem, hvmm, hinit, hslabs, hsizes, hlist⟩ := slabUpdateLists_eq ok
  have hself := congrFun hslabs slab
  rw [update_self] at hself
  refine inv.step hinit hsizes (hvmm ▸ inv.vmm) (fun _ _ => hvmm ▸ id)
    (fun b hb => by rw [hslabs, update_of_ne hb]) (fun a _ => by rw [hmem])
    (fun c b hb hne => inv.apart hslab hb hne) (ok.relabel hmem hself)
    (hvmm ▸ inv.region cache slab hslab) (fun c hc k => ?_) (fun c hc k b => ?_)
    (fun _ => by rw [hself]; rfl) fun b hne hb => hne hb
  · have hnd := inv.nodup c hc k
    rw [hlist]
    split_ifs with hmove htarget
    · exact hnd
    · refine nodup_cons.mpr ⟨fun hold => hmove ?_, hnd⟩
      exact ((inv.mem_list_iff hslab hc).mp hold).2.symm.trans htarget.2
    · exact hnd.erase slab
    · exact hnd
  · rw [hlist, hself]
    by_cases hb : b = slab
    · rw [hb]
      have hiff := inv.mem_list_iff (k := k) hslab hc
      have herase := (inv.nodup c hc k).not_mem_erase (a := slab)
      split_ifs with hmove htarget hcur
      · simp [hiff, hmove]
      · simp [htarget]
      · simp [herase, htarget]
      · simp [hiff, hcur, htarget]
    · split_ifs <;> simp [hb]

/-! ## Taking and giving back an object -/

/-- An operation on one slab: the others, the lists and the memory outside its page are as
before. -/
structure SlabChanged (h : Heap) (slab : Nat) (h' : Heap) : Prop where
  caches : h'.slabCaches = h.slabCaches
  init : h'.slabInitialized = h.slabInitialized
  vmm : h'.vmm = h.vmm
  others : ∀ b, b ≠ slab → h'.slabs b = h.slabs b
  label : (h'.slabs slab).currentList = (h.slabs slab).currentList
  mem : ∀ a, a < slab ∨ slab + 4096 ≤ a → h'.mem a = h.mem a

theorem SlabChanged.inv (ch : SlabChanged h slab h') (inv : SlabInv.All h)
    (hslab : h.IsSlab cache slab) (ok' : SlabOk h' cache slab xs') :
    SlabInv h' fun b => b = slab := by
  refine inv.step ch.init (fun c => ?_) (ch.vmm ▸ inv.vmm) (fun _ _ => ch.vmm ▸ id) ch.others ch.mem
    (fun c b hb hne => inv.apart hslab hb hne) ok' (ch.vmm ▸ inv.region cache slab hslab)
    (ch.caches ▸ inv.nodup) (fun c hc k b => ?_) (fun hout => absurd rfl hout)
    fun b _ hb => hb.elim
  · rw [ch.caches]
    exact ⟨rfl, rfl, rfl⟩
  · rw [ch.caches, ch.label]
    by_cases hb : b = slab
    · simp [hb, inv.mem_list_iff hslab hc]
    · simp [hb]

/-- `slab_update_lists` after the operation puts the slab on the right list. -/
theorem SlabChanged.updateLists (ch : SlabChanged h slab h') (inv : SlabInv.All h)
    (hslab : h.IsSlab cache slab) (ok' : SlabOk h' cache slab xs') :
    SlabInv.All (h'.slabUpdateLists slab) ∧ SlabOk (h'.slabUpdateLists slab) cache slab xs' := by
  have hslab' : h'.IsSlab cache slab := by
    unfold IsSlab
    rwa [ch.caches]
  obtain ⟨hmem, -, -, hslabs, -⟩ := slabUpdateLists_eq ok'
  have hself := congrFun hslabs slab
  rw [update_self] at hself
  exact ⟨(ch.inv inv hslab ok').updateLists hslab', ok'.relabel hmem hself⟩

/-- An object goes from the free list to the user. -/
theorem slabAllocFromSlab_spec (ok : SlabOk h cache slab (ptr :: xs)) :
    (h.slabAllocFromSlab slab).1 = ptr ∧
      SlabOk (h.slabAllocFromSlab slab).2 cache slab xs ∧
      SlabChanged h slab (h.slabAllocFromSlab slab).2 := by
  obtain ⟨hhead, hne, hrest⟩ := ok.chain
  have hfree := ok.free
  have heq : h.slabAllocFromSlab slab = (ptr, h.setSlab slab
      { h.slabs slab with freeList := h.next ptr, numFree := (h.slabs slab).numFree - 1 }) := by
    unfold slabAllocFromSlab
    rw [if_neg, if_neg (by rwa [hhead]), hhead]
    rw [hasMagic_of_ok ok, hfree]
    simp [ok.ne_zero]
  rw [heq]
  refine ⟨rfl, ?_, rfl, rfl, rfl, fun b hb => update_of_ne hb .., ?_, fun _ _ => rfl⟩
  · refine ok.change (update_self ..) (fun _ _ _ => rfl) hrest
      (nodup_cons.mp ok.nodup).2 (fun x hx => ok.objects x (mem_cons_of_mem _ hx)) ?_
    rw [hfree, length_cons, Nat.add_sub_cancel]
  · simp [setSlab]

/-- An object goes from the user to the free list. -/
theorem slabFreeToSlab_spec (ok : SlabOk h cache slab xs) (hi : i < classCount cache)
    (hptr : ptr = slab + 36 + i * classSize cache) (hout : ptr ∉ xs) :
    (h.slabFreeToSlab slab ptr).1 = true ∧
      SlabOk (h.slabFreeToSlab slab ptr).2 cache slab (ptr :: xs) ∧
      SlabChanged h slab (h.slabFreeToSlab slab ptr).2 := by
  obtain ⟨hsize, -, -, hcount, -⟩ := classSize_bounds ok.index
  have hbounds := object_bounds ok.index hi
  have hhigh := ok.high
  have heq := slabFreeToSlab_eq ok (show ptr ≠ 0 by omega)
  rw [if_neg hout] at heq
  rw [heq]
  -- the head is the null pointer or a free object, so it fits in a link
  have hhead : (h.slabs slab).freeList < 2 ^ 32 := by
    have hchain := ok.chain
    cases xs with
    | nil =>
      have : (h.slabs slab).freeList = 0 := hchain
      omega
    | cons x xs =>
      have := ok.free_bounds (mem_cons_self : x ∈ x :: xs)
      have := hchain.1
      omega
  have hlink : ∀ x ∈ xs, read32 (write32 h.mem ptr (BitVec.ofNat 32 (h.slabs slab).freeList)) x =
      read32 h.mem x := by
    intro x hx
    obtain ⟨j, hj, rfl⟩ := ok.objects x hx
    refine read32_write32_of_disjoint ?_
    have hij : i ≠ j := fun e => hout (hptr ▸ e ▸ hx)
    have := object_apart (classSize cache) hij
    rw [Nat.succ_mul, Nat.succ_mul] at this
    omega
  refine ⟨rfl, ?_, rfl, rfl, rfl, fun b hb => update_of_ne hb .., ?_, fun a ha => ?_⟩
  · refine ok.change (update_self ..) (fun a ha hlt => ?_) ?_
      (nodup_cons.mpr ⟨hout, ok.nodup⟩) ?_ ?_
    · exact write32_of_outside (by omega)
    · refine ok.chain.push (by omega) ?_ fun x hx => ?_
      · show (read32 (write32 h.mem ptr _) ptr).toNat = _
        rw [read32_write32, toNat_ofNat, mod_eq_of_lt hhead]
      · exact congrArg BitVec.toNat (hlink x hx)
    · intro x hx
      rcases mem_cons.mp hx with rfl | hx
      · exact ⟨i, hi, hptr⟩
      · exact ok.objects x hx
    · have := ok.length_le
      rw [ok.free, length_cons, mod_eq_of_lt (by omega)]
  · simp [setSlab]
  · exact write32_of_outside (by omega)

/-! ## A new slab -/

/-- The objects threaded by `slab_create_slab`, last one first. -/
def threaded (base size n : Nat) : List Nat :=
  ((range n).map fun i => base + i * size).reverse

theorem threaded_succ (base size n : Nat) :
    threaded base size (n + 1) = threaded (base + size) size n ++ [base] := by
  unfold threaded
  rw [range_succ_eq_map, map_cons, reverse_cons, map_map]
  congr 3
  · funext i
    show base + (i + 1) * size = base + size + i * size
    rw [Nat.add_one_mul]
    omega
  · omega

theorem mem_threaded {x : Nat} : x ∈ threaded base size n ↔ ∃ i < n, x = base + i * size := by
  simp [threaded, eq_comm]

theorem threaded_nodup (hsize : 0 < size) : (threaded base size n).Nodup := by
  refine nodup_reverse.mpr (List.Nodup.map (fun i j hij => ?_) nodup_range)
  exact Nat.eq_of_mul_eq_mul_right hsize (Nat.add_left_cancel hij)

/-- The loop puts the objects in front of the list it starts with, and writes to the objects
only. -/
theorem threadObjects_spec (hsize : 4 ≤ size) (hbase : base ≠ 0) (hfree : freeList < 2 ^ 32)
    (hend : base + n * size < 2 ^ 32) (chain : IsSll 0 (fun x => (read32 mem x).toNat) freeList xs)
    (hbelow : ∀ x ∈ xs, x + 4 ≤ base) :
    IsSll 0 (fun x => (read32 (threadObjects mem size n base freeList).1 x).toNat)
        (threadObjects mem size n base freeList).2 (threaded base size n ++ xs) ∧
      ∀ a, a < base ∨ base + n * size ≤ a →
        (threadObjects mem size n base freeList).1 a = mem a := by
  induction n generalizing mem base freeList xs with
  | zero => exact ⟨chain, fun _ _ => rfl⟩
  | succ n ih =>
    have hmul : (n + 1) * size = n * size + size := Nat.add_one_mul n size
    unfold threadObjects
    have hpush : IsSll 0 (fun x => (read32 (write32 mem base (BitVec.ofNat 32 freeList)) x).toNat)
        base (base :: xs) := by
      refine chain.push hbase ?_ fun x hx => ?_
      · rw [read32_write32, toNat_ofNat, mod_eq_of_lt hfree]
      · rw [read32_write32_of_disjoint (.inl (hbelow x hx))]
    have hbelow' : ∀ x ∈ base :: xs, x + 4 ≤ base + size := by
      intro x hx
      rcases mem_cons.mp hx with rfl | hx
      · omega
      · have := hbelow x hx
        omega
    obtain ⟨hchain, hmem⟩ := ih (by omega) (by omega) (by omega) hpush hbelow'
    refine ⟨?_, fun a ha => ?_⟩
    · rw [threaded_succ, List.append_assoc]
      exact hchain
    · rw [hmem a (by omega)]
      exact write32_of_outside (by omega)

/-- A page with a fresh header whose objects are threaded is a slab, on the list of empty slabs. -/
theorem SlabInv.create (inv : SlabInv.All h) (hcache : cache < 8) (hok : VmmOk vmm)
    (hin : ∀ start stop, h.vmm.InUse start stop → vmm.InUse start stop)
    (granted : Granted h.vmm slab 4096 vmm)
    (hmem : ∀ a, a < slab ∨ slab + 4096 ≤ a → mem a = h.mem a)
    (hmagic : read32 mem slab = slabMagic)
    (hchain : IsSll 0 (fun x => (read32 mem x).toNat) freeList
      (threaded (slab + 36) (classSize cache) (classCount cache))) :
    let h' := ({ h with vmm := vmm, mem := mem } : Heap).setSlab slab
      ⟨cache, slab + 36, freeList, classCount cache, classCount cache, classSize cache, .empty⟩
        |>.addToList slab cache .empty
    SlabInv.All h' ∧ h'.IsSlab cache slab ∧
      SlabOk h' cache slab (threaded (slab + 36) (classSize cache) (classCount cache)) := by
  obtain ⟨hmin, -, hthree, -, -⟩ := classSize_bounds hcache
  -- the pages of the other slabs are in use, so the new page is apart from them
  have hapart : ∀ c b, h.IsSlab c b → b + 4096 ≤ slab ∨ slab + 4096 ≤ b := fun c b hb =>
    granted.fresh b (b + 4096) (inv.region c b hb)
  have hne : ∀ c b, h.IsSlab c b → b ≠ slab := fun c b hb => by
    have := hapart c b hb
    omega
  intro h'
  have hm : h'.mem = mem := rfl
  have hv : h'.vmm = vmm := rfl
  have hinit : h'.slabInitialized = h.slabInitialized := rfl
  have hself : h'.slabs slab = ⟨cache, slab + 36, freeList, classCount cache, classCount cache,
      classSize cache, .empty⟩ := update_self ..
  have hothers : ∀ b ≠ slab, h'.slabs b = h.slabs b := fun b hb => update_of_ne hb ..
  have hcaches : h'.slabCaches = update h.slabCaches cache
      ((h.slabCaches cache).setList .empty (slab :: (h.slabCaches cache).list .empty)) := rfl
  have hlist : ∀ c k, (h'.slabCaches c).list k =
      if c = cache ∧ k = .empty then slab :: (h.slabCaches c).list k
      else (h.slabCaches c).list k := fun c k => by
    rw [hcaches, update_apply]
    by_cases hc : c = cache
    · by_cases hk : k = .empty <;> simp [hc, hk]
    · simp [hc]
  have hnext : h'.next = fun x => (read32 mem x).toNat := by
    unfold Heap.next
    rw [hm]
  have ok' : SlabOk h' cache slab (threaded (slab + 36) (classSize cache) (classCount cache)) := by
    refine ⟨hcache, hm ▸ hmagic, by rw [hself], by rw [hself], by rw [hself], by rw [hself], ?_,
      threaded_nodup (by omega), fun x hx => mem_threaded.mp hx, ?_, granted.aligned, granted.low,
      granted.high⟩
    · rw [hself, hnext]
      exact hchain
    · rw [hself]
      simp [threaded]
  have hlisted : h'.IsSlab cache slab := by
    refine ⟨hcache, .empty, ?_⟩
    rw [hlist, if_pos ⟨rfl, rfl⟩]
    exact mem_cons_self
  refine ⟨inv.step hinit (fun c => ?_) (hv ▸ hok) (hv ▸ hin) hothers (hm ▸ hmem)
    (fun c b hb _ => (hapart c b hb).symm) ok' (hv ▸ granted.inUse) (fun c hc k => ?_)
    (fun c hc k b => ?_) (fun _ => ?_) fun _ _ hb => hb, hlisted, ok'⟩
  · rw [hcaches, update_apply]
    split
    · next hc => exact hc ▸ setList_sizes ..
    · exact ⟨rfl, rfl, rfl⟩
  · rw [hlist]
    split
    · exact nodup_cons.mpr ⟨fun hold => hne c slab ⟨hc, k, hold⟩ rfl, inv.nodup c hc k⟩
    · exact inv.nodup c hc k
  · have hold : b ∈ (h.slabCaches c).list k → b ≠ slab := fun hk => hne c b ⟨hc, k, hk⟩
    rw [hlist, hself]
    by_cases hb : b = slab
    · split_ifs <;> simp_all
    · split_ifs <;> simp [hb]
  · rw [hself]
    unfold targetList
    rw [if_neg (by show classCount cache ≠ 0; omega), if_pos rfl]

/-- The heap is in order, and the slab that was found has a free object. -/
def SlabReady (cache : Nat) (r : Option Nat × Heap) : Prop :=
  SlabInv.All r.2 ∧ ∀ slab, r.1 = some slab →
    r.2.IsSlab cache slab ∧ ∃ ptr xs, SlabOk r.2 cache slab (ptr :: xs)

theorem slabCreateSlab_ready (backed : Nat → Bool) (inv : SlabInv.All h) (hcache : cache < 8) :
    SlabReady cache (h.slabCreateSlab cache backed) := by
  obtain ⟨hsize, hcount, hpages⟩ := inv.sizes cache hcache
  obtain ⟨hmin, hmax, hthree, -, hfit⟩ := classSize_bounds hcache
  obtain ⟨hok, hin, hgrant⟩ := vmmAlloc_spec h.vmm 1 0x2 backed inv.vmm
  have halloc : h.vmm.vmmKernelAlloc ((h.slabCaches cache).slabPages * 4096) backed =
      h.vmm.vmmAlloc 1 0x2 backed := by
    rw [hpages]
    rfl
  unfold slabCreateSlab
  dsimp only
  rw [halloc]
  generalize hres : h.vmm.vmmAlloc 1 0x2 backed = res at hok hin hgrant
  obtain ⟨slab, vmm⟩ := res
  by_cases hzero : slab = 0
  · rw [if_pos hzero]
    exact ⟨inv.setVmm hok hin, fun _ e => by cases e⟩
  rw [if_neg hzero]
  obtain ⟨-, granted⟩ := hgrant hzero
  have hhigh := granted.high
  have hbase : slab + 36 ≠ 0 := by omega
  have hend : slab + 36 + classCount cache * classSize cache < 2 ^ 32 := by omega
  obtain ⟨hchain, hmem⟩ := threadObjects_spec (show 4 ≤ classSize cache by omega) hbase
    (show 0 < 2 ^ 32 by decide) hend
    (show IsSll 0 (fun x => (read32 (write32 h.mem slab slabMagic) x).toNat) 0 [] from rfl)
    (by simp)
  rw [append_nil] at hchain
  rw [hsize, hcount]
  obtain ⟨inv', hslab, ok⟩ := inv.create hcache hok hin granted
    (fun a ha => (hmem a (by omega)).trans (write32_of_outside (by omega)))
    (by rw [read32_congr fun a _ _ => hmem a (by omega), read32_write32]) hchain
  obtain ⟨m, hm⟩ : ∃ m, classCount cache = m + 1 := ⟨_, (Nat.sub_add_cancel (by omega)).symm⟩
  have hcons : threaded (slab + 36) (classSize cache) (classCount cache) ≠ [] := by
    rw [hm, threaded_succ]
    simp
  obtain ⟨ptr, xs, hxs⟩ := exists_cons_of_ne_nil hcons
  refine ⟨inv', ?_⟩
  rintro _ ⟨⟩
  exact ⟨hslab, ptr, xs, hxs ▸ ok⟩

/-! ## Allocation -/

theorem slabFindCache_lt (hfind : slabFindCache size = some cache) : cache < 8 := by
  unfold slabFindCache at hfind
  split at hfind
  · cases hfind
  · exact mem_range.mp (mem_of_find?_eq_some hfind)

/-- The slab that `slab_alloc` takes from has a free object. -/
theorem slabChoose_ready (backed : Nat → Bool) (inv : SlabInv.All h) (hcache : cache < 8) :
    SlabReady cache (h.slabChoose cache backed) := by
  -- a slab on the partial or the empty list has a free object
  have hfirst : ∀ k slab rest, k ≠ .full → (h.slabCaches cache).list k = slab :: rest →
      SlabReady cache (some slab, h) := by
    intro k slab rest hk hlist
    have hslab : slab ∈ (h.slabCaches cache).list k := hlist ▸ mem_cons_self
    obtain ⟨xs, ok⟩ := inv.ok cache slab ⟨hcache, k, hslab⟩
    have htarget := (inv.listed cache hcache k slab hslab).2 id
    refine ⟨inv, ?_⟩
    rintro _ ⟨⟩
    cases xs with
    | nil =>
      refine absurd htarget (fun e => hk ?_)
      rw [← e]
      unfold targetList
      rw [if_pos (by rw [ok.free]; rfl)]
    | cons ptr xs => exact ⟨⟨hcache, k, hslab⟩, ptr, xs, ok⟩
  unfold slabChoose
  cases hpart : (h.slabCaches cache).partialSlabs with
  | cons slab rest => exact hfirst .partly slab rest (by decide) hpart
  | nil =>
    cases hempty : (h.slabCaches cache).emptySlabs with
    | cons slab rest => exact hfirst .empty slab rest (by decide) hempty
    | nil => exact slabCreateSlab_ready backed inv hcache

/-- What holds before an allocation holds afterwards if the choice of the slab and the removal of
its first free object keep it. -/
theorem slabAlloc_rule {P : Heap → Prop} (inv : SlabInv.All h) (hstart : P h)
    (hchoose : ∀ cache < 8, P (h.slabChoose cache backed).2)
    (htake : ∀ mid h1 cache slab ptr xs, SlabInv.All mid → P mid → mid.IsSlab cache slab →
      SlabOk mid cache slab (ptr :: xs) → SlabChanged mid slab h1 → SlabOk h1 cache slab xs →
      P (h1.slabUpdateLists slab)) : P (h.slabAlloc size backed).2 := by
  unfold slabAlloc
  rw [if_neg (by simp [inv.init])]
  by_cases hsize : size = 0 ∨ size > 2048
  · rw [if_pos hsize]
    exact hstart
  rw [if_neg hsize]
  cases hfind : slabFindCache size with
  | none => exact hstart
  | some cache =>
    have hcache := slabFindCache_lt hfind
    obtain ⟨inv', hready⟩ := slabChoose_ready backed inv hcache
    have hmid := hchoose cache hcache
    dsimp only
    generalize h.slabChoose cache backed = r at inv' hready hmid
    obtain ⟨_ | slab, mid⟩ := r
    · exact hmid
    · obtain ⟨hslab, ptr, xs, ok⟩ := hready slab rfl
      obtain ⟨hptr, ok1, ch⟩ := slabAllocFromSlab_spec ok
      dsimp only at hptr ⊢
      rw [hptr, if_neg ok.chain.2.1]
      exact htake mid _ cache slab ptr xs inv' hmid hslab ok ch ok1

/-! ## Freeing an allocated object -/

/-- A slab that has become empty is then the first of the empty slabs, so it is not given back. -/
theorem slabFree_eq (inv : SlabInv.All h) (hslab : h.IsSlab cache slab)
    (ok : SlabOk h cache slab xs) (hi : i < classCount cache)
    (hptr : ptr = slab + 36 + i * classSize cache) (hout : ptr ∉ xs) :
    ∃ h1, SlabChanged h slab h1 ∧ SlabOk h1 cache slab (ptr :: xs) ∧
      h.slabFree ptr = (true, h1.slabUpdateLists slab) := by
  obtain ⟨hmin, -, -, -, hfit⟩ := classSize_bounds ok.index
  have hbounds := object_bounds ok.index hi
  have hpage : ptr / 4096 * 4096 = slab := inv.page_eq hslab (by omega) (by omega)
  have hend : (i + 1) * classSize cache ≤ classCount cache * classSize cache :=
    mul_le_mul_right _ hi
  have hnext := object_lt_succ ok.index i
  have hget : h.slabGetSlab ptr = some slab :=
    (slabGetSlab_eq_some_iff inv (.inl ⟨cache, hpage ▸ hslab⟩)).mpr
      ⟨cache, hslab, by omega, by omega⟩
  obtain ⟨htrue, ok1, ch⟩ := slabFreeToSlab_spec ok hi hptr hout
  generalize hh1 : (h.slabFreeToSlab slab ptr).2 = h1 at ok1 ch
  have hfree : h.slabFreeToSlab slab ptr = (true, h1) := Prod.ext htrue hh1
  obtain ⟨-, ok2⟩ := ch.updateLists inv hslab ok1
  have hkept : ¬ (((h1.slabUpdateLists slab).slabs slab).numFree =
      ((h1.slabUpdateLists slab).slabs slab).numObjects ∧
      ((h1.slabUpdateLists slab).slabCaches
        ((h1.slabUpdateLists slab).slabs slab).cache).emptySlabs.head? ≠ some slab ∧
      ((h1.slabUpdateLists slab).slabCaches
        ((h1.slabUpdateLists slab).slabs slab).cache).emptySlabs[1]? = some slab) := by
    rintro ⟨hall, hhead, -⟩
    apply hhead
    rw [ok2.cacheEq]
    rw [ok2.free, ok2.count, length_cons] at hall
    have htarget : (h1.slabs slab).targetList = .empty := ok1.target_empty_iff.mpr hall
    have hcur : (h1.slabs slab).currentList ≠ .empty := by
      rw [ch.label]
      obtain ⟨-, k0, hk0⟩ := hslab
      obtain ⟨hcur, hold⟩ := inv.listed cache ok.index k0 slab hk0
      rw [hcur, ← hold id, ne_eq, ok.target_empty_iff]
      omega
    obtain ⟨-, -, -, -, -, hlist⟩ := slabUpdateLists_eq ok1
    have hempty := hlist cache .empty
    rw [htarget, if_neg hcur, if_pos ⟨rfl, rfl⟩] at hempty
    show (((h1.slabUpdateLists slab).slabCaches cache).list .empty).head? = some slab
    rw [hempty]
    rfl
  refine ⟨h1, ch, ok1, ?_⟩
  unfold slabFree
  rw [if_neg (by rw [inv.init]; simp; omega), hget]
  dsimp only
  rw [hfree]
  dsimp only
  rw [if_neg hkept]

/-! ## Runs -/

theorem slabInit_inv (fresh : h.slabInitialized = false) (hvmm : VmmOk h.vmm) :
    SlabInv.All h.slabInit := by
  have hcaches : h.slabInit.slabCaches = fun i => initCache (slabSizeClasses.getD i 0) := by
    unfold slabInit
    rw [if_neg (by simp [fresh])]
  have hempty : ∀ c k, (h.slabInit.slabCaches c).list k = [] := fun c k => by
    rw [hcaches]
    cases k <;> rfl
  have hnone : ∀ c b, ¬ h.slabInit.IsSlab c b := by
    rintro c b ⟨-, k, hk⟩
    rw [hempty] at hk
    cases hk
  have hrest : h.slabInit.slabInitialized = true ∧ h.slabInit.vmm = h.vmm := by
    unfold slabInit
    rw [if_neg (by simp [fresh])]
    exact ⟨rfl, rfl⟩
  refine ⟨hrest.1, fun c hc => ?_, fun c b hb => absurd hb (hnone c b), fun c hc k b hb => ?_,
    fun c _ k => ?_, hrest.2 ▸ hvmm, fun c b hb => absurd hb (hnone c b)⟩
  · rw [hcaches]
    revert c
    decide
  · rw [hempty] at hb
    cases hb
  · rw [hempty]
    exact nodup_nil

/-- The users may not write to a header. -/
theorem not_writable_header (inv : SlabInv h E) (hslab : h.IsSlab cache slab) (hlo : slab ≤ a)
    (hhi : a < slab + 36) : ¬ h.Writable a := by
  intro hw
  obtain ⟨ptr, ⟨⟨i, hi, rfl⟩, -⟩, hle, -⟩ := hw cache slab hslab hlo (by omega)
  obtain ⟨xs, ok⟩ := inv.ok cache slab hslab
  rw [ok.object_eq] at hle
  omega

/-- The users may not write to a free object. -/
theorem not_writable_free (hslab : h.IsSlab cache slab) (ok : SlabOk h cache slab xs)
    (hptr : ptr ∈ xs) (hlo : ptr ≤ a) (hhi : a < ptr + classSize cache) : ¬ h.Writable a := by
  intro hw
  have hbounds := ok.free_bounds hptr
  obtain ⟨ptr', ⟨⟨j, hj, rfl⟩, hfree⟩, hle, hlt⟩ := hw cache slab hslab (by omega) (by omega)
  obtain ⟨i, hi, hptrEq⟩ := ok.objects ptr hptr
  rw [ok.object_eq] at hle hlt hfree
  rw [ok.size] at hlt
  have hmulI := Nat.add_one_mul i (classSize cache)
  have hmulJ := Nat.add_one_mul j (classSize cache)
  have hlo' : slab + 36 + i * classSize cache ≤ a := by omega
  have hhi' : a < slab + 36 + (i + 1) * classSize cache := by omega
  have hij : i = j := object_unique hlo' hhi' hle (by omega)
  subst hij
  exact hfree (ok.onFreeList_iff.mpr (hptrEq ▸ hptr))

/-- A pointer that is freed is the start of an allocated object, or the call changes nothing. -/
theorem slabFree_cases (inv : SlabInv.All h) (page : h.PageTold ptr)
    (notInterior : ¬ h.IsInterior ptr) :
    h.slabFree ptr = (false, h) ∨
      ∃ cache slab xs i, ptr / 4096 * 4096 = slab ∧ h.IsAllocated slab ptr ∧ h.IsSlab cache slab ∧
        SlabOk h cache slab xs ∧ i < classCount cache ∧ ptr = slab + 36 + i * classSize cache ∧
        ptr ∉ xs := by
  by_cases halloc : h.IsAllocated (ptr / 4096 * 4096) ptr
  · rcases page with ⟨cache, hslab⟩ | hmagic
    · have ⟨⟨i, hi, hptr⟩, hfree⟩ := halloc
      obtain ⟨xs, ok⟩ := inv.ok cache _ hslab
      rw [ok.object_eq] at hptr
      exact .inr ⟨cache, _, xs, i, rfl, halloc, hslab, ok, ok.count ▸ hi, hptr,
        fun hmem => hfree (ok.onFreeList_iff.mpr hmem)⟩
    · left
      have hget : h.slabGetSlab ptr = none := by
        unfold slabGetSlab
        split
        · rfl
        · exact if_pos hmagic
      exact slabFree_of_none hget
  · exact .inl ((slabFree_eq_iff inv page halloc).mpr notInterior)

theorem SlabRun.inv (run : SlabRun h) : SlabInv.All h := by
  induction run with
  | init fresh vmm => exact slabInit_inv fresh vmm.ok
  | alloc _ _ _ ih =>
    exact slabAlloc_rule (P := SlabInv.All) ih ih (fun _ hc => (slabChoose_ready _ ih hc).1)
      fun _ _ _ _ _ _ inv _ hslab _ ch ok1 => (ch.updateLists inv hslab ok1).1
  | free _ _ page notInterior ih =>
    rcases slabFree_cases ih page notInterior with
      hsame | ⟨cache, slab, xs, i, -, -, hslab, ok, hi, hptr, hout⟩
    · rw [hsame]
      exact ih
    · obtain ⟨h1, ch, ok1, heq⟩ := slabFree_eq ih hslab ok hi hptr hout
      rw [heq]
      exact (ch.updateLists ih hslab ok1).1
  | write _ frame ih =>
    refine ih.frame ih.vmm ih.region (fun c b hb a hlo hhi => ?_) fun c b xs hb ok x hx => ?_
    · exact frame a (not_writable_header ih hb hlo hhi)
    · have hsize := (classSize_bounds ok.index).1
      exact read32_congr fun a hlo hhi =>
        frame a (not_writable_free hb ok hx hlo (by omega))
  | @vmm h c _ _ spares ih =>
    obtain ⟨hok, hin⟩ := perform_spec c ih.vmm
    refine ih.frame hok (fun cache b hb => hin _ _ (ih.region cache b hb) ?_)
      (fun _ _ _ _ _ _ => rfl) fun _ _ _ _ _ _ _ => rfl
    rintro virt pages rfl
    exact spares cache b hb

/-- In every state of the heap, of the pointers into a slab that are not the start of an
allocated object, `slab_free` rejects exactly those that are not inside an object, and then
changes nothing at all. -/
theorem slabFree_rejects_iff (run : SlabRun h) (page : h.PageTold ptr)
    (hnot : ¬ h.IsAllocated (ptr / 4096 * 4096) ptr) :
    h.slabFree ptr = (false, h) ↔ ¬ h.IsInterior ptr :=
  slabFree_eq_iff run.inv page hnot

/-- No list of empty slabs has two of them. -/
def ShortLists (h : Heap) : Prop :=
  ∀ c, ∀ b ∈ (h.slabCaches c).list .empty, ∀ b' ∈ (h.slabCaches c).list .empty, b = b'

theorem SlabInv.mem_empty (inv : SlabInv.All h) (hslab : h.IsEmptySlab cache slab) :
    slab ∈ (h.slabCaches cache).list .empty := by
  obtain ⟨⟨hc, k, hk⟩, hall⟩ := hslab
  obtain ⟨xs, ok⟩ := inv.ok cache slab ⟨hc, k, hk⟩
  rw [ok.free, ok.count] at hall
  rwa [← (inv.listed cache hc k slab hk).2 id, ok.target_empty_iff.mpr hall] at hk

/-- A slab that an operation has changed goes to the empty slabs only if there are none. -/
theorem SlabChanged.shortLists (ch : SlabChanged h slab h') (ok' : SlabOk h' cache slab xs')
    (hone : ShortLists h)
    (hspare : xs'.length = classCount cache → (h.slabCaches cache).list .empty = []) :
    ShortLists (h'.slabUpdateLists slab) := by
  obtain ⟨-, -, -, -, -, hlist⟩ := slabUpdateLists_eq ok'
  intro c
  rw [hlist, ch.caches]
  split_ifs with hmove htarget
  · exact hone c
  · rw [htarget.1, hspare (ok'.target_empty_iff.mp htarget.2.symm)]
    simp
  · exact fun b hb b' hb' => hone c b (mem_of_mem_erase hb) b' (mem_of_mem_erase hb')
  · exact hone c

theorem slabChoose_shortLists (hone : ShortLists h) : ShortLists (h.slabChoose cache backed).2 := by
  unfold slabChoose
  cases (h.slabCaches cache).partialSlabs with
  | cons slab rest => exact hone
  | nil =>
    cases hempty : (h.slabCaches cache).emptySlabs with
    | cons slab rest => exact hone
    | nil =>
      unfold slabCreateSlab
      dsimp only
      split
      · exact hone
      · intro c
        dsimp only [addToList, setCache, setSlab]
        rw [update_apply]
        split
        · have hnil : (h.slabCaches cache).list .empty = [] := hempty
          simp [hnil]
        · exact hone c

theorem SpareRun.run (run : SpareRun h) : SlabRun h := by
  induction run with
  | init fresh vmm => exact .init fresh vmm
  | alloc _ hsize hbacked ih => exact .alloc ih hsize hbacked
  | free _ hptr page notInterior _ ih => exact .free ih hptr page notInterior
  | other _ _ reached _ => exact reached

theorem SpareRun.shortLists (run : SpareRun h) : ShortLists h := by
  induction run with
  | init fresh _ =>
    intro c
    unfold slabInit
    rw [if_neg (by simp [fresh])]
    exact fun _ hb => by cases hb
  | alloc run _ _ ih =>
    refine slabAlloc_rule run.run.inv ih (fun _ _ => slabChoose_shortLists ih)
      fun _ _ _ _ _ _ _ hone _ ok ch ok1 => ch.shortLists ok1 hone fun hall => ?_
    have hle := ok.length_le
    rw [length_cons] at hle
    omega
  | @free h ptr run _ page notInterior spare ih =>
    have inv := run.run.inv
    rcases slabFree_cases inv page notInterior with
      hsame | ⟨cache, slab, xs, i, hpage, live, hslab, ok, hi, hptr, hout⟩
    · rw [hsame]
      exact ih
    · obtain ⟨h1, ch, ok1, heq⟩ := slabFree_eq inv hslab ok hi hptr hout
      rw [heq]
      refine ch.shortLists ok1 ih fun hall => of_not_not fun hne => spare ?_
      refine ⟨cache, slab, hpage, hslab, live, ?_, hne⟩
      rw [ok.free, ok.count, ← hall, length_cons]
  | other _ same _ ih =>
    intro c
    rw [same]
    exact ih c

/-- A heap before `slab_init`. -/
def unusedHeap : Heap :=
  ⟨fun _ => 0, fun _ => ⟨0, 0, 0, 0, 0, 0, .empty⟩, fun _ => ⟨0, 0, 0, [], [], []⟩, false,
    Vmm.vmmInit⟩

/-- A heap with one allocated object, the last of its slab. -/
def oneObject : Heap := (unusedHeap.slabInit.slabAlloc 1024 fun i => decide (i < 4)).2

theorem oneObject_run : SlabRun oneObject :=
  .alloc (.init rfl .init) (by decide) ⟨4, by decide, by decide⟩

theorem oneObject_page : oneObject.IsSlab 7 0x40000000 :=
  ⟨by decide, .partly, by decide +kernel⟩

/-- Four objects, in two slabs, are allocated and freed again. -/
def allFreed : Heap :=
  [0x40001824, 0x40000824, 0x40000424, 0x40000024].foldl (fun h ptr => (h.slabFree ptr).2)
    ((range 4).foldl (fun h _ => (h.slabAlloc 1024 fun i => decide (i < 8)).2) unusedHeap.slabInit)

theorem slabFree_rejects_free_object :
    oneObject.OnFreeList 0x40000000 0x40000024 ∧
      (oneObject.slabFree 0x40000024 = (false, oneObject) ↔ ¬ oneObject.IsInterior 0x40000024) := by
  have hfree : oneObject.OnFreeList 0x40000000 0x40000024 := by
    unfold Heap.OnFreeList
    decide +kernel
  exact ⟨hfree, slabFree_rejects_iff oneObject_run (.inl ⟨7, oneObject_page⟩)
    fun halloc => halloc.2 hfree⟩

/-- A pointer four bytes into the allocated object is accepted: the slab then counts three free
objects of three, and its free list names a place inside the object. -/
theorem slabFree_accepts_interior :
    SlabRun oneObject ∧ oneObject.IsSlab 7 0x40000000 ∧
      oneObject.IsAllocated 0x40000000 0x40000824 ∧
      ¬ oneObject.IsAllocated 0x40000000 0x40000828 ∧
      (oneObject.slabFree 0x40000828).1 = true ∧
      (oneObject.slabs 0x40000000).numFree = 2 ∧
      ((oneObject.slabFree 0x40000828).2.slabs 0x40000000).numFree = 3 ∧
      ((oneObject.slabFree 0x40000828).2.slabs 0x40000000).freeList = 0x40000828 := by
  have hobject : ∀ i, oneObject.object 0x40000000 i = 0x40000024 + i * 1024 := by
    have hstart : (oneObject.slabs 0x40000000).objectsStart = 0x40000024 := by decide +kernel
    have hsize : (oneObject.slabs 0x40000000).objectSize = 1024 := by decide +kernel
    intro i
    unfold Heap.object
    rw [hstart, hsize]
  refine ⟨oneObject_run, oneObject_page, ⟨⟨2, by decide +kernel, (hobject 2).symm⟩, ?_⟩, ?_,
    by decide +kernel, by decide +kernel, by decide +kernel, by decide +kernel⟩
  · unfold Heap.OnFreeList
    decide +kernel
  · rintro ⟨⟨i, -, hi⟩, -⟩
    rw [hobject] at hi
    omega

end Stos.Kernel
