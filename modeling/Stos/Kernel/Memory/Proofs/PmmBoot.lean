import Stos.Kernel.Memory.Proofs.PmmInit

/-!
# Pages that must never be handed out

`ForbiddenPage` is what the memory map, the kernel image and the boot modules rule out, and
`BootOk` the boot information on which `pmm_init` and the buddy allocator respect it.
-/

namespace Stos.Kernel

open Nat List MmapEntry MultibootTag

/-- The tags in front of the end tag. -/
def activeTags (tags : List MultibootTag) : List MultibootTag := tags.takeWhile (· ≠ .tagEnd)

/-- The tag is a boot module. -/
def MultibootTag.isModule : MultibootTag → Bool
  | .module _ => true
  | _ => false

/-- Page `q` holds a byte of the given range. -/
def Touches (startAddr endAddr q : Nat) : Prop := ∃ a, startAddr ≤ a ∧ a < endAddr ∧ a / 4096 = q

/-- Page `q` lies in an available entry of the memory map. -/
def AvailablePage (tags : List MultibootTag) (q : Nat) : Prop :=
  ∃ entries e, .memoryMap entries ∈ activeTags tags ∧ e ∈ entries ∧ e.type = 1 ∧
    e.base ≤ q * 4096 ∧ (q + 1) * 4096 ≤ e.base + e.length

/-- The size of the allocator's own data. -/
def metadataSize (mb : Multiboot2) : Nat := orderMapSize mb + statusMapSize mb + refcountMapSize mb

/-- Pages that must stay out of the allocator: outside the available memory, below
`PMM_RESERVED_AREA`, in the kernel, in the allocator's metadata or in a boot module. -/
def ForbiddenPage (k : KernelImage) (tags : List MultibootTag) (q : Nat) : Prop :=
  ¬ AvailablePage tags q ∨ q * 4096 < 0x100000 ∨
    Touches k.kernelStart.toNat k.kernelEnd.toNat q ∨
    Touches (metadataStart k (multiboot2Init tags))
      (metadataStart k (multiboot2Init tags) + metadataSize (multiboot2Init tags)) q ∨
    ∃ m, .module m ∈ activeTags tags ∧
      Touches m.modulePhysAddrStart.toNat m.modulePhysAddrEnd.toNat q

/-- The boot information that the allocator handles. -/
structure BootOk (k : KernelImage) (tags : List MultibootTag) : Prop where
  /-- rounding the base of an entry up to a page does not wrap around to 0 -/
  base_ok : ∀ e ∈ (multiboot2Init tags).savedMmap, e.type = 1 →
    e.base ≤ 0xFFFFF000 ∨ 0xFFFFFFFF ≤ e.base
  /-- an entry does not end above `2 ^ 64`, or the metadata covers the whole address space -/
  end_ok : ∀ e ∈ (multiboot2Init tags).savedMmap, e.type = 1 → e.base < 0xFFFFFFFF →
    e.base + e.length < 2 ^ 64 ∨ 0xFFFFF000 ≤ (multiboot2Init tags).pmmMaxMemory
  /-- kernel, modules and metadata end below `2 ^ 32` -/
  metadata_ok : safeMetadataStart k (multiboot2Init tags) + 4095 < 2 ^ 32 ∧
    metadataStart k (multiboot2Init tags) + metadataSize (multiboot2Init tags) < 2 ^ 32
  /-- available entries do not overlap -/
  apart : (multiboot2Init tags).savedMmap.Pairwise fun e e' =>
    ∀ q, RegionPage e q → RegionPage e' q → ReservedPage k (multiboot2Init tags) q
  /-- a page of a hole is never the buddy of a page that is added to the free lists -/
  holes : ∀ h, h < initTotalPages (multiboot2Init tags) →
    ¬ ReservedPage k (multiboot2Init tags) h →
    (∀ e ∈ (multiboot2Init tags).savedMmap, ¬ RegionPage e h) →
    ∀ e ∈ (multiboot2Init tags).savedMmap, RegionPage e (h ^^^ 1) →
      ReservedPage k (multiboot2Init tags) (h ^^^ 1)
  /-- all modules are recorded -/
  modules_ok : (activeTags tags).countP (·.isModule) ≤ 16

/-! ## The boot information that is kept -/

section Multiboot

theorem multiboot2InitLoop_savedMmap (tags : List MultibootTag) (mb : Multiboot2) {e : MmapEntry}
    (he : e ∈ (multiboot2InitLoop tags mb).savedMmap) :
    e ∈ mb.savedMmap ∨ ∃ entries, .memoryMap entries ∈ activeTags tags ∧ e ∈ entries := by
  have process : ∀ mb : Multiboot2, (multiboot2ProcessMemoryMap mb).savedMmap = mb.savedMmap := by
    intro mb
    unfold multiboot2ProcessMemoryMap
    split <;> rfl
  induction tags generalizing mb with
  | nil => exact .inl (process mb ▸ he)
  | cons tag tags ih =>
    cases tag with
    | tagEnd => exact .inl (process mb ▸ he)
    | memoryMap entries =>
      refine .inr ?_
      rcases ih _ he with h | ⟨entries', h1, h2⟩
      · exact ⟨entries, by simp [activeTags], mem_of_mem_take h⟩
      · exact ⟨entries', by simpa [activeTags] using Or.inr h1, h2⟩
    | module m =>
      refine (ih _ he).imp_right ?_
      rintro ⟨entries', h1, h2⟩
      exact ⟨entries', by simpa [activeTags] using h1, h2⟩
    | other =>
      refine (ih _ he).imp_right ?_
      rintro ⟨entries', h1, h2⟩
      exact ⟨entries', by simpa [activeTags] using h1, h2⟩

theorem multiboot2InitLoop_bootModules (tags : List MultibootTag) (mb : Multiboot2)
    (hcount : mb.bootModules.length + (activeTags tags).countP (·.isModule) ≤ 16) {m : BootModule}
    (hm : m ∈ mb.bootModules ∨ .module m ∈ activeTags tags) :
    m ∈ (multiboot2InitLoop tags mb).bootModules := by
  have process : ∀ mb : Multiboot2,
      (multiboot2ProcessMemoryMap mb).bootModules = mb.bootModules := by
    intro mb
    unfold multiboot2ProcessMemoryMap
    split <;> rfl
  induction tags generalizing mb with
  | nil =>
    unfold multiboot2InitLoop
    rw [process]
    exact hm.resolve_right (by simp [activeTags])
  | cons tag tags ih =>
    unfold multiboot2InitLoop
    cases tag with
    | tagEnd =>
      rw [process]
      exact hm.resolve_right (by simp [activeTags])
    | memoryMap entries =>
      refine ih _ ?_ (hm.imp_right fun h => ?_)
      · simpa [activeTags, isModule] using hcount
      · simpa [activeTags] using h
    | module m' =>
      have hlt : mb.bootModules.length + ((activeTags tags).countP (·.isModule) + 1) ≤ 16 := by
        simpa [activeTags, isModule] using hcount
      have hroom : mb.bootModules.length < 16 := by omega
      simp only [hroom, if_true]
      refine ih _ ?_ ?_
      · simp only [length_append, length_singleton]
        omega
      · rcases hm with h | h
        · exact .inl (by simp [h])
        · rcases (by simpa [activeTags] using h : m = m' ∨ .module m ∈ activeTags tags) with h | h
          · exact .inl (by simp [h])
          · exact .inr h
    | other =>
      refine ih _ ?_ (hm.imp_right fun h => ?_)
      · simpa [activeTags, isModule] using hcount
      · simpa [activeTags] using h

theorem usableEnd_lt (e : MmapEntry) : e.usableEnd < 2 ^ 32 := by
  unfold usableEnd
  dsimp only
  split <;> omega

/-- The maximum is at least the end of every available entry seen. -/
theorem foldl_usableEnd (es : List MmapEntry) (n : Nat) (hn : n < 2 ^ 32) :
    let r := es.foldl (fun maxMemory entry =>
      if entry.type = 1 ∧ entry.usableEnd > maxMemory then entry.usableEnd else maxMemory) n
    r < 2 ^ 32 ∧ n ≤ r ∧ ∀ e ∈ es, e.type = 1 → e.usableEnd ≤ r := by
  induction es generalizing n with
  | nil => exact ⟨hn, le_refl n, by simp⟩
  | cons e es ih =>
    have hstep : ∀ x, x = (if e.type = 1 ∧ e.usableEnd > n then e.usableEnd else n) →
        x < 2 ^ 32 ∧ n ≤ x ∧ (e.type = 1 → e.usableEnd ≤ x) := by
      rintro x rfl
      have := usableEnd_lt e
      split
      next h => exact ⟨this, by omega, fun _ => le_refl _⟩
      next h => exact ⟨hn, Nat.le_refl n, fun ht => Nat.le_of_not_lt fun hlt => h ⟨ht, hlt⟩⟩
    obtain ⟨h1, h2, h3⟩ := hstep _ rfl
    obtain ⟨h4, h5, h6⟩ := ih _ h1
    refine ⟨h4, le_trans h2 h5, fun e' he' ht => ?_⟩
    rcases mem_cons.mp he' with rfl | he'
    · exact le_trans (h3 ht) h5
    · exact h6 e' he' ht

theorem multiboot2InitLoop_maxMemory (tags : List MultibootTag) (mb : Multiboot2)
    (hmb : mb.pmmMaxMemory = 0) :
    (multiboot2InitLoop tags mb).pmmMaxMemory < 2 ^ 32 ∧
      ∀ e ∈ (multiboot2InitLoop tags mb).savedMmap, e.type = 1 →
        e.usableEnd ≤ (multiboot2InitLoop tags mb).pmmMaxMemory := by
  have process : ∀ mb : Multiboot2, mb.pmmMaxMemory = 0 →
      (multiboot2ProcessMemoryMap mb).pmmMaxMemory < 2 ^ 32 ∧
        ∀ e ∈ (multiboot2ProcessMemoryMap mb).savedMmap, e.type = 1 →
          e.usableEnd ≤ (multiboot2ProcessMemoryMap mb).pmmMaxMemory := by
    intro mb hmb
    unfold multiboot2ProcessMemoryMap
    split
    next h => exact ⟨by omega, by simp [h]⟩
    next h =>
      obtain ⟨h1, -, h3⟩ := foldl_usableEnd mb.savedMmap 0 (by omega)
      exact ⟨h1, h3⟩
  induction tags generalizing mb with
  | nil => exact process mb hmb
  | cons tag tags ih =>
    cases tag with
    | tagEnd => exact process mb hmb
    | memoryMap entries => exact ih _ hmb
    | module m => exact ih _ hmb
    | other => exact ih _ hmb

end Multiboot

/-! ## Which pages are added -/

section Pages

variable {k : KernelImage} {tags : List MultibootTag} {e : MmapEntry} {q : Nat}

/-- A page that is added lies in its entry. -/
theorem RegionPage.inside (h : RegionPage e q) (hbase : e.base ≤ 0xFFFFF000 ∨ 0xFFFFFFFF ≤ e.base) :
    e.base ≤ q * 4096 ∧ (q + 1) * 4096 ≤ e.base + e.length := by
  obtain ⟨-, hlt, hstart, hend⟩ := h
  unfold pmmAlignUp at hstart
  unfold regionEnd at hend
  dsimp only at hend
  refine ⟨by omega, ?_⟩
  split at hend <;> omega

theorem RegionPage.lt_total (ok : BootOk k tags) (he : e ∈ (multiboot2Init tags).savedMmap)
    (h : RegionPage e q) : q < initTotalPages (multiboot2Init tags) := by
  obtain ⟨htype, hlt, -, hend⟩ := h
  have hmax := (multiboot2InitLoop_maxMemory tags ⟨[], 0, []⟩ rfl).2 e he htype
  have hregion : e.regionEnd / 4096 ≤ (multiboot2Init tags).pmmMaxMemory / 4096 := by
    rcases ok.end_ok e he htype hlt with hsum | hbig
    · have hle : e.regionEnd ≤ e.usableEnd := by
        unfold regionEnd usableEnd
        dsimp only
        split <;> split <;> omega
      exact Nat.div_le_div_right (Nat.le_trans hle hmax)
    · have := e.regionEnd_lt
      omega
  unfold initTotalPages
  omega

theorem metadataSize_dvd (mb : Multiboot2) : metadataSize mb % 4096 = 0 := by
  unfold metadataSize orderMapSize statusMapSize refcountMapSize pmmAlignUp
  omega

/-- The metadata lies behind the kernel and all modules that are kept. -/
theorem le_safeMetadataStart (k : KernelImage) (mb : Multiboot2) :
    k.kernelEnd.toNat ≤ safeMetadataStart k mb ∧
      ∀ m ∈ mb.bootModules, m.modulePhysAddrEnd.toNat ≤ safeMetadataStart k mb := by
  unfold safeMetadataStart
  generalize k.kernelEnd.toNat = n
  generalize mb.bootModules = ms
  induction ms generalizing n with
  | nil => simp
  | cons m ms ih =>
    obtain ⟨h1, h2⟩ := ih (if m.modulePhysAddrEnd.toNat > n then m.modulePhysAddrEnd.toNat else n)
    have hn : n ≤ (if m.modulePhysAddrEnd.toNat > n then m.modulePhysAddrEnd.toNat else n) ∧
        m.modulePhysAddrEnd.toNat ≤
          (if m.modulePhysAddrEnd.toNat > n then m.modulePhysAddrEnd.toNat else n) := by
      split <;> omega
    refine ⟨le_trans hn.1 h1, fun m' hm' => ?_⟩
    rcases mem_cons.mp hm' with rfl | hm'
    · exact le_trans hn.2 h1
    · exact h2 m' hm'

/-- The metadata starts on a page boundary behind the kernel and ends on one. -/
theorem BootOk.metadata (ok : BootOk k tags) :
    safeMetadataStart k (multiboot2Init tags) ≤ metadataStart k (multiboot2Init tags) ∧
      pmmAlignUp (metadataEnd k (multiboot2Init tags)) =
        metadataStart k (multiboot2Init tags) + metadataSize (multiboot2Init tags) := by
  obtain ⟨h1, h2⟩ := ok.metadata_ok
  have hsize := metadataSize_dvd (multiboot2Init tags)
  have hend : metadataEnd k (multiboot2Init tags) =
      metadataStart k (multiboot2Init tags) + metadataSize (multiboot2Init tags) := by
    unfold metadataEnd
    rw [add_assoc, add_assoc, ← add_assoc (orderMapSize _)]
    exact mod_eq_of_lt h2
  have hstart : metadataStart k (multiboot2Init tags) % 4096 = 0 := by
    unfold metadataStart pmmAlignUp
    omega
  refine ⟨?_, ?_⟩
  · unfold metadataStart pmmAlignUp
    omega
  · unfold pmmAlignUp
    omega

/-- Forbidden pages of the machine are reserved or in no region. -/
theorem ForbiddenPage.not_added (ok : BootOk k tags) (hq : ForbiddenPage k tags q)
    (he : e ∈ (multiboot2Init tags).savedMmap) (h : RegionPage e q) :
    ReservedPage k (multiboot2Init tags) q := by
  have hlt := h.lt_total ok he
  obtain ⟨hsafe, hround⟩ := ok.metadata
  obtain ⟨hkernel, hmodules⟩ := le_safeMetadataStart k (multiboot2Init tags)
  refine ⟨hlt, ?_⟩
  rcases hq with hq | hq | ⟨a, h1, h2, rfl⟩ | ⟨a, h1, h2, rfl⟩ | ⟨m, hm, a, h1, h2, rfl⟩
  · rcases multiboot2InitLoop_savedMmap tags _ he with h0 | ⟨entries, hentries, hmem⟩
    · cases h0
    · exact absurd ⟨entries, e, hentries, hmem, h.1, h.inside (ok.base_ok e he h.1)⟩ hq
  · exact .inl (by omega)
  · refine .inr (.inl ⟨Nat.div_le_div_right h1, ?_⟩)
    rw [hround]
    unfold metadataStart pmmAlignUp at hsafe ⊢
    omega
  · refine .inr (.inl ⟨?_, ?_⟩)
    · exact Nat.div_le_div_right (Nat.le_trans k.ordered (Nat.le_trans hkernel
        (le_trans hsafe h1)))
    · rw [hround]
      have := metadataSize_dvd (multiboot2Init tags)
      unfold metadataStart pmmAlignUp at h2 ⊢
      omega
  · have hkept : m ∈ (multiboot2Init tags).bootModules :=
      multiboot2InitLoop_bootModules tags _ (by simpa using ok.modules_ok) (.inr hm)
    refine .inr (.inr ⟨m, hkept, Nat.div_le_div_right h1, ?_⟩)
    have := hmodules m hkept
    have := ok.metadata_ok.1
    unfold pmmAlignUp
    omega

end Pages

/-! ## The state after `pmm_init` and all runs from it -/

section Runs

variable {k : KernelImage} {tags : List MultibootTag}

theorem pmmInit_bootBlocks (ok : BootOk k tags) (mem : Mem) :
    ∃ blk, BootBlocks k (multiboot2Init tags) (multiboot2Init tags).savedMmap
      (pmmInit k (multiboot2Init tags) mem) blk := by
  unfold pmmInit
  split
  · next hzero =>
    -- no page at all
    have htotal : initTotalPages (multiboot2Init tags) = 0 := by rw [initTotalPages, hzero]
    have hboot : OnlyReserved k (multiboot2Init tags) (pmmBoot mem) :=
      ⟨fun _ => rfl, fun q => (pmmBoot_cleared mem 0 q).1, htotal.symm, fun q => by
        simp [ReservedPage, htotal, show (pmmBoot mem).buddyIsAllocated q = false from
          (pmmBoot_cleared mem 0 q).2]⟩
    obtain ⟨blk, h⟩ := hboot.bootBlocks (by omega)
    refine ⟨blk, h.inv, h.total, h.reserved, ?_, fun q hr _ => h.rest q hr (by simp)⟩
    rintro q - ⟨e, he, hq⟩
    exact absurd (hq.lt_total ok he) (by omega)
  · have hmax := (multiboot2InitLoop_maxMemory tags ⟨[], 0, []⟩ rfl).1
    obtain ⟨blk0, h₀⟩ := (pmmReserved_spec k (multiboot2Init tags) mem).bootBlocks hmax
    exact h₀.addEntries (multiboot2Init tags).savedMmap [] (fun e he q hq => hq.lt_total ok he) ok.apart

theorem pmmInit_steady (ok : BootOk k tags) (mem : Mem) :
    ∃ blk, Steady (pmmInit k (multiboot2Init tags) mem) blk ∧ LiveBlocks blk ∅ ∧
      ∀ q, InPool blk q → ¬ ReservedPage k (multiboot2Init tags) q ∧
        ∃ e ∈ (multiboot2Init tags).savedMmap, RegionPage e q := by
  obtain ⟨blk, h⟩ := pmmInit_bootBlocks ok mem
  have free : ∀ q o kind, blk q = some (o, kind) → kind ≠ .reserved →
      ¬ ReservedPage k (multiboot2Init tags) q ∧
        ∃ e ∈ (multiboot2Init tags).savedMmap, RegionPage e q := by
    intro q o kind hq hkind
    have hr : ¬ ReservedPage k (multiboot2Init tags) q := by
      intro hr
      rw [h.reserved q hr] at hq
      exact hkind (Prod.mk.inj (Option.some.inj hq)).2.symm
    refine ⟨hr, ?_⟩
    by_contra hno
    rw [h.rest q hr fun e he hqe => hno ⟨e, he, hqe⟩] at hq
    cases hq
  refine ⟨blk, ⟨⟨h.inv.toBlocksInv, ?_⟩, ?_, ?_⟩, ?_, ?_⟩
  · intro hpage hlt hnone
    refine ⟨(h.inv.untouched hpage hlt hnone).1, fun o kind hb => ?_⟩
    by_contra hkind
    have hr : ¬ ReservedPage k (multiboot2Init tags) hpage := by
      intro hr
      rw [h.reserved hpage hr] at hnone
      cases hnone
    have hregion : ∀ e ∈ (multiboot2Init tags).savedMmap, ¬ RegionPage e hpage := by
      intro e he hq
      obtain ⟨o', ho'⟩ := h.pool hpage hr ⟨e, he, hq⟩
      rw [hnone] at ho'
      cases ho'
    obtain ⟨hr', e, he, hq⟩ := free _ o kind hb hkind
    exact hr' (ok.holes hpage (h.total ▸ hlt) hr hregion e he hq)
  · intro q o hq
    rcases h.inv.kinds q o _ hq with hk | ⟨hk, -⟩ <;> cases hk
  · intro o hq
    rcases h.inv.kinds 0 o _ hq with hk | ⟨hk, -⟩ <;> cases hk
  · intro b
    refine ⟨fun hb => absurd hb (by simp), fun hb => ?_⟩
    rcases h.inv.kinds _ _ _ hb.2 with hk | ⟨hk, -⟩ <;> cases hk
  · rintro q ⟨j, hq | hq⟩
    · exact free q j _ hq (by simp)
    · exact free q j _ hq (by simp)

/-- The page is neither in a block that was handed out nor in one on a free list. -/
def OutOfReach (s : Pmm) (live : Finset PageBlock) (q : Nat) : Prop :=
  (∀ b ∈ live, ¬ b.Has q) ∧
    ∀ o addr, o ≤ 10 → OnFreeList s o addr → ¬ PageBlock.Has ⟨pmmAddrToPage addr, o⟩ q

/-- With boot information the allocator handles, no run ever reaches a forbidden page. -/
theorem pmmInit_forbidden_outOfReach (ok : BootOk k tags) (mem : Mem) {s : Pmm}
    {live : Finset PageBlock} {out back : Nat}
    (run : PmmRun (pmmInit k (multiboot2Init tags) mem) ∅ s live out back) :
    ∀ q, ForbiddenPage k tags q → OutOfReach s live q := by
  intro q hq
  obtain ⟨blk0, st, hlive, hpool⟩ := pmmInit_steady ok mem
  obtain ⟨blk, h⟩ := run.runInv st hlive
  have unreachable : ¬ InPool blk q := by
    intro hin
    obtain ⟨hr, e, he, hregion⟩ := hpool q (h.pool.inPool hin)
    exact hr (hq.not_added ok he hregion)
  refine ⟨fun b hb hbq => ?_, fun o addr ho hlist hbq => ?_⟩
  · have hblock := (h.live b).mp hb
    exact unreachable ⟨b.order, .inr
      (h.steady.aligned _ _ _ hblock.2 q ((PageBlock.has_iff hblock.1).mp hbq))⟩
  · obtain ⟨p, rfl, hblock⟩ := hlist.hasBlock h.steady.lists ho
    rw [show pmmAddrToPage (p * 4096) = p from Nat.mul_div_cancel _ (by simp)] at hbq
    exact unreachable ⟨o, .inl
      (h.steady.aligned _ _ _ hblock.2 q ((sameBlock_iff hblock.1).mpr hbq))⟩

/-! ## Two small machines -/

/-- An available entry below 4 GiB. -/
def availableEntry (base length : BitVec 32) : MmapEntry := ⟨base, 0, length, 0, 1⟩

/-- A kernel of one page at 1 MiB. -/
def smallKernel : KernelImage := ⟨0x100000, 0x101000, by decide⟩

/-- One available entry of eight pages. -/
def plainTags : List MultibootTag := [.memoryMap [availableEntry 0x100000 0x8000], .tagEnd]

/-- Two available entries with the page at `0x105000` missing between them. -/
def holeTags : List MultibootTag :=
  [.memoryMap [availableEntry 0x100000 0x5000, availableEntry 0x106000 0x800], .tagEnd]

theorem plainTags_bootOk : BootOk smallKernel plainTags := by
  have hsaved : (multiboot2Init plainTags).savedMmap = [availableEntry 0x100000 0x8000] := by decide
  have htotal : initTotalPages (multiboot2Init plainTags) = 264 := by decide
  have hregion : ∀ q, RegionPage (availableEntry 0x100000 0x8000) q ↔ 256 ≤ q ∧ q < 264 :=
    fun q => ⟨fun h => h.2.2, fun h => ⟨rfl, by decide, h⟩⟩
  refine ⟨?_, ?_, by decide, ?_, ?_, by decide⟩
  · intro e he _
    rw [mem_singleton.mp he]
    exact .inl (by decide)
  · intro e he _ _
    rw [mem_singleton.mp he]
    exact .inl (by decide)
  · exact pairwise_singleton _ _
  · intro h hlt hr hno
    -- every page is reserved or in the entry
    refine absurd ((hregion h).mpr ⟨Nat.le_of_not_lt fun hlow => hr ⟨?_, .inl hlow⟩, hlt⟩)
      (hno _ (mem_singleton_self _))
    exact hlt

/-- On the machine without holes a page is handed out and the kernel stays out of reach. -/
theorem pmmInit_forbidden_outOfReach_plainTags :
    ∃ s live, PmmRun (pmmInit smallKernel (multiboot2Init plainTags) fun _ => 0) ∅ s live 1 0 ∧
      OutOfReach s live 256 := by
  have ret : (pmmInit smallKernel (multiboot2Init plainTags) fun _ => 0).pmmAllocPage.1 ≠ 0 := by
    decide +kernel
  have run := (PmmRun.start : PmmRun (pmmInit smallKernel (multiboot2Init plainTags) fun _ => 0) ∅
    _ ∅ 0 0).allocPage ret
  exact ⟨_, _, run, pmmInit_forbidden_outOfReach plainTags_bootOk _ run 256
    (.inr (.inr (.inl ⟨0x100000, by decide, by decide, by decide⟩)))⟩

theorem holeTags_hole : ForbiddenPage smallKernel holeTags 261 := by
  refine .inl ?_
  rintro ⟨entries, e, hentries, he, -, hlow, hhigh⟩
  have hact : activeTags holeTags =
      [.memoryMap [availableEntry 0x100000 0x5000, availableEntry 0x106000 0x800]] := by decide
  rw [hact, mem_singleton] at hentries
  cases hentries
  rcases mem_pair.mp he with rfl | rfl
  · exact absurd hhigh (by decide)
  · exact absurd hlow (by decide)

/-- What the code computes on the machine with the hole: the first page handed out is page
260, and freeing it leaves a block of two pages on the list of order 1. -/
theorem holeTags_values :
    let s := pmmInit smallKernel (multiboot2Init holeTags) fun _ => 0
    s.pmmAllocPage.1 = 260 * 4096 ∧ s.pmmAllocPage.2.buddyRefcountMap 260 ≤ 1 ∧
      (s.pmmAllocPage.2.pmmFreePage (260 * 4096)).buddyFreeLists 1 = 260 * 4096 := by
  decide +kernel

/-- Page 261 is in no entry of the memory map, but handing out its buddy and taking it back
puts both on a free list. -/
theorem holeTags_forbidden_reached :
    ForbiddenPage smallKernel holeTags 261 ∧
      ∃ s live, PmmRun (pmmInit smallKernel (multiboot2Init holeTags) fun _ => 0) ∅ s live 1 1 ∧
        ¬ OutOfReach s live 261 := by
  obtain ⟨ret, hrefs, hlist⟩ := holeTags_values
  generalize (pmmInit smallKernel (multiboot2Init holeTags) fun _ => 0) = s at ret hrefs hlist ⊢
  have alloc : PmmRun s ∅ s.pmmAllocPage.2 {⟨260, 0⟩} 1 0 := by
    have := (PmmRun.start : PmmRun s ∅ s ∅ 0 0).allocPage (by rw [ret]; decide)
    rwa [ret] at this
  have free := alloc.freePage (Finset.mem_singleton_self _) fun q hq => by
    obtain rfl : q = 260 := le_antisymm (le_of_lt_succ hq.2) hq.1
    exact hrefs
  refine ⟨holeTags_hole, _, _, free, fun h => ?_⟩
  refine h.2 1 (260 * 4096) (by decide) ⟨0, hlist, fun i hi => ?_⟩ ⟨by decide, by decide⟩
  obtain rfl : i = 0 := le_zero.mp hi
  change (s.pmmAllocPage.2.pmmFreePage (260 * 4096)).buddyFreeLists 1 ≠ 0
  rw [hlist]
  decide

end Runs

end Stos.Kernel
