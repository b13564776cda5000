import Stos.Kernel.Memory.PmmInit
import Stos.Kernel.Memory.Proofs.PmmRuns

/-!
# What `pmm_init` leaves behind

The pages to keep are marked allocated first and the regions of the memory map are cut into
free blocks afterwards, so the state after `pmm_init` is described by two sets of pages:
`ReservedPage` and the union of the `RegionPage`s.
-/

namespace Stos.Kernel

open List BlockMap Pmm Nat

/-! ## Reserving -/

/-- `s'` is `s` with the pages of `P` marked allocated as well. -/
structure Reserves (s : Pmm) (P : Nat → Prop) (s' : Pmm) : Prop where
  heads : s'.buddyFreeLists = s.buddyFreeLists
  order : s'.buddyOrderMap = s.buddyOrderMap
  total : s'.pmmTotalPages = s.pmmTotalPages
  status : ∀ q, s'.buddyIsAllocated q = true ↔
    s.buddyIsAllocated q = true ∨ P q ∧ q < s.pmmTotalPages

namespace Reserves

variable {s s1 s2 : Pmm} {P Q R : Nat → Prop}

theorem same (s : Pmm) (h : ∀ q, P q → q < s.pmmTotalPages → s.buddyIsAllocated q = true) :
    Reserves s P s :=
  ⟨rfl, rfl, rfl, fun q => ⟨.inl, fun hq => hq.elim id fun hq => h q hq.1 hq.2⟩⟩

theorem trans (h : Reserves s P s1) (h' : Reserves s1 Q s2) (hR : ∀ q, R q ↔ P q ∨ Q q) :
    Reserves s R s2 := by
  refine ⟨h'.heads.trans h.heads, h'.order.trans h.order, h'.total.trans h.total, fun q => ?_⟩
  rw [h'.status, h.status, h.total, hR, or_and_right, or_assoc]

end Reserves

theorem buddyReserveRegionLoop_spec {hi : Nat} (hhi : hi < 2 ^ 20) {fuel lo : Nat} (s : Pmm)
    (hfuel : lo + fuel = hi) :
    Reserves s (fun q => lo ≤ q ∧ q < hi) (s.buddyReserveRegionLoop (hi * 4096) fuel (lo * 4096)) := by
  induction fuel generalizing s lo with
  | zero => exact .same s fun q hq _ => by omega
  | succ fuel ih =>
    have hpage : pmmAddrToPage (lo * 4096) = lo := Nat.mul_div_cancel _ (by simp)
    have hnext : (lo * 4096 + 4096) % 2 ^ 32 = (lo + 1) * 4096 := by omega
    unfold buddyReserveRegionLoop
    rw [if_pos (show lo * 4096 < hi * 4096 by omega)]
    rw [hpage, hnext]
    by_cases hlt : lo < s.pmmTotalPages
    · rw [if_neg (not_le.mpr hlt)]
      refine Reserves.trans (P := fun q => q = lo) ?_ (ih _ (by omega)) fun q => by omega
      split
      · refine ⟨rfl, rfl, rfl, fun q => ?_⟩
        change (s.buddyMarkAllocated lo).buddyIsAllocated q = true ↔ _
        by_cases e : q = lo
        · simp [e, hlt]
        · simp [e]
      · next hstatus => exact .same s fun q hq _ => by simpa [hq] using hstatus
    · rw [if_pos (not_lt.mp hlt)]
      exact .same s fun q hq hq' => by omega

/-- The pages that `buddy_reserve_region(start, end)` covers. -/
def InPages (startAddr endAddr q : Nat) : Prop :=
  startAddr / 4096 ≤ q ∧ q < pmmAlignUp endAddr / 4096

theorem buddyReserveRegion_spec (s : Pmm) (startAddr endAddr : Nat) :
    Reserves s (InPages startAddr endAddr) (s.buddyReserveRegion startAddr endAddr) := by
  have hend : pmmAlignUp endAddr = pmmAlignUp endAddr / 4096 * 4096 := by
    unfold pmmAlignUp
    omega
  have hlt : pmmAlignUp endAddr / 4096 < 2 ^ 20 := by
    unfold pmmAlignUp
    omega
  unfold buddyReserveRegion pmmAlignDown InPages
  generalize pmmAlignUp endAddr / 4096 = hi at hend hlt
  rw [hend]
  dsimp only
  split
  next hge => exact .same s fun q hq _ => by omega
  next hlow => exact buddyReserveRegionLoop_spec hlt s (by omega)

section Layout

variable (k : KernelImage) (mb : Multiboot2)

/-- The pages marked allocated by `pmm_init`. -/
def ReservedPage (q : Nat) : Prop :=
  q < initTotalPages mb ∧ (q < 256 ∨ InPages k.kernelStart.toNat (metadataEnd k mb) q ∨
    ∃ m ∈ mb.bootModules, InPages m.modulePhysAddrStart.toNat m.modulePhysAddrEnd.toNat q)

/-- The pages that the memory map entry `e` adds to the free lists, reserved ones apart. -/
def RegionPage (e : MmapEntry) (q : Nat) : Prop :=
  e.type = 1 ∧ e.base < 0xFFFFFFFF ∧ pmmAlignUp (e.base % 2 ^ 32) / 4096 ≤ q ∧
    q < e.regionEnd / 4096

/-- Reserving the modules one after the other. -/
theorem reserveModules_spec (ms : List BootModule) (s : Pmm) : Reserves s
    (fun q => ∃ m ∈ ms, InPages m.modulePhysAddrStart.toNat m.modulePhysAddrEnd.toNat q)
    (ms.foldl (fun s m =>
      s.buddyReserveRegion m.modulePhysAddrStart.toNat m.modulePhysAddrEnd.toNat) s) := by
  induction ms generalizing s with
  | nil => exact .same s (by simp)
  | cons m ms ih => exact (buddyReserveRegion_spec ..).trans (ih _) fun q => exists_mem_cons_iff ..

/-- The state before the first region is added. -/
structure OnlyReserved (s : Pmm) : Prop where
  heads : ∀ o, s.buddyFreeLists o = 0
  order : ∀ q, s.buddyGetOrder q = 0
  total : s.pmmTotalPages = initTotalPages mb
  status : ∀ q, s.buddyIsAllocated q = true ↔ ReservedPage k mb q

/-- The static data before `pmm_init`, with a number of pages. -/
theorem pmmBoot_cleared (mem : Mem) (n q : Nat) :
    buddyGetOrder { pmmBoot mem with pmmTotalPages := n } q = 0 ∧
      buddyIsAllocated { pmmBoot mem with pmmTotalPages := n } q = false := by
  simp [buddyGetOrder, buddyIsAllocated, pmmBoot, nibbleGet, bitGet]

theorem pmmReserved_spec (mem : Mem) : OnlyReserved k mb (pmmReserved k mb mem) := by
  have r := ((buddyReserveRegion_spec { pmmBoot mem with pmmTotalPages := initTotalPages mb } 0
    0x100000).trans (buddyReserveRegion_spec _ k.kernelStart.toNat (metadataEnd k mb))
    fun _ => Iff.rfl).trans (reserveModules_spec mb.bootModules _) fun _ => Iff.rfl
  have hlow : ∀ q, InPages 0 0x100000 q ↔ q < 256 := fun q => by
    have hround : pmmAlignUp 0x100000 / 4096 = 256 := by decide
    rw [InPages, hround]
    omega
  refine ⟨fun o => congrFun r.heads o, fun q => ?_, r.total, fun q => (r.status q).trans ?_⟩
  · rw [← (pmmBoot_cleared mem (initTotalPages mb) q).1, buddyGetOrder, buddyGetOrder, ← r.order]
    rfl
  · rw [(pmmBoot_cleared mem (initTotalPages mb) q).2, hlow, or_assoc, ReservedPage, and_comm]
    simp

end Layout

/-! ## Adding regions -/

section AddRegion

variable {s s' : Pmm} {blk : Blocks} {c e o : Nat}

/-- While the memory map is processed there are only free blocks and single reserved pages,
and no other page has been touched. -/
structure BootInv (s : Pmm) (blk : Blocks) : Prop extends BlocksInv s blk where
  kinds : ∀ q o k, blk q = some (o, k) → k = .free ∨ k = .reserved ∧ o = 0
  untouched : ∀ q, q < s.pmmTotalPages → blk q = none →
    s.buddyGetOrder q = 0 ∧ s.buddyIsAllocated q = false
  zero : blk 0 ≠ none ∨ s.pmmTotalPages = 0

/-- A range of untouched pages becomes a held block. -/
theorem BlocksInv.claim (inv : BlocksInv s blk) (ho : o ≤ 10) (head : 2 ^ o ∣ c)
    (fresh : ∀ q, q / 2 ^ o = c / 2 ^ o → blk q = none ∧ q < s.pmmTotalPages)
    (total : s'.pmmTotalPages = s.pmmTotalPages) (mem : s'.mem = s.mem)
    (heads : s'.buddyFreeLists = s.buddyFreeLists)
    (others : ∀ q ≠ c, s'.buddyGetOrder q = s.buddyGetOrder q ∧
      s'.buddyIsAllocated q = s.buddyIsAllocated q) :
    BlocksInv s' (blk.retag c o o .held) := by
  have covers : blk.Covers c o := by
    intro q hq o2 k2 hq2
    rw [(fresh q hq).1] at hq2
    cases hq2
  have blocks : ∀ q o2 k2, k2 ≠ .held → (blk.retag c o o .held).HasBlock q o2 k2 →
      q ≠ c ∧ blk.HasBlock q o2 k2 := by
    intro q o2 k2 hk h
    rcases (hasBlock_retag_iff head).mp h with ⟨-, -, h⟩ | ⟨hq, h⟩
    · exact absurd h hk
    · exact ⟨fun e => hq (by rw [e]), h⟩
  refine ⟨total ▸ inv.total_le, inv.aligned.retag le_rfl covers, ?_, ?_, ?_, ?_⟩
  · intro q o2 k2 hq
    rcases retag_eq_some hq with ⟨-, rfl, -⟩ | ⟨-, hq⟩
    · exact ho
    · exact inv.order_le q o2 k2 hq
  · intro q o2 k2 hq
    rw [total]
    rcases retag_eq_some hq with ⟨hmem, -⟩ | ⟨-, hq⟩
    · exact (fresh q hmem).2
    · exact inv.inRange q o2 k2 hq
  · refine inv.lists.congr heads (fun q o2 => ⟨fun h => (blocks q o2 _ (by simp) h).2, ?_⟩) ?_
    · intro h
      refine (hasBlock_retag_iff head).mpr (.inr ⟨fun hq => ?_, h⟩)
      have := (fresh q hq).1
      rw [h.2] at this
      cases this
    · intro a _ _
      rw [mem]
  · intro q o2 k2 h hk
    obtain ⟨hne, h⟩ := blocks q o2 k2 hk h
    rw [(others q hne).1, (others q hne).2]
    exact inv.maps q o2 k2 h hk

/-- The block that `buddy_add_region` cuts off at `c`. -/
theorem BootInv.addBlock (inv : BootInv s blk) (ho : o ≤ 10) (head : 2 ^ o ∣ c)
    (fresh : ∀ q, q / 2 ^ o = c / 2 ^ o → blk q = none ∧ q < s.pmmTotalPages) :
    BootInv (((s.buddySetOrder c o).buddyMarkFree c).buddyAddToFreeList (c * 4096) o)
      (blk.retag c o o .free) := by
  have hpos : c ≠ 0 := by
    rintro rfl
    rcases inv.zero with h | h
    · exact h (fresh 0 rfl).1
    · have := (fresh 0 rfl).2
      omega
  have others : ∀ q, q ≠ c →
      ((s.buddySetOrder c o).buddyMarkFree c).buddyGetOrder q = s.buddyGetOrder q ∧
        ((s.buddySetOrder c o).buddyMarkFree c).buddyIsAllocated q = s.buddyIsAllocated q :=
    fun q hq => ⟨(buddyGetOrder_buddySetOrder _ _ _ _ (by omega)).trans (if_neg hq),
      (buddyIsAllocated_buddyMarkFree _ _ _).trans (if_neg hq)⟩
  have held : BlocksInv ((s.buddySetOrder c o).buddyMarkFree c) (blk.retag c o o .held) :=
    inv.toBlocksInv.claim ho head fresh rfl rfl rfl others
  have twice : (blk.retag c o o .held).retag c o o .free = blk.retag c o o .free := by
    funext q
    unfold retag
    split <;> rfl
  have hblock : (blk.retag c o o .held).HasBlock c o .held := ⟨head, retag_self⟩
  have inv' : BlocksInv
      (((s.buddySetOrder c o).buddyMarkFree c).buddyAddToFreeList (c * 4096) o)
      (blk.retag c o o .free) := by
    rw [← twice]
    refine held.relabel hblock rfl (buddyAddToFreeList_lists held hblock hpos)
      (fun _ => ⟨?_, ?_⟩) fun _ _ => ⟨rfl, rfl⟩
    · exact (buddyGetOrder_buddySetOrder _ _ _ _ (by omega)).trans (if_pos rfl)
    · exact (buddyIsAllocated_buddyMarkFree _ _ _).trans (if_pos rfl)
  refine ⟨inv', ?_, ?_, ?_⟩
  · intro q o2 k2 hq
    rcases retag_eq_some hq with ⟨-, -, hk⟩ | ⟨-, hq⟩
    · exact .inl hk
    · exact inv.kinds q o2 k2 hq
  · intro q hlt hq
    obtain ⟨hmem, hq⟩ := retag_eq_none hq
    obtain ⟨h1, h2⟩ := inv.untouched q hlt hq
    have hne : q ≠ c := fun e => hmem (by rw [e])
    exact ⟨(others q hne).1.trans h1, (others q hne).2.trans h2⟩
  · exact inv.zero.imp_left fun h h' => h (retag_eq_none h').2

/-- The order found fits, is aligned and covers only pages that are not reserved. -/
theorem buddyRegionOrder_spec {n rem : Nat} (hn : n ≤ 10) (hrem : 1 ≤ rem)
    (hc : c < s.pmmTotalPages) (hstatus : s.buddyIsAllocated c = false) :
    let r := s.buddyRegionOrder (c * 4096) rem n
    r ≤ 10 ∧ 2 ^ r ≤ rem ∧ 2 ^ r ∣ c ∧
      ∀ i < 2 ^ r, c + i < s.pmmTotalPages ∧ s.buddyIsAllocated (c + i) = false := by
  have hpage : pmmAddrToPage (c * 4096) = c := Nat.mul_div_cancel _ (by simp)
  induction n with
  | zero =>
    refine ⟨by simp [buddyRegionOrder], hrem, one_dvd c, fun i hi => ?_⟩
    obtain rfl : i = 0 := lt_one_iff.mp hi
    exact ⟨hc, hstatus⟩
  | succ n ih =>
    unfold buddyRegionOrder
    split
    next h =>
      obtain ⟨hfit, halign, hall⟩ := h
      refine ⟨hn, hfit, ?_, fun i hi => ?_⟩
      · have hmod : c * 4096 % (4096 * 2 ^ (n + 1)) = 0 := by
          simpa [buddyIsOrderAligned] using halign
        rw [mul_comm c, mul_mod_mul_left] at hmod
        exact dvd_of_mod_eq_zero (by omega)
      · have := all_eq_true.mp hall i (mem_range.mpr hi)
        rw [hpage] at this
        simpa using this
    next => exact ih (by omega)

/-- The pages from `c` to `e` that were in no block are in free blocks now; nothing else
changed. -/
structure AddsRegion (blk blk' : Blocks) (c e : Nat) : Prop where
  same : ∀ q, q < c ∨ e ≤ q ∨ blk q ≠ none → blk' q = blk q
  added : ∀ q, c ≤ q → q < e → blk q = none → ∃ o, blk' q = some (o, .free)

/-- One part of a region after the other. -/
theorem AddsRegion.trans {blk1 blk' : Blocks} {m : Nat} (h : AddsRegion blk blk1 c m)
    (h' : AddsRegion blk1 blk' m e) (hcm : c ≤ m) (hme : m ≤ e) : AddsRegion blk blk' c e := by
  refine ⟨fun q hq => ?_, fun q hq hqe hnone => ?_⟩
  · have hsame : blk1 q = blk q := h.same q (hq.imp_right (Or.imp_left hme.trans))
    rw [h'.same q (by rw [hsame]; exact hq.imp_left fun hlt => hlt.trans_le hcm), hsame]
  · by_cases hqm : q < m
    · obtain ⟨o, ho⟩ := h.added q hq hqm hnone
      exact ⟨o, by rw [h'.same q (.inl hqm), ho]⟩
    · have hsame : blk1 q = blk q := h.same q (.inr (.inl (not_lt.mp hqm)))
      exact h'.added q (not_lt.mp hqm) hqe (hsame.trans hnone)

theorem buddyAddRegionLoop_spec {fuel : Nat} (inv : BootInv s blk) (he : e ≤ s.pmmTotalPages)
    (hlast : e < 2 ^ 20) (hce : c ≤ e) (hfuel : e ≤ c + fuel)
    (clear : ∀ q, c ≤ q → q < e → blk q = none ∨ blk q = some (0, .reserved)) :
    ∃ blk', BootInv (s.buddyAddRegionLoop (e * 4096) fuel (c * 4096)) blk' ∧
      (s.buddyAddRegionLoop (e * 4096) fuel (c * 4096)).pmmTotalPages = s.pmmTotalPages ∧
      AddsRegion blk blk' c e := by
  induction fuel generalizing s blk c with
  | zero => exact ⟨blk, inv, rfl, fun _ _ => rfl, fun q h1 h2 => by omega⟩
  | succ fuel ih =>
    have hpage : pmmAddrToPage (c * 4096) = c := Nat.mul_div_cancel _ (by simp)
    have hrem : (e * 4096 - c * 4096) / 4096 = e - c := by omega
    unfold buddyAddRegionLoop
    by_cases hlt : c < e
    · rw [if_pos (by omega)]
      dsimp only
      rw [hpage, hrem, if_neg (by omega)]
      cases hstatus : s.buddyIsAllocated c with
      | true =>
        have hreserved : blk c ≠ none := by
          intro hnone
          rw [(inv.untouched c (by omega) hnone).2] at hstatus
          cases hstatus
        rw [if_pos rfl, show (c * 4096 + 4096) % 2 ^ 32 = (c + 1) * 4096 by omega]
        obtain ⟨blk', h1, h2, h3⟩ := ih inv he (show c + 1 ≤ e by omega) (by omega)
          fun q hq hqe => clear q (by omega) hqe
        refine ⟨blk', h1, h2, .trans ⟨fun _ _ => rfl, fun q hq hqc hnone => ?_⟩ h3 (le_succ c) hlt⟩
        obtain rfl : q = c := by omega
        exact absurd hnone hreserved
      | false =>
        obtain ⟨ho, hfit, head, hall⟩ :=
          buddyRegionOrder_spec le_rfl (show 1 ≤ e - c by omega) (by omega) hstatus
        generalize s.buddyRegionOrder (c * 4096) (e - c) 10 = o at ho hfit head hall
        have fresh : ∀ q, q / 2 ^ o = c / 2 ^ o → blk q = none ∧ q < s.pmmTotalPages := by
          intro q hq
          obtain ⟨h1, h2⟩ := (sameBlock_iff head).mp hq
          obtain ⟨h3, h4⟩ := hall (q - c) (by omega)
          rw [Nat.add_sub_cancel' h1] at h3 h4
          refine ⟨(clear q h1 (by omega)).resolve_right fun h => ?_, h3⟩
          have := (inv.maps q 0 _ ⟨one_dvd q, h⟩ (by simp)).2
          rw [h4] at this
          cases this
        have hnext : (c * 4096 + 2 ^ o * 4096) % 2 ^ 32 = (c + 2 ^ o) * 4096 := by omega
        rw [hnext]
        have step : AddsRegion blk (blk.retag c o o .free) c (c + 2 ^ o) := by
          refine ⟨fun q hq => retag_of_notMem fun hmem => ?_, fun q hq hqo _ => ?_⟩
          · have := (sameBlock_iff head).mp hmem
            rcases hq with h | h | h
            · omega
            · omega
            · exact h (fresh q hmem).1
          · exact ⟨o, retag_of_mem ((sameBlock_iff head).mpr ⟨hq, hqo⟩)⟩
        obtain ⟨blk', h1, h2, h3⟩ := ih (inv.addBlock ho head fresh) he
          (show c + 2 ^ o ≤ e by omega) (by omega) fun q hq hqe => by
            rw [step.same q (.inr (.inl hq))]
            exact clear q (by omega) hqe
        exact ⟨blk', h1, h2, step.trans h3 (by omega) (by omega)⟩
    · rw [if_neg (by omega)]
      exact ⟨blk, inv, rfl, fun _ _ => rfl, fun q h1 h2 => by omega⟩

theorem MmapEntry.regionEnd_lt (e : MmapEntry) : e.regionEnd / 4096 < 2 ^ 20 := by
  unfold MmapEntry.regionEnd
  dsimp only
  split <;> omega

/-- One entry of the memory map. -/
theorem pmmAddEntry_spec {e : MmapEntry} (inv : BootInv s blk)
    (inside : ∀ q, RegionPage e q → q < s.pmmTotalPages)
    (clear : ∀ q, RegionPage e q → blk q = none ∨ blk q = some (0, .reserved)) :
    ∃ blk', BootInv (pmmAddEntry s e) blk' ∧
      (pmmAddEntry s e).pmmTotalPages = s.pmmTotalPages ∧
      (∀ q, ¬ RegionPage e q ∨ blk q ≠ none → blk' q = blk q) ∧
      ∀ q, RegionPage e q → blk q = none → ∃ o, blk' q = some (o, .free) := by
  have skip : (∀ q, ¬ RegionPage e q) → ∃ blk', BootInv s blk' ∧ s.pmmTotalPages = s.pmmTotalPages ∧
      (∀ q, ¬ RegionPage e q ∨ blk q ≠ none → blk' q = blk q) ∧
      ∀ q, RegionPage e q → blk q = none → ∃ o, blk' q = some (o, .free) :=
    fun h => ⟨blk, inv, rfl, fun _ _ => rfl, fun q hq => absurd hq (h q)⟩
  unfold pmmAddEntry
  split
  next htype => exact skip fun q hq => htype hq.1
  next htype =>
    split
    next hbase => exact skip fun q hq => absurd hq.2.1 (by omega)
    next hbase =>
      have hstart : pmmAlignUp (e.base % 2 ^ 32) =
          pmmAlignUp (e.base % 2 ^ 32) / 4096 * 4096 := by
        unfold pmmAlignUp
        omega
      have hlast := e.regionEnd_lt
      have hpages : ∀ q, RegionPage e q ↔
          pmmAlignUp (e.base % 2 ^ 32) / 4096 ≤ q ∧ q < e.regionEnd / 4096 := by
        intro q
        exact ⟨fun h => h.2.2, fun h => ⟨not_not.mp htype, by omega, h⟩⟩
      unfold buddyAddRegion pmmAlignDown
      generalize pmmAlignUp (e.base % 2 ^ 32) / 4096 = c at hstart hpages
      generalize e.regionEnd / 4096 = f at hlast hpages
      rw [hstart]
      dsimp only
      split
      next hge =>
        exact skip fun q hq => by
          have := (hpages q).mp hq
          omega
      next hlt =>
        have hf : f ≤ s.pmmTotalPages := by
          have := inside (f - 1) ((hpages _).mpr ⟨by omega, by omega⟩)
          omega
        obtain ⟨blk', h1, h2, h3⟩ := buddyAddRegionLoop_spec inv hf hlast
          (show c ≤ f by omega) (show f ≤ c + (f * 4096 - c * 4096) / 4096 by omega)
          fun q hq hqf => clear q ((hpages q).mpr ⟨hq, hqf⟩)
        refine ⟨blk', h1, h2, fun q hq => h3.same q ?_, fun q hq => ?_⟩
        · rcases hq with h | h
          · rw [hpages q] at h
            omega
          · exact .inr (.inr h)
        · obtain ⟨ha, hb⟩ := (hpages q).mp hq
          exact h3.added q ha hb

end AddRegion

/-! ## The whole of `pmm_init` -/

section Init

variable {k : KernelImage} {mb : Multiboot2} {s : Pmm} {blk : Blocks}

/-- The blocks after the entries of `done` have been added. -/
structure BootBlocks (k : KernelImage) (mb : Multiboot2) (done : List MmapEntry) (s : Pmm)
    (blk : Blocks) : Prop where
  inv : BootInv s blk
  total : s.pmmTotalPages = initTotalPages mb
  reserved : ∀ q, ReservedPage k mb q → blk q = some (0, .reserved)
  pool : ∀ q, ¬ ReservedPage k mb q → (∃ e ∈ done, RegionPage e q) → ∃ o, blk q = some (o, .free)
  rest : ∀ q, ¬ ReservedPage k mb q → (∀ e ∈ done, ¬ RegionPage e q) → blk q = none

theorem OnlyReserved.bootBlocks (h : OnlyReserved k mb s) (hmax : mb.pmmMaxMemory < 2 ^ 32) :
    ∃ blk, BootBlocks k mb [] s blk := by
  classical
  let blk : Blocks := fun q => if ReservedPage k mb q then some (0, .reserved) else none
  have hblk : ∀ q o kind, blk q = some (o, kind) →
      ReservedPage k mb q ∧ o = 0 ∧ kind = .reserved := by
    intro q o kind hq
    by_cases hr : ReservedPage k mb q
    · rw [show blk q = some (0, .reserved) from if_pos hr] at hq
      obtain ⟨rfl, rfl⟩ := Prod.mk.inj (Option.some.inj hq)
      exact ⟨hr, rfl, rfl⟩
    · rw [show blk q = none from if_neg hr] at hq
      cases hq
  have hnone : ∀ q, blk q = none → ¬ ReservedPage k mb q := by
    intro q hq hr
    rw [show blk q = some (0, .reserved) from if_pos hr] at hq
    cases hq
  refine ⟨blk, ⟨⟨⟨?_, ?_, ?_, ?_, ?_, ?_⟩, ?_, ?_, ?_⟩, h.total, fun q hq => if_pos hq, ?_,
    fun q hq _ => if_neg hq⟩⟩
  · rw [h.total]
    unfold initTotalPages
    omega
  · intro q o kind hq r hr
    obtain ⟨-, rfl, -⟩ := hblk q o kind hq
    obtain rfl : r = q := by simpa using hr
    exact hq
  · intro q o kind hq
    obtain ⟨-, rfl, -⟩ := hblk q o kind hq
    omega
  · intro q o kind hq
    rw [h.total]
    exact (hblk q o kind hq).1.1
  · intro o _
    refine ⟨[], ⟨h.heads o, nodup_nil⟩, fun a => ⟨fun ha => absurd ha (by simp), ?_⟩⟩
    rintro ⟨p, -, hp⟩
    cases (hblk p o _ hp.2).2.2
  · intro p o kind hp _
    obtain ⟨hr, rfl, rfl⟩ := hblk p o kind hp.2
    exact ⟨h.order p, (h.status p).mpr hr⟩
  · intro q o kind hq
    obtain ⟨-, ho, hk⟩ := hblk q o kind hq
    exact .inr ⟨hk, ho⟩
  · intro q _ hq
    refine ⟨h.order q, Bool.eq_false_iff.mpr fun hs => hnone q hq ((h.status q).mp hs)⟩
  · by_cases h0 : initTotalPages mb = 0
    · exact .inr (h.total.trans h0)
    · exact .inl fun hz => hnone 0 hz ⟨by omega, .inl (by omega)⟩
  · rintro q - ⟨e, he, -⟩
    cases he

/-- Adding the rest of the memory map. -/
theorem BootBlocks.addEntries (es done : List MmapEntry) (h : BootBlocks k mb done s blk)
    (inside : ∀ e ∈ es, ∀ q, RegionPage e q → q < initTotalPages mb)
    (apart : (done ++ es).Pairwise fun e e' =>
      ∀ q, RegionPage e q → RegionPage e' q → ReservedPage k mb q) :
    ∃ blk', BootBlocks k mb (done ++ es) (es.foldl pmmAddEntry s) blk' := by
  induction es generalizing done s blk with
  | nil => exact ⟨blk, by simpa using h⟩
  | cons e es ih =>
    have clear : ∀ q, RegionPage e q → blk q = none ∨ blk q = some (0, .reserved) := by
      intro q hq
      by_cases hr : ReservedPage k mb q
      · exact .inr (h.reserved q hr)
      · refine .inl (h.rest q hr fun e' he' hq' => hr ?_)
        exact (pairwise_append.mp apart).2.2 e' he' e (by simp) q hq' hq
    obtain ⟨blk', h1, h2, h3, h4⟩ := pmmAddEntry_spec h.inv
      (fun q hq => h.total ▸ inside e (by simp) q hq) clear
    have step : BootBlocks k mb (done ++ [e]) (pmmAddEntry s e) blk' := by
      refine ⟨h1, h2.trans h.total, fun q hq => ?_, fun q hr => ?_, fun q hr hno => ?_⟩
      · rw [h3 q (.inr (by rw [h.reserved q hq]; simp)), h.reserved q hq]
      · rintro ⟨e', he', hq⟩
        by_cases hdone : ∃ e' ∈ done, RegionPage e' q
        · obtain ⟨o, ho⟩ := h.pool q hr hdone
          exact ⟨o, by rw [h3 q (.inr (by rw [ho]; simp)), ho]⟩
        · have hnone := h.rest q hr fun e'' he'' hq'' => hdone ⟨e'', he'', hq''⟩
          rcases mem_append.mp he' with he' | he'
          · exact absurd ⟨e', he', hq⟩ hdone
          · exact h4 q (mem_singleton.mp he' ▸ hq) hnone
      · rw [h3 q (.inl (hno e (by simp)))]
        exact h.rest q hr fun e' he' => hno e' (by simp [he'])
    have hlist : done ++ e :: es = (done ++ [e]) ++ es := by simp
    rw [hlist] at apart ⊢
    exact ih (done ++ [e]) step (fun e' he' => inside e' (by simp [he'])) apart

end Init

end Stos.Kernel
