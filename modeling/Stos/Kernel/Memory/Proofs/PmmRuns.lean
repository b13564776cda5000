import Stos.Kernel.Memory.Proofs.Buddy

/-!
# Runs of the physical memory manager

Every allocation and every release keeps the state steady and changes the live blocks by
one block (`Allocated.steady`, `Freed.steady`). From that, what holds in every run.
-/

namespace Stos.Kernel

open List Finset Option BitVec BlockMap Nat Pmm PageBlock Prod

/-! ## Rounding the page count -/

variable {fuel k o : Nat} {b : PageBlock} {kind : BlockKind}

section CalculateOrder

variable {count order power fuel' : Nat}

/-- Up to `2 ^ 31` pages the loop ends with the least order that covers the request. -/
theorem buddyCalculateOrderLoop_eq_some (hcount : count ≤ 2 ^ 31) (hfuel : 32 ≤ order + fuel)
    (horder : order ≤ 31) :
    ∃ k, buddyCalculateOrderLoop count fuel (2 ^ order) order = some k ∧ order ≤ k ∧ k ≤ 31 ∧
      count ≤ 2 ^ k ∧ (order < k → 2 ^ (k - 1) < count) := by
  induction fuel generalizing order with
  | zero => omega
  | succ fuel ih =>
    unfold buddyCalculateOrderLoop
    by_cases hlt : 2 ^ order < count
    · have hlt31 : order < 31 := by
        by_contra h
        have := Nat.pow_le_pow_right (show 0 < 2 by omega) (show 31 ≤ order by omega)
        omega
      have hpow : 2 ^ order * 2 % 2 ^ 32 = 2 ^ (order + 1) := by
        rw [← pow_succ]
        exact Nat.mod_eq_of_lt (Nat.pow_lt_pow_right (by omega) (by omega))
      obtain ⟨k, hk, h1, h2, h3, h4⟩ := ih (show 32 ≤ order + 1 + fuel by omega) (by omega)
      rw [if_pos hlt, hpow, mod_eq_of_lt (by omega)]
      refine ⟨k, hk, by omega, h2, h3, fun _ => ?_⟩
      by_cases he : k = order + 1
      · rw [he]
        exact hlt
      · exact h4 (by omega)
    · rw [if_neg hlt]
      exact ⟨order, rfl, le_rfl, horder, by omega, by omega⟩

/-- Above `2 ^ 31` pages `power` wraps to 0 and the loop never ends. -/
theorem buddyCalculateOrderLoop_eq_none (hcount : 2 ^ 31 < count) (fuel : Nat)
    (hpower : power = 0 ∨ ∃ i ≤ 31, power = 2 ^ i) :
    buddyCalculateOrderLoop count fuel power order = none := by
  induction fuel generalizing power order with
  | zero => rfl
  | succ fuel ih =>
    unfold buddyCalculateOrderLoop
    rcases hpower with rfl | ⟨i, hi, rfl⟩
    · rw [if_pos (by omega)]
      exact ih (.inl rfl)
    · have hle : 2 ^ i ≤ 2 ^ 31 := Nat.pow_le_pow_right (by omega) hi
      rw [if_pos (by omega)]
      apply ih
      rw [← pow_succ]
      by_cases he : i = 31
      · subst he
        decide
      · right
        exact ⟨i + 1, by omega,
          Nat.mod_eq_of_lt (Nat.pow_lt_pow_right (by omega) (by omega))⟩

/-- A request of at most `2 ^ 31` pages is rounded up to a block, of order 10 at most. -/
theorem buddyCalculateOrder_eq_some (hcount : count ≤ 2 ^ 31) (hfuel : 32 ≤ fuel) :
    ∃ k, buddyCalculateOrder fuel count = some k ∧ k ≤ 10 ∧ (count ≤ 1024 → count ≤ 2 ^ k) ∧
      (1024 < count → k = 10) := by
  unfold buddyCalculateOrder
  by_cases h0 : count = 0
  · rw [if_pos h0]
    exact ⟨0, rfl, by omega, by omega, by omega⟩
  by_cases h1 : count = 1
  · rw [if_neg h0, if_pos h1]
    exact ⟨0, rfl, by omega, by omega, by omega⟩
  rw [if_neg h0, if_neg h1]
  obtain ⟨k, hk, -, h31, hge, hlow⟩ :=
    buddyCalculateOrderLoop_eq_some hcount (show 32 ≤ 0 + fuel by omega) (by omega)
  rw [show 2 ^ 0 = 1 from rfl] at hk
  rw [hk]
  refine ⟨if k > 10 then 10 else k, rfl, ?_, ?_, ?_⟩
  · split <;> omega
  · intro hle
    split
    next hgt =>
      omega
    next => exact hge
  · intro hgt
    split
    next => rfl
    next hle =>
      by_contra hne
      have := Nat.pow_le_pow_right (show 0 < 2 by omega) (show k ≤ 9 by omega)
      omega

theorem buddyCalculateOrder_eq_none (hcount : 2 ^ 31 < count) (fuel : Nat) :
    buddyCalculateOrder fuel count = none := by
  unfold buddyCalculateOrder
  have hloop : buddyCalculateOrderLoop count fuel 1 0 = none :=
    buddyCalculateOrderLoop_eq_none hcount fuel (.inr ⟨0, by omega, rfl⟩)
  rw [if_neg (by omega), if_neg (by omega), hloop]
  rfl

/-- Whatever the fuel, an order that is returned is at most 10. -/
theorem buddyCalculateOrder_le (h : buddyCalculateOrder fuel count = some order) : order ≤ 10 := by
  unfold buddyCalculateOrder at h
  split at h
  · cases h
    omega
  · split at h
    · cases h
      omega
    · obtain ⟨k, -, rfl⟩ := map_eq_some_iff.mp h
      split <;> omega

theorem buddyCalculateOrderLoop_mono (hle : fuel ≤ fuel')
    (h : buddyCalculateOrderLoop count fuel power order = some k) :
    buddyCalculateOrderLoop count fuel' power order = some k := by
  induction fuel generalizing fuel' power order with
  | zero => cases h
  | succ fuel ih =>
    obtain ⟨n, rfl⟩ : ∃ n, fuel' = n + 1 := ⟨fuel' - 1, by omega⟩
    unfold buddyCalculateOrderLoop at h ⊢
    revert h
    split
    · exact ih (by omega)
    · exact id

/-- More fuel does not change the order. -/
theorem buddyCalculateOrder_mono (hle : fuel ≤ fuel') (h : buddyCalculateOrder fuel count = some k) :
    buddyCalculateOrder fuel' count = some k := by
  revert h
  unfold buddyCalculateOrder
  split
  · exact id
  split
  · exact id
  · intro h
    obtain ⟨order, hloop, rfl⟩ := map_eq_some_iff.mp h
    rw [buddyCalculateOrderLoop_mono hle hloop]
    rfl

end CalculateOrder

/-! ## One operation -/

section Step

variable {s s' : Pmm} {blk blk' : Blocks} {o p q : Nat} {live : Finset PageBlock}

/-- The page is free or live: the allocator hands it out. -/
def InPool (blk : Blocks) (q : Nat) : Prop :=
  ∃ j, blk q = some (j, .free) ∨ blk q = some (j, .live)

/-- Two maps differ only in how the pages of the pool are cut and labelled. -/
def SamePool (blk blk' : Blocks) : Prop := ∀ q, blk' q = blk q ∨ InPool blk q ∧ InPool blk' q

theorem SamePool.free (h : (∃ j, blk q = .some (j, .free)) ∧ ∃ j, blk' q = .some (j, .free)) :
    InPool blk q ∧ InPool blk' q := by
  obtain ⟨⟨j, hj⟩, ⟨j', hj'⟩⟩ := h
  exact ⟨⟨j, .inl hj⟩, ⟨j', .inl hj'⟩⟩

theorem SamePool.refl (blk : Blocks) : SamePool blk blk := fun _ => .inl rfl

theorem SamePool.trans {blk'' : Blocks} (h : SamePool blk blk') (h' : SamePool blk' blk'') :
    SamePool blk blk'' := by
  intro q
  rcases h q with e | ⟨h1, h2⟩ <;> rcases h' q with e' | ⟨h3, h4⟩
  · exact .inl (e'.trans e)
  · unfold InPool at h3 ⊢
    rw [e] at h3
    exact .inr ⟨h3, h4⟩
  · refine .inr ⟨h1, ?_⟩
    unfold InPool
    rw [e']
    exact h2
  · exact .inr ⟨h1, h4⟩

theorem SamePool.inPool (h : SamePool blk blk') (hq : InPool blk' q) : InPool blk q := by
  rcases h q with e | ⟨h1, -⟩
  · unfold InPool at hq ⊢
    rwa [e] at hq
  · exact h1

theorem SamePool.some (h : SamePool blk blk') (hq : ∃ o k, blk q = some (o, k)) :
    ∃ o k, blk' q = some (o, k) := by
  rcases h q with e | ⟨-, ⟨j, hj | hj⟩⟩
  · rwa [e]
  · exact ⟨j, _, hj⟩
  · exact ⟨j, _, hj⟩

theorem PageBlock.has_iff (head : 2 ^ b.order ∣ b.page) :
    b.Has q ↔ q / 2 ^ b.order = b.page / 2 ^ b.order :=
  (sameBlock_iff head).symm

section

variable (h : Allocated s blk o p s' blk')
include h

/-- A block handed out shares no page with a live block. -/
theorem Allocated.disjoint (aligned : blk.Aligned)
    (hlive : LiveBlocks blk live) (hb : b ∈ live) (hq : q / 2 ^ o = p / 2 ^ o) : ¬ b.Has q := by
  intro hbq
  have hblock := (hlive b).mp hb
  obtain ⟨j, hj⟩ := h.fresh q hq
  rw [aligned _ _ _ hblock.2 q ((has_iff hblock.1).mp hbq)] at hj
  cases hj

theorem Allocated.liveBlocks (hlive : LiveBlocks blk live) : LiveBlocks blk' (insert ⟨p, o⟩ live) := by
  intro b
  rw [mem_insert, hlive b]
  constructor
  · rintro (rfl | hb)
    · exact ⟨h.head, h.live p rfl⟩
    · refine ⟨hb.1, ?_⟩
      have hout : b.page / 2 ^ o ≠ p / 2 ^ o := by
        intro e
        obtain ⟨j, hj⟩ := h.fresh _ e
        rw [hb.2] at hj
        cases hj
      exact ((h.rest _ hout).eq_some_iff (by simp)).mpr hb.2
  · intro hb
    by_cases hmem : b.page / 2 ^ o = p / 2 ^ o
    · left
      have := hb.2
      rw [h.live _ hmem] at this
      obtain ⟨rfl, -⟩ := mk.inj (some.inj this)
      cases b
      exact congrArg (PageBlock.mk · _) (eq_head_of_sameBlock h.head hb.1 hmem)
    · exact .inr ⟨hb.1, ((h.rest _ hmem).eq_some_iff (by simp)).mp hb.2⟩

theorem Allocated.steady (st : Steady s blk) : Steady s' blk' := by
  refine ⟨h.inv, ?_, ?_⟩
  · intro q i hq
    by_cases hmem : q / 2 ^ o = p / 2 ^ o
    · rw [h.live q hmem] at hq
      cases hq
    · exact st.settled q i (((h.rest q hmem).eq_some_iff (by simp)).mp hq)
  · intro i hz
    have hmem : 0 / 2 ^ o ≠ p / 2 ^ o := by
      intro e
      have := (sameBlock_iff h.head).mp e
      have := h.pos
      omega
    exact st.zero_not_live i (((h.rest 0 hmem).eq_some_iff (by simp)).mp hz)

/-- Allocating moves pages from free to live and touches no other page. -/
theorem Allocated.samePool : SamePool blk blk' := by
  intro q
  by_cases hmem : q / 2 ^ o = p / 2 ^ o
  · obtain ⟨j, hj⟩ := h.fresh q hmem
    exact .inr ⟨⟨j, .inl hj⟩, ⟨o, .inr (h.live q hmem)⟩⟩
  · exact (h.rest q hmem).imp_right SamePool.free

end

theorem Freed.liveBlocks (h : Freed s blk o p s' blk') (hp : blk.HasBlock p o .live)
    (aligned : blk.Aligned) (hlive : LiveBlocks blk live) :
    LiveBlocks blk' (live.erase ⟨p, o⟩) := by
  intro b
  rw [mem_erase, hlive b]
  constructor
  · rintro ⟨hne, hb⟩
    refine ⟨hb.1, ?_⟩
    have hout : b.page / 2 ^ o ≠ p / 2 ^ o := by
      intro e
      obtain ⟨h1, h2⟩ := aligned.eq_of_mem hb hp rfl e
      cases b
      exact hne (by rw [← h1, ← h2])
    exact ((h.rest _ hout).eq_some_iff (by simp)).mpr hb.2
  · intro hb
    have hout : b.page / 2 ^ o ≠ p / 2 ^ o := by
      intro e
      obtain ⟨j, hj⟩ := h.free _ e
      rw [hb.2] at hj
      cases hj
    refine ⟨?_, hb.1, ((h.rest _ hout).eq_some_iff (by simp)).mp hb.2⟩
    rintro rfl
    exact hout rfl

theorem Freed.steady (h : Freed s blk o p s' blk') (st : Steady s blk) : Steady s' blk' := by
  have key : ∀ q i k, k ≠ .free → blk' q = some (i, k) → blk q = some (i, k) := by
    intro q i k hk hq
    by_cases hmem : q / 2 ^ o = p / 2 ^ o
    · obtain ⟨j, hj⟩ := h.free q hmem
      rw [hq] at hj
      exact absurd (mk.inj (some.inj hj)).2 hk
    · exact ((h.rest q hmem).eq_some_iff hk).mp hq
  exact ⟨h.inv, fun q i hq => st.settled q i (key q i _ (by simp) hq),
    fun i hz => st.zero_not_live i (key 0 i _ (by simp) hz)⟩

theorem Freed.samePool (h : Freed s blk o p s' blk') (hp : blk.HasBlock p o .live)
    (aligned : blk.Aligned) : SamePool blk blk' := by
  intro q
  by_cases hmem : q / 2 ^ o = p / 2 ^ o
  · obtain ⟨j, hj⟩ := h.free q hmem
    exact .inr ⟨⟨o, .inr (aligned p o _ hp.2 q hmem)⟩, ⟨j, .inl hj⟩⟩
  · exact (h.rest q hmem).imp_right SamePool.free

/-- `pmm_free_page` on the start of a live block finds the block's order. -/
theorem pmmFreePage_eq (inv : BuddyInv s blk) (hp : blk.HasBlock p o .live) :
    s.pmmFreePage (pmmPageToAddr p) = s.buddyFreeOrder (p * 4096) o := by
  have haddr : pmmPageToAddr p = p * 4096 := by
    have := inv.page_lt hp.2
    unfold pmmPageToAddr
    omega
  have hpage : pmmAddrToPage (p * 4096) = p := Nat.mul_div_cancel _ (by simp)
  unfold pmmFreePage
  rw [haddr, hpage, (inv.maps p o _ hp (by simp)).1]

theorem pmmFreePage_spec (st : Steady s blk) (hp : blk.HasBlock p o .live)
    (unshared : ∀ q, q / 2 ^ o = p / 2 ^ o → s.buddyRefcountMap q ≤ 1) :
    ∃ blk', Freed s blk o p (s.pmmFreePage (pmmPageToAddr p)) blk' := by
  rw [pmmFreePage_eq st.toBuddyInv hp]
  refine buddyFreeOrder_spec st.toBuddyInv hp ?_ unshared st.settled
  rintro rfl
  exact st.zero_not_live o hp.2

/-- A block with a page that others still reference is not freed. -/
theorem pmmFreePage_shared (inv : BuddyInv s blk) (hp : blk.HasBlock p o .live)
    (hq : q / 2 ^ o = p / 2 ^ o) (shared : s.buddyRefcountMap q > 1) :
    s.pmmFreePage (pmmPageToAddr p) = s := by
  obtain ⟨hin, hstatus, haligned, hpage⟩ := inv.live_checks hp
  have hany : ((List.range (2 ^ o)).any fun i => s.buddyGetRefcount (p + i) > 1) = true := by
    obtain ⟨h1, h2⟩ := (sameBlock_iff hp.1).mp hq
    rw [List.any_eq_true]
    refine ⟨q - p, List.mem_range.mpr (by omega), ?_⟩
    rw [Nat.add_sub_cancel' h1]
    simp only [buddyGetRefcount, hin q hq, if_false, decide_eq_true_eq]
    exact shared
  rw [pmmFreePage_eq inv hp]
  unfold buddyFreeOrder
  simp only [haligned, if_true, hpage, hstatus, hany, if_neg (hin p rfl), Bool.not_true,
    Bool.false_eq_true, if_false]

/-- `pmm_alloc_pages` with a count that is not 0 is an allocation of the computed order. -/
theorem pmmAllocPages_eq_some {count addr : Nat} (h : s.pmmAllocPages fuel count = some (addr, s')) :
    (addr = 0 ∧ s' = s) ∨
      ∃ order, buddyCalculateOrder fuel count = some order ∧
        s.buddyAllocOrder order = (addr, s') := by
  unfold pmmAllocPages at h
  split at h
  · cases h
    exact .inl ⟨rfl, rfl⟩
  · obtain ⟨order, horder, h⟩ := map_eq_some_iff.mp h
    exact .inr ⟨order, horder, h⟩

/-- Writes to live blocks do not disturb the allocator. -/
theorem BuddyInv.write (inv : BuddyInv s blk) (hlive : LiveBlocks blk live) {mem' : Mem}
    (owned : ∀ a, (∀ b ∈ live, ¬ b.Has (a / 4096)) → mem' a = s.mem a) :
    BuddyInv { s with mem := mem' } blk := by
  refine ⟨⟨inv.total_le, inv.aligned, inv.order_le, inv.inRange, ?_, inv.maps⟩, inv.hole⟩
  refine inv.lists.congr rfl (fun _ _ => Iff.rfl) fun a i ha => owned a fun b hb hbq => ?_
  have hblock := (hlive b).mp hb
  have := inv.aligned _ _ _ hblock.2 _ ((has_iff hblock.1).mp hbq)
  rw [ha.2] at this
  cases this

end Step

/-! ## Whole runs -/

/-- What holds after any run that starts in the state `s0` with the blocks `blk0`. -/
structure RunInv (s0 : Pmm) (blk0 : Blocks) (s : Pmm) (blk : Blocks) (live : Finset PageBlock)
    (out back : Nat) : Prop where
  steady : Steady s blk
  live : LiveBlocks blk live
  pool : SamePool blk0 blk
  total : s.pmmTotalPages = s0.pmmTotalPages
  used : s.pmmUsedPages = s0.pmmUsedPages + BitVec.ofNat 32 out - BitVec.ofNat 32 back
  merged : blk0.Merged .free 10 → blk.Merged .free 10

section Runs

variable {s0 s : Pmm} {blk0 blk : Blocks} {live0 live : Finset PageBlock} {out back : Nat}

theorem RunInv.allocOrder (h : RunInv s0 blk0 s blk live out back) (ho : o ≤ 10)
    (hne : (s.buddyAllocOrder o).1 ≠ 0) : ∃ blk', RunInv s0 blk0 (s.buddyAllocOrder o).2 blk'
      (insert ⟨pmmAddrToPage (s.buddyAllocOrder o).1, o⟩ live) (out + 2 ^ o) back := by
  rcases buddyAllocOrder_spec h.steady.toBuddyInv ho with ⟨e, -⟩ | ⟨p, blk', haddr, r⟩
  · rw [e] at hne
    exact absurd rfl hne
  · have hpage : pmmAddrToPage (p * 4096) = p := Nat.mul_div_cancel _ (by simp)
    rw [haddr, hpage]
    refine ⟨blk', r.steady h.steady, r.liveBlocks h.live, h.pool.trans r.samePool,
      r.total.trans h.total, ?_, r.merged ∘ h.merged⟩
    rw [r.used, h.used, ofNat_add]
    bv_omega

theorem RunInv.allocOrder_failed (h : RunInv s0 blk0 s blk live out back) (ho : o ≤ 10)
    (hzero : (s.buddyAllocOrder o).1 = 0) :
    RunInv s0 blk0 (s.buddyAllocOrder o).2 blk live out back := by
  rcases buddyAllocOrder_spec h.steady.toBuddyInv ho with ⟨e, -⟩ | ⟨p, blk', haddr, r⟩
  · rw [e]
    exact h
  · have := r.pos
    omega

theorem RunInv.freePage (h : RunInv s0 blk0 s blk live out back) (hb : b ∈ live)
    (unshared : ∀ q, b.Has q → s.buddyRefcountMap q ≤ 1) :
    ∃ blk', RunInv s0 blk0 (s.pmmFreePage (pmmPageToAddr b.page)) blk' (live.erase b) out
      (back + 2 ^ b.order) := by
  have hp := (h.live b).mp hb
  obtain ⟨blk', r⟩ := pmmFreePage_spec h.steady hp
    fun q hq => unshared q ((has_iff hp.1).mpr hq)
  refine ⟨blk', r.steady h.steady, r.liveBlocks hp h.steady.aligned h.live,
    h.pool.trans (r.samePool hp h.steady.aligned), r.total.trans h.total, ?_, r.merged ∘ h.merged⟩
  rw [r.used, h.used, ofNat_add]
  bv_omega

theorem PmmRun.runInv (st : Steady s0 blk0) (hlive : LiveBlocks blk0 live0)
    (run : PmmRun s0 live0 s live out back) : ∃ blk, RunInv s0 blk0 s blk live out back := by
  induction run with
  | start => exact ⟨blk0, st, hlive, .refl blk0, rfl, by simp, id⟩
  | allocPage run ret ih =>
    obtain ⟨blk, h⟩ := ih
    exact h.allocOrder (by omega) ret
  | allocPageFailed run ret ih =>
    obtain ⟨blk, h⟩ := ih
    exact ⟨blk, h.allocOrder_failed (by omega) ret⟩
  | allocPages run horder ret hne ih =>
    obtain ⟨blk, h⟩ := ih
    rcases pmmAllocPages_eq_some ret with ⟨e, -⟩ | ⟨o, ho, e⟩
    · exact absurd e hne
    · obtain rfl : o = _ := some.inj (ho.symm.trans horder)
      have := h.allocOrder (buddyCalculateOrder_le ho) (by rwa [e])
      rwa [e] at this
  | allocPagesFailed run ret ih =>
    obtain ⟨blk, h⟩ := ih
    rcases pmmAllocPages_eq_some ret with ⟨-, rfl⟩ | ⟨o, ho, e⟩
    · exact ⟨blk, h⟩
    · have := h.allocOrder_failed (buddyCalculateOrder_le ho) (by rw [e])
      rw [e] at this
      exact ⟨blk, this⟩
  | freePage run hb unshared ih =>
    obtain ⟨blk, h⟩ := ih
    exact h.freePage hb unshared
  | freeShared run hb hq shared ih =>
    obtain ⟨blk, h⟩ := ih
    have hp := (h.live _).mp hb
    rw [pmmFreePage_shared h.steady.toBuddyInv hp ((has_iff hp.1).mp hq) shared]
    exact ⟨blk, h⟩
  | write run owned ih =>
    obtain ⟨blk, h⟩ := ih
    exact ⟨blk, ⟨h.steady.write h.live owned, h.steady.settled, h.steady.zero_not_live⟩, h.live,
      h.pool, h.total, h.used, h.merged⟩

theorem RunInv.wellFormed (h : RunInv s0 blk0 s blk live out back) (wf : WellFormed s0 blk0) :
    WellFormed s blk :=
  ⟨h.steady, fun q hq => h.pool.some (wf.covered q (h.total ▸ hq))⟩

/-- What a call may return when the blocks of `live` are in use: 0, or the address of a
block of the given order that is aligned to its own size and shares no page with them. -/
def FreshBlock (live : Finset PageBlock) (addr order : Nat) : Prop :=
  addr = 0 ∨ addr % (4096 * 2 ^ order) = 0 ∧
    ∀ q, PageBlock.Has ⟨pmmAddrToPage addr, order⟩ q → ∀ b ∈ live, ¬ b.Has q

theorem RunInv.freshBlock (h : RunInv s0 blk0 s blk live out back) (ho : o ≤ 10) :
    FreshBlock live (s.buddyAllocOrder o).1 o := by
  rcases buddyAllocOrder_spec h.steady.toBuddyInv ho with ⟨e, -⟩ | ⟨p, blk', haddr, r⟩
  · rw [e]
    exact .inl rfl
  · have hpage : pmmAddrToPage (p * 4096) = p := Nat.mul_div_cancel _ (by simp)
    rw [haddr]
    refine .inr ⟨?_, ?_⟩
    · rw [mul_comm p]
      exact mod_eq_zero_of_dvd (mul_dvd_mul_left 4096 r.head)
    · rw [hpage]
      intro q hq b hb
      exact r.disjoint h.steady.aligned h.live hb ((sameBlock_iff r.head).mpr hq)

/-- Every run from a well-formed state stays well formed and counts its pages, and wherever
it has got to, the next allocation returns 0 or a fresh aligned block. -/
theorem pmmRun_wellFormed (wf : WellFormed s₀ blk₀) (hlive : LiveBlocks blk₀ live₀)
    (run : PmmRun s₀ live₀ s live out back) :
    (∃ blk, WellFormed s blk ∧ LiveBlocks blk live) ∧
      s.pmmUsedPages = s₀.pmmUsedPages + BitVec.ofNat 32 out - BitVec.ofNat 32 back ∧
      FreshBlock live s.pmmAllocPage.1 0 ∧
      ∀ count fuel, count ≤ 1024 → 32 ≤ fuel → ∃ order r,
        buddyCalculateOrder fuel count = some order ∧ count ≤ 2 ^ order ∧
          s.pmmAllocPages fuel count = some r ∧ FreshBlock live r.1 order := by
  obtain ⟨blk, h⟩ := run.runInv wf.toSteady hlive
  refine ⟨⟨blk, h.wellFormed wf, h.live⟩, h.used, h.freshBlock (by omega), ?_⟩
  intro count fuel hcount hfuel
  obtain ⟨order, horder, hle, hge, -⟩ :=
    buddyCalculateOrder_eq_some (show count ≤ 2 ^ 31 by omega) hfuel
  unfold pmmAllocPages
  rw [horder]
  by_cases h0 : count = 0
  · rw [if_pos h0]
    exact ⟨order, _, rfl, hge hcount, rfl, .inl rfl⟩
  · rw [if_neg h0]
    exact ⟨order, _, rfl, hge hcount, rfl, h.freshBlock hle⟩

/-! ### Coalescing -/

theorem fullyCoalesced_iff (lists : ListsInv s blk) : FullyCoalesced s ↔ blk.Merged .free 10 := by
  have hon : ∀ p o, o < 10 → (OnFreeList s o (p * 4096) ↔ blk.HasBlock p o .free) := by
    intro p o ho
    rw [onFreeList_iff lists (by omega)]
    refine ⟨?_, fun h => ⟨p, rfl, h⟩⟩
    rintro ⟨p', e, h⟩
    obtain rfl : p = p' := by omega
    exact h
  exact forall₂_congr fun p o => forall_congr' fun ho => imp_congr (hon p o ho) (not_congr (hon _ o ho))

theorem SameOrFree.free_iff {blk' : Blocks} {q : Nat} (h : SameOrFree blk blk' q) :
    (∃ j, blk' q = some (j, .free)) ↔ ∃ j, blk q = some (j, .free) := by
  rcases h with e | ⟨hold, hnew⟩
  · rw [e]
  · exact ⟨fun _ => hold, fun _ => hnew⟩

/-- Every run from a well-formed state without free buddies stays without them, and wherever it has got to,
freeing the block that an allocation returns restores the free lists as sets. -/
theorem pmmRun_fullyCoalesced (wf : WellFormed s0 blk0) (hlive : LiveBlocks blk0 live0)
    (hmerged : FullyCoalesced s0) (run : PmmRun s0 live0 s live out back) :
    FullyCoalesced s ∧ ∀ o, (s.buddyAllocOrder o).1 ≠ 0 → ∀ j ≤ 10, ∀ addr,
      (OnFreeList ((s.buddyAllocOrder o).2.buddyFreeOrder (s.buddyAllocOrder o).1 o) j addr ↔
        OnFreeList s j addr) := by
  obtain ⟨blk, h⟩ := run.runInv wf.toSteady hlive
  have merged := h.merged ((fullyCoalesced_iff wf.lists).mp hmerged)
  refine ⟨(fullyCoalesced_iff h.steady.lists).mpr merged, fun o hne j hj addr => ?_⟩
  have ho : o ≤ 10 := by
    by_contra hgt
    exact hne (by rw [buddyAllocOrder, if_pos (by omega)])
  rcases buddyAllocOrder_spec h.steady.toBuddyInv ho with ⟨e, -⟩ | ⟨p, blk', haddr, r⟩
  · rw [e] at hne
    exact absurd rfl hne
  have unshared : ∀ q, q / 2 ^ o = p / 2 ^ o → (s.buddyAllocOrder o).2.buddyRefcountMap q ≤ 1 := by
    intro q hq
    rw [r.refs, if_pos hq]
  obtain ⟨blk'', f⟩ := buddyFreeOrder_spec r.inv ⟨r.head, r.live p rfl⟩ r.pos unshared
    (r.steady h.steady).settled
  -- the same pages are free as before, and merged blocks are determined by their pages
  have same : ∀ q, (∃ i, blk'' q = some (i, .free)) ↔ ∃ i, blk q = some (i, .free) := by
    intro q
    by_cases hq : q / 2 ^ o = p / 2 ^ o
    · exact ⟨fun _ => r.fresh q hq, fun _ => f.free q hq⟩
    · exact (f.rest q hq).free_iff.trans (r.rest q hq).free_iff
  have hblk := fun q i => h.steady.order_le q i .free
  have hblk'' := fun q i => f.inv.order_le q i .free
  have merged'' := f.merged (r.merged merged)
  rw [haddr, onFreeList_iff f.inv.lists hj, onFreeList_iff h.steady.lists hj]
  refine exists_congr fun q => and_congr_right fun _ => ⟨fun hq => ?_, fun hq => ?_⟩
  · exact merged.hasBlock merged'' h.steady.aligned f.inv.aligned hblk hblk'' same hq
  · exact merged''.hasBlock merged f.inv.aligned h.steady.aligned hblk'' hblk (fun q => (same q).symm) hq

end Runs

/-! ## A machine with one free block -/

/-- The state of a machine of `2 ^ (k + 1)` pages whose lower half is reserved and whose
upper half is one free block. -/
def oneBlock (k : Nat) : Pmm where
  mem := fun _ => 0
  buddyFreeLists := fun o => if o = k then 2 ^ k * 4096 else 0
  buddyOrderMap := nibbleSet (nibbleSet (fun _ => 0) 0 (BitVec.ofNat 32 k)) (2 ^ k)
    (BitVec.ofNat 32 k)
  buddyStatusMap := bitSet (fun _ => 0) 0
  buddyRefcountMap := fun _ => 0
  pmmTotalPages := 2 ^ (k + 1)
  pmmUsedPages := BitVec.ofNat 32 (2 ^ k)
  buddyAllocCount := fun _ => 0

/-- The blocks of `oneBlock k`. -/
def oneBlockMap (k : Nat) : Blocks := fun q =>
  if q / 2 ^ k = 0 then some (k, .reserved) else if q / 2 ^ k = 1 then some (k, .free) else none

theorem oneBlockMap_eq_some {q : Nat} (h : oneBlockMap k q = some (o, kind)) :
    o = k ∧ (q / 2 ^ k = 0 ∧ kind = .reserved ∨ q / 2 ^ k = 1 ∧ kind = .free) := by
  unfold oneBlockMap at h
  split at h
  next h0 =>
    obtain ⟨rfl, rfl⟩ := mk.inj (some.inj h)
    exact ⟨rfl, .inl ⟨h0, rfl⟩⟩
  next =>
    split at h
    next h1 =>
      obtain ⟨rfl, rfl⟩ := mk.inj (some.inj h)
      exact ⟨rfl, .inr ⟨h1, rfl⟩⟩
    next => cases h

theorem oneBlockMap_hasBlock {p : Nat} (h : (oneBlockMap k).HasBlock p o kind) :
    o = k ∧ (p = 0 ∧ kind = .reserved ∨ p = 2 ^ k ∧ kind = .free) := by
  obtain ⟨rfl, hcase⟩ := oneBlockMap_eq_some h.2
  refine ⟨rfl, ?_⟩
  have hp := Nat.div_mul_cancel h.1
  rcases hcase with ⟨e, hk⟩ | ⟨e, hk⟩
  · left
    rw [e] at hp
    exact ⟨by omega, hk⟩
  · right
    rw [e] at hp
    exact ⟨by omega, hk⟩

theorem oneBlock_lists (k : Nat) : ListsInv (oneBlock k) (oneBlockMap k) := by
  have hpos : 0 < 2 ^ k := Nat.two_pow_pos k
  have hnext : ∀ a, blockNext (oneBlock k).mem a = 0 := fun a => by
    simp [blockNext, read32, oneBlock]
  have hprev : ∀ a, blockPrev (oneBlock k).mem a = 0 := fun a => by
    simp [blockPrev, read32, oneBlock]
  intro o _
  by_cases ho : o = k
  · subst ho
    refine ⟨[2 ^ o * 4096], ⟨⟨if_pos rfl, by omega, hprev _, hnext _⟩, by simp⟩, ?_⟩
    intro a
    rw [List.mem_singleton]
    constructor
    · rintro rfl
      refine ⟨2 ^ o, rfl, Nat.dvd_refl _, ?_⟩
      simp [oneBlockMap, Nat.div_self hpos]
    · rintro ⟨p, rfl, hp⟩
      rcases (oneBlockMap_hasBlock hp).2 with ⟨-, h⟩ | ⟨rfl, -⟩
      · cases h
      · rfl
  · refine ⟨[], ⟨if_neg ho, nodup_nil⟩, ?_⟩
    intro a
    refine ⟨fun h => absurd h (by simp), ?_⟩
    rintro ⟨p, -, hp⟩
    exact absurd (oneBlockMap_hasBlock hp).1 ho

theorem oneBlock_wellFormed (k : Nat) (hk : k ≤ 10) : WellFormed (oneBlock k) (oneBlockMap k) := by
  have hpos : 0 < 2 ^ k := Nat.two_pow_pos k
  have htotal : ∀ q, q < 2 ^ (k + 1) ↔ q / 2 ^ k < 2 := by
    intro q
    rw [div_lt_iff_lt_mul hpos, pow_succ, mul_comm]
  have hcover : ∀ q < 2 ^ (k + 1), ∃ o kind, oneBlockMap k q = some (o, kind) := by
    intro q hq
    have := (htotal q).mp hq
    unfold oneBlockMap
    by_cases h0 : q / 2 ^ k = 0
    · exact ⟨k, .reserved, if_pos h0⟩
    · have h1 : q / 2 ^ k = 1 := Nat.le_antisymm (Nat.le_of_lt_succ this) (Nat.pos_of_ne_zero h0)
      exact ⟨k, .free, by rw [if_neg h0, if_pos h1]⟩
  refine ⟨⟨⟨⟨?_, ?_, ?_, ?_, oneBlock_lists k, ?_⟩, ?_⟩, ?_, ?_⟩, hcover⟩
  · exact Nat.pow_le_pow_right (by omega) (by omega)
  · intro q o kind hq r hr
    obtain ⟨rfl, -⟩ := oneBlockMap_eq_some hq
    unfold oneBlockMap at hq ⊢
    rw [hr]
    exact hq
  · intro q o kind hq
    rw [(oneBlockMap_eq_some hq).1]
    exact hk
  · intro q o kind hq
    refine (htotal q).mpr ?_
    rcases (oneBlockMap_eq_some hq).2 with ⟨e, -⟩ | ⟨e, -⟩ <;> omega
  · intro p o kind hp _
    obtain ⟨rfl, hcase⟩ := oneBlockMap_hasBlock hp
    have hval : (BitVec.ofNat 32 o).toNat = o := by
      rw [toNat_ofNat, mod_eq_of_lt (by omega)]
    have horder : ∀ q, q = 0 ∨ q = 2 ^ o → (oneBlock o).buddyGetOrder q = o := by
      intro q hq
      unfold buddyGetOrder oneBlock
      rw [nibbleGet_nibbleSet _ _ _ _ (by omega), nibbleGet_nibbleSet _ _ _ _ (by omega)]
      split
      · exact hval
      next hne => rw [if_pos (hq.resolve_right hne), hval]
    have hstatus : ∀ q, (oneBlock o).buddyIsAllocated q = if q = 0 then true else false := by
      intro q
      unfold buddyIsAllocated oneBlock
      rw [bitGet_bitSet]
      simp [bitGet]
    rcases hcase with ⟨rfl, rfl⟩ | ⟨rfl, rfl⟩
    · exact ⟨horder 0 (.inl rfl), (hstatus 0).trans (if_pos rfl)⟩
    · exact ⟨horder _ (.inr rfl), (hstatus _).trans (if_neg (by omega))⟩
  · intro h hlt hnone
    obtain ⟨o, kind, hsome⟩ := hcover h hlt
    rw [hnone] at hsome
    cases hsome
  · intro q o hq
    rcases (oneBlockMap_eq_some hq).2 with ⟨-, h⟩ | ⟨-, h⟩ <;> cases h
  · intro o hq
    rcases (oneBlockMap_eq_some hq).2 with ⟨-, h⟩ | ⟨-, h⟩ <;> cases h

theorem oneBlock_liveBlocks (k : Nat) : LiveBlocks (oneBlockMap k) ∅ := by
  intro b
  refine ⟨fun h => absurd h (by simp), fun h => ?_⟩
  rcases (oneBlockMap_hasBlock h).2 with ⟨-, h⟩ | ⟨-, h⟩ <;> cases h

/-- On the machine with one free block of two pages, a page is handed out and freed. -/
theorem pmmRun_wellFormed_oneBlock :
    ∃ s live, PmmRun (oneBlock 1) ∅ s live 1 1 ∧ s.pmmUsedPages = 2 ∧
      ∃ blk, WellFormed s blk ∧ LiveBlocks blk live := by
  have ret : (oneBlock 1).pmmAllocPage.1 = 2 * 4096 := by decide
  have alloc : PmmRun (oneBlock 1) ∅ (oneBlock 1).pmmAllocPage.2 {⟨2, 0⟩} 1 0 := by
    have := (PmmRun.start : PmmRun (oneBlock 1) ∅ (oneBlock 1) ∅ 0 0).allocPage (by simp [ret])
    rwa [ret] at this
  have free := alloc.freePage (Finset.mem_singleton_self _) fun q hq => by
    obtain rfl : q = 2 := le_antisymm (le_of_lt_succ hq.2) hq.1
    decide
  obtain ⟨hwf, hused, -⟩ :=
    pmmRun_wellFormed (oneBlock_wellFormed 1 (by omega)) (oneBlock_liveBlocks 1) free
  exact ⟨_, _, free, hused, hwf⟩

theorem pmmRun_fullyCoalesced_oneBlock :
    FullyCoalesced (oneBlock 1) ∧ ∀ addr,
      (OnFreeList (((oneBlock 1).buddyAllocOrder 0).2.buddyFreeOrder
        ((oneBlock 1).buddyAllocOrder 0).1 0) 1 addr ↔ OnFreeList (oneBlock 1) 1 addr) := by
  have hmerged : FullyCoalesced (oneBlock 1) := by
    refine (fullyCoalesced_iff (oneBlock_lists 1)).mpr fun p o _ hp hb => ?_
    rcases (oneBlockMap_hasBlock hp).2 with ⟨-, h⟩ | ⟨hp, -⟩
    · cases h
    rcases (oneBlockMap_hasBlock hb).2 with ⟨-, h⟩ | ⟨hb, -⟩
    · cases h
    · exact buddy_ne o p (hb.trans hp.symm)
  exact ⟨hmerged, (pmmRun_fullyCoalesced (oneBlock_wellFormed 1 (by omega)) (oneBlock_liveBlocks 1)
    hmerged .start).2 0 (by decide) 1 (by omega)⟩

/-! ## Requests of any size -/

/-- `pmm_alloc_pages(count)` returns, and what it returns is 0 or the address of a block of at
least `count` pages that were all free and now belong to the caller alone. -/
def AllocatesAtLeast (s : Pmm) (blk : Blocks) (count : Nat) : Prop :=
  ∃ fuel addr s', s.pmmAllocPages fuel count = some (addr, s') ∧
    (addr = 0 ∨ ∃ blk' p o, addr = p * 4096 ∧ WellFormed s' blk' ∧ blk'.HasBlock p o .live ∧
      count ≤ 2 ^ o ∧ ∀ q, PageBlock.Has ⟨p, o⟩ q → ∃ j, blk q = some (j, .free))

section AtLeast

variable {s : Pmm} {blk : Blocks} {count : Nat}

theorem allocatesAtLeast_of_le (wf : WellFormed s blk) (hcount : count ≤ 1024) :
    AllocatesAtLeast s blk count := by
  obtain ⟨o, ho, hle, hge, -⟩ :=
    buddyCalculateOrder_eq_some (show count ≤ 2 ^ 31 by omega) le_rfl
  by_cases h0 : count = 0
  · exact ⟨32, 0, s, if_pos h0, .inl rfl⟩
  · have hcall : s.pmmAllocPages 32 count = some (s.buddyAllocOrder o) := by
      unfold pmmAllocPages
      rw [if_neg h0, ho]
      rfl
    refine ⟨32, (s.buddyAllocOrder o).1, (s.buddyAllocOrder o).2, hcall, ?_⟩
    rcases buddyAllocOrder_spec wf.toBuddyInv hle with ⟨e, -⟩ | ⟨p, blk', haddr, r⟩
    · exact .inl (by rw [e])
    · refine .inr ⟨blk', p, o, haddr, ?_, ⟨r.head, r.live p rfl⟩, hge hcount, ?_⟩
      · exact ⟨r.steady wf.toSteady, fun q hq => r.samePool.some (wf.covered q (r.total ▸ hq))⟩
      · exact fun q hq => r.fresh q ((sameBlock_iff r.head).mpr hq)

/-- Above 1024 pages the order is clamped to 10. -/
theorem pmmAllocPages_clamped (h1 : 1024 < count) (h2 : count ≤ 2 ^ 31) {r : Nat × Pmm}
    (h : s.pmmAllocPages fuel count = some r) : r = s.buddyAllocOrder 10 := by
  unfold pmmAllocPages at h
  rw [if_neg (by omega)] at h
  obtain ⟨o, ho, rfl⟩ := map_eq_some_iff.mp h
  obtain ⟨o', ho', -, -, hclamp⟩ := buddyCalculateOrder_eq_some h2 (le_add_left 32 fuel)
  have := buddyCalculateOrder_mono (le_add_right fuel 32) ho
  rw [ho', hclamp h1] at this
  rw [some.inj this]

/-- The clamped request is served with a block that is too small. -/
theorem not_allocatesAtLeast_of_clamped (wf : WellFormed s blk) (h1 : 1024 < count)
    (h2 : count ≤ 2 ^ 31) (hlist : s.buddyFreeLists 10 ≠ 0) : ¬ AllocatesAtLeast s blk count := by
  rintro ⟨fuel, addr, s', hcall, hret⟩
  have hr := pmmAllocPages_clamped h1 h2 hcall
  rcases buddyAllocOrder_spec wf.toBuddyInv le_rfl with ⟨-, hno⟩ | ⟨p, blk', haddr, r⟩
  · exact hlist ((wf.lists.head_eq_zero_iff le_rfl).mpr fun q => hno 10 q le_rfl)
  · rw [← hr] at haddr r
    rcases hret with h0 | ⟨blk'', p', o, hp', wf'', hblock, hcount, -⟩
    · have := r.pos
      omega
    · obtain rfl : p' = p := by
        omega
      have e1 := (wf''.maps p' o _ hblock (by simp)).1
      have e2 := (r.inv.maps p' 10 _ ⟨r.head, r.live p' rfl⟩ (by simp)).1
      rw [← e1, e2] at hcount
      omega

/-- Above `2 ^ 31` pages the call never returns. -/
theorem pmmAllocPages_eq_none (h : 2 ^ 31 < count) (fuel : Nat) :
    s.pmmAllocPages fuel count = none := by
  unfold pmmAllocPages
  rw [if_neg (by omega), buddyCalculateOrder_eq_none h fuel]
  rfl

/-- The size of the block covers the request exactly up to 1024 pages; above, the answer is
right only when it is 0, and above `2 ^ 31` pages there is none. -/
theorem pmmAllocPages_allocatesAtLeast_iff (wf : WellFormed s blk) (count : BitVec 32) :
    AllocatesAtLeast s blk count.toNat ↔
      count.toNat ≤ 1024 ∨ (count.toNat ≤ 2 ^ 31 ∧ s.buddyFreeLists 10 = 0) := by
  constructor
  · intro h
    by_contra hno
    have h1 : 1024 < count.toNat := not_le.mp fun hle => hno (.inl hle)
    by_cases h2 : count.toNat ≤ 2 ^ 31
    · exact not_allocatesAtLeast_of_clamped wf h1 h2 (fun e => hno (.inr ⟨h2, e⟩)) h
    · obtain ⟨fuel, addr, s', hcall, -⟩ := h
      rw [pmmAllocPages_eq_none (not_le.mp h2)] at hcall
      cases hcall
  · rintro (hle | ⟨h2, hlist⟩)
    · exact allocatesAtLeast_of_le wf hle
    · by_cases h1 : 1024 < count.toNat
      · obtain ⟨o, ho, -, -, hclamp⟩ := buddyCalculateOrder_eq_some h2 le_rfl
        have hcall : s.pmmAllocPages 32 count.toNat = some (0, s) := by
          have hfail : s.buddyAllocOrder 10 = (0, s) := by
            unfold buddyAllocOrder buddyFindOrder
            simp [hlist, buddyFindOrder]
          unfold pmmAllocPages
          rw [if_neg (by omega), ho, hclamp h1, map_some, hfail]
        exact ⟨32, 0, s, hcall, .inl rfl⟩
      · exact allocatesAtLeast_of_le wf (by omega)

theorem pmmAllocPages_allocatesAtLeast_iff_oneBlock :
    WellFormed (oneBlock 10) (oneBlockMap 10) ∧
      AllocatesAtLeast (oneBlock 10) (oneBlockMap 10) 1024 :=
  ⟨oneBlock_wellFormed 10 (by omega),
    (pmmAllocPages_allocatesAtLeast_iff (oneBlock_wellFormed 10 (by omega)) 1024#32).mpr
      (.inl (by decide))⟩

/-- A request for 1025 pages gets a block of 1024, and one for `2 ^ 31 + 1` gets no answer. -/
theorem not_allocatesAtLeast_oneBlock :
    WellFormed (oneBlock 10) (oneBlockMap 10) ∧
      ¬ AllocatesAtLeast (oneBlock 10) (oneBlockMap 10) 1025 ∧
      ¬ AllocatesAtLeast (oneBlock 10) (oneBlockMap 10) (2 ^ 31 + 1) := by
  have wf := oneBlock_wellFormed 10 (by omega)
  refine ⟨wf, not_allocatesAtLeast_of_clamped wf (by omega) (by omega) (by decide), ?_⟩
  rintro ⟨fuel, addr, s', hcall, -⟩
  rw [pmmAllocPages_eq_none (by omega)] at hcall
  cases hcall

end AtLeast

end Stos.Kernel
