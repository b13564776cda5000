import Stos.Kernel.Memory.Proofs.FreeList

/-!
# Allocation and release of blocks

`BuddyInv` is kept by the two kinds of change an operation makes to the block map: giving
a block another label, and cutting or joining blocks that are held. `buddyAllocOrder_spec`
and `buddyFreeOrder_spec` say everything callers need to know about the two operations.
-/

namespace Stos.Kernel

open BlockMap Nat Pmm List Function Prod

/-! ## Metadata accessors -/

section Accessors

variable (s : Pmm) (p q o : Nat)

@[simp] theorem buddyGetOrder_buddySetOrder (ho : o < 16) :
    (s.buddySetOrder p o).buddyGetOrder q = if q = p then o else s.buddyGetOrder q := by
  have hv : (BitVec.ofNat 32 o).toNat = o := by
    rw [BitVec.toNat_ofNat, mod_eq_of_lt (by omega)]
  unfold buddyGetOrder buddySetOrder
  rw [nibbleGet_nibbleSet _ _ _ _ (by omega)]
  split
  · exact hv
  · rfl

@[simp] theorem buddyIsAllocated_buddyMarkAllocated :
    (s.buddyMarkAllocated p).buddyIsAllocated q = if q = p then true else s.buddyIsAllocated q :=
  bitGet_bitSet _ _ _

@[simp] theorem buddyIsAllocated_buddyMarkFree :
    (s.buddyMarkFree p).buddyIsAllocated q = if q = p then false else s.buddyIsAllocated q :=
  bitGet_bitClear _ _ _

/-- Unlinking a block changes the headers and the list heads only. -/
theorem buddyRemoveFromFreeList_maps (addr : Nat) :
    let s' := s.buddyRemoveFromFreeList addr o
    s'.buddyOrderMap = s.buddyOrderMap ∧ s'.buddyStatusMap = s.buddyStatusMap ∧
      s'.buddyRefcountMap = s.buddyRefcountMap ∧ s'.pmmTotalPages = s.pmmTotalPages ∧
      s'.pmmUsedPages = s.pmmUsedPages := by
  unfold buddyRemoveFromFreeList
  by_cases hp : blockPrev s.mem addr ≠ 0
  · dsimp only
    rw [if_pos hp]
    split <;> exact ⟨rfl, rfl, rfl, rfl, rfl⟩
  · dsimp only
    rw [if_neg hp]
    split <;> exact ⟨rfl, rfl, rfl, rfl, rfl⟩

theorem buddySetRefcounts_eq (n count : Nat) :
    s.buddySetRefcounts p n count =
      { s with
        buddyRefcountMap := fun q =>
          if p ≤ q ∧ q < p + n ∧ q < s.pmmTotalPages then count else s.buddyRefcountMap q } := by
  unfold buddySetRefcounts
  induction n with
  | zero =>
    have hnone : ∀ q, ¬ (p ≤ q ∧ q < p + 0 ∧ q < s.pmmTotalPages) := by
      intro q
      omega
    simp only [range_zero, foldl_nil, hnone, if_false]
  | succ n ih =>
    rw [range_succ, foldl_append, ih]
    simp only [foldl_cons, foldl_nil, buddySetRefcount]
    by_cases hlt : p + n < s.pmmTotalPages
    · rw [if_pos hlt]
      congr 1
      funext q
      by_cases hq : q = p + n
      · subst hq
        rw [update_self, if_pos (by omega)]
      · rw [update_of_ne hq]
        congr 1
        exact propext (by omega)
    · rw [if_neg hlt]
      congr 1
      funext q
      congr 1
      exact propext (by omega)

end Accessors

/-! ## Changes of the block map -/

section Inv

variable {s s' : Pmm} {blk : Blocks} {p q w o j : Nat} {k k' : BlockKind}

/-- The invariant reads only the memory, the list heads, the two maps and the page count. -/
theorem BuddyInv.of_eq (inv : BuddyInv s blk) (hmem : s'.mem = s.mem)
    (hlists : s'.buddyFreeLists = s.buddyFreeLists) (horder : s'.buddyOrderMap = s.buddyOrderMap)
    (hstatus : s'.buddyStatusMap = s.buddyStatusMap) (htotal : s'.pmmTotalPages = s.pmmTotalPages) :
    BuddyInv s' blk := by
  cases s
  cases s'
  subst hmem hlists horder hstatus htotal
  exact ⟨⟨inv.total_le, inv.aligned, inv.order_le, inv.inRange, inv.lists, inv.maps⟩, inv.hole⟩

/-- The lists do not change when a block that is not free gets another such label. -/
theorem ListsInv.relabel (h : ListsInv s blk) (aligned : blk.Aligned) (hp : blk.HasBlock p o k)
    (hk : k ≠ .free) (hk' : k' ≠ .free) (hmem : s'.mem = s.mem)
    (heads : s'.buddyFreeLists = s.buddyFreeLists) : ListsInv s' (blk.retag p o o k') := by
  refine h.congr heads (fun q j => ?_) (fun a _ _ => by rw [hmem])
  rw [hasBlock_retag_iff hp.1]
  constructor
  · rintro (⟨-, -, h⟩ | ⟨-, h⟩)
    · exact absurd h.symm hk'
    · exact h
  · intro hq
    refine .inr ⟨fun e => hk ?_, hq⟩
    have := aligned p o k hp.2 q e
    rw [hq.2] at this
    exact (mk.inj (Option.some.inj this)).2.symm

/-- Giving the block at `p` another label. -/
theorem BlocksInv.relabel (inv : BlocksInv s blk) (hp : blk.HasBlock p o k)
    (total : s'.pmmTotalPages = s.pmmTotalPages) (lists : ListsInv s' (blk.retag p o o k'))
    (own : k' ≠ .held →
      s'.buddyGetOrder p = o ∧ s'.buddyIsAllocated p = decide (k' ≠ .free))
    (others : ∀ q ≠ p, s'.buddyGetOrder q = s.buddyGetOrder q ∧
      s'.buddyIsAllocated q = s.buddyIsAllocated q) :
    BlocksInv s' (blk.retag p o o k') := by
  have tags : ∀ q o2 k2, blk.retag p o o k' q = some (o2, k2) → ∃ k3, blk q = some (o2, k3) := by
    intro q o2 k2 hq
    rcases retag_eq_some hq with ⟨hmem, rfl, -⟩ | ⟨-, hq⟩
    · exact ⟨k, inv.aligned p _ k hp.2 q hmem⟩
    · exact ⟨k2, hq⟩
  refine ⟨total ▸ inv.total_le, inv.aligned.retag le_rfl (inv.aligned.covers_self hp.2),
    ?_, ?_, lists, ?_⟩
  · intro q o2 k2 hq
    obtain ⟨k3, hq⟩ := tags q o2 k2 hq
    exact inv.order_le q o2 k3 hq
  · intro q o2 k2 hq
    obtain ⟨k3, hq⟩ := tags q o2 k2 hq
    exact total ▸ inv.inRange q o2 k3 hq
  · intro q o2 k2 hq hne
    rcases (hasBlock_retag_iff hp.1).mp hq with ⟨rfl, rfl, rfl⟩ | ⟨hmem, hq⟩
    · exact own hne
    · obtain ⟨h1, h2⟩ := others q fun e => hmem (by rw [e])
      rw [h1, h2]
      exact inv.maps q o2 k2 hq hne

theorem BuddyInv.relabel (inv : BuddyInv s blk) (hp : blk.HasBlock p o k) (hk : k ≠ .reserved)
    (total : s'.pmmTotalPages = s.pmmTotalPages) (lists : ListsInv s' (blk.retag p o o k'))
    (own : k' ≠ .held →
      s'.buddyGetOrder p = o ∧ s'.buddyIsAllocated p = decide (k' ≠ .free))
    (others : ∀ q ≠ p, s'.buddyGetOrder q = s.buddyGetOrder q ∧
      s'.buddyIsAllocated q = s.buddyIsAllocated q) :
    BuddyInv s' (blk.retag p o o k') := by
  refine ⟨inv.toBlocksInv.relabel hp total lists own others, fun h hlt hnone => ?_⟩
  rw [total] at hlt
  obtain ⟨hmem, hnone⟩ := retag_eq_none hnone
  obtain ⟨hord, hbud⟩ := inv.hole h hlt hnone
  refine ⟨(others h fun e => hmem (by rw [e])).1.trans hord, fun o2 k2 hb => ?_⟩
  rcases retag_eq_some hb with ⟨hb', -⟩ | ⟨-, hb⟩
  · exact absurd (hbud o k (inv.aligned p o k hp.2 _ hb')) hk
  · exact hbud o2 k2 hb

/-- Cutting or joining the held blocks that make up the block of order `w` around `p`. -/
theorem BuddyInv.reshape (inv : BuddyInv s blk) (hw : w ≤ 10) (how : o ≤ w)
    (heldAll : ∀ q, q / 2 ^ w = p / 2 ^ w → ∃ o', blk q = some (o', .held) ∧ o' ≤ w)
    (total : s'.pmmTotalPages = s.pmmTotalPages) (mem : s'.mem = s.mem)
    (heads : s'.buddyFreeLists = s.buddyFreeLists)
    (others : ∀ q, q / 2 ^ w ≠ p / 2 ^ w → s'.buddyGetOrder q = s.buddyGetOrder q ∧
      s'.buddyIsAllocated q = s.buddyIsAllocated q) :
    BuddyInv s' (blk.retag p w o .held) := by
  have label : ∀ q, q / 2 ^ w = p / 2 ^ w → ∃ o', blk q = some (o', BlockKind.held) :=
    fun q hq => (heldAll q hq).imp fun _ h => h.1
  have covers : blk.Covers p w := by
    intro q hq o2 k2 hq2
    obtain ⟨o', h1, h2⟩ := heldAll q hq
    rw [h1] at hq2
    exact (mk.inj (Option.some.inj hq2)).1 ▸ h2
  refine ⟨⟨total ▸ inv.total_le, inv.aligned.retag how covers, ?_, ?_, ?_, ?_⟩, ?_⟩
  · intro q o2 k2 hq
    rcases retag_eq_some hq with ⟨-, rfl, -⟩ | ⟨-, hq⟩
    · omega
    · exact inv.order_le q o2 k2 hq
  · intro q o2 k2 hq
    rw [total]
    rcases retag_eq_some hq with ⟨hmem, -⟩ | ⟨-, hq⟩
    · obtain ⟨o', h1, -⟩ := heldAll q hmem
      exact inv.inRange q o' _ h1
    · exact inv.inRange q o2 k2 hq
  · refine inv.lists.congr heads (fun q o2 => hasBlock_retag_of_ne label (by simp)) ?_
    intro a o2 _
    rw [mem]
  · intro q o2 k2 hq hne
    rw [hasBlock_retag_of_ne label hne] at hq
    have hmem : q / 2 ^ w ≠ p / 2 ^ w := by
      intro e
      obtain ⟨o', h1⟩ := label q e
      rw [hq.2] at h1
      exact hne (mk.inj (Option.some.inj h1)).2
    rw [(others q hmem).1, (others q hmem).2]
    exact inv.maps q o2 k2 hq hne
  · intro h hlt hnone
    rw [total] at hlt
    obtain ⟨hmem, hnone⟩ := retag_eq_none hnone
    obtain ⟨hord, hbud⟩ := inv.hole h hlt hnone
    refine ⟨(others h hmem).1.trans hord, fun o2 k2 hb => ?_⟩
    rcases retag_eq_some hb with ⟨hb', -⟩ | ⟨-, hb⟩
    · obtain ⟨o', h1⟩ := label _ hb'
      exact absurd (hbud o' _ h1) (by simp)
    · exact hbud o2 k2 hb

/-- The fields that neither list operations nor the bit maps touch. -/
structure SameCounts (s s' : Pmm) : Prop where
  total : s'.pmmTotalPages = s.pmmTotalPages
  used : s'.pmmUsedPages = s.pmmUsedPages
  refs : s'.buddyRefcountMap = s.buddyRefcountMap

theorem SameCounts.refl (s : Pmm) : SameCounts s s := ⟨rfl, rfl, rfl⟩

theorem SameCounts.trans {s'' : Pmm} (h : SameCounts s s') (h' : SameCounts s' s'') :
    SameCounts s s'' :=
  ⟨h'.total.trans h.total, h'.used.trans h.used, h'.refs.trans h.refs⟩

/-- Unlinking a free block leaves it held. -/
theorem BuddyInv.take (inv : BuddyInv s blk) (hp : blk.HasBlock p o .free) :
    BuddyInv (s.buddyRemoveFromFreeList (p * 4096) o) (blk.retag p o o .held) := by
  obtain ⟨horder, hstatus, -, htotal, -⟩ := buddyRemoveFromFreeList_maps s o (p * 4096)
  refine inv.relabel hp (by simp) htotal (buddyRemoveFromFreeList_lists inv.toBlocksInv hp) (by simp) ?_
  intro q _
  unfold buddyGetOrder buddyIsAllocated
  rw [horder, hstatus]
  exact ⟨rfl, rfl⟩

theorem buddyRemoveFromFreeList_sameCounts (s : Pmm) (addr o : Nat) :
    SameCounts s (s.buddyRemoveFromFreeList addr o) := by
  obtain ⟨-, -, hrefs, htotal, hused⟩ := buddyRemoveFromFreeList_maps s o addr
  exact ⟨htotal, hused, hrefs⟩

/-- Linking a held block whose bits say that it is free and of order `o`. -/
theorem BuddyInv.release (inv : BuddyInv s blk) (hp : blk.HasBlock p o .held) (hpos : p ≠ 0)
    (order : s.buddyGetOrder p = o) (status : s.buddyIsAllocated p = false) :
    BuddyInv (s.buddyAddToFreeList (p * 4096) o) (blk.retag p o o .free) :=
  inv.relabel hp (by simp) rfl (buddyAddToFreeList_lists inv.toBlocksInv hp hpos)
    (fun _ => ⟨order, status⟩) (fun _ _ => ⟨rfl, rfl⟩)

/-! ## Splitting -/

/-- One turn of `buddy_split_block`: the upper half goes to its list, the lower half stays
held. -/
theorem BuddyInv.splitHalf (inv : BuddyInv s blk) (hp : blk.HasBlock p (o + 1) .held) :
    BuddyInv (((s.buddyAddToFreeList ((p + 2 ^ o) * 4096) o).buddySetOrder (p + 2 ^ o)
        o).buddyMarkFree (p + 2 ^ o))
      ((blk.retag p (o + 1) o .held).retag (p + 2 ^ o) o o .free) := by
  have ho : o + 1 ≤ 10 := inv.order_le p _ _ hp.2
  have cut : BuddyInv s (blk.retag p (o + 1) o .held) :=
    inv.reshape ho (le_succ o)
      (fun q hq => ⟨o + 1, inv.aligned p _ _ hp.2 q hq, le_rfl⟩) rfl rfl rfl
      (fun _ _ => ⟨rfl, rfl⟩)
  have hup : (blk.retag p (o + 1) o .held).HasBlock (p + 2 ^ o) o .held :=
    ⟨dvd_upperHalf hp.1, retag_of_mem (upperHalf_sameParent hp.1)⟩
  have hpos : p + 2 ^ o ≠ 0 := by
    have := Nat.two_pow_pos o
    omega
  have lists := buddyAddToFreeList_lists cut.toBlocksInv hup hpos
  refine cut.relabel hup (by simp) rfl
    (lists.congr rfl (fun _ _ => Iff.rfl) (fun _ _ _ => rfl)) (fun _ => ⟨?_, ?_⟩) ?_
  · exact (buddyGetOrder_buddySetOrder _ _ _ _ (by omega)).trans (if_pos rfl)
  · exact (buddyIsAllocated_buddyMarkFree _ _ _).trans (if_pos rfl)
  · intro q hq
    exact ⟨(buddyGetOrder_buddySetOrder _ _ _ _ (by omega)).trans (if_neg hq),
      (buddyIsAllocated_buddyMarkFree _ _ _).trans (if_neg hq)⟩

/-- The upper half has a buddy that is held. -/
theorem BuddyInv.splitHalf_merged (inv : BuddyInv s blk) (hp : blk.HasBlock p (o + 1) .held)
    (h : blk.Merged .free 10) :
    ((blk.retag p (o + 1) o .held).retag (p + 2 ^ o) o o .free).Merged .free 10 := by
  have cut : (blk.retag p (o + 1) o .held).Merged .free 10 := h.mono fun q j hq =>
    (hasBlock_retag_of_ne (fun r hr => ⟨o + 1, inv.aligned p _ _ hp.2 r hr⟩) (by simp)).mp hq
  refine cut.retag (dvd_upperHalf hp.1) fun _ hb => ?_
  have hheld := hb.2
  rw [retag_of_mem ((buddy_sameParent o _).trans (upperHalf_sameParent hp.1))] at hheld
  cases hheld

/-- What splitting the held block of order `f` at `p` down to order `t` does. -/
structure SplitTo (s : Pmm) (blk : Blocks) (p f t : Nat) (s' : Pmm) (blk' : Blocks) : Prop where
  inv : BuddyInv s' blk'
  block : blk'.HasBlock p t .held
  outside : ∀ q, q / 2 ^ f ≠ p / 2 ^ f → blk' q = blk q
  halves : ∀ q, q / 2 ^ f = p / 2 ^ f → q / 2 ^ t ≠ p / 2 ^ t → ∃ j, blk' q = some (j, .free)
  counts : SameCounts s s'
  mem : ∀ a, a / 4096 / 2 ^ f ≠ p / 2 ^ f → (∀ j, blk (a / 4096) ≠ some (j, .free)) →
    s'.mem a = s.mem a
  merged : blk.Merged .free 10 → blk'.Merged .free 10

theorem buddySplitBlock_spec {t : Nat} (inv : BuddyInv s blk) (hp : blk.HasBlock p o .held)
    (hle : t ≤ o) : ∃ blk', SplitTo s blk p o t (s.buddySplitBlock (p * 4096) o t) blk' := by
  -- the block that stays held shrinks by half a turn
  induction o generalizing s blk with
  | zero =>
    obtain rfl : t = 0 := by omega
    exact ⟨blk, inv, hp, fun _ _ => rfl, fun q h h' => absurd h h', .refl s, fun _ _ _ => rfl, id⟩
  | succ o ih =>
    unfold buddySplitBlock
    by_cases hlt : o + 1 > t
    · have hup := inv.page_lt
        (inv.aligned p _ _ hp.2 (p + 2 ^ o) (upperHalf_sameParent hp.1))
      have haddr : (p * 4096 + 4096 * 2 ^ o) % 2 ^ 32 = (p + 2 ^ o) * 4096 := by
        omega
      have hpage : pmmAddrToPage ((p + 2 ^ o) * 4096) = p + 2 ^ o := Nat.mul_div_cancel _ (by simp)
      simp only [if_pos hlt, haddr, hpage]
      have hne : p / 2 ^ o ≠ (p + 2 ^ o) / 2 ^ o := by
        rw [upperHalf_div]
        omega
      have hlow : ((blk.retag p (o + 1) o .held).retag (p + 2 ^ o) o o .free).HasBlock p o .held :=
        ⟨dvd_half hp.1, by rw [retag_of_notMem hne, retag_self]⟩
      obtain ⟨blk', r⟩ := ih (inv.splitHalf hp) hlow (by omega)
      refine ⟨blk', r.inv, r.block, ?_, ?_,
        ⟨r.counts.total, r.counts.used, r.counts.refs⟩, ?_, fun h => r.merged (inv.splitHalf_merged hp h)⟩
      · intro q hq
        have h1 : q / 2 ^ o ≠ p / 2 ^ o := fun e => hq (sameBlock_mono e (le_succ o))
        have h2 : q / 2 ^ o ≠ (p + 2 ^ o) / 2 ^ o := fun e =>
          hq ((sameBlock_mono e (le_succ o)).trans (upperHalf_sameParent hp.1))
        rw [r.outside q h1, retag_of_notMem h2, retag_of_notMem hq]
      · intro q hq hqt
        by_cases h1 : q / 2 ^ o = p / 2 ^ o
        · exact r.halves q h1 hqt
        · have h2 := (upperHalf_cases hp.1 hq).resolve_left h1
          exact ⟨o, by rw [r.outside q h1, retag_of_mem h2]⟩
      · intro a ha hfree
        have h1 : a / 4096 / 2 ^ o ≠ p / 2 ^ o := fun e => ha (sameBlock_mono e (le_succ o))
        have h2 : a / 4096 / 2 ^ o ≠ (p + 2 ^ o) / 2 ^ o := fun e =>
          ha ((sameBlock_mono e (le_succ o)).trans (upperHalf_sameParent hp.1))
        rw [r.mem a h1 ?_]
        · exact buddyAddToFreeList_mem inv.lists
            (by have := inv.order_le p _ _ hp.2; omega)
            (fun e => h2 (by rw [e])) (fun j h => hfree j h.2)
        · intro j
          rw [retag_of_notMem h2, retag_of_notMem ha]
          exact hfree j
    · obtain rfl : t = o + 1 := by omega
      rw [if_neg hlt]
      exact ⟨blk, inv, hp, fun _ _ => rfl, fun q h h' => absurd h h', .refl s, fun _ _ _ => rfl, id⟩

/-! ## Allocation -/

/-- The search ends at the first order from `o` on that has a free block. -/
theorem buddyFindOrder_spec (s : Pmm) {fuel : Nat} (h : o + fuel = 11) :
    o ≤ s.buddyFindOrder fuel o ∧ s.buddyFindOrder fuel o ≤ 11 ∧
      (∀ j, o ≤ j → j < s.buddyFindOrder fuel o → s.buddyFreeLists j = 0) ∧
      (s.buddyFindOrder fuel o ≤ 10 → s.buddyFreeLists (s.buddyFindOrder fuel o) ≠ 0) := by
  induction fuel generalizing o with
  | zero =>
    unfold buddyFindOrder
    exact ⟨by omega, by omega, by omega, by omega⟩
  | succ fuel ih =>
    unfold buddyFindOrder
    split
    next hempty =>
      obtain ⟨h1, h2, h3, h4⟩ := ih (o := o + 1) (by omega)
      refine ⟨by omega, h2, fun j hj hlt => ?_, h4⟩
      by_cases e : j = o
      · exact e ▸ hempty.2
      · exact h3 j (by omega) hlt
    next hfound =>
      exact ⟨le_rfl, by omega, fun j _ _ => by omega, fun hle h0 => hfound ⟨hle, h0⟩⟩

/-- Page `q` keeps its block, or it was free and is free still. -/
def SameOrFree (blk blk' : Blocks) (q : Nat) : Prop :=
  blk' q = blk q ∨ (∃ j, blk q = some (j, .free)) ∧ ∃ j, blk' q = some (j, .free)

theorem SameOrFree.eq_some_iff {blk' : Blocks} {q i : Nat} {k : BlockKind}
    (h : SameOrFree blk blk' q) (hk : k ≠ .free) : blk' q = some (i, k) ↔ blk q = some (i, k) := by
  rcases h with e | ⟨⟨j, hj⟩, ⟨j', hj'⟩⟩
  · rw [e]
  · rw [hj, hj']
    simp [hk.symm]

/-- The pages whose reference count `buddy_set_refcounts` sets, of a block within memory. -/
theorem inBlock_iff {n q : Nat} (hp : 2 ^ o ∣ p) (hin : ∀ q, q / 2 ^ o = p / 2 ^ o → q < n) :
    (p ≤ q ∧ q < p + 2 ^ o ∧ q < n) ↔ q / 2 ^ o = p / 2 ^ o := by
  rw [← and_assoc, ← sameBlock_iff hp]
  exact and_iff_left_of_imp (hin q)

/-- What a successful allocation of the block of order `o` at page `p` does. Pages that
were not free keep their block and their bytes. -/
structure Allocated (s : Pmm) (blk : Blocks) (o p : Nat) (s' : Pmm) (blk' : Blocks) : Prop where
  inv : BuddyInv s' blk'
  pos : p ≠ 0
  head : 2 ^ o ∣ p
  fresh : ∀ q, q / 2 ^ o = p / 2 ^ o → ∃ j, blk q = some (j, .free)
  live : ∀ q, q / 2 ^ o = p / 2 ^ o → blk' q = some (o, .live)
  rest : ∀ q, q / 2 ^ o ≠ p / 2 ^ o → SameOrFree blk blk' q
  total : s'.pmmTotalPages = s.pmmTotalPages
  used : s'.pmmUsedPages = s.pmmUsedPages + BitVec.ofNat 32 (2 ^ o)
  refs : ∀ q, s'.buddyRefcountMap q = if q / 2 ^ o = p / 2 ^ o then 1 else s.buddyRefcountMap q
  mem : ∀ a, (∀ j, blk (a / 4096) ≠ some (j, .free)) → s'.mem a = s.mem a
  merged : blk.Merged .free 10 → blk'.Merged .free 10

/-- The last part of `buddy_alloc_order`: the held block becomes live. -/
theorem BuddyInv.handOut (inv : BuddyInv s blk) (hp : blk.HasBlock p o .held) :
    BuddyInv ((s.buddySetOrder p o).buddyMarkAllocated p) (blk.retag p o o .live) := by
  have ho : o ≤ 10 := inv.order_le p _ _ hp.2
  refine inv.relabel hp (by simp) rfl (inv.lists.relabel inv.aligned hp (by simp) (by simp) rfl rfl)
    (fun _ => ⟨?_, ?_⟩) (fun q hq => ⟨?_, ?_⟩)
  · exact (buddyGetOrder_buddySetOrder _ _ _ _ (by omega)).trans (if_pos rfl)
  · exact (buddyIsAllocated_buddyMarkAllocated _ _ _).trans (if_pos rfl)
  · exact (buddyGetOrder_buddySetOrder _ _ _ _ (by omega)).trans (if_neg hq)
  · exact (buddyIsAllocated_buddyMarkAllocated _ _ _).trans (if_neg hq)

/-- `buddy_alloc_order` fails exactly when no free block is large enough, and then changes
nothing. -/
theorem buddyAllocOrder_spec (inv : BuddyInv s blk) (ho : o ≤ 10) :
    (s.buddyAllocOrder o = (0, s) ∧ ∀ j q, o ≤ j → ¬ blk.HasBlock q j .free) ∨
      ∃ p blk', (s.buddyAllocOrder o).1 = p * 4096 ∧
        Allocated s blk o p (s.buddyAllocOrder o).2 blk' := by
  obtain ⟨hge, hle, hempty, hfound⟩ := buddyFindOrder_spec s (show o + (11 - o) = 11 by omega)
  unfold buddyAllocOrder
  rw [if_neg (by omega)]
  generalize s.buddyFindOrder (11 - o) o = c at hge hle hempty hfound
  by_cases hc : c > 10
  · left
    simp only [if_pos hc, true_and]
    intro j q hj hq
    have hj' : j ≤ 10 := inv.order_le q j _ hq.2
    exact (inv.lists.head_eq_zero_iff hj').mp (hempty j hj (by omega)) q hq
  · right
    have hc' : c ≤ 10 := by omega
    obtain ⟨p, haddr, hp⟩ := inv.lists.head_free hc' (hfound hc')
    have hpage : pmmAddrToPage (p * 4096) = p := Nat.mul_div_cancel _ (by simp)
    simp only [if_neg hc, haddr, hpage]
    have hheld : (blk.retag p c c .held).HasBlock p c .held := ⟨hp.1, retag_self⟩
    obtain ⟨blk1, r⟩ := buddySplitBlock_spec (inv.take hp) hheld hge
    have hsplit : (if c > o then
          (s.buddyRemoveFromFreeList (p * 4096) c).buddySplitBlock (p * 4096) c o
        else s.buddyRemoveFromFreeList (p * 4096) c) =
        (s.buddyRemoveFromFreeList (p * 4096) c).buddySplitBlock (p * 4096) c o := by
      split
      · rfl
      · obtain rfl : c = o := by omega
        cases c <;> simp [buddySplitBlock]
    rw [hsplit]
    have counts := (buddyRemoveFromFreeList_sameCounts s (p * 4096) c).trans r.counts
    have mem : ∀ a, (∀ j, blk (a / 4096) ≠ some (j, .free)) →
        ((s.buddyRemoveFromFreeList (p * 4096) c).buddySplitBlock (p * 4096) c o).mem a =
          s.mem a := by
      intro a ha
      have hout : a / 4096 / 2 ^ c ≠ p / 2 ^ c := fun e => ha c (inv.aligned p c _ hp.2 _ e)
      rw [r.mem a hout ?_]
      · exact buddyRemoveFromFreeList_mem inv.lists hc' hp fun j h => ha j h.2
      · intro j
        rw [retag_of_notMem hout]
        exact ha j
    generalize (s.buddyRemoveFromFreeList (p * 4096) c).buddySplitBlock (p * 4096) c o = s1
      at r counts mem
    have hin : ∀ q, q / 2 ^ o = p / 2 ^ o → q < s1.pmmTotalPages := fun q hq =>
      r.inv.inRange q o _ (r.inv.aligned p o _ r.block.2 q hq)
    rw [buddySetRefcounts_eq]
    refine ⟨p, blk1.retag p o o .live, rfl, ?_⟩
    refine ⟨(r.inv.handOut r.block).of_eq rfl rfl rfl rfl rfl, inv.lists.ne_zero hc' hp, r.block.1,
      fun q hq => ⟨c, inv.aligned p c _ hp.2 q (sameBlock_mono hq hge)⟩,
      fun q hq => retag_of_mem hq, ?_, counts.total, ?_, ?_, mem,
      fun h => (r.merged (h.retag_of_ne hp.1 (by simp))).retag_of_ne r.block.1 (by simp)⟩
    · intro q hq
      unfold SameOrFree
      rw [retag_of_notMem hq]
      by_cases hqc : q / 2 ^ c = p / 2 ^ c
      · exact .inr ⟨⟨c, inv.aligned p c _ hp.2 q hqc⟩, r.halves q hqc hq⟩
      · rw [r.outside q hqc, retag_of_notMem hqc]
        exact .inl rfl
    · exact congrArg (· + _) counts.used
    · intro q
      rw [← congrFun counts.refs q]
      exact if_congr (inBlock_iff r.block.1 hin) rfl rfl

/-! ## Coalescing -/

/-- The test of `buddy_coalesce` finds only free blocks: a page whose bits say "free, order
`j`" next to the held block of order `j` starts a free block of that order. -/
theorem BuddyInv.buddy_free (inv : BuddyInv s blk) (hp : blk.HasBlock p j .held)
    (only : ∀ q i, blk q = some (i, .held) → q / 2 ^ j = p / 2 ^ j)
    (hlt : p ^^^ 2 ^ j < s.pmmTotalPages) (hstatus : s.buddyIsAllocated (p ^^^ 2 ^ j) = false)
    (horder : s.buddyGetOrder (p ^^^ 2 ^ j) = j) : blk.HasBlock (p ^^^ 2 ^ j) j .free := by
  cases hb : blk (p ^^^ 2 ^ j) with
  | none =>
    obtain ⟨hzero, hbud⟩ := inv.hole _ hlt hb
    obtain rfl : j = 0 := horder.symm.trans hzero
    have hself : p ^^^ 2 ^ 0 ^^^ 1 = p := by simp
    exact absurd (hbud 0 .held (hself.symm ▸ hp.2)) (by simp)
  | some tag =>
    obtain ⟨i, k⟩ := tag
    have hile : i ≤ j := by
      by_contra hgt
      have hsame := sameBlock_mono (buddy_sameParent j p) (show j + 1 ≤ i by omega)
      have := inv.aligned _ i k hb p hsame.symm
      rw [hp.2] at this
      obtain ⟨rfl, -⟩ := mk.inj (Option.some.inj this)
      omega
    have hblock : blk.HasBlock (p ^^^ 2 ^ j) i k :=
      ⟨dvd_trans (pow_dvd_pow 2 hile) (dvd_buddy hp.1), hb⟩
    have hheld : k ≠ .held := by
      rintro rfl
      exact buddy_notSameBlock j p (only _ i hb)
    obtain ⟨h1, h2⟩ := inv.maps _ i k hblock hheld
    rw [horder] at h1
    rw [hstatus] at h2
    have hk : k = .free := by simpa using h2.symm
    rw [hk, ← h1] at hblock
    exact hblock

/-- Joining the held block with its free buddy. -/
theorem BuddyInv.joinBuddy {m : Nat} (inv : BuddyInv s blk) (hj : j < 10)
    (hp : blk.HasBlock p j .held) (hb : blk.HasBlock (p ^^^ 2 ^ j) j .free)
    (hm : m / 2 ^ (j + 1) = p / 2 ^ (j + 1)) :
    BuddyInv ((s.buddyRemoveFromFreeList ((p ^^^ 2 ^ j) * 4096) j).buddySetOrder m (j + 1))
      ((blk.retag (p ^^^ 2 ^ j) j j .held).retag m (j + 1) (j + 1) .held) := by
  refine (inv.take hb).reshape hj le_rfl ?_ rfl rfl rfl ?_
  · intro q hq
    refine ⟨j, ?_, le_succ j⟩
    rcases sameParent_cases (hq.trans hm) with h | h
    · rw [retag_of_notMem fun e => buddy_notSameBlock j p (e.symm.trans h)]
      exact inv.aligned p j _ hp.2 q h
    · exact retag_of_mem h
  · intro q hq
    refine ⟨(buddyGetOrder_buddySetOrder _ _ _ _ (by omega)).trans (if_neg ?_), rfl⟩
    rintro rfl
    exact hq rfl

/-- What `buddy_coalesce` does to the held block of order `j` at `p`. -/
structure Coalesced (s : Pmm) (blk : Blocks) (p j : Nat) (s' : Pmm) (blk' : Blocks)
    (p' j' : Nat) : Prop where
  inv : BuddyInv s' blk'
  block : blk'.HasBlock p' j' .held
  pos : p' ≠ 0
  order : s'.buddyGetOrder p' = j'
  status : s'.buddyIsAllocated p' = false
  within : ∀ q, q / 2 ^ j = p / 2 ^ j → q / 2 ^ j' = p' / 2 ^ j'
  absorbed : ∀ q, q / 2 ^ j' = p' / 2 ^ j' → q / 2 ^ j ≠ p / 2 ^ j → ∃ i, blk q = some (i, .free)
  outside : ∀ q, q / 2 ^ j' ≠ p' / 2 ^ j' → blk' q = blk q
  counts : SameCounts s s'
  mem : ∀ a, (∀ i, blk (a / 4096) ≠ some (i, .free)) → s'.mem a = s.mem a
  merged : blk.Merged .free 10 → blk'.Merged .free 10

namespace Coalesced

variable {s1 s2 : Pmm} {blk1 blk2 : Blocks} {m i p' j' : Nat}

theorem refl (inv : BuddyInv s blk) (hp : blk.HasBlock p j .held) (hpos : p ≠ 0)
    (order : s.buddyGetOrder p = j) (status : s.buddyIsAllocated p = false) :
    Coalesced s blk p j s blk p j :=
  ⟨inv, hp, hpos, order, status, fun _ h => h, fun _ h h' => absurd h h', fun _ _ => rfl, .refl s,
    fun _ _ => rfl, id⟩

theorem trans (h : Coalesced s blk p j s1 blk1 m i) (h' : Coalesced s1 blk1 m i s2 blk2 p' j') :
    Coalesced s blk p j s2 blk2 p' j' := by
  refine ⟨h'.inv, h'.block, h'.pos, h'.order, h'.status, fun q hq => h'.within q (h.within q hq),
    ?_, ?_, h.counts.trans h'.counts, ?_, h'.merged ∘ h.merged⟩
  · intro q hq hqp
    by_cases hqm : q / 2 ^ i = m / 2 ^ i
    · exact h.absorbed q hqm hqp
    · rw [← h.outside q hqm]
      exact h'.absorbed q hq hqm
  · intro q hq
    rw [h'.outside q hq, h.outside q fun e => hq (h'.within q e)]
  · intro a ha
    rw [h'.mem a ?_, h.mem a ha]
    intro l hl
    by_cases hqm : a / 4096 / 2 ^ i = m / 2 ^ i
    · rw [h.inv.aligned m i _ h.block.2 _ hqm] at hl
      cases hl
    · rw [h.outside _ hqm] at hl
      exact ha l hl

theorem only (h : Coalesced s blk p j s1 blk1 m i)
    (only : ∀ q l, blk q = some (l, .held) → q / 2 ^ j = p / 2 ^ j) (q l : Nat)
    (hq : blk1 q = some (l, .held)) : q / 2 ^ i = m / 2 ^ i := by
  by_contra hqm
  rw [h.outside q hqm] at hq
  exact hqm (h.within q (only q l hq))

end Coalesced

/-- One turn of `buddy_coalesce`. -/
theorem BuddyInv.coalesceTurn (inv : BuddyInv s blk) (hj : j < 10) (hp : blk.HasBlock p j .held)
    (hb : blk.HasBlock (p ^^^ 2 ^ j) j .free) (hpos : p ≠ 0)
    (status : s.buddyIsAllocated p = false) (hstatus : s.buddyIsAllocated (p ^^^ 2 ^ j) = false) :
    let m := if p ^^^ 2 ^ j < p then p ^^^ 2 ^ j else p
    Coalesced s blk p j
      ((s.buddyRemoveFromFreeList ((p ^^^ 2 ^ j) * 4096) j).buddySetOrder m (j + 1))
      ((blk.retag (p ^^^ 2 ^ j) j j .held).retag m (j + 1) (j + 1) .held) m (j + 1) := by
  intro m
  have hne := buddy_ne j p
  have hm : m = p ∧ 2 ^ (j + 1) ∣ p ∨ m = p ^^^ 2 ^ j ∧ 2 ^ (j + 1) ∣ p ^^^ 2 ^ j := by
    by_cases h : p ^^^ 2 ^ j < p
    · exact .inr ⟨if_pos h, dvd_of_buddy_lt hp.1 h⟩
    · exact .inl ⟨if_neg h, dvd_of_lt_buddy hp.1 (by omega)⟩
  have hparent : m / 2 ^ (j + 1) = p / 2 ^ (j + 1) := by
    rcases hm with ⟨e, -⟩ | ⟨e, -⟩ <;> rw [e]
    exact buddy_sameParent j p
  have hcounts := buddyRemoveFromFreeList_sameCounts s ((p ^^^ 2 ^ j) * 4096) j
  have hmaps := buddyRemoveFromFreeList_maps s j ((p ^^^ 2 ^ j) * 4096)
  have hhead : 2 ^ (j + 1) ∣ m := by
    rcases hm with ⟨e, h⟩ | ⟨e, h⟩ <;> rw [e] <;> exact h
  refine ⟨inv.joinBuddy hj hp hb hparent, ⟨hhead, retag_self⟩, ?_, ?_, ?_, ?_, ?_, ?_,
    ⟨hcounts.total, hcounts.used, hcounts.refs⟩, ?_,
    fun h => (h.retag_of_ne hb.1 (by simp)).retag_of_ne hhead (by simp)⟩
  · rcases hm with ⟨e, -⟩ | ⟨e, -⟩ <;> rw [e]
    · exact hpos
    · exact inv.lists.ne_zero (by omega) hb
  · exact (buddyGetOrder_buddySetOrder _ _ _ _ (by omega)).trans (if_pos rfl)
  · have hsame : ((s.buddyRemoveFromFreeList ((p ^^^ 2 ^ j) * 4096) j).buddySetOrder m
        (j + 1)).buddyIsAllocated m = s.buddyIsAllocated m :=
      congrArg (fun w => bitGet w m) hmaps.2.1
    rw [hsame]
    rcases hm with ⟨e, -⟩ | ⟨e, -⟩ <;> rw [e]
    · exact status
    · exact hstatus
  · intro q hq
    exact (sameBlock_mono hq (le_succ j)).trans hparent.symm
  · intro q hq hqp
    exact ⟨j, inv.aligned _ j _ hb.2 q ((sameParent_cases (hq.trans hparent)).resolve_left hqp)⟩
  · intro q hq
    rw [retag_of_notMem hq, retag_of_notMem]
    intro e
    exact hq ((sameBlock_mono e (le_succ j)).trans
      ((buddy_sameParent j p).trans hparent.symm))
  · intro a ha
    exact buddyRemoveFromFreeList_mem inv.lists (by omega) hb fun l h => ha l h.2

/-- The test of the loop: the buddy is marked as a free block of the same order. -/
def Pmm.Mergeable (s : Pmm) (p j : Nat) : Prop :=
  j < 10 ∧ p ^^^ 2 ^ j < s.pmmTotalPages ∧ s.buddyIsAllocated (p ^^^ 2 ^ j) = false ∧
    s.buddyGetOrder (p ^^^ 2 ^ j) = j

/-- The loop either stops where it is or takes the free buddy and goes on. -/
theorem buddyCoalesceLoop_succ (s : Pmm) (fuel p j : Nat) :
    ¬ s.Mergeable p j ∧ s.buddyCoalesceLoop (fuel + 1) p (p * 4096) j = (p * 4096, s) ∨
      s.Mergeable p j ∧ s.buddyCoalesceLoop (fuel + 1) p (p * 4096) j =
          ((s.buddyRemoveFromFreeList (pmmPageToAddr (p ^^^ 2 ^ j)) j).buddySetOrder
            (if p ^^^ 2 ^ j < p then p ^^^ 2 ^ j else p) (j + 1)).buddyCoalesceLoop fuel
            (if p ^^^ 2 ^ j < p then p ^^^ 2 ^ j else p)
            (if p ^^^ 2 ^ j < p then pmmPageToAddr (p ^^^ 2 ^ j) else p * 4096) (j + 1) := by
  by_cases h : s.Mergeable p j
  · refine .inr ⟨h, ?_⟩
    obtain ⟨hj, hlt, hstatus, horder⟩ := h
    have hlt' : ¬ p ^^^ 2 ^ j ≥ s.pmmTotalPages := by omega
    simp only [buddyCoalesceLoop, buddyGetBuddyPage, hj, if_true, hlt', if_false, hstatus, horder,
      Bool.false_eq_true, ne_eq, not_true_eq_false, or_self]
    rfl
  · refine .inl ⟨h, ?_⟩
    simp only [buddyCoalesceLoop, buddyGetBuddyPage]
    refine ite_eq_right_iff.mpr fun hj => ite_eq_left_iff.mpr fun hlt => if_pos ?_
    by_contra hbits
    obtain ⟨hstatus, horder⟩ := not_or.mp hbits
    exact h ⟨hj, by omega, Bool.eq_false_iff.mpr hstatus, not_ne_iff.mp horder⟩

theorem buddyCoalesceLoop_spec (fuel : Nat) (inv : BuddyInv s blk) (hp : blk.HasBlock p j .held)
    (hpos : p ≠ 0) (order : s.buddyGetOrder p = j) (status : s.buddyIsAllocated p = false)
    (only : ∀ q i, blk q = some (i, .held) → q / 2 ^ j = p / 2 ^ j) (hfuel : 10 ≤ j + fuel) :
    ∃ blk' p' j', (s.buddyCoalesceLoop fuel p (p * 4096) j).1 = p' * 4096 ∧
      (j' < 10 → ¬ blk'.HasBlock (p' ^^^ 2 ^ j') j' .free) ∧
      Coalesced s blk p j (s.buddyCoalesceLoop fuel p (p * 4096) j).2 blk' p' j' := by
  -- each turn doubles the held block
  induction fuel generalizing s blk p j with
  | zero =>
    exact ⟨blk, p, j, rfl, by omega, .refl inv hp hpos order status⟩
  | succ fuel ih =>
    rcases buddyCoalesceLoop_succ s fuel p j with ⟨hstop, e⟩ | ⟨⟨hj, hlt, hstatus, horder⟩, e⟩
    · rw [e]
      refine ⟨blk, p, j, rfl, fun hj hb => hstop ?_, .refl inv hp hpos order status⟩
      obtain ⟨horder, hstatus⟩ := inv.maps _ j _ hb (by simp)
      exact ⟨hj, inv.inRange _ j _ hb.2, hstatus, horder⟩
    · have hb := inv.buddy_free hp only hlt hstatus horder
      have haddr : pmmPageToAddr (p ^^^ 2 ^ j) = (p ^^^ 2 ^ j) * 4096 := by
        have := inv.page_lt hb.2
        unfold pmmPageToAddr
        omega
      have turn := inv.coalesceTurn hj hp hb hpos status hstatus
      obtain ⟨blk', p', j', haddr', hstop, r⟩ :=
        ih turn.inv turn.block turn.pos turn.order turn.status (turn.only only) (by omega)
      have hmin : (if p ^^^ 2 ^ j < p then (p ^^^ 2 ^ j) * 4096 else p * 4096) =
          (if p ^^^ 2 ^ j < p then p ^^^ 2 ^ j else p) * 4096 := by
        split <;> rfl
      rw [e, haddr, hmin]
      exact ⟨blk', p', j', haddr', hstop, turn.trans r⟩

/-! ## Release -/

/-- What freeing the live block of order `o` at page `p` does. Pages that are not free
afterwards keep their bytes. -/
structure Freed (s : Pmm) (blk : Blocks) (o p : Nat) (s' : Pmm) (blk' : Blocks) : Prop where
  inv : BuddyInv s' blk'
  free : ∀ q, q / 2 ^ o = p / 2 ^ o → ∃ j, blk' q = some (j, .free)
  rest : ∀ q, q / 2 ^ o ≠ p / 2 ^ o → SameOrFree blk blk' q
  total : s'.pmmTotalPages = s.pmmTotalPages
  used : s'.pmmUsedPages = s.pmmUsedPages - BitVec.ofNat 32 (2 ^ o)
  refs : ∀ q, s'.buddyRefcountMap q = if q / 2 ^ o = p / 2 ^ o then 0 else s.buddyRefcountMap q
  mem : ∀ a, (∀ j, blk' (a / 4096) ≠ some (j, .free)) → s'.mem a = s.mem a
  merged : blk.Merged .free 10 → blk'.Merged .free 10

/-- The first part of `buddy_free_order`: the live block becomes held. -/
theorem BuddyInv.takeBack (inv : BuddyInv s blk) (hp : blk.HasBlock p o .live) :
    BuddyInv (s.buddyMarkFree p) (blk.retag p o o .held) :=
  inv.relabel hp (by simp) rfl (inv.lists.relabel inv.aligned hp (by simp) (by simp) rfl rfl)
    (by simp) fun q hq => ⟨rfl, (buddyIsAllocated_buddyMarkFree _ _ _).trans (if_neg hq)⟩

/-- The state of `buddy_free_order` before it coalesces. -/
def Pmm.uncounted (s : Pmm) (p o : Nat) : Pmm :=
  { s.buddyMarkFree p with
    buddyRefcountMap := fun q =>
      if p ≤ q ∧ q < p + 2 ^ o ∧ q < s.pmmTotalPages then 0 else s.buddyRefcountMap q
    pmmUsedPages := s.pmmUsedPages - BitVec.ofNat 32 (2 ^ o)
    buddyAllocCount :=
      if s.buddyAllocCount o ≠ 0 then
        update s.buddyAllocCount o (s.buddyAllocCount o - 1)
      else s.buddyAllocCount }

/-- What `buddy_free_order` checks before it looks at the reference counts. -/
theorem BuddyInv.live_checks (inv : BuddyInv s blk) (hp : blk.HasBlock p o .live) :
    (∀ q, q / 2 ^ o = p / 2 ^ o → ¬ q ≥ s.pmmTotalPages) ∧ s.buddyIsAllocated p = true ∧
      pmmIsAligned (p * 4096) = true ∧ pmmAddrToPage (p * 4096) = p :=
  ⟨fun q hq => not_le.mpr (inv.inRange q o _ (inv.aligned p o _ hp.2 q hq)),
    (inv.maps p o _ hp (by simp)).2, by simp [pmmIsAligned], Nat.mul_div_cancel _ (by simp)⟩

/-- A live block of unshared pages passes the checks of `buddy_free_order`. -/
theorem buddyFreeOrder_eq (inv : BuddyInv s blk) (hp : blk.HasBlock p o .live)
    (unshared : ∀ q, q / 2 ^ o = p / 2 ^ o → s.buddyRefcountMap q ≤ 1) :
    s.buddyFreeOrder (p * 4096) o =
      let r := (s.uncounted p o).buddyCoalesceLoop (10 - o) p (p * 4096) o
      r.2.buddyAddToFreeList r.1 (r.2.buddyGetOrder (pmmAddrToPage r.1)) := by
  obtain ⟨hin, hstatus, haligned, hpage⟩ := inv.live_checks hp
  have hshared : ((range (2 ^ o)).any fun i => s.buddyGetRefcount (p + i) > 1) = false := by
    rw [any_eq_false]
    intro i hi
    have hq : (p + i) / 2 ^ o = p / 2 ^ o :=
      (sameBlock_iff hp.1).mpr ⟨by omega, by have := mem_range.mp hi; omega⟩
    simp only [buddyGetRefcount, hin _ hq, if_false, decide_eq_true_eq]
    exact not_lt.mpr (unshared _ hq)
  unfold buddyFreeOrder buddyCoalesce
  simp only [haligned, if_true, hpage, hstatus, hshared, if_neg (hin p rfl), Bool.not_true,
    Bool.false_eq_true, if_false, buddySetRefcounts_eq]
  rfl

theorem buddyFreeOrder_spec (inv : BuddyInv s blk) (hp : blk.HasBlock p o .live) (hpos : p ≠ 0)
    (unshared : ∀ q, q / 2 ^ o = p / 2 ^ o → s.buddyRefcountMap q ≤ 1)
    (settled : ∀ q i, blk q ≠ some (i, .held)) :
    ∃ blk', Freed s blk o p (s.buddyFreeOrder (p * 4096) o) blk' := by
  have hin : ∀ q, q / 2 ^ o = p / 2 ^ o → q < s.pmmTotalPages := fun q hq =>
    inv.inRange q o _ (inv.aligned p o _ hp.2 q hq)
  have only : ∀ q i, blk.retag p o o .held q = some (i, .held) → q / 2 ^ o = p / 2 ^ o := by
    intro q i hq
    exact (retag_eq_some hq).elim And.left fun h => absurd h.2 (settled q i)
  have inv1 : BuddyInv (s.uncounted p o) (blk.retag p o o .held) :=
    (inv.takeBack hp).of_eq rfl rfl rfl rfl rfl
  obtain ⟨blk', p', j', haddr, hstop, r⟩ := buddyCoalesceLoop_spec (10 - o) inv1
    ⟨hp.1, retag_self⟩ hpos (inv.maps p o _ hp (by simp)).1
    ((buddyIsAllocated_buddyMarkFree s p p).trans (if_pos rfl)) only (by omega)
  have hpage : pmmAddrToPage (p' * 4096) = p' := Nat.mul_div_cancel _ (by simp)
  rw [buddyFreeOrder_eq inv hp unshared]
  dsimp only
  rw [haddr, hpage, r.order]
  have rest : ∀ q, q / 2 ^ j' ≠ p' / 2 ^ j' → blk' q = blk q := by
    intro q hq
    rw [r.outside q hq, retag_of_notMem fun e => hq (r.within q e)]
  refine ⟨blk'.retag p' j' j' .free, r.inv.release r.block r.pos r.order r.status,
    fun q hq => ⟨j', retag_of_mem (r.within q hq)⟩, ?_, r.counts.total, r.counts.used, ?_, ?_,
    fun h => (r.merged (h.retag_of_ne hp.1 (by simp))).retag r.block.1 hstop⟩
  · intro q hq
    by_cases hm : q / 2 ^ j' = p' / 2 ^ j'
    · obtain ⟨i, hi⟩ := r.absorbed q hm hq
      rw [retag_of_notMem hq] at hi
      exact .inr ⟨⟨i, hi⟩, ⟨j', retag_of_mem hm⟩⟩
    · exact .inl ((retag_of_notMem hm).trans (rest q hm))
  · intro q
    exact (congrFun r.counts.refs q).trans (if_congr (inBlock_iff hp.1 hin) rfl rfl)
  · intro a ha
    have hm : a / 4096 / 2 ^ j' ≠ p' / 2 ^ j' := fun e => ha j' (retag_of_mem e)
    have hold : ∀ j, blk' (a / 4096) ≠ some (j, .free) := by
      intro j hj
      exact ha j ((retag_of_notMem hm).trans hj)
    rw [buddyAddToFreeList_mem r.inv.lists (r.inv.order_le p' j' _ r.block.2)
      (fun e => hm (by rw [e])) fun j h => hold j h.2]
    refine r.mem a fun j => ?_
    rw [← r.outside _ hm]
    exact hold j

end Inv

end Stos.Kernel
