import Stos.Kernel.Memory.PmmInvariant

/-!
# The free lists

`buddy_add_to_free_list` and `buddy_remove_from_free_list` keep every free list a
consistent doubly linked list. Headers lie at the start of pages, so the header words of
different blocks never overlap and neither operation touches a page that is not free.
-/

namespace Stos.Kernel

open List Function BitVec BlockMap Pmm

/-! ## Header words -/

variable {a o addr : Nat} {s : Pmm} {blk : Blocks}

section Header

variable {m : Mem} {x y v : Nat}

section

variable (hx : x % 4096 = 0) (hy : y % 4096 = 0)

include hx hy

theorem blockNext_setBlockNext (hv : v < 2 ^ 32) :
    blockNext (setBlockNext m y v) x = if x = y then v else blockNext m x := by
  unfold blockNext setBlockNext
  by_cases h : x = y
  · rw [if_pos h, h, read32_write32, toNat_ofNat, Nat.mod_eq_of_lt hv]
  · rw [if_neg h, read32_write32_of_disjoint (by omega)]

theorem blockPrev_setBlockPrev (hv : v < 2 ^ 32) :
    blockPrev (setBlockPrev m y v) x = if x = y then v else blockPrev m x := by
  unfold blockPrev setBlockPrev
  by_cases h : x = y
  · rw [if_pos h, h, read32_write32, toNat_ofNat, Nat.mod_eq_of_lt hv]
  · rw [if_neg h, read32_write32_of_disjoint (by omega)]

theorem blockNext_setBlockPrev : blockNext (setBlockPrev m y v) x = blockNext m x := by
  unfold blockNext setBlockPrev
  rw [read32_write32_of_disjoint (by omega)]

theorem blockPrev_setBlockNext : blockPrev (setBlockNext m y v) x = blockPrev m x := by
  unfold blockPrev setBlockNext
  rw [read32_write32_of_disjoint (by omega)]

end

theorem blockNext_lt (m : Mem) (x : Nat) : blockNext m x < 2 ^ 32 := (read32 m x).isLt

theorem blockPrev_lt (m : Mem) (x : Nat) : blockPrev m x < 2 ^ 32 := (read32 m (x + 4)).isLt

theorem setBlockNext_of_page_ne (hy : y % 4096 = 0) (h : a / 4096 ≠ y / 4096) :
    setBlockNext m y v a = m a :=
  write32_of_outside (by omega)

theorem setBlockPrev_of_page_ne (hy : y % 4096 = 0) (h : a / 4096 ≠ y / 4096) :
    setBlockPrev m y v a = m a :=
  write32_of_outside (by omega)

end Header

/-! ## Blocks on the lists -/

section Lists

variable {s : Pmm} {blk : Blocks} {p q o o' : Nat} {k : BlockKind}

theorem BlocksInv.page_lt (inv : BlocksInv s blk) (hq : blk q = some (o, k)) : q < 2 ^ 20 :=
  lt_of_lt_of_le (inv.inRange q o k hq) inv.total_le

theorem ListsInv.ne_zero (h : ListsInv s blk) (ho : o ≤ 10) (hp : blk.HasBlock p o .free) :
    p ≠ 0 := by
  obtain ⟨xs, hxs, hmem⟩ := h o ho
  have := hxs.ne_nil ((hmem (p * 4096)).mpr ⟨p, rfl, hp⟩)
  omega

theorem ListsInv.head_eq_zero_iff (h : ListsInv s blk) (ho : o ≤ 10) :
    s.buddyFreeLists o = 0 ↔ ∀ p, ¬ blk.HasBlock p o .free := by
  obtain ⟨xs, hxs, hmem⟩ := h o ho
  rw [hxs.head_eq_nil_iff]
  constructor
  · rintro rfl p hp
    exact absurd ((hmem (p * 4096)).mpr ⟨p, rfl, hp⟩) (by simp)
  · intro hnone
    apply eq_nil_iff_forall_not_mem.mpr
    intro a ha
    obtain ⟨p, -, hp⟩ := (hmem a).mp ha
    exact hnone p hp

/-- The head of a list that is not empty is a free block. -/
theorem ListsInv.head_free (h : ListsInv s blk) (ho : o ≤ 10) (hne : s.buddyFreeLists o ≠ 0) :
    ∃ p, s.buddyFreeLists o = p * 4096 ∧ blk.HasBlock p o .free := by
  obtain ⟨xs, hxs, hmem⟩ := h o ho
  exact (hmem _).mp (hxs.head_mem hne)

/-- A block is on one list only. -/
theorem hasBlock_order_eq {k' : BlockKind} (hp : blk.HasBlock p o k) (hq : blk.HasBlock q o' k')
    (e : p * 4096 = q * 4096) : o = o' := by
  obtain rfl : p = q := by omega
  exact (Prod.mk.inj (Option.some.inj (hp.2.symm.trans hq.2))).1

/-- The list of one order. -/
theorem ListsInv.order_congr {s' : Pmm} {blk' : Blocks} (h : ListsInv s blk) (ho : o ≤ 10)
    (head : s'.buddyFreeLists o = s.buddyFreeLists o)
    (frees : ∀ p, blk'.HasBlock p o .free ↔ blk.HasBlock p o .free)
    (links : ∀ p, blk.HasBlock p o .free → p ≠ 0 →
      blockNext s'.mem (p * 4096) = blockNext s.mem (p * 4096) ∧
        blockPrev s'.mem (p * 4096) = blockPrev s.mem (p * 4096)) :
    ∃ xs, FreeList s' o xs ∧ ∀ a, a ∈ xs ↔ ∃ p, a = p * 4096 ∧ blk'.HasBlock p o .free := by
  obtain ⟨xs, hxs, hmem⟩ := h o ho
  have node : ∀ y ∈ xs, blockNext s'.mem y = blockNext s.mem y ∧
      blockPrev s'.mem y = blockPrev s.mem y := by
    intro y hy
    obtain ⟨p, rfl, hp⟩ := (hmem y).mp hy
    exact links p hp (h.ne_zero ho hp)
  refine ⟨xs, ?_, fun a => by simp only [hmem, frees]⟩
  unfold FreeList
  rw [head]
  exact hxs.congr (fun y hy => (node y hy).1) fun y hy => (node y hy).2

/-- The lists depend on the state only through the list heads and the headers of the free
blocks, and on the block map only through its free blocks. -/
theorem ListsInv.congr {s' : Pmm} {blk' : Blocks} (h : ListsInv s blk)
    (heads : s'.buddyFreeLists = s.buddyFreeLists)
    (frees : ∀ p o, blk'.HasBlock p o .free ↔ blk.HasBlock p o .free)
    (bytes : ∀ a o, blk.HasBlock (a / 4096) o .free → s'.mem a = s.mem a) :
    ListsInv s' blk' := by
  intro o ho
  refine h.order_congr ho (by rw [heads]) (frees · o) fun p hp _ => ?_
  obtain ⟨y, hy⟩ : ∃ y, p * 4096 = y := ⟨_, rfl⟩
  have words : ∀ b, y ≤ b → b < y + 8 → s'.mem b = s.mem b := fun b hlo hhi =>
    bytes b o (by rwa [show b / 4096 = p by omega])
  rw [hy]
  exact ⟨congrArg BitVec.toNat (read32_congr fun b hlo hhi => words b hlo (by omega)),
    congrArg BitVec.toNat (read32_congr fun b hlo hhi => words b (by omega) (by omega))⟩

/-- The links after `buddy_add_to_free_list`. -/
theorem buddyAddToFreeList_links (s : Pmm) (o addr y : Nat) (ha : addr % 4096 = 0) (hlt : addr < 2 ^ 32)
    (hh : s.buddyFreeLists o % 4096 = 0) (hhlt : s.buddyFreeLists o < 2 ^ 32)
    (hy : y % 4096 = 0) (hyz : y ≠ 0) (hne : s.buddyFreeLists o ≠ addr) :
    blockNext (s.buddyAddToFreeList addr o).mem y =
        (if y = addr then s.buddyFreeLists o else blockNext s.mem y) ∧
      blockPrev (s.buddyAddToFreeList addr o).mem y =
        if y = addr then 0 else if y = s.buddyFreeLists o then addr else blockPrev s.mem y := by
  have hmid : blockNext (setBlockPrev (setBlockNext s.mem addr (s.buddyFreeLists o)) addr 0) y =
        (if y = addr then s.buddyFreeLists o else blockNext s.mem y) ∧
      blockPrev (setBlockPrev (setBlockNext s.mem addr (s.buddyFreeLists o)) addr 0) y =
        if y = addr then 0 else blockPrev s.mem y := by
    rw [blockNext_setBlockPrev hy ha, blockNext_setBlockNext hy ha hhlt,
      blockPrev_setBlockPrev hy ha (by omega), blockPrev_setBlockNext hy ha]
    exact ⟨rfl, rfl⟩
  unfold buddyAddToFreeList
  by_cases hz : s.buddyFreeLists o = 0
  · simp only [hz, ne_eq, not_true_eq_false, if_false, hyz] at hmid ⊢
    exact hmid
  · simp only [ne_eq, hz, not_false_eq_true, if_true]
    rw [blockNext_setBlockPrev hy hh, blockPrev_setBlockPrev hy hh hlt, hmid.1, hmid.2]
    refine ⟨rfl, ?_⟩
    by_cases h1 : y = addr
    · rw [if_pos h1, if_pos h1, if_neg (by omega)]
    · rw [if_neg h1, if_neg h1]

/-- `buddy_add_to_free_list` on a held block makes it free. -/
theorem buddyAddToFreeList_lists (inv : BlocksInv s blk) (hp : blk.HasBlock p o .held)
    (hpos : p ≠ 0) : ListsInv (s.buddyAddToFreeList (p * 4096) o) (blk.retag p o o .free) := by
  have h := inv.lists
  have ho : o ≤ 10 := inv.order_le p o _ hp.2
  have hlt : p < 2 ^ 20 := inv.page_lt hp.2
  have notFree : ∀ q o', blk.HasBlock q o' .free → q / 2 ^ o ≠ p / 2 ^ o ∧ q ≠ p := by
    intro q o' hq
    have hne : q / 2 ^ o ≠ p / 2 ^ o := fun e =>
      absurd (hq.2.symm.trans (inv.aligned p o _ hp.2 q e)) (by simp)
    exact ⟨hne, fun e => hne (by rw [e])⟩
  have frees : ∀ q o', (blk.retag p o o .free).HasBlock q o' .free ↔
      (q = p ∧ o' = o) ∨ blk.HasBlock q o' .free := by
    intro q o'
    rw [hasBlock_retag_iff hp.1]
    constructor
    · rintro (⟨h1, h2, -⟩ | ⟨-, h1⟩)
      · exact .inl ⟨h1, h2⟩
      · exact .inr h1
    · rintro (⟨h1, h2⟩ | h1)
      · exact .inl ⟨h1, h2, rfl⟩
      · exact .inr ⟨(notFree q o' h1).1, h1⟩
  -- the old head, when there is one, is a free block and so not `p`
  have head : s.buddyFreeLists o % 4096 = 0 ∧ s.buddyFreeLists o < 2 ^ 32 ∧
      s.buddyFreeLists o ≠ p * 4096 := by
    by_cases hz : s.buddyFreeLists o = 0
    · omega
    · obtain ⟨r, hr, hrf⟩ := h.head_free ho hz
      have := inv.page_lt hrf.2
      have := (notFree r o hrf).2
      omega
  have links := fun (y : Nat) (hy : y % 4096 = 0) (hyz : y ≠ 0) =>
    buddyAddToFreeList_links s o (p * 4096) y (by omega) (by omega)
      head.1 head.2.1 hy hyz head.2.2
  intro o' ho'
  by_cases hoo : o' = o
  · subst hoo
    obtain ⟨xs, hxs, hmem⟩ := h o' ho'
    have node : ∀ y ∈ xs, y % 4096 = 0 ∧ y ≠ 0 ∧ y ≠ p * 4096 := by
      intro y hy
      obtain ⟨r, rfl, hr⟩ := (hmem y).mp hy
      have := (notFree r o' hr).2
      have := hxs.ne_nil hy
      omega
    refine ⟨p * 4096 :: xs, ?_, ?_⟩
    · have hpl := links (p * 4096) (by omega) (by omega)
      rw [if_pos rfl, if_pos rfl] at hpl
      unfold FreeList
      rw [show (s.buddyAddToFreeList (p * 4096) o').buddyFreeLists o' = p * 4096 from
        update_self ..]
      refine hxs.push (fun hm => (node _ hm).2.2 rfl) (by omega) hpl.1 hpl.2 (fun y hy => ?_)
        fun y hy => ?_
      · rw [(links y (node y hy).1 (node y hy).2.1).1, if_neg (node y hy).2.2]
      · rw [(links y (node y hy).1 (node y hy).2.1).2, if_neg (node y hy).2.2]
    · intro a
      rw [mem_cons, hmem]
      constructor
      · rintro (rfl | ⟨r, rfl, hr⟩)
        · exact ⟨p, rfl, (frees p o').mpr (.inl ⟨rfl, rfl⟩)⟩
        · exact ⟨r, rfl, (frees r o').mpr (.inr hr)⟩
      · rintro ⟨r, rfl, hr⟩
        rcases (frees r o').mp hr with ⟨rfl, -⟩ | hr
        · exact .inl rfl
        · exact .inr ⟨r, rfl, hr⟩
  · refine h.order_congr ho' (update_of_ne hoo ..) (fun q => ?_) fun q hq hqz => ?_
    · rw [frees, or_iff_right fun e => hoo e.2]
    · -- a node of another list is not the head of this one
      have hqp := (notFree q o' hq).2
      have hqh : q * 4096 ≠ s.buddyFreeLists o := by
        intro e
        obtain ⟨r, hr, hrf⟩ := h.head_free ho (by omega)
        exact hoo (hasBlock_order_eq hq hrf (e.trans hr))
      obtain ⟨hnext, hprev⟩ := links (q * 4096) (by omega) (by omega)
      rw [hnext, hprev, if_neg (by omega), if_neg (by omega), if_neg hqh]
      exact ⟨rfl, rfl⟩

/-- The stores of `buddy_remove_from_free_list`: rewriting the predecessor does not change
the header of the block itself. -/
theorem buddyRemoveFromFreeList_eq (s : Pmm) (o addr : Nat) (ha : addr % 4096 = 0)
    (hq : blockPrev s.mem addr % 4096 = 0) :
    s.buddyRemoveFromFreeList addr o =
      let next := blockNext s.mem addr
      let prev := blockPrev s.mem addr
      let mem := if prev ≠ 0 then setBlockNext s.mem prev next else s.mem
      { s with
        mem := if next ≠ 0 then setBlockPrev mem next prev else mem
        buddyFreeLists :=
          if prev ≠ 0 then s.buddyFreeLists else update s.buddyFreeLists o next } := by
  have hself : blockNext (setBlockNext s.mem (blockPrev s.mem addr) (blockNext s.mem addr)) addr =
      blockNext s.mem addr := by
    rw [blockNext_setBlockNext ha hq (blockNext_lt _ _)]
    split <;> rfl
  have hself' : blockPrev (setBlockNext s.mem (blockPrev s.mem addr) (blockNext s.mem addr)) addr =
      blockPrev s.mem addr := blockPrev_setBlockNext ha hq
  unfold buddyRemoveFromFreeList
  by_cases hpz : blockPrev s.mem addr = 0
  · by_cases hnz : blockNext s.mem addr = 0 <;> simp [hpz, hnz]
  · simp only [ne_eq, hpz, not_false_eq_true, if_true, hself, hself']
    split <;> rfl

/-- The links after `buddy_remove_from_free_list`. -/
theorem buddyRemoveFromFreeList_links (s : Pmm) (o addr y : Nat) (ha : addr % 4096 = 0)
    (hn : blockNext s.mem addr % 4096 = 0) (hq : blockPrev s.mem addr % 4096 = 0)
    (hy : y % 4096 = 0) (hyz : y ≠ 0) :
    blockNext (s.buddyRemoveFromFreeList addr o).mem y =
        (if y = blockPrev s.mem addr then blockNext s.mem addr else blockNext s.mem y) ∧
      blockPrev (s.buddyRemoveFromFreeList addr o).mem y =
        if y = blockNext s.mem addr then blockPrev s.mem addr else blockPrev s.mem y := by
  have hnl := blockNext_lt s.mem addr
  have hpl := blockPrev_lt s.mem addr
  rw [buddyRemoveFromFreeList_eq s o addr ha hq]
  generalize blockNext s.mem addr = next at hn hnl ⊢
  generalize blockPrev s.mem addr = prev at hq hpl ⊢
  have hmid : blockNext (if prev ≠ 0 then setBlockNext s.mem prev next else s.mem) y =
        (if y = prev then next else blockNext s.mem y) ∧
      blockPrev (if prev ≠ 0 then setBlockNext s.mem prev next else s.mem) y =
        blockPrev s.mem y := by
    by_cases hpz : prev = 0
    · simp [hpz, hyz]
    · rw [if_pos hpz, blockNext_setBlockNext hy hq hnl, blockPrev_setBlockNext hy hq]
      exact ⟨rfl, rfl⟩
  by_cases hnz : next = 0
  · simp only [hnz, ne_eq, not_true_eq_false, if_false, hyz] at hmid ⊢
    exact hmid
  · simp only [ne_eq, hnz, not_false_eq_true, if_true] at hmid ⊢
    rw [blockNext_setBlockPrev hy hn, blockPrev_setBlockPrev hy hn hpl, hmid.1, hmid.2]
    exact ⟨rfl, rfl⟩

/-- `buddy_remove_from_free_list` takes a free block off its list. -/
theorem buddyRemoveFromFreeList_lists (inv : BlocksInv s blk) (hp : blk.HasBlock p o .free) :
    ListsInv (s.buddyRemoveFromFreeList (p * 4096) o) (blk.retag p o o .held) := by
  have h := inv.lists
  have ho : o ≤ 10 := inv.order_le p o _ hp.2
  have frees : ∀ q o', (blk.retag p o o .held).HasBlock q o' .free ↔
      q ≠ p ∧ blk.HasBlock q o' .free := by
    intro q o'
    rw [hasBlock_retag_iff hp.1]
    constructor
    · rintro (⟨-, -, e⟩ | ⟨hne, hq⟩)
      · exact absurd e (by simp)
      · exact ⟨fun e => hne (by rw [e]), hq⟩
    · rintro ⟨hne, hq⟩
      refine .inr ⟨fun e => hne ?_, hq⟩
      exact (inv.aligned.eq_of_mem hq hp rfl e).1
  obtain ⟨ys, hys, hymem⟩ := h o ho
  have hmemp : p * 4096 ∈ ys := (hymem _).mpr ⟨p, rfl, hp⟩
  have nodes : ∀ y ∈ ys, y % 4096 = 0 ∧ y ≠ 0 := by
    intro y hy
    obtain ⟨r, rfl, -⟩ := (hymem y).mp hy
    exact ⟨by omega, hys.ne_nil hy⟩
  have hn : blockNext s.mem (p * 4096) % 4096 = 0 := by
    have := fun hz => (nodes _ (hys.next_mem hmemp hz)).1
    omega
  have hq : blockPrev s.mem (p * 4096) % 4096 = 0 := by
    have := fun hz => (nodes _ (hys.prev_mem hmemp hz)).1
    omega
  have links := fun (y : Nat) (hy : y % 4096 = 0) (hyz : y ≠ 0) =>
    buddyRemoveFromFreeList_links s o (p * 4096) y (by omega) hn hq hy hyz
  intro o' ho'
  by_cases hoo : o' = o
  · subst hoo
    refine ⟨ys.erase (p * 4096), ?_, fun a => ?_⟩
    · refine hys.remove hmemp ?_ (fun y hy _ => (links y (nodes y hy).1 (nodes y hy).2).1)
        fun y hy _ => (links y (nodes y hy).1 (nodes y hy).2).2
      rw [buddyRemoveFromFreeList_eq s o' _ (by omega) hq]
      by_cases hpz : blockPrev s.mem (p * 4096) = 0 <;> simp [hpz]
    · rw [hys.nodup.mem_erase_iff, hymem]
      constructor
      · rintro ⟨hne, r, rfl, hr⟩
        exact ⟨r, rfl, (frees r o').mpr ⟨fun e => hne (by rw [e]), hr⟩⟩
      · rintro ⟨r, rfl, hr⟩
        obtain ⟨hne, hr⟩ := (frees r o').mp hr
        exact ⟨by omega, r, rfl, hr⟩
  · have other : ∀ q, blk.HasBlock q o' .free → q * 4096 ∉ ys := by
      intro q hqf hy
      obtain ⟨r, e, hr⟩ := (hymem _).mp hy
      exact hoo (hasBlock_order_eq hqf hr e)
    refine h.order_congr ho' ?_ (fun q => ?_) fun q hqf hqz => ?_
    · rw [buddyRemoveFromFreeList_eq s o _ (by omega) hq]
      by_cases hpz : blockPrev s.mem (p * 4096) = 0 <;> simp [hpz, update_of_ne hoo]
    · rw [frees, and_iff_right_of_imp]
      rintro hqf rfl
      exact other _ hqf hmemp
    · obtain ⟨hnext, hprev⟩ := links (q * 4096) (by omega) (by omega)
      rw [hnext, hprev, if_neg, if_neg]
      · exact ⟨rfl, rfl⟩
      · exact fun e => other q hqf (e ▸ hys.next_mem hmemp (by omega))
      · exact fun e => other q hqf (e ▸ hys.prev_mem hmemp (by omega))

/-! ## Frame conditions -/

/-- `buddy_add_to_free_list` writes only to the page it adds and to free pages. -/
theorem buddyAddToFreeList_mem (h : ListsInv s blk) (ho : o ≤ 10) (hne : a / 4096 ≠ p)
    (notFree : ∀ o', ¬ blk.HasBlock (a / 4096) o' .free) :
    (s.buddyAddToFreeList (p * 4096) o).mem a = s.mem a := by
  have hfirst : setBlockPrev (setBlockNext s.mem (p * 4096) (s.buddyFreeLists o)) (p * 4096) 0 a =
      s.mem a := by
    rw [setBlockPrev_of_page_ne (by omega) (by omega), setBlockNext_of_page_ne (by omega) (by omega)]
  unfold buddyAddToFreeList
  by_cases hz : s.buddyFreeLists o = 0
  · simpa only [hz, ne_eq, not_true_eq_false, if_false] using hfirst
  · obtain ⟨r, hr, hrf⟩ := h.head_free ho hz
    have : a / 4096 ≠ r := fun e => notFree o (e ▸ hrf)
    simp only [ne_eq, hz, not_false_eq_true, if_true]
    rw [setBlockPrev_of_page_ne (by omega) (by omega), hfirst]

/-- `buddy_remove_from_free_list` writes only to free pages. -/
theorem buddyRemoveFromFreeList_mem (h : ListsInv s blk) (ho : o ≤ 10) (hp : blk.HasBlock p o .free)
    (notFree : ∀ o', ¬ blk.HasBlock (a / 4096) o' .free) :
    (s.buddyRemoveFromFreeList (p * 4096) o).mem a = s.mem a := by
  obtain ⟨ys, hys, hymem⟩ := h o ho
  have hmemp : p * 4096 ∈ ys := (hymem _).mpr ⟨p, rfl, hp⟩
  have page : ∀ y ∈ ys, y % 4096 = 0 ∧ a / 4096 ≠ y / 4096 := by
    intro y hy
    obtain ⟨r, rfl, hr⟩ := (hymem y).mp hy
    refine ⟨by omega, fun e => notFree o ?_⟩
    rwa [e, show r * 4096 / 4096 = r by omega]
  have hnext : blockNext s.mem (p * 4096) ≠ 0 → blockNext s.mem (p * 4096) % 4096 = 0 ∧
      a / 4096 ≠ blockNext s.mem (p * 4096) / 4096 := fun hz => page _ (hys.next_mem hmemp hz)
  have hprev : blockPrev s.mem (p * 4096) ≠ 0 → blockPrev s.mem (p * 4096) % 4096 = 0 ∧
      a / 4096 ≠ blockPrev s.mem (p * 4096) / 4096 := fun hz => page _ (hys.prev_mem hmemp hz)
  have hq : blockPrev s.mem (p * 4096) % 4096 = 0 := by
    omega
  rw [buddyRemoveFromFreeList_eq s o _ (by omega) hq]
  have hmid : (if blockPrev s.mem (p * 4096) ≠ 0 then setBlockNext s.mem
      (blockPrev s.mem (p * 4096)) (blockNext s.mem (p * 4096)) else s.mem) a = s.mem a := by
    by_cases hpz : blockPrev s.mem (p * 4096) = 0
    · rw [if_neg (by simp [hpz])]
    · rw [if_pos hpz, setBlockNext_of_page_ne (hprev hpz).1 (hprev hpz).2]
  by_cases hnz : blockNext s.mem (p * 4096) = 0
  · simpa only [hnz, ne_eq, not_true_eq_false, if_false] using hmid
  · simp only [ne_eq, hnz, not_false_eq_true, if_true]
    rw [setBlockPrev_of_page_ne (hnext hnz).1 (hnext hnz).2]
    exact hmid

end Lists

/-- What is on a free list is a free block. -/
theorem OnFreeList.hasBlock (h : OnFreeList s o addr) (lists : ListsInv s blk) (ho : o ≤ 10) :
    ∃ p, addr = p * 4096 ∧ blk.HasBlock p o .free := by
  obtain ⟨xs, hxs, hmem⟩ := lists o ho
  obtain ⟨n, rfl, hne⟩ := h
  rw [← hmem]
  induction n with
  | zero => exact hxs.head_mem (hne 0 le_rfl)
  | succ n ih =>
    have hn := ih fun i hi => hne i (by omega)
    have hlast := hne (n + 1) le_rfl
    rw [iterate_succ_apply'] at hlast ⊢
    exact hxs.next_mem hn hlast

theorem onFreeList_iff (lists : ListsInv s blk) (ho : o ≤ 10) :
    OnFreeList s o addr ↔ ∃ p, addr = p * 4096 ∧ blk.HasBlock p o .free := by
  constructor
  · intro h
    exact h.hasBlock lists ho
  · intro h
    obtain ⟨xs, hxs, hmem⟩ := lists o ho
    exact hxs.linked.reach ((hmem addr).mpr h)

end Stos.Kernel
