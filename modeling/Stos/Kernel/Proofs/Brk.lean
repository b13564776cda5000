import Stos.Kernel.Proofs.DirectoryView

/-!
# The program break

The loops of `sys_brk` page by page, and what a call does to the heap, to the mapped pages and
to the free lists. Growing the heap may take pages for new tables as well. The rollback gives
back the pages of the heap but not these tables.
-/

namespace Stos.Kernel

open Machine List Finset Function TaskHeap

variable {s s1 s' : Machine} {blk blk1 blk' : Blocks} {d base k n p virt j v : Nat} {x : Slot}
  {e : PageEntry} {h : TaskHeap}

/-- The slot of the page with number `j` from `base` on. -/
def pageSlot (d base j : Nat) : Slot := slotOf d (base + j * 4096)

/-- `n` pages from `base` on lie in user space. -/
structure UserRange (base n : Nat) : Prop where
  aligned : base % 4096 = 0
  low : 0x400000 ≤ base
  high : base + n * 4096 ≤ 0x40000000

section

variable (r : UserRange base n)
include r

theorem UserRange.userAddr (hj : j < n) : UserAddr (base + j * 4096) := by
  obtain ⟨-, low, high⟩ := r
  unfold UserAddr
  omega

theorem UserRange.pdIndex (hj : j < n) : UserIndex (pagingGetPdIndex (base + j * 4096)) := (r.userAddr hj).pdIndex

theorem UserRange.aligned_page (j : Nat) : (base + j * 4096) % 4096 = 0 := by
  have := r.aligned
  omega

theorem UserRange.mono (hk : k ≤ n) : UserRange base k where
  aligned := r.aligned
  low := r.low
  high := Nat.le_trans (Nat.add_le_add_left (Nat.mul_le_mul_right 4096 hk) base) r.high

theorem UserRange.userSlot (hj : j < n) : UserSlot d (pageSlot d base j) :=
  (r.userAddr hj).userSlot

end

theorem slotOf_inj_aligned {v' : Nat} (hv : v % 4096 = 0) (hv' : v' % 4096 = 0)
    (heq : slotOf d v = slotOf d v') : v = v' :=
  slotOf_inj heq (hv.trans hv'.symm)

theorem UserRange.pageSlot_inj (r : UserRange base n) {j' : Nat}
    (heq : pageSlot d base j = pageSlot d base j') : j = j' := by
  have := slotOf_inj_aligned (r.aligned_page j) (r.aligned_page j') heq
  omega

/-! ## Unmapping pages -/

/-- The first `k` pages from `base` on are no longer mapped; the other slots and the tables are
as before. -/
structure Cleared (s : Machine) (d base k : Nat) (s' : Machine) (blk' : Blocks) : Prop where
  ok : DirectoryOk s' blk' d
  gone : ∀ j, j < k → s'.slotEntry (pageSlot d base j) = none
  rest : ∀ x, UserSlot d x → (∀ j, j < k → x ≠ pageSlot d base j) →
    s'.slotEntry x = s.slotEntry x

theorem Cleared.refl (ok : DirectoryOk s blk d) : Cleared s d base 0 s blk :=
  ⟨ok, fun _ hj => absurd hj (Nat.not_lt_zero _), fun _ _ _ => rfl⟩

/-- The next page as it was before the first. -/
theorem Cleared.slot_eq (h : Cleared s d base k s' blk') (r : UserRange base n) (hj : j < n)
    (hk : k ≤ j) : s'.slotEntry (pageSlot d base j) = s.slotEntry (pageSlot d base j) :=
  h.rest _ (r.userSlot hj) fun j' hj' heq => by
    have := r.pageSlot_inj heq
    omega

theorem Cleared.next {s'' : Machine} {blk'' : Blocks} (h : Cleared s d base k s' blk')
    (range : UserRange base n) (hk : k < n)
    (r : Released s' blk' d (base + k * 4096) e s'' blk'') :
    Cleared s d base (k + 1) s'' blk'' := by
  refine ⟨r.ok, ?_, ?_⟩
  · intro j hj
    by_cases hjk : j = k
    · rw [hjk]
      exact r.none
    · rw [r.rest _ (range.userSlot (by omega)) fun heq => hjk (range.pageSlot_inj heq)]
      exact h.gone j (by omega)
  · intro x hx hne
    rw [r.rest x hx (hne k k.lt_succ_self)]
    exact h.rest x hx fun j hj => hne j (by omega)

/-- Unmapping one page of the range and giving it back. -/
theorem released_page (ok : DirectoryOk s blk d) (range : UserRange base n) (hj : j < n)
    (he : s.slotEntry (pageSlot d base j) = some e) :
    s.pagingGetPhysicalAddress (base + j * 4096) = e.page * 4096 ∧
      ∃ blk', Released s blk d (base + j * 4096) e
        ((s.pagingUnmapPage (base + j * 4096)).freePage (e.page * 4096)) blk' := by
  refine ⟨?_, released ok (range.userAddr hj) he⟩
  rw [getPhysicalAddress_view ok (range.userAddr hj) he, range.aligned_page, add_zero]

/-- The loop that shrinks the heap. -/
theorem brkShrink_spec (ok : DirectoryOk s blk d) (range : UserRange base n)
    (mapped : ∀ j < n, ∃ e, s.slotEntry (pageSlot d base j) = some e) :
    ∃ blk', Cleared s d base n ((List.range n).foldl (brkShrinkPage base) s) blk' := by
  rw [range_eq_range']
  have := foldl_range_inv (m := 0) (n := n) (g := brkShrinkPage base) (a := s)
    (P := fun k s' => ∃ blk', Cleared s d base k s' blk') ⟨blk, .refl ok⟩ ?_
  · rwa [zero_add] at this
  · rintro k s1 - hk ⟨blk1, h⟩
    have hk : k < n := by omega
    obtain ⟨e, he⟩ := mapped k hk
    rw [← h.slot_eq range hk le_rfl] at he
    obtain ⟨hphys, blk2, r⟩ := released_page h.ok range hk he
    have hpos : e.page ≠ 0 := by
      intro hzero
      have hpage := (h.ok.frame _ e (range.userSlot hk) he).1
      rw [hzero] at hpage
      exact h.ok.steady.zero_not_live 0 hpage
    unfold brkShrinkPage
    simp only [hphys, ne_eq, mul_ne_zero hpos (show 4096 ≠ 0 by decide), not_false_eq_true,
      if_true]
    exact ⟨blk2, h.next range hk r⟩

/-! ## Mapping new pages -/

/-- `k` new pages are mapped from `base` on. The pages taken for them and for the missing
tables were free before. -/
structure Grown (s : Machine) (blk : Blocks) (d base k : Nat) (s' : Machine) (blk' : Blocks) :
    Prop where
  ok : DirectoryOk s' blk' d
  new : ∀ j, j < k → ∃ e, s'.slotEntry (pageSlot d base j) = some e ∧ e.user = true ∧
    s'.refs e.page = 1 ∧ IsFree blk e.page
  rest : ∀ x, UserSlot d x → (∀ j, j < k → x ≠ pageSlot d base j) →
    s'.slotEntry x = s.slotEntry x
  tables : ∀ i t, UserIndex i → s.tableOf d i = some t → s'.tableOf d i = some t
  made : ∀ i, UserIndex i → s.tableOf d i = none →
    (s'.tableOf d i = none ↔ ∀ j, j < k → pagingGetPdIndex (base + j * 4096) ≠ i)
  free : ∀ q, IsFree blk' q → IsFree blk q
  count : s.freePages.ncard =
    s'.freePages.ncard + k + (s.missingTables d base k).card

theorem Grown.refl (ok : DirectoryOk s blk d) : Grown s blk d base 0 s blk where
  ok := ok
  new j hj := absurd hj (Nat.not_lt_zero j)
  rest _ _ _ := rfl
  tables _ _ _ := id
  made _ _ hnone := ⟨fun _ j hj => absurd hj (Nat.not_lt_zero j), fun _ => hnone⟩
  free _ := id
  count := rfl

/-- The state of the directory, the free lists and the counts are as they were. -/
theorem Grown.congr (g : Grown s blk d base k s1 blk1) (ok : DirectoryOk s' blk' d)
    (range : UserRange base k) (tables : SameTables s1 d s') (slots : SameSlots s1 d s')
    (free : ∀ q, IsFree blk' q ↔ IsFree blk1 q)
    (refs : ∀ q, IsPage blk1 q → s'.refs q = s1.refs q) : Grown s blk d base k s' blk' := by
  have hslot : ∀ j < k, s'.slotEntry (pageSlot d base j) = s1.slotEntry (pageSlot d base j) :=
    fun j hj => slots _ (range.userSlot hj)
  refine ⟨ok, ?_, ?_, ?_, ?_, ?_, ?_⟩
  · intro j hj
    obtain ⟨e, he, huser, hrefs, hfree⟩ := g.new j hj
    have hpage := (g.ok.frame _ e (range.userSlot hj) he).1
    exact ⟨e, (hslot j hj).trans he, huser, (refs _ hpage).trans hrefs, hfree⟩
  · exact fun x hx hne => (slots x hx).trans (g.rest x hx hne)
  · exact fun i t hi ht => (tables i hi).trans (g.tables i t hi ht)
  · intro i hi hnone
    rw [tables i hi]
    exact g.made i hi hnone
  · exact fun q hq => g.free q ((free q).mp hq)
  · rw [g.count, freePages_congr g.ok.steady ok.steady free]

theorem missingTables_succ (s : Machine) (d base k : Nat) :
    s.missingTables d base (k + 1) =
      if s.tableOf d (pagingGetPdIndex (base + k * 4096)) = none then
        insert (pagingGetPdIndex (base + k * 4096)) (s.missingTables d base k)
      else s.missingTables d base k := by
  unfold missingTables
  rw [range_add_one, image_insert, filter_insert]

theorem mem_missingTables {i : Nat} : i ∈ s.missingTables d base k ↔
    (∃ j < k, pagingGetPdIndex (base + j * 4096) = i) ∧ s.tableOf d i = none := by
  unfold missingTables
  simp only [Finset.mem_filter, Finset.mem_image, Finset.mem_range]

theorem missingTables_eq_empty : s.missingTables d base k = ∅ ↔
    ∀ j < k, s.tableOf d (pagingGetPdIndex (base + j * 4096)) ≠ none := by
  rw [eq_empty_iff_forall_notMem]
  constructor
  · exact fun hn j hj hnone => hn _ (mem_missingTables.mpr ⟨⟨j, hj, rfl⟩, hnone⟩)
  · intro hall i hi
    obtain ⟨⟨j, hj, heq⟩, hnone⟩ := mem_missingTables.mp hi
    exact hall j hj (heq ▸ hnone)

/-- Whether page `k` needs a table that the pages before it have not brought. -/
theorem Grown.card_missing (g : Grown s blk d base k s1 blk1) (range : UserRange base n)
    (hk : k < n) :
    (s.missingTables d base (k + 1)).card = (s.missingTables d base k).card +
      if s1.tableOf d (pagingGetPdIndex (base + k * 4096)) = none then 1 else 0 := by
  have hi := range.pdIndex hk
  rw [missingTables_succ]
  cases hbefore : s.tableOf d (pagingGetPdIndex (base + k * 4096)) with
  | some t =>
    rw [g.tables _ t hi hbefore]
    simp
  | none =>
    rw [if_pos rfl]
    by_cases hnow : s1.tableOf d (pagingGetPdIndex (base + k * 4096)) = none
    · rw [if_pos hnow, card_insert_of_notMem]
      rw [mem_missingTables]
      rintro ⟨⟨j, hj, heq⟩, -⟩
      exact (g.made _ hi hbefore).mp hnow j hj heq
    · rw [if_neg hnow, insert_eq_of_mem, add_zero]
      rw [g.made _ hi hbefore] at hnow
      push Not at hnow
      exact mem_missingTables.mpr ⟨hnow, hbefore⟩

/-- Clearing the bytes of the new page. -/
theorem MappedAt.zeroPage (m : MappedAt s blk d virt p s' blk') (haddr : UserAddr virt) :
    MappedAt s blk d virt p (s'.zeroPage (p * 4096)) blk' := by
  obtain ⟨e, he, rfl, huser⟩ := m.entry
  obtain ⟨hpage, hdir, htable⟩ := m.ok.frame _ e haddr.userSlot he
  have hi : UserIndex (pagingGetPdIndex virt) := haddr.pdIndex
  have k := Keeps.zeroPage m.ok.steady hpage
  obtain ⟨ok, tables, slots⟩ := m.ok.keeps k hdir.symm
    (fun i t hi ht htp => htable i hi (by rw [← Set.mem_singleton_iff.mp htp]; exact ht))
    fun _ _ _ _ => id
  refine ⟨ok, ⟨e, (slots _ haddr.userSlot).trans he, rfl, huser⟩, ?_, ?_, ?_, ?_, m.free, ?_⟩
  · exact fun x hx hne => (slots x hx).trans (m.rest x hx hne)
  · exact fun i hi hne => (tables i hi).trans (m.tables i hi hne)
  · exact fun q hq => m.refs q hq
  · obtain ⟨t, ht, hold⟩ := m.table
    exact ⟨t, (tables _ hi).trans ht, hold⟩
  · rw [m.count, freePages_congr m.ok.steady ok.steady fun _ => Iff.rfl]

/-- The next page is taken from the free lists, mapped and cleared. -/
theorem Grown.next {s2 s3 : Machine} {blk2 blk3 : Blocks} (g : Grown s blk d base k s1 blk1)
    (range : UserRange base n) (hk : k < n) (gr : Grabbed s1 blk1 p s2 blk2)
    (m : MappedAt s2 blk2 d (base + k * 4096) p s3 blk3) :
    Grown s blk d base (k + 1) (s3.zeroPage (p * 4096)) blk3 := by
  have hi := range.pdIndex hk
  obtain ⟨ok2, tables2, slots2, -⟩ := gr.unused g.ok
  have m := m.zeroPage (range.userAddr hk)
  generalize s3.zeroPage (p * 4096) = s' at *
  obtain ⟨t, ht, hold⟩ := m.table
  rw [tables2 _ hi] at hold
  have hcount := m.count
  rw [tables2 _ hi] at hcount
  refine ⟨m.ok, ?_, ?_, ?_, ?_, ?_, ?_⟩
  · intro j hj
    by_cases hjk : j = k
    · subst hjk
      obtain ⟨e, he, rfl, huser⟩ := m.entry
      exact ⟨e, he, huser, (m.refs _ gr.page.not_isFree).trans gr.one, g.free _ gr.fresh⟩
    · obtain ⟨e, he, huser, hrefs, hfree⟩ := g.new j (by omega)
      have hslot : UserSlot d (pageSlot d base j) := range.userSlot (by omega)
      have hpage := (g.ok.frame _ e hslot he).1.not_isFree
      have hrest := m.rest _ hslot fun heq => hjk (range.pageSlot_inj heq)
      refine ⟨e, hrest.trans ((slots2 _ hslot).trans he), huser, ?_, hfree⟩
      rw [m.refs _ (gr.keeps.not_isFree hpage fun _ => id), gr.keeps.refs _ hpage id, hrefs]
  · intro x hx hne
    rw [m.rest x hx (hne k k.lt_succ_self), slots2 x hx]
    exact g.rest x hx fun j hj => hne j (by omega)
  · intro i t' hi' ht'
    have ht1 := g.tables i t' hi' ht'
    by_cases hii : i = pagingGetPdIndex (base + k * 4096)
    · subst hii
      rw [ht, hold t' ht1]
    · rw [m.tables i hi' hii, tables2 i hi']
      exact ht1
  · intro i hi' hnone
    by_cases hii : i = pagingGetPdIndex (base + k * 4096)
    · subst hii
      rw [ht]
      constructor
      · intro hn
        cases hn
      · exact fun hn => absurd rfl (hn k k.lt_succ_self)
    · rw [m.tables i hi' hii, tables2 i hi', g.made i hi' hnone]
      constructor
      · intro hn j hj
        rcases Nat.lt_succ_iff_lt_or_eq.mp hj with hj | rfl
        · exact hn j hj
        · exact Ne.symm hii
      · exact fun hn j hj => hn j (by omega)
  · exact fun q hq => g.free q ((gr.isFree_iff q).mp (m.free q hq)).1
  · rw [g.count, ncard_freePages_succ g.ok.steady ok2.steady gr.fresh gr.isFree_iff, hcount,
      g.card_missing range hk]
    omega

/-! ## The rollback -/

/-- The first `m` of `k` new pages have been unmapped and given back to the pages that `blk` has free. -/
structure Rolled (blk : Blocks) (s1 : Machine) (d base k m : Nat) (s' : Machine) (blk' : Blocks) :
    Prop where
  cleared : Cleared s1 d base m s' blk'
  refs : ∀ j e, m ≤ j → j < k → s1.slotEntry (pageSlot d base j) = some e → s'.refs e.page = 1
  free : ∀ q, IsFree blk' q → IsFree blk q
  count : s'.freePages.ncard = s1.freePages.ncard + m

theorem Grown.rolled (g : Grown s blk d base k s1 blk1) : Rolled blk s1 d base k 0 s1 blk1 := by
  refine ⟨.refl g.ok, fun j e _ hj he => ?_, g.free, rfl⟩
  obtain ⟨e', he', -, hrefs, -⟩ := g.new j hj
  rw [Option.some.inj (he.symm.trans he')]
  exact hrefs

theorem Rolled.next {m : Nat} (h : Rolled blk s1 d base k m s blk1) (range : UserRange base k)
    (hm : m < k) (he : s1.slotEntry (pageSlot d base m) = some e) (hfree : IsFree blk e.page)
    (r : Released s blk1 d (base + m * 4096) e s' blk') : Rolled blk s1 d base k (m + 1) s' blk' := by
  have hone := h.refs m e le_rfl hm he
  have hback := r.free (by omega)
  have heq : ∀ j, m ≤ j → j < k → s.slotEntry (pageSlot d base j) = s1.slotEntry (pageSlot d base j) :=
    fun j hmj hj => h.cleared.slot_eq range hj hmj
  refine ⟨h.cleared.next range hm r, ?_, ?_, ?_⟩
  · intro j f hmj hj hf
    have hf' : s.slotEntry (pageSlot d base j) = some f := (heq j (by omega) hj).trans hf
    have hpage := (h.cleared.ok.frame _ f (range.userSlot hj) hf').1
    -- a page of two slots would have two references
    have hne : f.page ≠ e.page := by
      intro hsame
      have := h.cleared.ok.shared _ _ f e (range.userSlot hj) (range.userSlot hm)
        (fun hslot => by have := range.pageSlot_inj hslot; omega) hf'
        ((heq m le_rfl hm).trans he) hsame
      rw [hsame] at this
      omega
    rw [r.refs _ hpage.not_isFree hne]
    exact h.refs j f (by omega) hj hf
  · intro q hq
    rcases (hback q).mp hq with hq | rfl
    · exact h.free q hq
    · exact hfree
  · have hpage := (h.cleared.ok.frame _ e (range.userSlot hm) ((heq m le_rfl hm).trans he)).1
    rw [ncard_freePages_succ r.ok.steady h.cleared.ok.steady ((hback e.page).mpr (.inr rfl)), h.count]
    · omega
    · intro q
      rw [hback q]
      constructor
      · exact fun hq => ⟨.inl hq, fun hqe => hpage.not_isFree (hqe ▸ hq)⟩
      · exact fun hq => hq.1.resolve_right hq.2

theorem brkRollback_rolled (g : Grown s blk d base k s1 blk1) (range : UserRange base k) :
    ∃ blk', Rolled blk s1 d base k k (s1.brkRollback base k) blk' := by
  unfold brkRollback
  rw [range_eq_range']
  have := foldl_range_inv (m := 0) (n := k) (g := brkRollbackPage base) (a := s1)
    (P := fun m s' => ∃ blk', Rolled blk s1 d base k m s' blk') ⟨blk1, g.rolled⟩ ?_
  · rwa [zero_add] at this
  · rintro m s2 - hm ⟨blk2, h⟩
    have hm : m < k := by omega
    obtain ⟨e, he, -, -, hfree⟩ := g.new m hm
    have he2 := (h.cleared.slot_eq range hm le_rfl).trans he
    obtain ⟨hphys, blk3, r⟩ := released_page h.cleared.ok range hm he2
    unfold brkRollbackPage
    dsimp only
    rw [hphys]
    exact ⟨blk3, h.next range hm he hfree r⟩

/-- After the rollback of `k` pages: every slot is as before the call, and of the pages that were free
one is missing for each table that had to be made. -/
structure Undone (s : Machine) (blk : Blocks) (d base k : Nat) (s' : Machine) (blk' : Blocks) :
    Prop where
  ok : DirectoryOk s' blk' d
  slots : SameSlots s d s'
  free : ∀ q, IsFree blk' q → IsFree blk q
  count : s.freePages.ncard = s'.freePages.ncard + (s.missingTables d base k).card

theorem brkRollback_spec (g : Grown s blk d base k s1 blk1) (range : UserRange base k)
    (unmapped : ∀ j < k, s.slotEntry (pageSlot d base j) = none) :
    ∃ blk', Undone s blk d base k (s1.brkRollback base k) blk' := by
  obtain ⟨blk', r⟩ := brkRollback_rolled g range
  refine ⟨blk', r.cleared.ok, ?_, r.free, ?_⟩
  · intro x hx
    by_cases hpage : ∃ j < k, x = pageSlot d base j
    · obtain ⟨j, hj, rfl⟩ := hpage
      rw [r.cleared.gone j hj, unmapped j hj]
    · push Not at hpage
      rw [r.cleared.rest x hx hpage, g.rest x hx hpage]
  · rw [g.count, r.count]

/-! ## The loop that expands the heap -/

/-- A page that was taken and could not be mapped is given back. -/
theorem Grown.drop {s2 : Machine} {blk2 : Blocks} (g : Grown s blk d base k s1 blk1)
    (range : UserRange base k) (gr : Grabbed s1 blk1 p s2 blk2) :
    ∃ blk', Grown s blk d base k (s2.freePage (p * 4096)) blk' := by
  obtain ⟨ok2, tables2, slots2, unused⟩ := gr.unused g.ok
  obtain ⟨blk3, drop, ok3, tables3, slots3⟩ := unused.free ok2 (le_of_eq gr.one)
  refine ⟨blk3, g.congr ok3 range (fun i hi => (tables3 i hi).trans (tables2 i hi))
    (fun x hx => (slots3 x hx).trans (slots2 x hx)) ?_ ?_⟩
  · intro q
    rw [drop.isFree_iff, gr.isFree_iff]
    exact (isFree_iff_or gr.fresh q).symm
  · intro q hq
    have hne : q ≠ p := by
      rintro rfl
      exact hq.not_isFree gr.fresh
    rw [drop.keeps.refs q (gr.keeps.not_isFree hq.not_isFree fun _ => id) hne]
    exact gr.keeps.refs q hq.not_isFree id

/-- Either all pages are mapped, or memory runs out at page `k'` and the pages before it are
unmapped again. -/
theorem brkExpand_spec {N : Nat} (range : UserRange base N)
    (unmapped : ∀ j < N, s.slotEntry (pageSlot d base j) = none)
    (g : Grown s blk d base k s1 blk1) (hn : k + n = N) :
    (∃ s' blk', s1.brkExpand base k n = (true, s') ∧ Grown s blk d base N s' blk') ∨
      ∃ k' s' blk', s1.brkExpand base k n = (false, s') ∧ k' < N ∧ Undone s blk d base k' s' blk' ∧
        k' + (s.missingTables d base k').card ≤ s.freePages.ncard ∧
        s.freePages.ncard < k' + 1 + (s.missingTables d base (k' + 1)).card := by
  induction n generalizing k s1 blk1 with
  | zero =>
    obtain rfl : k = N := by omega
    exact .inl ⟨s1, blk1, rfl, g⟩
  | succ n ih =>
    have hk : k < N := by omega
    have haddr := range.userAddr hk
    have range' := range.mono hk.le
    have unmapped' : ∀ j < k, s.slotEntry (pageSlot d base j) = none := fun j hj =>
      unmapped j (by omega)
    have hcount := g.count
    have hmissing := g.card_missing range hk
    unfold brkExpand
    rcases allocPage_spec g.ok.steady with halloc | ⟨p, s2, blk2, halloc, gr⟩
    · -- no page
      right
      have hzero := ncard_freePages_eq_zero g.ok.steady halloc
      obtain ⟨blk', hundone⟩ := brkRollback_spec g range' unmapped'
      refine ⟨k, _, blk', ?_, hk, hundone, ?_, ?_⟩
      · simp [halloc]
      · omega
      · omega
    · simp only [halloc, if_neg (mul_ne_zero gr.pos (show 4096 ≠ 0 by decide))]
      obtain ⟨ok2, tables2, -, unused⟩ := gr.unused g.ok
      rcases pagingMapPage_view ok2 haddr unused with ⟨hmap, htable, hzero⟩ | ⟨s3, blk3, hmap, m⟩
      · -- no table
        right
        obtain ⟨blk3, g3⟩ := g.drop range' gr
        obtain ⟨blk', hundone⟩ := brkRollback_spec g3 range' unmapped'
        have hone := ncard_freePages_succ g.ok.steady ok2.steady gr.fresh gr.isFree_iff
        rw [tables2 _ haddr.pdIndex] at htable
        rw [if_pos htable] at hmissing
        refine ⟨k, _, blk', ?_, hk, hundone, ?_, ?_⟩
        · simp only [hmap]
        · omega
        · omega
      · simp only [hmap]
        exact ih (g.next range hk gr m) (by omega)

/-! ## The heap -/

theorem mapped_iff (hcur : s.currentPageDirectory = d * 4096) (v : Nat) :
    (s.UserMapped v ↔ ∃ e, s.slotEntry (slotOf d v) = some e ∧ e.user = true) ∧
      (s.pagingIsMapped v = false ↔ s.slotEntry (slotOf d v) = none) := by
  unfold UserMapped pagingIsMapped slotOf
  rw [pagingGetPageTable_false hcur]
  cases ht : s.tableOf d (pagingGetPdIndex v) with
  | none => simp [slotEntry_of_no_table ht]
  | some t =>
    rw [slotEntry_eq ht]
    cases hp : (s.entry (t * 4096) (pagingGetPtIndex v)).present with
    | false => simp [hp]
    | true => simp [hp]

theorem userMapped_iff (hcur : s.currentPageDirectory = d * 4096) (v : Nat) :
    s.UserMapped v ↔ ∃ e, s.slotEntry (slotOf d v) = some e ∧ e.user = true := (mapped_iff hcur v).1

theorem pagingIsMapped_iff (hcur : s.currentPageDirectory = d * 4096) (v : Nat) :
    s.pagingIsMapped v = false ↔ s.slotEntry (slotOf d v) = none := (mapped_iff hcur v).2

theorem TaskHeap.HasPage.userAddr (hv : h.HasPage v) (ok : h.Ok) : UserAddr v := by
  obtain ⟨-, low, high⟩ := hv
  exact ⟨le_trans ok.start_user low, lt_of_lt_of_le high ok.max_user⟩

theorem pageAlignUp_eq {a : Nat} (ha : a ≤ 0x40000000) : pageAlignUp a = (a + 4095) / 4096 * 4096 := by
  unfold pageAlignUp
  rw [Nat.mod_eq_of_lt (by omega)]

/-- The heap holds exactly the pages below the break. -/
theorem HeapReady.heapPages_eq (r : HeapReady s h d) :
    s.heapPages h = { v | v % 4096 = 0 ∧ h.heapStart ≤ v ∧ v < h.heapEnd } := by
  obtain ⟨blk, dir⟩ := r.directory
  ext v
  constructor
  · rintro ⟨hv, hmapped⟩
    refine ⟨hv.1, hv.2.1, ?_⟩
    by_contra hge
    obtain ⟨e, he, -⟩ := (userMapped_iff dir.current v).mp hmapped
    have hnone := (pagingIsMapped_iff dir.current v).mp (r.above v hv (not_lt.mp hge))
    cases hnone.symm.trans he
  · rintro ⟨haligned, hlow, hhigh⟩
    have hv : h.HasPage v := by
      refine ⟨haligned, hlow, ?_⟩
      rcases r.ok.end_le with heq | hle
      · omega
      · omega
    exact ⟨hv, r.below v hv hhigh⟩

theorem heapPages_congr (ok : h.Ok) (dir : DirectoryOk s blk d) (dir' : DirectoryOk s' blk' d)
    (slots : SameSlots s d s') : s'.heapPages h = s.heapPages h := by
  ext v
  refine and_congr_right fun hv => ?_
  rw [userMapped_iff dir.current, userMapped_iff dir'.current, slots _ (hv.userAddr ok).userSlot]

theorem TaskHeap.Ok.setEnd {addr : Nat} (ok : h.Ok) (hstart : h.heapStart ≤ addr)
    (hmax : addr ≤ h.heapMax) : TaskHeap.Ok { h with heapEnd := addr } :=
  { ok with start_le := hstart, end_user := le_trans hmax ok.max_user, end_le := .inr hmax }

/-- The break moves to `addr` with the pages that it needs mapped and the others not. -/
theorem HeapReady.move (r : HeapReady s h d) {addr : Nat} (dir' : DirectoryOk s' blk' d)
    (hstart : h.heapStart ≤ addr) (hmax : addr ≤ h.heapMax)
    (hbelow : ∀ v, h.HasPage v → v < addr →
      s'.slotEntry (slotOf d v) = s.slotEntry (slotOf d v) ∧ v < h.heapEnd ∨
        ∃ e, s'.slotEntry (slotOf d v) = some e ∧ e.user = true)
    (habove : ∀ v, h.HasPage v → addr ≤ v →
      s'.slotEntry (slotOf d v) = s.slotEntry (slotOf d v) ∧ h.heapEnd ≤ v ∨
        s'.slotEntry (slotOf d v) = none) :
    HeapReady s' { h with heapEnd := addr } d := by
  obtain ⟨blk, dir⟩ := r.directory
  refine ⟨r.ok.setEnd hstart hmax, ⟨blk', dir'⟩, ?_, ?_⟩
  · intro v hv hlt
    rw [userMapped_iff dir'.current]
    rcases hbelow v hv hlt with ⟨heq, hend⟩ | hnew
    · rw [heq]
      exact (userMapped_iff dir.current v).mp (r.below v hv hend)
    · exact hnew
  · intro v hv hge
    rw [pagingIsMapped_iff dir'.current]
    rcases habove v hv hge with ⟨heq, hend⟩ | hnone
    · rw [heq]
      exact (pagingIsMapped_iff dir.current v).mp (r.above v hv hend)
    · exact hnone

/-! ## The system call -/

section Call

variable {addr : Nat}

theorem TaskHeap.Ok.growRange (ok : h.Ok) (hmax : addr ≤ h.heapMax) :
    UserRange (pageAlignUp h.heapEnd) (h.newPages addr) := by
  obtain ⟨hs, hm, hsu, hmu, hse, heu, -⟩ := ok
  have haddr : addr ≤ 0x40000000 := le_trans hmax hmu
  unfold newPages
  rw [pageAlignUp_eq heu, pageAlignUp_eq haddr]
  exact ⟨by omega, by omega, by omega⟩

/-- The new pages are pages of the heap above the break. -/
theorem TaskHeap.Ok.newPage (ok : h.Ok) (hmax : addr ≤ h.heapMax) (hj : j < h.newPages addr) :
    h.HasPage (pageAlignUp h.heapEnd + j * 4096) ∧
      h.heapEnd ≤ pageAlignUp h.heapEnd + j * 4096 ∧
      pageAlignUp h.heapEnd + j * 4096 < addr := by
  obtain ⟨hs, hm, hsu, hmu, hse, heu, -⟩ := ok
  have haddr : addr ≤ 0x40000000 := le_trans hmax hmu
  unfold newPages at hj
  rw [pageAlignUp_eq heu, pageAlignUp_eq haddr] at hj
  rw [pageAlignUp_eq heu]
  unfold TaskHeap.HasPage
  omega

/-- A page of the heap between the old and the new break is one of the new pages. -/
theorem TaskHeap.Ok.exists_newPage (ok : h.Ok) (hmax : addr ≤ h.heapMax) (haligned : v % 4096 = 0)
    (hlow : h.heapEnd ≤ v) (hhigh : v < addr) :
    ∃ j < h.newPages addr, v = pageAlignUp h.heapEnd + j * 4096 := by
  obtain ⟨hs, hm, hsu, hmu, hse, heu, -⟩ := ok
  have haddr : addr ≤ 0x40000000 := le_trans hmax hmu
  unfold newPages
  rw [pageAlignUp_eq heu, pageAlignUp_eq haddr]
  refine ⟨(v - (h.heapEnd + 4095) / 4096 * 4096) / 4096, ?_, ?_⟩
  · omega
  · omega

/-- A page below the old break or above the new one is none of them. -/
theorem TaskHeap.Ok.ne_newPage (ok : h.Ok) (hmax : addr ≤ h.heapMax) (haligned : v % 4096 = 0)
    (hv : v < h.heapEnd ∨ addr ≤ v) :
    ∀ j < h.newPages addr, slotOf d v ≠ pageSlot d (pageAlignUp h.heapEnd) j := by
  intro j hj heq
  obtain ⟨hpage, hge, hlt⟩ := ok.newPage hmax hj
  have := slotOf_inj_aligned haligned hpage.1 heq
  omega

theorem HeapReady.unmapped (r : HeapReady s h d) (dir : DirectoryOk s blk d)
    (hmax : addr ≤ h.heapMax) :
    ∀ j < h.newPages addr, s.slotEntry (pageSlot d (pageAlignUp h.heapEnd) j) = none := by
  intro j hj
  obtain ⟨hv, hge, -⟩ := r.ok.newPage hmax hj
  exact (pagingIsMapped_iff dir.current _).mp (r.above _ hv hge)

/-- The heap has grown to `addr`. -/
theorem HeapReady.grow (r : HeapReady s h d) (hstart : h.heapStart ≤ addr)
    (hmax : addr ≤ h.heapMax) (hend : h.heapEnd ≤ addr)
    (g : Grown s blk d (pageAlignUp h.heapEnd) (h.newPages addr) s' blk') :
    HeapReady s' { h with heapEnd := addr } d := by
  refine r.move g.ok hstart hmax ?_ ?_
  · intro v hv hlt
    by_cases hold : v < h.heapEnd
    · left
      exact ⟨g.rest _ (hv.userAddr r.ok).userSlot (r.ok.ne_newPage hmax hv.1 (.inl hold)), hold⟩
    · right
      obtain ⟨j, hj, rfl⟩ := r.ok.exists_newPage hmax hv.1 (not_lt.mp hold) hlt
      obtain ⟨e, he, huser, -⟩ := g.new j hj
      exact ⟨e, he, huser⟩
  · intro v hv hge
    left
    exact ⟨g.rest _ (hv.userAddr r.ok).userSlot (r.ok.ne_newPage hmax hv.1 (.inr hge)),
      le_trans hend hge⟩

/-- The heap shrinks to `addr`. -/
theorem HeapReady.shrink (r : HeapReady s h d) (dir : DirectoryOk s blk d)
    (hstart : h.heapStart ≤ addr) (hmax : addr ≤ h.heapMax)
    (hlt : pageAlignUp addr < pageAlignUp h.heapEnd) :
    HeapReady ((List.range ((pageAlignUp h.heapEnd - pageAlignUp addr) / 4096)).foldl
      (brkShrinkPage (pageAlignUp addr)) s) { h with heapEnd := addr } d := by
  have ok := r.ok
  rw [pageAlignUp_eq ok.end_user, pageAlignUp_eq (le_trans hmax ok.max_user)] at hlt
  have hendMax : h.heapEnd ≤ h.heapMax := by
    rcases ok.end_le with heq | hle
    · omega
    · exact hle
  -- the pages between the breaks are those that growing back would add
  have ok' := ok.setEnd hstart hmax
  obtain ⟨blk', c⟩ := brkShrink_spec dir (ok'.growRange hendMax) fun j hj => by
    obtain ⟨hv, -, hlt⟩ := ok'.newPage hendMax hj
    obtain ⟨e, he, -⟩ := (userMapped_iff dir.current _).mp (r.below _ hv hlt)
    exact ⟨e, he⟩
  refine r.move c.ok hstart hmax ?_ ?_
  · intro v hv hlt
    left
    exact ⟨c.rest _ (hv.userAddr ok).userSlot (ok'.ne_newPage hendMax hv.1 (.inl hlt)), by omega⟩
  · intro v hv hge
    by_cases hold : h.heapEnd ≤ v
    · left
      exact ⟨c.rest _ (hv.userAddr ok).userSlot (ok'.ne_newPage hendMax hv.1 (.inr hold)), hold⟩
    · right
      obtain ⟨j, hj, rfl⟩ := ok'.exists_newPage hendMax hv.1 hge (not_le.mp hold)
      exact c.gone j hj

/-- The three ways a call can end. -/
theorem sysBrk_cases (r : HeapReady s h d) (dir : DirectoryOk s blk d) (addr : Nat) :
    (∃ ret : Int, s.sysBrk h addr = (ret, s, h) ∧ (ret = addr → addr = h.heapEnd) ∧
        (h.heapMax < addr ∨ h.newPages addr = 0)) ∨
      (∃ s', s.sysBrk h addr = ((addr : Int), s', { h with heapEnd := addr }) ∧
        HeapReady s' { h with heapEnd := addr } d ∧
        h.newPages addr + (s.missingTables d (pageAlignUp h.heapEnd) (h.newPages addr)).card ≤
          s.freePages.ncard) ∨
      ∃ k s' blk', s.sysBrk h addr = ((h.heapEnd : Int), s', h) ∧ h.heapEnd ≠ addr ∧
        addr ≤ h.heapMax ∧ k < h.newPages addr ∧
        Undone s blk d (pageAlignUp h.heapEnd) k s' blk' ∧
        k + (s.missingTables d (pageAlignUp h.heapEnd) k).card ≤ s.freePages.ncard ∧
        s.freePages.ncard <
          k + 1 + (s.missingTables d (pageAlignUp h.heapEnd) (k + 1)).card := by
  have ok := r.ok
  have hend := ok.end_user
  have hse := ok.start_le
  unfold sysBrk
  by_cases h0 : addr = 0
  · left
    subst h0
    refine ⟨h.heapEnd, if_pos rfl, fun heq => by omega, .inr ?_⟩
    unfold newPages
    rw [pageAlignUp_eq hend, pageAlignUp_eq (Nat.zero_le _)]
    omega
  rw [if_neg h0]
  by_cases hstart : addr < h.heapStart
  · left
    refine ⟨0, if_pos hstart, fun heq => by omega, .inr ?_⟩
    unfold newPages
    rw [pageAlignUp_eq hend, pageAlignUp_eq (by omega)]
    omega
  rw [if_neg hstart]
  by_cases hmax : addr > h.heapMax
  · left
    exact ⟨-12, if_pos hmax, fun heq => by omega, .inl hmax⟩
  rw [if_neg hmax]
  have hstart : h.heapStart ≤ addr := not_lt.mp hstart
  have hmax : addr ≤ h.heapMax := not_lt.mp hmax
  by_cases hsame : pageAlignUp h.heapEnd = pageAlignUp addr
  · left
    refine ⟨h.heapEnd, if_pos hsame, fun heq => by omega, .inr ?_⟩
    unfold newPages
    rw [hsame, Nat.sub_self]
  rw [if_neg hsame]
  right
  have haddr : addr ≤ 0x40000000 := le_trans hmax ok.max_user
  by_cases hgrow : pageAlignUp addr > pageAlignUp h.heapEnd
  · rw [if_pos hgrow]
    have hlt : h.heapEnd < addr := by
      rw [pageAlignUp_eq hend, pageAlignUp_eq haddr] at hgrow
      omega
    rcases brkExpand_spec (ok.growRange hmax) (r.unmapped dir hmax) (.refl dir)
      (zero_add (h.newPages addr)) with ⟨s', blk', hrun, g⟩ | ⟨k, s', blk', hrun, hk, hu, h1, h2⟩
    · left
      unfold newPages at hrun
      rw [hrun]
      have hcount := g.count
      exact ⟨s', rfl, r.grow hstart hmax hlt.le g, by omega⟩
    · right
      unfold newPages at hrun
      rw [hrun]
      exact ⟨k, s', blk', rfl, by omega, hmax, hk, hu, h1, h2⟩
  · rw [if_neg hgrow]
    left
    refine ⟨_, rfl, r.shrink dir hstart hmax (by omega), ?_⟩
    have hzero : h.newPages addr = 0 := by
      unfold newPages
      rw [Nat.sub_eq_zero_of_le (not_lt.mp hgrow)]
    rw [hzero]
    simp [missingTables]

/-- The call keeps the heap as the next call expects it. -/
theorem sysBrk_heapReady (r : HeapReady s h d) (addr : Nat) :
    HeapReady (s.sysBrk h addr).2.1 (s.sysBrk h addr).2.2 d := by
  obtain ⟨blk, dir⟩ := r.directory
  rcases sysBrk_cases r dir addr with ⟨ret, hrun, -⟩ | ⟨s', hrun, r', -⟩ |
    ⟨k, s', blk', hrun, -, -, -, hu, -⟩
  · rw [hrun]
    exact r
  · rw [hrun]
    exact r'
  · rw [hrun]
    refine ⟨r.ok, ⟨blk', hu.ok⟩, ?_, ?_⟩
    · intro v hv hlt
      rw [userMapped_iff hu.ok.current, hu.slots _ (hv.userAddr r.ok).userSlot,
        ← userMapped_iff dir.current]
      exact r.below v hv hlt
    · intro v hv hge
      rw [pagingIsMapped_iff hu.ok.current, hu.slots _ (hv.userAddr r.ok).userSlot,
        ← pagingIsMapped_iff dir.current]
      exact r.above v hv hge

/-- After a rollback the free lists are as before exactly when none of the pages has brought a
table. -/
theorem Undone.freePages_iff (hu : Undone s blk d base k s' blk') (dir : DirectoryOk s blk d) :
    s'.freePages = s.freePages ↔
      ∀ j < k, s.tableOf d (pagingGetPdIndex (base + j * 4096)) ≠ none := by
  have hsub : s'.freePages ⊆ s.freePages := fun q hq =>
    (mem_freePages dir.steady).mpr (hu.free q ((mem_freePages hu.ok.steady).mp hq))
  have hcount := hu.count
  rw [← missingTables_eq_empty, ← card_eq_zero]
  constructor
  · intro hsame
    rw [hsame] at hcount
    omega
  · intro hzero
    exact Set.eq_of_subset_of_ncard_le hsub (by omega) (freePages_finite dir.steady)

theorem card_missingTables_mono (s : Machine) (d base : Nat) (hk : k ≤ n) :
    (s.missingTables d base k).card ≤ (s.missingTables d base n).card := by
  refine card_le_card fun i hi => ?_
  obtain ⟨⟨j, hj, heq⟩, hnone⟩ := mem_missingTables.mp hi
  exact mem_missingTables.mpr ⟨⟨j, by omega, heq⟩, hnone⟩

/-- A call that runs out of memory at page `k` has made no table exactly when memory runs out
before the first page without a table is mapped. -/
theorem noTable_iff {F : Nat} (hk : k < n) (hlow : k + (s.missingTables d base k).card ≤ F)
    (hhigh : F < k + 1 + (s.missingTables d base (k + 1)).card) :
    (∀ j < k, s.tableOf d (pagingGetPdIndex (base + j * 4096)) ≠ none) ↔
      ∀ j < n, s.tableOf d (pagingGetPdIndex (base + j * 4096)) = none → F < j + 2 := by
  constructor
  · intro hall j hj hnone
    have hjk : k ≤ j := not_lt.mp fun hlt => hall j hlt hnone
    have hempty := missingTables_eq_empty.mpr hall
    have hcard : (s.missingTables d base (k + 1)).card ≤ 1 := by
      rw [missingTables_succ, hempty]
      split
      · simp
      · simp
    omega
  · intro hall j hj hnone
    have hmem : pagingGetPdIndex (base + j * 4096) ∈ s.missingTables d base k :=
      mem_missingTables.mpr ⟨⟨j, hj, rfl⟩, hnone⟩
    have hpos := card_pos.mpr ⟨_, hmem⟩
    have := hall j (by omega) hnone
    omega

/-- `sys_brk` keeps its promise exactly when it is not a growing call that runs out of memory
after it has made a page table. -/
theorem sysBrk_contract_iff (r : HeapReady s h d) (addr : Nat) :
    BrkContract s h addr ↔ BrkNoTableLost s h d addr := by
  obtain ⟨blk, dir⟩ := r.directory
  unfold BrkContract
  rcases sysBrk_cases r dir addr with ⟨ret, hrun, hret, hsafe⟩ | ⟨s', hrun, r', hcount⟩ |
    ⟨k, s', blk', hrun, hne, hmax, hk, hu, hlow, hhigh⟩
  · rw [hrun]
    refine iff_of_true ?_ ?_
    · dsimp only
      split
      · next heq => exact ⟨(hret heq).symm, r.heapPages_eq⟩
      · exact ⟨rfl, rfl, rfl⟩
    · rcases hsafe with hmax | hzero
      · exact .inl hmax
      · refine .inr (.inr fun j hj => ?_)
        omega
  · rw [hrun]
    exact iff_of_true ((if_pos rfl).mpr ⟨rfl, r'.heapPages_eq⟩) (.inr (.inl hcount))
  · rw [hrun]
    dsimp only
    have hret : ¬ (h.heapEnd : Int) = addr := by omega
    have hmono := card_missingTables_mono s d (pageAlignUp h.heapEnd) (show k + 1 ≤ _ from hk)
    have hpages := heapPages_congr r.ok dir hu.ok hu.slots
    rw [if_neg hret, hu.freePages_iff dir, noTable_iff hk hlow hhigh]
    constructor
    · exact fun hall => .inr (.inr hall.2.2)
    · rintro (hover | hcount | hall)
      · omega
      · omega
      · exact ⟨rfl, hpages, hall⟩

end Call

/-! ## Address spaces of a run -/

/-- The directory of a task in a run of the address-space operations. -/
theorem SpacesInv.directoryOk {dirs : Finset Nat} {u : UserSpaces} (inv : SpacesInv s dirs blk u)
    (hd : d ∈ dirs) (hcur : s.currentPageDirectory = d * 4096) : DirectoryOk s blk d := by
  have hdu : d ∈ u.dirs := inv.live ▸ hd
  have htable : ∀ i, UserIndex i → u.table d i = s.tableOf d i := fun i hi =>
    inv.rooted d hdu i hi.1 hi.2
  have hmem : ∀ x, UserSlot d x → x ∈ u.slots := by
    rintro x ⟨rfl, hi, hj⟩
    rw [inv.slots]
    exact mem_allSlots.mpr ⟨hdu, hi, hj⟩
  have hslot : ∀ x, UserSlot d x → s.slotEntry x = s.userEntry u.table x := by
    rintro x ⟨rfl, hi, hj⟩
    exact inv.userEntry_tableOf (mem_allSlots.mpr ⟨hd, hi, hj⟩)
  refine ⟨inv.inv.steady, hcur, (inv.inv.dir d hdu).1, ?_, ?_, ?_, ?_⟩
  · intro i t hi ht
    rw [← htable i hi] at ht
    obtain ⟨hp, -, hn⟩ := inv.inv.table d i t ht
    exact ⟨hp, fun heq => hn (heq ▸ hdu)⟩
  · intro i i' t hi hi' ht ht'
    rw [← htable i hi] at ht
    rw [← htable i' hi'] at ht'
    exact (inv.inv.table_inj d i d i' t ht ht').2
  · intro x e hx he
    rw [hslot x hx] at he
    obtain ⟨hp, hn, ht⟩ := inv.inv.frame x (hmem x hx) e he
    refine ⟨hp, fun heq => hn (heq ▸ hdu), fun i hi => ?_⟩
    rw [← htable i hi]
    exact ht d i
  · intro x y e f hx hy hxy he hf hpage
    rw [hslot x hx] at he
    rw [hslot y hy] at hf
    have htwo : 2 ≤ refsTo u.slots (targets PageEntry.page (s.userEntry u.table)) e.page :=
      two_le_refsTo (hmem x hx) (hmem y hy) hxy (targets_eq_some he) (hpage ▸ targets_eq_some hf)
    rw [inv.inv.shared.counted x (hmem x hx) e he]
    omega

/-- An empty heap at the start of user space. -/
def emptyHeap : TaskHeap := ⟨0x400000, 0x400000, 0x500000⟩

/-- A task with an empty heap and nothing mapped. -/
theorem Booted.heapReady (boot : Booted s blk d) : HeapReady s emptyHeap d := by
  have dir := boot.bootSpaces.directoryOk (Finset.mem_singleton_self d) boot.current
  refine ⟨by constructor <;> decide, ⟨blk, dir⟩, ?_, ?_⟩
  · rintro v ⟨-, hlow, -⟩ hlt
    exact absurd hlt (not_lt.mpr hlow)
  · intro v hv _
    have hi : UserIndex (pagingGetPdIndex v) :=
      (hv.userAddr (by constructor <;> decide)).pdIndex
    rw [pagingIsMapped_iff boot.current]
    exact slotEntry_of_no_table (tableOf_eq_none (boot.empty _ hi.1 hi.2))

theorem oneDirectory_heapReady : HeapReady (oneDirectory 2) emptyHeap 4 := by
  obtain ⟨blk, boot, -⟩ := oneDirectory_booted (k := 2) (by decide) (by decide +kernel)
  have hcur : (oneDirectory 2).current = 4 := by decide +kernel
  exact boot.heapReady

/-- A machine with three free pages and a request for one page. -/
theorem sysBrk_contract_iff_oneDirectory : HeapReady (oneDirectory 2) emptyHeap 4 ∧
    (BrkContract (oneDirectory 2) emptyHeap 0x401000 ↔
      BrkNoTableLost (oneDirectory 2) emptyHeap 4 0x401000) :=
  ⟨oneDirectory_heapReady, sysBrk_contract_iff oneDirectory_heapReady 0x401000⟩

/-- A request for three pages on the machine with three free pages: the first page brings the
table in page 6, the third finds no memory, and the rollback keeps page 6. -/
theorem sysBrk_keeps_table : ((oneDirectory 2).sysBrk emptyHeap 0x403000).1 = 0x400000 ∧
    PageFree (oneDirectory 2) 6 ∧ ¬ BrkContract (oneDirectory 2) emptyHeap 0x403000 := by
  have hret : ((oneDirectory 2).sysBrk emptyHeap 0x403000).1 = 0x400000 := by decide +kernel
  have htable : ((oneDirectory 2).sysBrk emptyHeap 0x403000).2.1.tableOf 4 1 = some 6 := by
    decide +kernel
  have hhead : (oneDirectory 2).pmm.buddyFreeLists 1 = 0x6000 := by decide +kernel
  have hfree : PageFree (oneDirectory 2) 6 := by
    refine ⟨1, 0x6000, by decide, ⟨0, hhead, fun i hi => ?_⟩, ⟨by decide, by decide⟩⟩
    rw [Nat.le_zero.mp hi, iterate_zero_apply, hhead]
    decide
  refine ⟨hret, hfree, fun hc => ?_⟩
  have hready := sysBrk_heapReady oneDirectory_heapReady 0x403000
  unfold BrkContract at hc
  generalize (oneDirectory 2).sysBrk emptyHeap 0x403000 = result at *
  obtain ⟨ret, s', h'⟩ := result
  obtain rfl : ret = 0x400000 := hret
  obtain ⟨-, -, hsame⟩ := (if_neg (show ¬ (0x400000 : Int) = (0x403000 : Nat) by decide)).mp hc
  obtain ⟨blk, dir⟩ := hready.directory
  have hlost : 6 ∈ s'.freePages := by
    rw [hsame]
    exact hfree
  have hi : UserIndex 1 := ⟨by decide, by decide⟩
  exact (dir.table 1 6 hi htable).1.not_isFree ((mem_freePages dir.steady).mp hlost)

end Stos.Kernel
