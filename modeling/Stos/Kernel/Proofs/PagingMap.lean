import Stos.Kernel.Proofs.PagingTeardown

/-!
# Mapping user pages

`paging_get_page_table` and `paging_map_page` on addresses of user space: a missing table is
created in the current directory, an empty slot gets a new page, and a slot that owns its
page alone gets other permissions.
-/

namespace Stos.Kernel

open Machine Option Keeps UserInv

variable {s s' : Machine} {blk blk' : Blocks} {u u' : UserSpaces} {d i t p virt : Nat}
  {x : Slot} {e : PageEntry} {flags : BitVec 32}

/-! ## The table of an address -/

theorem pagingGetPageTable_some (hcur : s.currentPageDirectory = d * 4096)
    (ht : s.tableOf d (pagingGetPdIndex virt) = some t) (create : Bool) :
    s.pagingGetPageTable virt create = (some (t * 4096), s) := by
  unfold tableOf at ht
  dsimp only at ht
  split at ht
  · next hpresent =>
    unfold pagingGetPageTable
    rw [hcur]
    simp [hpresent, PageEntry.addr_eq, some.inj ht]
  · cases ht

theorem pagingGetPageTable_none (hcur : s.currentPageDirectory = d * 4096)
    (ht : s.tableOf d (pagingGetPdIndex virt) = none) :
    (s.entry s.currentPageDirectory (pagingGetPdIndex virt)).present = false := by
  unfold tableOf at ht
  dsimp only at ht
  rw [hcur]
  split at ht
  · cases ht
  · next hpresent => exact Bool.not_eq_true _ ▸ hpresent

theorem pagingGetPageTable_false (hcur : s.currentPageDirectory = d * 4096) (v : Nat) :
    s.pagingGetPageTable v false = ((s.tableOf d (pagingGetPdIndex v)).map (· * 4096), s) := by
  cases ht : s.tableOf d (pagingGetPdIndex v) with
  | some t => exact pagingGetPageTable_some hcur ht false
  | none =>
    unfold pagingGetPageTable
    simp [pagingGetPageTable_none hcur ht]

/-- A missing table is created, if there is a page for it. -/
theorem pagingGetPageTable_create (st : Steady s.pmm blk) (hcur : s.currentPageDirectory = d * 4096)
    (ht : s.tableOf d (pagingGetPdIndex virt) = none) :
    (s.allocPage = (0, s) ∧ s.pagingGetPageTable virt true = (none, s)) ∨
      ∃ t s1 blk1 pde, Grabbed s blk t s1 blk1 ∧ pde.present = true ∧ pde.page = t ∧
        s.pagingGetPageTable virt true = (some (t * 4096),
          (s1.zeroPage (t * 4096)).setEntry (d * 4096) (pagingGetPdIndex virt) pde) := by
  unfold pagingGetPageTable
  simp only [pagingGetPageTable_none hcur ht, Bool.not_false, if_true, Bool.not_true, Bool.false_eq_true,
    if_false]
  rcases allocPage_spec st with h | ⟨t, s1, blk1, h, g⟩
  · simp [h]
  right
  have hcur1 : (s1.zeroPage (t * 4096)).currentPageDirectory = d * 4096 :=
    g.keeps.current.trans hcur
  rw [h]
  simp only [if_neg (mul_ne_zero g.pos (show 4096 ≠ 0 by decide)), hcur1]
  refine ⟨t, s1, blk1, _, g, ?_, ?_, rfl⟩
  · rfl
  · exact frameOf_toNat g.lt

/-- Directory `d` has the table `t` at index `i`; nothing else has changed. -/
structure TableReady (s : Machine) (blk : Blocks) (u : UserSpaces) (d i t : Nat) (s' : Machine)
    (blk' : Blocks) (u' : UserSpaces) : Prop where
  inv : UserInv s' blk' u'
  dirs : u'.dirs = u.dirs
  slots : u'.slots = u.slots
  table : u'.table d i = some t
  rooted : Rooted s' u'
  same : ∀ x ∈ u.slots, s'.userEntry u'.table x = s.userEntry u.table x
  keeps : Keeps s blk s' blk' {d} ∅
  loose : ∀ p, Loose s blk u p → Loose s' blk' u' p
  entries : ∀ i', i' < 1024 → i' ≠ i → s'.entry (d * 4096) i' = s.entry (d * 4096) i'
  old : ∀ t', u.table d i = some t' → t' = t
  fresh : u.table d i = none → IsFree blk t
  tables : ∀ i' t', u'.table d i' = some t' → u.table d i' = some t' ∨ IsFree blk t'

theorem pagingGetPageTable_spec (inv : UserInv s blk u) (cur : Current s u d) (haddr : UserAddr virt) :
    s.pagingGetPageTable virt true = (none, s) ∨
      ∃ t s' blk' u', s.pagingGetPageTable virt true = (some (t * 4096), s') ∧
        TableReady s blk u d (pagingGetPdIndex virt) t s' blk' u' := by
  have hroot := cur.table_eq haddr
  obtain ⟨rooted, hcur, hd⟩ := cur
  have hi := haddr.pdIndex
  cases htable : u.table d (pagingGetPdIndex virt) with
  | some t =>
    right
    exact ⟨t, s, blk, u, pagingGetPageTable_some hcur (hroot.symm.trans htable) true, inv, rfl, rfl, htable,
      rooted, fun _ _ => rfl, .refl inv.steady, fun _ => id, fun _ _ _ => rfl,
      fun t' ht' => some.inj (ht'.symm.trans htable), fun hn => absurd htable (by simp [hn]),
      fun _ _ => .inl⟩
  | none =>
  rcases pagingGetPageTable_create inv.steady hcur (hroot.symm.trans htable) with
    ⟨-, h⟩ | ⟨t, s1, blk1, pde, g, hpresent, hpage, h⟩
  · exact .inl h
  right
  rw [h]
  obtain ⟨inv2, k2, -, hsame2⟩ := inv.newTable g hd hi htable
  generalize s1.zeroPage (t * 4096) = s2 at *
  generalize pagingGetPdIndex virt = i at *
  have hi' : i < 1024 := by omega
  have k3 := setEntry inv2.steady (inv2.dir d hd).1 hi' pde
  have hnotdir := inv2.noTable_dir hd
  have hkeeps : Keeps s blk (s2.setEntry (d * 4096) i pde) blk1 {d} ∅ := k2.widen.andThen k3
  have hsame : ∀ x ∈ u.slots,
      (s2.setEntry (d * 4096) i pde).userEntry (setTable u.table d i (some t)) x =
        s.userEntry u.table x := fun x hx =>
    (inv2.userEntry_keeps k3 hnotdir hx).trans (hsame2 x hx)
  refine ⟨t, _, blk1, { u with table := setTable u.table d i (some t) }, rfl,
    inv2.keeps_written k3 hnotdir, rfl, rfl, setTable_self _ _ _ _, ?_, hsame, hkeeps, ?_, ?_, ?_,
    fun _ => g.fresh, ?_⟩
  · intro d' hd' i' hi1' hi''
    by_cases hnew : d' = d ∧ i' = i
    · obtain ⟨rfl, rfl⟩ := hnew
      rw [tableOf_eq_some (by rw [entry_setEntry_self]; exact hpresent), entry_setEntry_self, hpage]
      exact setTable_self _ _ _ _
    · refine (setTable_of_ne hnew).trans ((rooted d' hd' i' hi1' hi'').trans ?_)
      apply (tableOf_congr _).symm
      rw [entry_setEntry_of_ne hi' (by omega) (by omega)]
      exact k2.entry (inv.dir d' hd').1.not_isFree id (by omega)
  · intro p hp
    refine ⟨hkeeps.isPage hp.page fun _ => id, (hkeeps.refs p hp.page.not_isFree id).trans hp.one,
      hp.dir, ?_, ?_⟩
    · intro d' i' ht'
      by_cases hnew : d' = d ∧ i' = i
      · obtain ⟨rfl, rfl⟩ := hnew
        have hpt : t = p := some.inj ((setTable_self _ _ _ _).symm.trans ht')
        exact hp.page.not_isFree (hpt ▸ g.fresh)
      · exact hp.table d' i' ((setTable_of_ne hnew).symm.trans ht')
    · intro x hx e he
      exact hp.frame x hx e ((hsame x hx).symm.trans he)
  · intro i' hi'' hne
    rw [entry_setEntry_of_ne hi' hi'' (.inr hne)]
    exact k2.entry (inv.dir d hd).1.not_isFree id hi''
  · intro t' ht'
    rw [htable] at ht'
    cases ht'
  · intro i' t' ht'
    by_cases hnew : i' = i
    · subst hnew
      obtain rfl := some.inj ((setTable_self _ _ _ _).symm.trans ht')
      exact .inr g.fresh
    · exact .inl ((setTable_of_ne fun h => hnew h.2).symm.trans ht')

/-! ## New mappings -/

/-- The entry that `paging_map_page` writes over `pte`. -/
def mapEntry (pte : PageEntry) (phys : Nat) (flags : BitVec 32) : PageEntry :=
  { pte with
    present := hasFlag flags 0x1, rw := hasFlag flags 0x2, user := hasFlag flags 0x4,
    pwt := hasFlag flags 0x8, pcd := hasFlag flags 0x10, pat := hasFlag flags 0x80,
    global := hasFlag flags 0x100, frame := frameOf phys }

/-- Slot `x` of the current directory maps page `p` with the permissions `flags`; no other
slot has changed. -/
structure Mapped (s : Machine) (blk : Blocks) (u : UserSpaces) (x : Slot) (p : Nat)
    (flags : BitVec 32) (s' : Machine) (blk' : Blocks) (u' : UserSpaces) : Prop where
  inv : UserInv s' blk' u'
  dirs : u'.dirs = u.dirs
  slots : u'.slots = u.slots
  rooted : Rooted s' u'
  entry : ∃ e, s'.userEntry u'.table x = some e ∧ e.page = p ∧ e.rw = hasFlag flags 0x2 ∧
    e.user = hasFlag flags 0x4 ∧ e.cow = false
  rest : ∀ y ∈ u.slots, y ≠ x → s'.userEntry u'.table y = s.userEntry u.table y
  keeps : Keeps s blk s' blk' ({x.1} ∪ tablesOf u x.1) ∅
  tables : ∀ i t, u'.table x.1 i = some t → u.table x.1 i = some t ∨ IsFree blk t
  kernel : ∀ i, i < 1024 → i = 0 ∨ 256 ≤ i → s'.entry (x.1 * 4096) i = s.entry (x.1 * 4096) i

theorem UserAddr.alignDown (h : UserAddr virt) : UserAddr (pagingAlignDown virt) := by
  unfold UserAddr pagingAlignDown at *
  omega

/-- What `paging_map_page` does on top of the table. -/
theorem pagingMapPage_eq (p : Nat) (flags : BitVec 32) {a : Nat}
    (h : s.pagingGetPageTable (pagingAlignDown virt) true = (some a, s')) :
    s.pagingMapPage virt (p * 4096) flags = (true, s'.setEntry a (pagingGetPtIndex virt)
      (mapEntry (s'.entry a (pagingGetPtIndex virt)) (p * 4096) flags)) := by
  have halign : pagingAlignDown (p * 4096) = p * 4096 := by
    unfold pagingAlignDown
    omega
  unfold pagingMapPage
  dsimp only
  rw [h, halign, pagingGetPtIndex_alignDown]
  rfl

/-- Mapping a loose page at an address without a page. -/
theorem pagingMapPage_fresh (h : InSpace s blk u d) (haddr : UserAddr virt)
    (hnone : s.userEntry u.table (slotOf d virt) = none) (hloose : Loose s blk u p)
    (hflags : hasFlag flags 0x1 = true) :
    s.pagingMapPage virt (p * 4096) flags = (false, s) ∨
      ∃ s' blk' u', s.pagingMapPage virt (p * 4096) flags = (true, s') ∧
        Mapped s blk u (slotOf d virt) p flags s' blk' u' := by
  have hlt : p < 2 ^ 20 := h.inv.steady.page_lt hloose.page
  have hx := h.slotOf_mem haddr
  rcases pagingGetPageTable_spec h.inv h.toCurrent haddr.alignDown with hget | ⟨t, s1, blk1, u1, hget, r⟩
  · left
    unfold pagingMapPage
    dsimp only
    rw [hget]
  right
  have hrun := pagingMapPage_eq p flags hget
  rw [pagingGetPdIndex_alignDown] at r
  have hx1 : slotOf d virt ∈ u1.slots := r.slots ▸ hx
  have hj := pagingGetPtIndex_lt virt
  have hnone1 : s1.userEntry u1.table (slotOf d virt) = none := (r.same _ hx).trans hnone
  have habsent := (userEntry_eq_none r.table).mp hnone1
  have hclean := r.inv.clean d _ t r.table _ hj habsent
  generalize s1.entry (t * 4096) (pagingGetPtIndex virt) = pte at *
  have hpage : (mapEntry pte (p * 4096) flags).page = p := frameOf_toNat hlt
  have hd1 : d ∈ u1.dirs := r.dirs ▸ h.mem
  obtain ⟨htpage, -, htdir⟩ := r.inv.table _ _ _ r.table
  have k2 := setEntry r.inv.steady htpage hj (mapEntry pte (p * 4096) flags)
  have hnotdir := noDir_singleton htdir
  refine ⟨_, blk1, u1, hrun, r.inv.fillSlot (r.loose p hloose) r.table hx1 hnone1 hflags hpage,
    r.dirs, r.slots, r.rooted.keeps r.inv k2 hnotdir, ⟨_, userEntry_setEntry_self r.table hflags,
    hpage, rfl, rfl, hclean⟩, ?_, ?_, r.tables, ?_⟩
  · intro y hy hne
    rw [r.inv.userEntry_setEntry r.table hj _ (r.slots ▸ hy) hne]
    exact r.same y hy
  · refine (r.keeps.mono (fun _ _ h => .inl h) fun _ _ => id).trans k2 ?_ fun _ _ => id
    rintro q hq rfl
    cases ht : u.table d (pagingGetPdIndex virt) with
    | none => exact absurd (r.fresh ht) hq
    | some t' =>
      obtain rfl := r.old t' ht
      exact .inr ⟨_, ht⟩
  · intro i hi hkernel
    have hi' := haddr.pdIndex
    exact (k2.entry (r.inv.dir d hd1).1.not_isFree (hnotdir d hd1) hi).trans
      (r.entries i hi (by omega))

/-- Mapping the page of a slot again, with other permissions. -/
theorem pagingMapPage_again (h : InSpace s blk u d) (haddr : UserAddr virt)
    (he : s.userEntry u.table (slotOf d virt) = some e) (hcow : e.cow = false)
    (hflags : hasFlag flags 0x1 = true) :
    ∃ s', s.pagingMapPage virt (e.page * 4096) flags = (true, s') ∧
      Mapped s blk u (slotOf d virt) e.page flags s' blk u := by
  have hx := h.slotOf_mem haddr
  have hroot := h.table_eq haddr
  obtain ⟨⟨rooted, hcur, hd⟩, inv, hslots⟩ := h
  have hlt : e.page < 2 ^ 20 := inv.steady.page_lt (inv.frame _ hx e he).1
  obtain ⟨t, ht⟩ := exists_table he
  have ht : u.table d (pagingGetPdIndex virt) = some t := ht
  have hget : s.pagingGetPageTable (pagingAlignDown virt) true = (some (t * 4096), s) := by
    refine pagingGetPageTable_some hcur ?_ true
    rw [pagingGetPdIndex_alignDown, ← hroot, ht]
  have hrun := pagingMapPage_eq e.page flags hget
  obtain ⟨hentry, hpresent⟩ := (userEntry_eq_some ht).mp he
  rw [hentry] at hrun
  have hj := pagingGetPtIndex_lt virt
  have hpage : (mapEntry e (e.page * 4096) flags).page = e.page := frameOf_toNat hlt
  have hself : (s.setEntry (t * 4096) (pagingGetPtIndex virt)
      (mapEntry e (e.page * 4096) flags)).userEntry u.table (slotOf d virt) =
        some (mapEntry e (e.page * 4096) flags) := userEntry_setEntry_self ht hflags
  have hrest : ∀ y ∈ u.slots, y ≠ slotOf d virt → (s.setEntry (t * 4096) (pagingGetPtIndex virt)
      (mapEntry e (e.page * 4096) flags)).userEntry u.table y = s.userEntry u.table y :=
    fun y hy hne => inv.userEntry_setEntry ht hj _ hy hne
  have k := setEntry inv.steady (inv.table _ _ _ ht).1 hj (mapEntry e (e.page * 4096) flags)
  have hnotdir := noDir_singleton (inv.table _ _ _ ht).2.2
  -- a page that is not marked copy-on-write has no other slot
  have halone : ∀ y ∈ u.slots, y ≠ slotOf d virt → ∀ f, s.userEntry u.table y = some f →
      f.page ≠ e.page := by
    intro y hy hne f hf hpage
    have := (inv.shared.locked _ hx y hy e f hne.symm he hf hpage.symm).1
    rw [hcow] at this
    cases this
  refine ⟨_, hrun, ?_, rfl, rfl, rooted.keeps inv k hnotdir, ⟨_, hself, hpage, rfl, rfl, hcow⟩, hrest,
    k.mono ?_ fun _ _ => id, fun _ _ => .inl, ?_⟩
  · apply inv.rebuild k (fun _ _ => id) (fun _ _ _ _ => id) (Finset.Subset.refl _)
      (inv.clean.setEntry hj hflags)
    · intro y hy f hf
      rcases eq_some_of_overwrite hself hrest hy hf with ⟨-, rfl⟩ | ⟨-, hf⟩
      · rw [hpage]
        exact inv.frame _ hx e he
      · exact inv.frame y hy f hf
    · exact inv.shared.amend hx he hself hpage hrest halone
  · rintro q - rfl
    exact .inr ⟨_, ht⟩
  · intro i hi _
    exact k.entry (inv.dir d hd).1.not_isFree (hnotdir d hd) hi

/-! ## A new page -/

theorem pagingIsMapped_eq_false (cur : Current s u d) (haddr : UserAddr virt)
    (h : s.pagingIsMapped virt = false) : s.userEntry u.table (slotOf d virt) = none := by
  unfold pagingIsMapped at h
  rw [pagingGetPageTable_false cur.current, ← cur.table_eq haddr] at h
  cases ht : u.table d (pagingGetPdIndex virt) with
  | some t =>
    rw [ht] at h
    exact (userEntry_eq_none ht).mpr h
  | none =>
    unfold userEntry slotOf
    rw [ht]
    rfl

/-- Directory `d` has got new pages; nothing that was mapped has changed. -/
structure Extended (s : Machine) (blk : Blocks) (u : UserSpaces) (d : Nat) (s' : Machine)
    (blk' : Blocks) (u' : UserSpaces) : Prop where
  inv : UserInv s' blk' u'
  dirs : u'.dirs = u.dirs
  slots : u'.slots = u.slots
  rooted : Rooted s' u'
  old : ∀ x ∈ u.slots, ∀ e, s.userEntry u.table x = some e → s'.userEntry u'.table x = some e
  keeps : Keeps s blk s' blk' ({d} ∪ tablesOf u d) ∅
  tables : ∀ i t, u'.table d i = some t → u.table d i = some t ∨ IsFree blk t
  kernel : ∀ i, i < 1024 → i = 0 ∨ 256 ≤ i → s'.entry (d * 4096) i = s.entry (d * 4096) i
  taken : ∀ y ∈ u'.slots, TakenFrom blk (frameOfSlot s u y) s' u'.table y

/-- A change to free pages only. -/
theorem Extended.of_keeps (inv : UserInv s blk u) (rooted : Rooted s u) (hd : d ∈ u.dirs)
    (inv' : UserInv s' blk' u) (k : Keeps s blk s' blk' ∅ ∅) : Extended s blk u d s' blk' u := by
  have hsame : ∀ x ∈ u.slots, s'.userEntry u.table x = s.userEntry u.table x :=
    fun x hx => inv.userEntry_keeps k (fun _ _ _ _ => id) hx
  refine ⟨inv', rfl, rfl, rooted.keeps inv k fun _ _ => id, fun x hx e he => (hsame x hx).trans he,
    k.widen, fun _ _ => .inl,
    fun i hi _ => k.entry (inv.dir d hd).1.not_isFree id hi, fun y hy e he => ?_⟩
  exact .inr ⟨e, (hsame y hy).symm.trans he, rfl⟩

theorem Extended.refl (h : InSpace s blk u d) : Extended s blk u d s blk u :=
  .of_keeps h.inv h.rooted h.mem h.inv (.refl h.inv.steady)

/-- A new page, mapped in its directory, and what it holds. -/
theorem Mapped.extended (m : Mapped s blk u x p flags s' blk' u')
    (hnone : s.userEntry u.table x = none) (hfree : IsFree blk p) :
    Extended s blk u x.1 s' blk' u' where
  inv := m.inv
  dirs := m.dirs
  slots := m.slots
  rooted := m.rooted
  old y hy e he := by
    rw [m.rest y hy, he]
    rintro rfl
    rw [hnone] at he
    cases he
  keeps := m.keeps
  tables := m.tables
  kernel := m.kernel
  taken y hy e he := by
    by_cases hyx : y = x
    · subst hyx
      obtain ⟨f, hf, hpage, -⟩ := m.entry
      obtain rfl := some.inj (hf.symm.trans he)
      exact .inl (hpage ▸ hfree)
    · exact .inr ⟨e, (m.rest y (m.slots ▸ hy) hyx).symm.trans he, rfl⟩

/-- A new page is mapped, or nothing has changed for any slot. -/
theorem mapNewPage_spec (h : InSpace s blk u d) (haddr : UserAddr virt)
    (hnone : s.userEntry u.table (slotOf d virt) = none) (hflags : hasFlag flags 0x1 = true) :
    (∃ s' blk', s.mapNewPage virt flags = (0, s') ∧ Extended s blk u d s' blk' u) ∨
      ∃ p s' blk' u', s.mapNewPage virt flags = (p * 4096, s') ∧ p ≠ 0 ∧ IsFree blk p ∧
        Mapped s blk u (slotOf d virt) p flags s' blk' u' ∧ Extended s blk u d s' blk' u' := by
  unfold mapNewPage
  have hx := h.slotOf_mem haddr
  obtain ⟨⟨rooted, hcur, hd⟩, inv, hslots⟩ := h
  rcases allocPage_spec inv.steady with hnew | ⟨p, s1, blk1, hnew, g⟩
  · left
    exact ⟨s, blk, by simp [hnew], .refl ⟨⟨rooted, hcur, hd⟩, inv, hslots⟩⟩
  rw [hnew]
  simp only [if_neg (mul_ne_zero g.pos (show 4096 ≠ 0 by decide))]
  obtain ⟨inv1, loose1⟩ := g.loose inv
  have hsame1 : ∀ x ∈ u.slots, s1.userEntry u.table x = s.userEntry u.table x := fun x hx =>
    inv.userEntry_keeps g.keeps (fun _ _ _ _ => id) hx
  have rooted1 : Rooted s1 u := rooted.keeps inv g.keeps fun _ _ => id
  rcases pagingMapPage_fresh ⟨⟨rooted1, g.keeps.current.trans hcur, hd⟩, inv1, hslots⟩ haddr
    ((hsame1 _ hx).trans hnone) loose1 hflags with hrun | ⟨s2, blk2, u2, hrun, m⟩
  · -- no table: the page is given back
    left
    rw [hrun]
    obtain ⟨blk2, inv2, hdrop⟩ := loose1.free inv1
    have k : Keeps s blk (s1.freePage (p * 4096)) blk2 ∅ ∅ := by
      refine g.keeps.trans hdrop.keeps ?_ ?_
      · exact fun q hq hqp => absurd (hqp ▸ g.fresh) hq
      · exact fun q hq hqp => absurd (hqp ▸ g.fresh) hq
    exact ⟨_, blk2, rfl, .of_keeps inv rooted hd inv2 k⟩
  · right
    rw [hrun]
    have m' : Mapped s blk u (slotOf d virt) p flags s2 blk2 u2 := by
      refine ⟨m.inv, m.dirs, m.slots, m.rooted, m.entry, ?_, ?_, ?_, ?_⟩
      · intro y hy hne
        rw [m.rest y hy hne]
        exact hsame1 y hy
      · exact g.keeps.widen.andThen m.keeps
      · exact fun i t ht => (m.tables i t ht).imp_right (g.keeps.isFree_of_isFree fun _ => id)
      · intro i hi hkernel
        rw [m.kernel i hi hkernel]
        exact g.keeps.entry (inv.dir d hd).1.not_isFree id hi
    exact ⟨p, s2, blk2, u2, rfl, g.pos, g.fresh, m', m'.extended hnone g.fresh⟩

end Stos.Kernel
