import Stos.Kernel.AddressSpaces
import Stos.Kernel.Proofs.PagingClone

/-!
# Copy-on-write faults

`paging_handle_page_fault_cow` never stops the machine; it either changes nothing or moves
the slot of the faulting address to a private, writable copy of its page, and the old page
goes back to the free lists exactly when no other slot maps it.
-/

namespace Stos.Kernel

open Machine Option PageEntry

variable {s s' s1 s2 : Machine} {blk blk' blk1 : Blocks} {u : UserSpaces} {d i j t addr : Nat}
  {x : Slot} {e : PageEntry}

/-- The slot of address `addr` in directory `d`. -/
def slotOf (d addr : Nat) : Slot := (d, pagingGetPdIndex addr, pagingGetPtIndex addr)

theorem UserAddr.pdIndex (h : UserAddr addr) :
    1 ≤ pagingGetPdIndex addr ∧ pagingGetPdIndex addr < 256 := by
  unfold pagingGetPdIndex
  obtain ⟨h1, h2⟩ := h
  omega

theorem pagingGetPtIndex_lt (addr : Nat) : pagingGetPtIndex addr < 1024 :=
  Nat.mod_lt _ (by decide)

theorem slotOf_mem {dirs : Finset Nat} (hd : d ∈ dirs) (h : UserAddr addr) :
    slotOf d addr ∈ allSlots dirs :=
  mem_allSlots.mpr ⟨hd, h.pdIndex, pagingGetPtIndex_lt addr⟩

theorem pagingGetPdIndex_alignDown (addr : Nat) :
    pagingGetPdIndex (pagingAlignDown addr) = pagingGetPdIndex addr := by
  unfold pagingGetPdIndex pagingAlignDown
  omega

theorem pagingGetPtIndex_alignDown (addr : Nat) :
    pagingGetPtIndex (pagingAlignDown addr) = pagingGetPtIndex addr := by
  unfold pagingGetPtIndex pagingAlignDown
  omega

/-- No slot but `x` maps page `q`. -/
def SoleOwner (s : Machine) (u : UserSpaces) (x : Slot) (q : Nat) : Prop :=
  ∀ y ∈ u.slots, y ≠ x → ∀ f, s.userEntry u.table y = some f → f.page ≠ q

/-- The entry after a copy-on-write fault. -/
def privateEntry (e : PageEntry) (phys : Nat) : PageEntry :=
  { e with frame := frameOf phys, rw := true, available := e.available &&& ~~~1 }

/-- Slot `x`, which maps `e`, has got a copy of its page. -/
structure Unshared (s : Machine) (blk : Blocks) (u : UserSpaces) (x : Slot) (e : PageEntry)
    (s' : Machine) (blk' : Blocks) : Prop where
  inv : UserInv s' blk' u
  keeps : Keeps s blk s' blk' (tablesOf u x.1 ∪ {q | q = e.page ∧ SoleOwner s u x q}) {e.page}
  entry : ∃ phys, s'.userEntry u.table x = some (privateEntry e phys)
  fresh : ∀ f, s'.userEntry u.table x = some f → IsFree blk f.page
  reads : ReadsAs s u.table x s' u.table x
  rest : ∀ y ∈ u.slots, y ≠ x → s'.userEntry u.table y = s.userEntry u.table y
  free : IsFree blk' e.page ↔ SoleOwner s u x e.page

/-- The old page loses a reference and goes back if it was the last one. -/
theorem Unshared.release (hx : x ∈ u.slots) (inv1 : UserInv s1 blk1 u)
    (k1 : Keeps s blk s1 blk1 (tablesOf u x.1) {e.page}) (hpage : IsPage blk e.page)
    (hdir : e.page ∉ u.dirs) (htable : ∀ d i, u.table d i ≠ some e.page)
    (hrefs : s1.refs e.page = 0 ↔ SoleOwner s u x e.page) {e' : PageEntry}
    (he' : s1.userEntry u.table x = some e') (hne : e'.page ≠ e.page)
    (hentry : ∃ phys, e' = privateEntry e phys) (hfresh : IsFree blk e'.page)
    (hreads : ReadsAs s u.table x s1 u.table x)
    (hrest : ∀ y ∈ u.slots, y ≠ x → s1.userEntry u.table y = s.userEntry u.table y)
    (hs2 : s2 = if s1.refs e.page = 0 then s1.freePage (e.page * 4096) else s1) :
    ∃ blk2, Unshared s blk u x e s2 blk2 := by
  have hpage1 : IsPage blk1 e.page := by
    refine k1.isPage hpage ?_
    rintro ⟨i, ht⟩
    exact absurd ht (htable x.1 i)
  obtain ⟨phys, rfl⟩ := hentry
  by_cases hzero : s1.refs e.page = 0
  · have hsole := hrefs.mp hzero
    rw [if_pos hzero] at hs2
    have hframe : ∀ y ∈ u.slots, ∀ f, s1.userEntry u.table y = some f → f.page ≠ e.page := by
      intro y hy f hf
      rcases eq_some_of_overwrite he' hrest hy hf with ⟨-, rfl⟩ | ⟨hyx, hf⟩
      · exact hne
      · exact hsole y hy hyx f hf
    obtain ⟨blk2, inv2, hdrop⟩ :=
      inv1.freePage hpage1 (by omega) hdir htable hframe
    have hsame : ∀ y ∈ u.slots, (s1.freePage (e.page * 4096)).userEntry u.table y =
        s1.userEntry u.table y := fun y hy =>
      inv1.userEntry_keeps hdrop.keeps (noTable_singleton htable) hy
    subst hs2
    refine ⟨blk2, inv2, ?_, ⟨phys, (hsame x hx).trans he'⟩, ?_, ?_, ?_, ?_⟩
    · refine (k1.mono (fun _ _ h => .inl h) fun _ _ => id).trans hdrop.keeps ?_ fun _ _ => id
      rintro q - rfl
      exact .inr ⟨rfl, hsole⟩
    · intro f hf
      obtain rfl := some.inj (he'.symm.trans ((hsame x hx).symm.trans hf))
      exact hfresh
    · intro f hf
      obtain ⟨f', hf', hbytes⟩ := hreads f hf
      obtain rfl := some.inj (he'.symm.trans hf')
      refine ⟨_, (hsame x hx).trans he', fun k hk => ?_⟩
      rw [hdrop.keeps.byte (inv1.frame x hx _ he').1.not_isFree hne hk]
      exact hbytes k hk
    · intro y hy hyx
      exact (hsame y hy).trans (hrest y hy hyx)
    · exact ⟨fun _ => hsole, fun _ => hdrop.free⟩
  · rw [if_neg hzero] at hs2
    subst hs2
    refine ⟨blk1, inv1, k1.mono (fun _ _ h => .inl h) fun _ _ => id, ⟨phys, he'⟩, ?_, hreads, hrest,
      ?_⟩
    · intro f hf
      obtain rfl := some.inj (he'.symm.trans hf)
      exact hfresh
    exact ⟨fun h => absurd h hpage1.not_isFree, fun h => absurd (hrefs.mpr h) hzero⟩

/-- The copy made by the fault handler for slot `(d, i, j)`. -/
theorem cowCopy_spec (inv : UserInv s blk u) (ht : u.table d i = some t) (hx : (d, i, j) ∈ u.slots)
    (he : s.userEntry u.table (d, i, j) = some e) (hsat : s.refs e.page < 65535) {p : Nat}
    {s3 : Machine} (g : Grabbed s blk p s1 blk1)
    (hs2 : s2 = s1.copyPage (p * 4096) (s1.entry (t * 4096) j).addr)
    (hs3 : s3 = s2.setEntry (t * 4096) j (privateEntry (s2.entry (t * 4096) j) (p * 4096))) :
    ∃ s4, s3.decRefcount (s1.entry (t * 4096) j).addr = some (s4.refs e.page, s4) ∧
      ∃ blk', Unshared s blk u (d, i, j) e
        (if s4.refs e.page = 0 then s4.freePage (s1.entry (t * 4096) j).addr else s4) blk' := by
  have hj : j < 1024 := inv.slot_lt _ hx
  obtain ⟨inv1, loose1⟩ := g.loose inv
  obtain ⟨hpage, hdir, htable⟩ := inv.frame _ hx e he
  obtain ⟨hentry, hpresent⟩ := (userEntry_eq_some ht).mp he
  have h₁ : s1.entry (t * 4096) j = e := by
    rw [← hentry]
    exact g.keeps.entry (inv.table _ _ _ ht).1.not_isFree id hj
  rw [h₁] at hs2 ⊢
  -- the page is copied
  have k2 : Keeps s1 blk1 s2 blk1 {p} ∅ := hs2 ▸ .copyPage inv1.steady loose1.page _
  obtain ⟨inv2, loose2, -⟩ := loose1.write inv1 k2
  have k12 : Keeps s blk s2 blk1 ∅ ∅ := g.written k2
  have hsame2 : ∀ z ∈ u.slots, s2.userEntry u.table z = s.userEntry u.table z := fun z hz =>
    inv.userEntry_keeps k12 (fun _ _ _ _ => id) hz
  have he2 := (hsame2 _ hx).trans he
  have h₂ : s2.entry (t * 4096) j = e := ((userEntry_eq_some ht).mp he2).1
  rw [h₂] at hs3
  -- the entry is set and the reference dropped
  have hrefs2 : s2.refs e.page = s.refs e.page := k12.refs _ hpage.not_isFree id
  have hrefs3 : s3.refs e.page = s2.refs e.page := by
    rw [hs3]
    rfl
  have k3 : Keeps s2 blk1 s3 blk1 {t} ∅ :=
    hs3 ▸ Keeps.setEntry inv2.steady (inv2.table _ _ _ ht).1 hj _
  have hpage1 : IsPage blk1 e.page := (inv2.frame _ hx e he2).1
  have hpos : 0 < s.refs e.page := inv.shared.refs_pos hx he (by decide)
  obtain ⟨s4, hdec, hs4⟩ := decRefcount_spec k3.steady hpage1 (by omega) (by omega)
  rw [← hs4.refs] at hdec
  refine ⟨s4, hdec, ?_⟩
  have hmem : s4.userEntry u.table = s3.userEntry u.table := by rw [userEntry_of_mem hs4.mem]
  have hpe : e.present = true := userEntry_present he
  have hself : s4.userEntry u.table (d, i, j) = some (privateEntry e (p * 4096)) := by
    rw [hmem, hs3]
    exact UserInv.userEntry_setEntry_self ht hpe
  have hclean : s4.Clean u := by
    refine Clean.of_mem ?_ hs4.mem
    rw [hs3]
    exact inv2.clean.setEntry hj hpe
  have hrest2 : ∀ y ∈ u.slots, y ≠ (d, i, j) →
      s4.userEntry u.table y = s2.userEntry u.table y := by
    intro y hy hne
    rw [hmem, hs3]
    exact inv2.userEntry_setEntry ht hj _ hy hne
  have hrest : ∀ y ∈ u.slots, y ≠ (d, i, j) →
      s4.userEntry u.table y = s.userEntry u.table y := fun y hy hne =>
    (hrest2 y hy hne).trans (hsame2 y hy)
  have hone : s4.refs e.page + 1 = s2.refs e.page := by
    rw [hs4.refs, hrefs3]
    omega
  have k4 : Keeps s2 blk1 s4 blk1 {t} {e.page} :=
    (k3.mono (fun _ _ => id) fun _ _ h => h.elim).trans hs4.keeps (fun _ _ h => h.elim)
      fun _ _ => id
  have hpageNew : (privateEntry e (p * 4096)).page = p := frameOf_toNat g.lt
  have inv4 : UserInv s4 blk1 u :=
    inv2.moveSlot loose2 k4 hx he2 hself hpageNew hrest2 hclean (by omega) hone
  apply Unshared.release hx inv4 _ hpage hdir htable _ hself _ ⟨_, rfl⟩ _ _ hrest rfl
  · refine k12.widen.trans k4 ?_ fun _ _ => id
    rintro q - rfl
    exact ⟨i, ht⟩
  · have hzero : s4.refs e.page = 0 ↔ s2.refs e.page = 1 := by omega
    rw [hzero, inv2.shared.refs_eq_one_iff hx he2 (by omega)]
    constructor
    · intro h y hy hne f hf
      exact h y hy hne f ((hsame2 y hy).trans hf)
    · intro h y hy hne f hf
      exact h y hy hne f ((hsame2 y hy).symm.trans hf)
  · rw [hpageNew]
    exact (loose2.frame _ hx e he2).symm
  · rw [hpageNew]
    exact g.fresh
  · intro f hf
    obtain rfl := some.inj (he.symm.trans hf)
    refine ⟨_, hself, fun k hk => ?_⟩
    have hpt : p ∉ ({t} : Set Nat) := fun h => loose2.table d i (h ▸ ht)
    rw [hpageNew, k4.byte loose2.page.not_isFree hpt hk, hs2]
    show copyBytes s1.mem (p * 4096) (e.page * 4096) 4096 (p * 4096 + k) = _
    rw [copyBytes_of_inside hk]
    exact g.keeps.byte hpage.not_isFree id hk

/-! ## The handler -/

/-- Directories that are not written keep their tables. -/
theorem Rooted.keeps {W R : Set Nat} (h : Rooted s u) (inv : UserInv s blk u)
    (k : Keeps s blk s' blk' W R) (hW : u.NoDir W) : Rooted s' u := by
  intro d hd i hi1 hi
  rw [h d hd i hi1 hi]
  exact (tableOf_congr (k.entry (inv.dir d hd).1.not_isFree (hW d hd) (by omega))).symm

/-- The other slots read as before. -/
theorem Unshared.others (h : Unshared s blk u x e s' blk') (inv : UserInv s blk u)
    {y : Slot} (hy : y ∈ u.slots) (hne : y ≠ x) : ReadsAs s u.table y s' u.table y := by
  intro f hf
  refine ⟨f, (h.rest y hy hne).trans hf, fun k hk => ?_⟩
  obtain ⟨hpage, -, htable⟩ := inv.frame y hy f hf
  refine h.keeps.byte hpage.not_isFree ?_ hk
  rintro (⟨i, ht⟩ | ⟨-, hsole⟩)
  · exact htable _ i ht
  · exact hsole y hy hne f hf rfl

/-- The counter of resolved faults is no part of memory. -/
theorem Unshared.counted (h : Unshared s blk u x e s' blk') (n : BitVec 32) :
    Unshared s blk u x e { s' with pagesSavedByCow := n } blk' := by
  have k : Keeps s' blk' { s' with pagesSavedByCow := n } blk' ∅ ∅ :=
    ⟨h.inv.steady, fun _ _ _ => rfl, fun _ _ _ => rfl, fun _ _ _ => rfl, rfl, rfl⟩
  exact ⟨h.inv.keeps_written k fun _ _ _ _ => id,
    h.keeps.trans k (fun _ _ h => h.elim) fun _ _ h => h.elim, h.entry, h.fresh, h.reads, h.rest,
    h.free⟩

/-- Directory `d` of the address spaces is the current one. -/
structure Current (s : Machine) (u : UserSpaces) (d : Nat) : Prop where
  rooted : Rooted s u
  current : s.currentPageDirectory = d * 4096
  mem : d ∈ u.dirs

/-- The invariant, in the directory `d`. -/
structure InSpace (s : Machine) (blk : Blocks) (u : UserSpaces) (d : Nat) : Prop extends Current s u d where
  inv : UserInv s blk u
  slots : u.slots = allSlots u.dirs

theorem InSpace.slotOf_mem (h : InSpace s blk u d) (haddr : UserAddr addr) : slotOf d addr ∈ u.slots :=
  h.slots ▸ Kernel.slotOf_mem h.mem haddr

theorem Unshared.inSpace (hun : Unshared s blk u x e s' blk') (h : InSpace s blk u d) (hx : x ∈ u.slots)
    (he : s.userEntry u.table x = some e) : InSpace s' blk' u d := by
  refine ⟨⟨h.rooted.keeps h.inv hun.keeps ?_, hun.keeps.current.trans h.current, h.mem⟩, hun.inv, h.slots⟩
  rintro d hd (⟨i, ht⟩ | ⟨rfl, -⟩)
  · exact (h.inv.table _ i d ht).2.2 hd
  · exact (h.inv.frame x hx e he).2.1 hd

theorem Current.table_eq (h : Current s u d) (haddr : UserAddr addr) :
    u.table d (pagingGetPdIndex addr) = s.tableOf d (pagingGetPdIndex addr) :=
  h.rooted d h.mem _ haddr.pdIndex.1 haddr.pdIndex.2

/-- The address of the slot that the handler looks at. -/
theorem currentTable_eq (h : Current s u d) (haddr : UserAddr addr) :
    u.table d (pagingGetPdIndex addr) =
      if (s.entry s.currentPageDirectory (pagingGetPdIndex addr)).present
      then some (s.entry s.currentPageDirectory (pagingGetPdIndex addr)).page else none := by
  rw [h.table_eq haddr, h.current]
  rfl

/-- The handler on an address of user space, with slot `x` of the current directory: it
changes nothing unless the slot maps a copy-on-write page. -/
theorem pagingHandlePageFaultCow_spec (h : InSpace s blk u d) (haddr : UserAddr addr)
    (hsat : ∀ e, s.userEntry u.table (slotOf d addr) = some e → s.refs e.page < 65535) :
    s.pagingHandlePageFaultCow addr = some (false, s) ∨
      ∃ s' blk' e, s.pagingHandlePageFaultCow addr = some (true, s') ∧
        s.userEntry u.table (slotOf d addr) = some e ∧ e.cow = true ∧
        Unshared s blk u (slotOf d addr) e s' blk' ∧ InSpace s' blk' u d := by
  have htable := currentTable_eq h.toCurrent haddr
  have hx := h.slotOf_mem haddr
  unfold pagingHandlePageFaultCow
  dsimp only
  rw [pagingGetPdIndex_alignDown, pagingGetPtIndex_alignDown]
  generalize s.entry s.currentPageDirectory (pagingGetPdIndex addr) = pde at *
  by_cases hpde : pde.present = true
  swap
  · simp [hpde]
  rw [if_pos hpde] at htable
  by_cases hpte : (s.entry pde.addr (pagingGetPtIndex addr)).present = true
  swap
  · simp [hpde, hpte]
  by_cases hcow : (s.entry pde.addr (pagingGetPtIndex addr)).cow = true
  swap
  · simp [hpde, hpte, hcow]
  have he := (userEntry_eq_some htable).mpr ⟨rfl, hpte⟩
  simp only [hpde, hpte, hcow, Bool.not_true, Bool.false_eq_true, if_false]
  rcases allocPage_spec h.inv.steady with hnew | ⟨p, s1, blk1, hnew, g⟩
  · simp [hnew]
  · right
    obtain ⟨s4, hdec, blk', hun⟩ := cowCopy_spec h.inv htable hx he (hsat _ he) g rfl rfl
    rw [hnew]
    simp only [if_neg (mul_ne_zero g.pos (show 4096 ≠ 0 by decide))]
    unfold privateEntry at hdec
    rw [addr_eq pde] at *
    rw [hdec]
    exact ⟨_, blk', _, rfl, he, hcow, hun.counted _, (hun.counted _).inSpace h hx he⟩

/-- A fault on a page that is not marked copy-on-write is not recovered. -/
theorem pagingHandlePageFaultCow_not_cow (h : Current s u d) (haddr : UserAddr addr)
    (he : s.userEntry u.table (slotOf d addr) = some e) (hcow : e.cow = false) :
    s.pagingHandlePageFaultCow addr = some (false, s) := by
  have htable := currentTable_eq h haddr
  obtain ⟨t, ht⟩ := exists_table he
  rw [show u.table d (pagingGetPdIndex addr) = some t from ht] at htable
  unfold pagingHandlePageFaultCow
  dsimp only
  rw [pagingGetPdIndex_alignDown, pagingGetPtIndex_alignDown]
  split at htable
  · next hpde =>
    obtain rfl := some.inj htable
    obtain ⟨rfl, hpte⟩ := (userEntry_eq_some ht).mp he
    rw [addr_eq]
    simp [hpde, hpte, hcow]
  · cases htable

end Stos.Kernel
