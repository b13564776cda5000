import Stos.Kernel.KernelHalf
import Stos.Kernel.Proofs.ElfReadOnly

/-!
# Agreement of the kernel half

Directories agree on the kernel half as long as they hold the same tables there; what the
tables contain does not matter. A mapping that has to create a table breaks this when another
directory is live, and nothing else does.
-/

namespace Stos.Kernel

open Machine Option PageEntry

variable {s s' : Machine} {dirs : Finset Nat} {σ τ : Spaces} {blk blk' : Blocks} {u u' : UserSpaces}
  {d t virt phys i : Nat} {flags : BitVec 32} {W : Set Nat} {evs : List SpaceEvent}

/-- The kernel half of the directories: one table for all of them at each index, in pages
that the address spaces do not own. -/
structure KernelTables (s : Machine) (blk : Blocks) (u : UserSpaces) : Prop where
  table : ∀ d ∈ u.dirs, ∀ i, KernelIndex i → ∀ t, s.tableOf d i = some t →
    IsPage blk t ∧ t ∉ owned s u
  same : ∀ d ∈ u.dirs, ∀ d' ∈ u.dirs, ∀ i, KernelIndex i → s.tableOf d i = s.tableOf d' i

theorem KernelAddr.pdIndex (h : KernelAddr virt) : KernelIndex (pagingGetPdIndex virt) := by
  obtain ⟨hlt, hn⟩ := h
  unfold UserAddr at hn
  unfold KernelIndex pagingGetPdIndex
  omega

theorem resolve_eq (s : Machine) (d virt : Nat) :
    s.resolve d virt = (s.tableOf d (pagingGetPdIndex virt)).bind fun t =>
      let e := s.entry (t * 4096) (pagingGetPtIndex virt)
      if e.present then some e.page else none := by
  unfold resolve tableOf
  dsimp only
  cases (s.entry (d * 4096) (pagingGetPdIndex virt)).present with
  | false => rfl
  | true =>
    simp only [Bool.not_true, Bool.false_eq_true, if_false, if_true, bind_some]
    rw [addr_eq]
    cases (s.entry ((s.entry (d * 4096) (pagingGetPdIndex virt)).page * 4096)
      (pagingGetPtIndex virt)).present with
    | false => rfl
    | true => rfl

theorem KernelTables.agree (hk : KernelTables s blk u) (hdirs : u.dirs = dirs) :
    KernelAgree (s, dirs) := by
  intro d hd d' hd' virt haddr
  rw [resolve_eq, resolve_eq, hk.same d (hdirs ▸ hd) d' (hdirs ▸ hd') _ haddr.pdIndex]

/-! ## Operations on the address spaces -/

theorem Stepped.kernelTables (h : SpacesInv s dirs blk u) (st : Stepped s dirs blk u τ blk' u')
    (hk : KernelTables s blk u) : KernelTables τ.1 blk' u' := by
  constructor
  · intro d hd i hi t ht
    obtain ⟨d0, hd0, hsame⟩ := st.kernelHalf d (st.live ▸ hd)
    rw [hsame i hi.1 hi.2] at ht
    obtain ⟨hpage, hn⟩ := hk.table d0 (h.live ▸ hd0) i hi t ht
    refine ⟨(st.foreign t hpage.not_isFree hn).1.trans hpage, fun ho => ?_⟩
    rcases st.gained t ho with ho | hfree
    · exact hn ho
    · exact hpage.not_isFree hfree
  · intro d hd d' hd' i hi
    obtain ⟨d0, hd0, hsame⟩ := st.kernelHalf d (st.live ▸ hd)
    obtain ⟨d0', hd0', hsame'⟩ := st.kernelHalf d' (st.live ▸ hd')
    rw [hsame i hi.1 hi.2, hsame' i hi.1 hi.2]
    exact hk.same d0 (h.live ▸ hd0) d0' (h.live ▸ hd0') i hi

/-! ## Mappings of the kernel -/

/-- What a mapping of the kernel leaves in order. -/
structure KernelMapped (s : Machine) (blk : Blocks) (u : UserSpaces) (s' : Machine)
    (blk' : Blocks) (W : Set Nat) : Prop where
  inv : UserInv s' blk' u
  rooted : Rooted s' u
  tables : KernelTables s' blk' u
  keeps : Keeps s blk s' blk' W ∅

theorem owned_keeps (inv : UserInv s blk u) (k : Keeps s blk s' blk' W ∅) (hW : u.NoTable W) :
    owned s' u ⊆ owned s u := by
  refine owned_cases (fun q hq => dir_owned hq) (fun d i t ht => tablesOf_owned ⟨i, ht⟩) ?_
  intro x hx e he
  rw [inv.userEntry_keeps k hW hx] at he
  exact frame_owned hx he

/-- Writes to a table of the kernel half. -/
theorem KernelTables.write (inv : UserInv s blk u) (rooted : Rooted s u)
    (hk : KernelTables s blk u) (hpage : IsPage blk t) (hn : t ∉ owned s u) {m : Mem}
    (outside : ∀ a, a / 4096 ≠ t → m a = s.mem a) :
    KernelMapped s blk u (s.setMem m) blk {t} := by
  have k := Keeps.write inv.steady hpage outside
  have hnotdir : u.NoDir {t} := noDir_singleton fun hd => hn (dir_owned hd)
  have hnottable : u.NoTable {t} := noTable_singleton fun d i ht => hn (tablesOf_owned ⟨i, ht⟩)
  have htable : ∀ d ∈ u.dirs, ∀ i, KernelIndex i → (s.setMem m).tableOf d i = s.tableOf d i :=
    fun d hd i hi => tableOf_congr (k.entry (inv.dir d hd).1.not_isFree (hnotdir d hd) hi.1)
  refine ⟨inv.keeps_written k hnottable, rooted.keeps inv k hnotdir, ⟨?_, ?_⟩, k⟩
  · intro d hd i hi t' ht'
    rw [htable d hd i hi] at ht'
    obtain ⟨hpage', hn'⟩ := hk.table d hd i hi t' ht'
    exact ⟨hpage', fun ho => hn' (owned_keeps inv k hnottable ho)⟩
  · intro d hd d' hd' i hi
    rw [htable d hd i hi, htable d' hd' i hi]
    exact hk.same d hd d' hd' i hi

theorem KernelMapped.trans {s'' : Machine} {blk'' : Blocks} {W' : Set Nat}
    (h : KernelMapped s blk u s' blk' W) (h' : KernelMapped s' blk' u s'' blk'' W') :
    KernelMapped s blk u s'' blk'' (W ∪ W') :=
  ⟨h'.inv, h'.rooted, h'.tables, (h.keeps.mono (fun _ _ => .inl) fun _ _ => id).trans h'.keeps
    (fun _ _ => .inr) fun _ _ => id⟩

/-- A new table is entered in the only directory. -/
theorem KernelTables.newTable {s1 s2 : Machine} {blk1 : Blocks} (inv : UserInv s blk u)
    (rooted : Rooted s u) (hk : KernelTables s blk u) (hd : d ∈ u.dirs)
    (honly : ∀ d' ∈ u.dirs, d' = d) (hi : KernelIndex i) (g : Grabbed s blk t s1 blk1)
    (hs2 : s2 = s1.zeroPage (t * 4096)) {e : PageEntry} (hpage : e.page = t) :
    KernelMapped s blk u (s2.setEntry (d * 4096) i e) blk1 {d} ∧ IsPage blk1 t ∧
      t ∉ owned (s2.setEntry (d * 4096) i e) u := by
  obtain ⟨inv1, loose1⟩ := g.loose inv
  have k2 : Keeps s1 blk1 s2 blk1 {t} ∅ := hs2 ▸ .zeroPage inv1.steady loose1.page
  obtain ⟨inv2, loose2, -⟩ := loose1.write inv1 k2
  have k3 := Keeps.setEntry inv2.steady (inv2.dir d hd).1 hi.1 e
  have hnottable := inv.noTable_dir hd
  have inv3 := inv2.keeps_written k3 hnottable
  have loose3 := loose2.written inv2 k3 hnottable
  have k12 : Keeps s blk s2 blk1 ∅ ∅ := g.written k2
  have kall : Keeps s blk (s2.setEntry (d * 4096) i e) blk1 {d} ∅ := k12.widen.andThen k3
  have hsame : ∀ i' < 1024, i' ≠ i →
      (s2.setEntry (d * 4096) i e).tableOf d i' = s.tableOf d i' := by
    intro i' hi' hne
    apply tableOf_congr
    rw [entry_setEntry_of_ne hi.1 hi' (.inr hne)]
    exact k12.entry (inv.dir d hd).1.not_isFree id hi'
  have hnew : t ∉ owned (s2.setEntry (d * 4096) i e) u := by
    rintro ((hq | ⟨d', i', ht'⟩) | ⟨x, hx, f, hf, hpage'⟩)
    · exact loose3.dir hq
    · exact loose3.table d' i' ht'
    · exact loose3.frame x hx f hf hpage'
  refine ⟨⟨inv3, ?_, ⟨?_, ?_⟩, kall⟩, loose3.page, hnew⟩
  · intro d' hd' i' hi1 hi2
    obtain rfl := honly d' hd'
    rw [hsame i' (by omega) (by have := hi.2; omega)]
    exact rooted d' hd' i' hi1 hi2
  · intro d' hd' i' hi' t' ht'
    obtain rfl := honly d' hd'
    by_cases hii : i' = i
    · subst hii
      unfold tableOf at ht'
      rw [entry_setEntry_self] at ht'
      dsimp only at ht'
      split at ht'
      · obtain rfl := some.inj ht'
        rw [hpage]
        exact ⟨loose3.page, hnew⟩
      · cases ht'
    · rw [hsame i' hi'.1 hii] at ht'
      obtain ⟨hp, hn⟩ := hk.table d' hd' i' hi' t' ht'
      exact ⟨kall.isPage hp fun _ => id, fun ho => hn (owned_keeps inv kall hnottable ho)⟩
  · intro d1 hd1 d2 hd2 i' _
    rw [honly d1 hd1, honly d2 hd2]

section

variable (inv : UserInv s blk u) (rooted : Rooted s u) (hk : KernelTables s blk u)
  (hcur : s.currentPageDirectory = d * 4096) (hd : d ∈ u.dirs) (haddr : KernelAddr virt)

include inv rooted hk hcur hd haddr

/-- `paging_get_page_table` for a kernel address. -/
theorem pagingGetPageTable_kernel
    (hshared : (s.tableOf d (pagingGetPdIndex virt)).isSome ∨ ∀ d' ∈ u.dirs, d' = d) :
    s.pagingGetPageTable virt true = (none, s) ∨
      ∃ t s' blk', s.pagingGetPageTable virt true = (some (t * 4096), s') ∧
        KernelMapped s blk u s' blk' {d} ∧ IsPage blk' t ∧ t ∉ owned s' u := by
  have hi := haddr.pdIndex
  cases htable : s.tableOf d (pagingGetPdIndex virt) with
  | some t =>
    right
    obtain ⟨hpage, hn⟩ := hk.table d hd _ hi _ htable
    exact ⟨t, s, blk, pagingGetPageTable_some hcur htable true, ⟨inv, rooted, hk, .refl inv.steady⟩,
      hpage, hn⟩
  | none =>
    have honly := hshared.resolve_left (by simp [htable])
    rcases pagingGetPageTable_create inv.steady hcur htable with
      ⟨-, h⟩ | ⟨t, s1, blk1, pde, g, -, hpage, h⟩
    · exact .inl h
    · exact .inr ⟨t, _, blk1, h, hk.newTable inv rooted hd honly hi g rfl hpage⟩

/-- `paging_map_page` for a kernel address. -/
theorem pagingMapPage_kernel
    (hshared : (s.tableOf d (pagingGetPdIndex virt)).isSome ∨ ∀ d' ∈ u.dirs, d' = d) :
    ∃ blk' W, KernelMapped s blk u (s.pagingMapPage virt phys flags).2 blk' W := by
  have haddr' : KernelAddr (pagingAlignDown virt) := by
    obtain ⟨hlt, hn⟩ := haddr
    unfold UserAddr at hn
    unfold KernelAddr UserAddr pagingAlignDown
    omega
  unfold pagingMapPage
  dsimp only
  rcases pagingGetPageTable_kernel inv rooted hk hcur hd haddr'
    (by rwa [pagingGetPdIndex_alignDown]) with h | ⟨t, s1, blk1, h, m, hpage, hn⟩
  · rw [h]
    exact ⟨blk, ∅, inv, rooted, hk, .refl inv.steady⟩
  · rw [h]
    have hj := pagingGetPtIndex_lt (pagingAlignDown virt)
    refine ⟨blk1, _, m.trans (m.tables.write m.inv m.rooted hpage hn fun a ha => ?_)⟩
    exact write32_of_outside (by omega)

/-- `paging_unmap_page` for a kernel address. -/
theorem pagingUnmapPage_kernel : ∃ W, KernelMapped s blk u (s.pagingUnmapPage virt) blk W := by
  have hi := haddr.pdIndex
  have hj := pagingGetPtIndex_lt virt
  unfold pagingUnmapPage
  dsimp only
  rw [pagingGetPageTable_false hcur, pagingGetPdIndex_alignDown, pagingGetPtIndex_alignDown]
  cases htable : s.tableOf d (pagingGetPdIndex virt) with
  | none => exact ⟨∅, inv, rooted, hk, .refl inv.steady⟩
  | some t =>
    dsimp only [map_some]
    split
    · obtain ⟨hpage, hn⟩ := hk.table d hd _ hi _ htable
      refine ⟨_, hk.write inv rooted hpage hn fun a ha => ?_⟩
      exact fillBytes_of_outside (by omega)
    · exact ⟨∅, inv, rooted, hk, .refl inv.steady⟩

/-! ## Runs -/

end

theorem KernelMapped.spacesInv (h : SpacesInv s dirs blk u) (m : KernelMapped s blk u s' blk' W)
    (hsat : Unsaturated (s', dirs)) : SpacesInv s' dirs blk' u := by
  obtain ⟨d, hd, hcur⟩ := h.current
  exact ⟨m.inv, h.live, h.slots, m.rooted, ⟨d, hd, m.keeps.current.trans hcur⟩,
    fun _ _ e _ => hsat e.page⟩

theorem KernelStep.tables {ev : KernelEvent} (h : SpacesInv σ.1 σ.2 blk u)
    (hk : KernelTables σ.1 blk u) (hshared : TableShared σ ev) (step : KernelStep σ ev τ)
    (hsat : Unsaturated τ) :
    ∃ blk' u', SpacesInv τ.1 τ.2 blk' u' ∧ KernelTables τ.1 blk' u' := by
  obtain ⟨hcur, hcurEq⟩ := h.current_mem
  cases step with
  | space step =>
    obtain ⟨blk', u', eff⟩ := SpaceStep.effect h step
    have st := eff.stepped h
    exact ⟨blk', u', st.spacesInv hsat, st.kernelTables h hk⟩
  | @map s dirs _ _ _ haddr =>
    have honly : _ ∨ ∀ d' ∈ u.dirs, d' = s.current := hshared.imp id fun honly d' hd' => by
      rw [h.live, honly] at hd'
      exact Finset.mem_singleton.mp hd'
    obtain ⟨blk', W, m⟩ := pagingMapPage_kernel h.inv h.rooted hk hcurEq hcur haddr honly
    exact ⟨blk', u, m.spacesInv h hsat, m.tables⟩
  | unmap haddr =>
    obtain ⟨W, m⟩ := pagingUnmapPage_kernel h.inv h.rooted hk hcurEq hcur haddr
    exact ⟨blk, u, m.spacesInv h hsat, m.tables⟩

theorem KernelBooted.kernelTables (boot : KernelBooted s blk d) (hdirs : u.dirs = {d})
    (htable : ∀ d' i, u.table d' i = none) : KernelTables s blk u := by
  have hd : ∀ d' ∈ u.dirs, d' = d := fun d' hd' => Finset.mem_singleton.mp (hdirs ▸ hd')
  constructor
  · intro d' hd' i hi t ht
    rw [hd d' hd'] at ht
    obtain ⟨hpage, hne⟩ := boot.tables i hi t ht
    refine ⟨hpage, ?_⟩
    rintro ((hq | ⟨d1, i1, ht1⟩) | ⟨x, -, e, he, -⟩)
    · exact hne (hd t hq)
    · cases (htable d1 i1).symm.trans ht1
    · obtain ⟨t1, ht1⟩ := exists_table he
      cases (htable _ _).symm.trans ht1
  · intro d1 hd1 d2 hd2 i _
    rw [hd d1 hd1, hd d2 hd2]

/-- In every run in which each mapping of the kernel finds its table or is made while only
one directory is live, all live directories resolve every kernel address to the same page. -/
theorem kernelRun_agree (boot : KernelBooted s blk d) (run : KernelRun TableShared (s, {d}) σ) :
    KernelAgree σ := by
  have hinv : ∃ blk' u', SpacesInv σ.1 σ.2 blk' u' ∧ KernelTables σ.1 blk' u' := by
    generalize hτ : ((s, {d}) : Spaces) = τ at run
    induction run with
    | nil =>
      subst hτ
      exact ⟨blk, _, boot.bootSpaces, boot.kernelTables rfl fun _ _ => rfl⟩
    | snoc _ hshared step hsat ih =>
      obtain ⟨blk1, u1, h, hk⟩ := ih
      exact step.tables h hk hshared hsat
  obtain ⟨blk', u', h, hk⟩ := hinv
  exact hk.agree h.live

/-! ## A run of the small machine -/

theorem SpaceRun.kernelRun {allowed : Spaces → KernelEvent → Prop}
    (hallowed : ∀ τ ev, allowed τ (.space ev)) (run : SpaceRun σ evs τ) :
    KernelRun allowed σ τ := by
  induction run with
  | nil => exact .nil _
  | snoc _ step hsat ih => exact ih.snoc (hallowed _ _) (.space step) hsat

theorem SpaceRun.unsaturated (run : SpaceRun σ evs τ) (hevs : evs ≠ []) : Unsaturated τ := by
  cases run with
  | nil => exact absurd rfl hevs
  | snoc _ _ hsat => exact hsat

theorem KernelAgree.resolve {d' : Nat} (h : KernelAgree (s, dirs)) (hd : d ∈ dirs)
    (hd' : d' ∈ dirs) (haddr : KernelAddr virt) : s.resolve d virt = s.resolve d' virt :=
  h d hd d' hd' virt haddr

theorem oneDirectory_entry {k : Nat} (hk : k ≤ 10)
    (hcur : (oneDirectory k).currentPageDirectory ≠ 0) (hi : i < 1024) :
    (oneDirectory k).entry (oneDirectory k).currentPageDirectory i = .empty := by
  have st := (oneBlock_wellFormed k hk).toSteady
  unfold oneDirectory pagingCreateDirectory at *
  rcases allocPage_spec (s := mk (oneBlock k) 0 0 0) st with
    h | ⟨p, s1, blk1, h, g⟩
  · rw [h] at hcur
    exact absurd rfl hcur
  rw [h]
  simp only [if_neg (mul_ne_zero g.pos (show 4096 ≠ 0 by decide))]
  exact entry_zeroPage (s := s1) (t := p) (by omega)

/-- The directory of the small machine has no tables at all. -/
theorem oneDirectory_kernelBooted (boot : Booted (oneDirectory 3) blk 8) :
    KernelBooted (oneDirectory 3) blk 8 := by
  refine ⟨boot, fun i hi t ht => ?_⟩
  have hcur : (oneDirectory 3).currentPageDirectory = 8 * 4096 := by decide +kernel
  have hempty : (oneDirectory 3).entry (8 * 4096) i = .empty := by
    exact oneDirectory_entry (by decide) (by rw [hcur]; decide) hi.1
  have hnone : (oneDirectory 3).tableOf 8 i = none :=
    tableOf_eq_none (by rw [hempty]; exact empty_present)
  cases hnone.symm.trans ht

/-- The two directories of the forked machine agree. -/
theorem kernelRun_agree_forkedMachine : KernelAgree (forkedMachine, {11, 8}) := by
  obtain ⟨⟨blk, boot⟩, run, -⟩ := smallRun_fork
  exact kernelRun_agree (oneDirectory_kernelBooted boot) (run.kernelRun fun _ _ => trivial)

theorem allocPage_refs_lt {n : Nat} (st : Steady s.pmm blk) (hn : 1 < n)
    (h : ∀ q, s.refs q < n) (q : Nat) : s.allocPage.2.refs q < n := by
  rcases buddyAllocOrder_spec st.toBuddyInv (Nat.zero_le 10) with ⟨hnone, -⟩ | ⟨p, blk', -, hsome⟩
  · unfold allocPage Pmm.pmmAllocPage
    rw [hnone]
    exact h q
  · show (s.pmm.buddyAllocOrder 0).2.buddyRefcountMap q < n
    rw [hsome.refs q]
    split
    · exact hn
    · exact h q

theorem pagingMapPage_refs (s : Machine) (virt phys : Nat) (flags : BitVec 32) :
    (s.pagingMapPage virt phys flags).2.refs = s.refs ∨
      (s.pagingMapPage virt phys flags).2.refs = s.allocPage.2.refs := by
  unfold pagingMapPage pagingGetPageTable
  dsimp only
  by_cases hpresent : (s.entry s.currentPageDirectory
      (pagingGetPdIndex (pagingAlignDown virt))).present = true
  · rw [hpresent]
    exact .inl rfl
  · rw [Bool.not_eq_true] at hpresent
    rw [hpresent]
    refine .inr ?_
    by_cases hzero : s.allocPage.1 = 0
    · simp only [Bool.not_false, if_true, Bool.not_true, Bool.false_eq_true, if_false, hzero]
    · simp only [Bool.not_false, if_true, Bool.not_true, Bool.false_eq_true, if_false, hzero]
      rfl

theorem Unsaturated.map {dirs' : Finset Nat} (st : Steady s.pmm blk) (h : Unsaturated (s, dirs)) :
    Unsaturated ((s.pagingMapPage virt phys flags).2, dirs') := by
  intro q
  rcases pagingMapPage_refs s virt phys flags with e | e
  · exact (congrFun e q).trans_lt (h q)
  · exact (congrFun e q).trans_lt (allocPage_refs_lt st (by decide) h q)

/-- The forked machine after the kernel has mapped the first page of its heap. -/
def mappedMachine : Machine := (forkedMachine.pagingMapPage 0x40000000 0xC000 0x3).2

/-- A page of the kernel heap that is mapped after a fork is mapped in one of the two
directories only. -/
theorem kernelHeap_page_missing_after_fork :
    ∃ blk, KernelBooted (oneDirectory 3) blk 8 ∧
      KernelRun (fun _ _ => True) (oneDirectory 3, {8}) (mappedMachine, {11, 8}) ∧
      KernelAddr 0x40000000 ∧ mappedMachine.resolve 8 0x40000000 = some 12 ∧
      mappedMachine.resolve 11 0x40000000 = none ∧ ¬ KernelAgree (mappedMachine, {11, 8}) := by
  obtain ⟨⟨blk, boot⟩, run, blk', u, inv, -⟩ := smallRun_fork
  have hsat : Unsaturated (mappedMachine, {11, 8}) :=
    .map inv.inv.steady (run.unsaturated (List.cons_ne_nil _ _))
  have h8 : mappedMachine.resolve 8 0x40000000 = some 12 := by decide +kernel
  have h11 : mappedMachine.resolve 11 0x40000000 = none := by decide +kernel
  have haddr : KernelAddr 0x40000000 := by decide
  refine ⟨blk, oneDirectory_kernelBooted boot, ?_, haddr, h8, h11, fun hagree => ?_⟩
  · exact (run.kernelRun fun _ _ => trivial).snoc trivial (.map haddr) hsat
  · have hsame : mappedMachine.resolve 8 0x40000000 = mappedMachine.resolve 11 0x40000000 :=
      KernelAgree.resolve hagree (by decide) (by decide) haddr
    cases h8.symm.trans (hsame.trans h11)

end Stos.Kernel
