import Stos.Kernel.Proofs.AddressSpaces

/-!
# Reference counts and isolation over whole runs
-/

namespace Stos.Kernel

open Machine List Finset Option PageEntry SpaceEvent SpaceStep Prod

variable {s s0 s' : Machine} {dirs : Finset Nat} {σ τ : Spaces} {blk blk' : Blocks}
  {u u' : UserSpaces} {d d0 p addr d' addr' : Nat} {ev : SpaceEvent} {evs : List SpaceEvent}
  {x : Slot} {b : BitVec 8}

/-! ## The invariant along a run -/

/-- One directory without tables. -/
theorem Booted.spacesInv (boot : Booted s blk d) (hdirs : u.dirs = {d})
    (hslots : u.slots = allSlots u.dirs) (htable : ∀ d' i, u.table d' i = none) :
    SpacesInv s {d} blk u := by
  have htable' : ∀ d' i t, u.table d' i ≠ some t := fun d' i t ht => by
    cases (htable d' i).symm.trans ht
  have hentry : ∀ x e, s.userEntry u.table x ≠ some e := by
    intro x e he
    obtain ⟨t, ht⟩ := exists_table he
    exact htable' _ _ t ht
  have hd : ∀ d' ∈ u.dirs, d' = d := fun d' hd' => mem_singleton.mp (hdirs ▸ hd')
  refine ⟨⟨boot.steady, ?_, ?_, ?_, ?_, ?_, ?_, ?_, ⟨?_, ?_⟩⟩, hdirs, hslots, ?_,
    ⟨d, Finset.mem_singleton_self d, boot.current⟩, ?_⟩
  · intro d' hd'
    rw [hd d' hd']
    exact ⟨boot.page, boot.one⟩
  · exact fun d' i t ht => absurd ht (htable' d' i t)
  · exact fun d' i _ _ t ht => absurd ht (htable' d' i t)
  · exact fun d' i t ht => absurd ht (htable' d' i t)
  · intro x hx
    rw [hslots, mem_allSlots] at hx
    exact hx.2.2
  · exact fun d' i t ht => absurd ht (htable' d' i t)
  · exact fun x _ e he => absurd he (hentry x e)
  · exact fun x _ e he => absurd he (hentry x e)
  · exact fun x _ _ _ e _ _ he => absurd he (hentry x e)
  · intro d' hd' i hi1 hi
    rw [hd d' hd', tableOf_eq_none (boot.empty i hi1 hi), htable]
  · exact fun x _ e he => absurd he (hentry x e)

/-- The ghost state at boot. -/
def bootSpaces (d : Nat) : UserSpaces := ⟨{d}, fun _ _ => none, allSlots {d}⟩

theorem Booted.bootSpaces (boot : Booted s blk d) : SpacesInv s {d} blk (bootSpaces d) :=
  boot.spacesInv rfl rfl fun _ _ => rfl

theorem Stepped.spacesInv (h : Stepped s dirs blk u τ blk' u') (hτ : Unsaturated τ) :
    SpacesInv τ.1 τ.2 blk' u' :=
  ⟨h.inv, h.live, h.slots, h.rooted, h.current, fun _ _ e _ => hτ e.page⟩

theorem SpaceRun.spacesInv (h : SpacesInv σ.1 σ.2 blk u) (run : SpaceRun σ evs τ) :
    ∃ blk' u', SpacesInv τ.1 τ.2 blk' u' := by
  induction run with
  | nil => exact ⟨blk, u, h⟩
  | snoc _ step hsat ih =>
    obtain ⟨blk1, u1, h1⟩ := ih
    obtain ⟨blk2, u2, eff⟩ := effect h1 step
    exact ⟨blk2, u2, (eff.stepped h1).spacesInv hsat⟩

/-! ## A small machine -/

/-- A machine of `2 ^ (k + 1)` pages that has taken one page for the kernel directory. -/
def oneDirectory (k : Nat) : Machine :=
  let r := (mk (oneBlock k) 0 0 0).pagingCreateDirectory
  { r.2 with kernelPageDirectory := r.1, currentPageDirectory := r.1 }

theorem oneDirectory_booted {k : Nat} (hk : k ≤ 10)
    (hcur : (oneDirectory k).currentPageDirectory ≠ 0) :
    ∃ blk, Booted (oneDirectory k) blk (oneDirectory k).current ∧
      ∀ q, 2 ^ (k + 1) ≤ q → blk q = none ∧ (oneDirectory k).refs q = 0 := by
  have st := (oneBlock_wellFormed k hk).toSteady
  have hout : ∀ q, 2 ^ (k + 1) ≤ q → oneBlockMap k q = none := by
    intro q hq
    cases hb : oneBlockMap k q with
    | none => rfl
    | some b => exact absurd (st.inRange q b.1 b.2 hb) (not_lt.mpr hq)
  unfold oneDirectory pagingCreateDirectory at *
  rcases allocPage_spec (s := mk (oneBlock k) 0 0 0) st with
    h | ⟨p, s1, blk1, h, g⟩
  · rw [h] at hcur
    exact absurd rfl hcur
  rw [h]
  simp only [if_neg (Nat.mul_ne_zero g.pos (show 4096 ≠ 0 by decide))]
  have k1 := Keeps.zeroPage g.keeps.steady g.page
  refine ⟨blk1, ?_, fun q hq => ?_⟩
  · unfold current
    rw [Nat.mul_div_cancel _ (by decide)]
    refine ⟨k1.steady, g.page, g.one, rfl, rfl, fun i _ hi => ?_⟩
    have hempty : (s1.zeroPage (p * 4096)).entry (p * 4096) i = .empty := entry_zeroPage (by omega)
    show ((s1.zeroPage (p * 4096)).entry (p * 4096) i).present = false
    rw [hempty]
    exact empty_present
  · have hfree : ¬ IsFree (oneBlockMap k) q := by
      rintro ⟨o, ho⟩
      cases (hout q hq).symm.trans ho
    exact ⟨(g.keeps.status q hfree fun _ => id).trans (hout q hq), g.keeps.refs q hfree id⟩

/-- An image of one page that may not be written to. -/
def readOnlyElf : Elf := ⟨0x400000, [⟨0x400000, 4096, 4096, 0, 0x5⟩]⟩

/-- The small machine with the image loaded: directory 8, table 10, page 9. -/
def loadedMachine : Machine := ((oneDirectory 3).elfLoadSegments (fun _ => 0x2a) readOnlyElf).2

/-- A run of the small machine. It has 16 pages, so that the counts that matter can be
computed. -/
def SmallRun (evs : List SpaceEvent) (s : Machine) (dirs : Finset Nat) : Prop :=
  (∃ blk, Booted (oneDirectory 3) blk 8) ∧ SpaceRun (oneDirectory 3, {8}) evs (s, dirs) ∧
    ∃ blk u, SpacesInv s dirs blk u ∧ ∀ q, 16 ≤ q → blk q = none ∧ s.refs q = 0

theorem smallRun_boot : SmallRun [] (oneDirectory 3) {8} := by
  obtain ⟨blk, boot, hout⟩ := oneDirectory_booted (k := 3) (by decide) (by decide +kernel)
  have hcur : (oneDirectory 3).current = 8 := by decide +kernel
  exact ⟨⟨blk, boot⟩, .nil _, blk, _, boot.bootSpaces, hout⟩

theorem SmallRun.step {dirs' : Finset Nat} (run : SmallRun evs s dirs)
    (step : SpaceStep (s, dirs) ev (s', dirs')) (hrefs : ∀ q < 16, s'.refs q < 65535) :
    SmallRun (evs ++ [ev]) s' dirs' := by
  obtain ⟨boot, run, blk, u, inv, hout⟩ := run
  obtain ⟨blk', u', eff⟩ := effect inv step
  have st := eff.stepped inv
  have hout' : ∀ q, 16 ≤ q → blk' q = none ∧ s'.refs q = 0 := by
    intro q hq
    obtain ⟨hblk, hzero⟩ := hout q hq
    obtain ⟨hblk', hsame⟩ := st.outside inv hblk
    exact ⟨hblk', hsame.trans hzero⟩
  have hsat : Unsaturated (s', dirs') := by
    intro q
    by_cases hq : q < 16
    · exact hrefs q hq
    · rw [(hout' q (by omega)).2]
      decide
  exact ⟨boot, run.snoc step hsat, blk', u', st.spacesInv hsat, hout'⟩

theorem smallRun_load : SmallRun [.load 8 readOnlyElf true] loadedMachine {8} := by
  have hcur : (oneDirectory 3).current = 8 := by decide +kernel
  have hload : ((oneDirectory 3).elfLoadSegments (fun _ => 0x2a) readOnlyElf).1 = true := by
    decide +kernel
  have hstep : SpaceStep (oneDirectory 3, {8}) (.load 8 readOnlyElf true) (loadedMachine, {8}) := by
    refine .load fun seg hseg => ?_
    rw [List.mem_singleton.mp hseg]
    exact ⟨by decide, by decide, by decide⟩
  exact smallRun_boot.step hstep (by decide +kernel)

/-! ## Reading the ghost state off the machine -/

section

variable (h : SpacesInv s dirs blk u)
include h

theorem SpacesInv.userEntry_tableOf (hx : x ∈ allSlots dirs) :
    s.userEntry s.tableOf x = s.userEntry u.table x := by
  obtain ⟨hd, ⟨hi1, hi⟩, -⟩ := mem_allSlots.mp hx
  unfold userEntry
  rw [h.rooted x.1 (h.live ▸ hd) x.2.1 hi1 hi]

theorem SpacesInv.slots_eq : u.slots = allSlots dirs := by
  rw [h.slots, h.live]

theorem SpacesInv.mapCount_eq (p : Nat) :
    mapCount (s, dirs) p = refsTo u.slots (targets page (s.userEntry u.table)) p := by
  rw [h.slots_eq]
  exact refsTo_congr fun y hy => targets_congr (h.userEntry_tableOf hy)

/-- A page is mapped exactly when some slot maps it. -/
theorem SpacesInv.mapCount_pos_iff :
    0 < mapCount (s, dirs) p ↔
      ∃ x ∈ u.slots, ∃ e, s.userEntry u.table x = some e ∧ e.page = p := by
  rw [h.mapCount_eq, refsTo_pos_iff]
  constructor
  · rintro ⟨x, hx, ht⟩
    exact ⟨x, hx, exists_of_targets ht⟩
  · rintro ⟨x, hx, e, he, rfl⟩
    exact ⟨x, hx, targets_eq_some he⟩

end

theorem mapCount_pos {i j : Nat} (hd : d ∈ dirs) (hi : 1 ≤ i ∧ i < 256) (hj : j < 1024)
    (ht : targets page (s.userEntry s.tableOf) (d, i, j) = some p) :
    0 < mapCount (s, dirs) p :=
  refsTo_pos_iff.mpr ⟨(d, i, j), mem_allSlots.mpr ⟨hd, hi, hj⟩, ht⟩

theorem pageFree_iff (st : Steady s.pmm blk) : PageFree s p ↔ IsFree blk p := by
  have hpage : ∀ q, pmmAddrToPage (q * 4096) = q := fun q => Nat.mul_div_cancel q (by decide)
  constructor
  · rintro ⟨o, addr, ho, hlist, hhas⟩
    obtain ⟨q, rfl, hdvd, hq⟩ := (onFreeList_iff st.lists ho).mp hlist
    rw [hpage] at hhas
    exact ⟨o, st.aligned q o .free hq p ((PageBlock.has_iff hdvd).mp hhas)⟩
  · rintro ⟨o, hp⟩
    have ho := st.order_le p o .free hp
    have hb := st.aligned.hasBlock hp
    refine ⟨o, _, ho, (onFreeList_iff st.lists ho).mpr ⟨_, rfl, hb⟩, ?_⟩
    rw [hpage]
    exact (PageBlock.has_iff hb.1).mpr (Nat.mul_div_cancel _ (Nat.two_pow_pos o)).symm

/-! ## Reference counts -/

section

variable (h : SpacesInv s dirs blk u)
include h

theorem SpacesInv.refs_eq (hp : 0 < mapCount (s, dirs) p) : s.refs p = mapCount (s, dirs) p := by
  obtain ⟨x, hx, e, he, rfl⟩ := h.mapCount_pos_iff.mp hp
  have hcount := h.inv.shared.counted x hx e he
  have hsat := h.unsaturated x hx e he
  rw [h.mapCount_eq]
  omega

/-- A page that two entries map is marked copy-on-write in each of them. -/
theorem SpacesInv.locked (hp : 2 ≤ mapCount (s, dirs) p)
    (hx : x ∈ u.slots) {e : PageEntry} (he : s.userEntry u.table x = some e) (hpage : e.page = p) :
    e.Locked := by
  rw [h.mapCount_eq] at hp
  obtain ⟨y, hy, hne, hty⟩ := exists_other_of_two_le x hp
  obtain ⟨f, hf, hfp⟩ := exists_of_targets hty
  exact h.inv.shared.locked x hx y hy e f hne.symm he hf (hpage.trans hfp.symm)

theorem SpacesInv.not_pageFree (hp : 0 < mapCount (s, dirs) p) : ¬ PageFree s p := by
  obtain ⟨x, hx, e, he, rfl⟩ := h.mapCount_pos_iff.mp hp
  rw [pageFree_iff h.inv.steady]
  exact (h.inv.frame x hx e he).1.not_isFree

/-- A mapped page is given back by the operation that removes its last mapping. -/
theorem Stepped.pageFree_iff_unmapped (st : Stepped s dirs blk u τ blk' u') (h' : SpacesInv τ.1 τ.2 blk' u')
    (hp : 0 < mapCount (s, dirs) p) : PageFree τ.1 p ↔ mapCount τ p = 0 := by
  constructor
  · intro hfree
    by_contra hne
    exact h'.not_pageFree (Nat.pos_of_ne_zero hne) hfree
  · intro hzero
    obtain ⟨x, hx, e, he, rfl⟩ := h.mapCount_pos_iff.mp hp
    rcases st.lost x hx e he with ⟨y, hy, f, hf, hpage⟩ | hfree
    · have hpos : 0 < mapCount τ e.page := h'.mapCount_pos_iff.mpr ⟨y, hy, f, hf, hpage⟩
      omega
    · exact (pageFree_iff st.inv.steady).mpr hfree

end

/-- In every state of every run the reference count of a mapped page is the number of user
page table entries that map it; if there are several, each is marked copy-on-write and does
not allow writes; and a mapped page is on no free list, and is there after the next operation
exactly when nothing maps it any more. -/
theorem spaceRun_mapCount (boot : Booted s₀ blk d₀) (run : SpaceRun (s₀, {d₀}) evs σ) :
    (∀ p, 0 < mapCount σ p → σ.1.refs p = mapCount σ p) ∧
      (∀ p, 2 ≤ mapCount σ p → ∀ x ∈ allSlots σ.2, ∀ e,
        σ.1.userEntry σ.1.tableOf x = some e → e.page = p → e.cow = true ∧ e.rw = false) ∧
      (∀ p, 0 < mapCount σ p → ¬ PageFree σ.1 p) ∧
      ∀ ev τ, SpaceStep σ ev τ → Unsaturated τ → ∀ p, 0 < mapCount σ p →
        (PageFree τ.1 p ↔ mapCount τ p = 0) := by
  obtain ⟨blk₁, u₁, h⟩ := run.spacesInv boot.bootSpaces
  refine ⟨fun p hp => h.refs_eq hp, fun p hp x hx e he hpage => ?_, fun p hp => h.not_pageFree hp,
    fun ev τ step hτ p hp => ?_⟩
  · rw [h.userEntry_tableOf hx] at he
    exact h.locked hp (h.slots_eq ▸ hx) he hpage
  · obtain ⟨blk₂, u₂, eff⟩ := SpaceStep.effect h step
    have st := eff.stepped h
    exact st.pageFree_iff_unmapped h (st.spacesInv hτ) hp

theorem spaceRun_mapCount_loadedMachine :
    mapCount (loadedMachine, {8}) 9 = 1 ∧ loadedMachine.refs 9 = 1 ∧ ¬ PageFree loadedMachine 9 := by
  obtain ⟨⟨blk, boot⟩, run, -⟩ := smallRun_load
  obtain ⟨hrefs, -, hfree, -⟩ := spaceRun_mapCount boot run
  have hpos : 0 < mapCount (loadedMachine, {8}) 9 :=
    mapCount_pos (Finset.mem_singleton_self 8) (i := 1) (j := 0) (by decide) (by decide)
      (by decide +kernel)
  have hone : loadedMachine.refs 9 = 1 := by decide +kernel
  exact ⟨(hrefs 9 hpos).symm.trans hone, hone, hfree 9 hpos⟩

/-- What a program reads is the byte in the page of its slot. -/
theorem userByte_eq (rooted : Rooted s u) (hd : d ∈ u.dirs) (haddr : UserAddr addr) :
    s.userByte d addr =
      (s.userEntry u.table (slotOf d addr)).map fun e => s.mem (e.page * 4096 + addr % 4096) := by
  have htable := rooted d hd _ haddr.pdIndex.1 haddr.pdIndex.2
  unfold userByte userEntry slotOf
  rw [htable]
  unfold tableOf
  dsimp only
  cases (s.entry (d * 4096) (pagingGetPdIndex addr)).present with
  | false => rfl
  | true =>
    simp only [Bool.not_true, Bool.false_eq_true, if_false, if_true, bind_some]
    rw [addr_eq]
    cases (s.entry ((s.entry (d * 4096) (pagingGetPdIndex addr)).page * 4096)
      (pagingGetPtIndex addr)).present with
    | false => rfl
    | true => rfl

theorem ReadsAs.userByte (rooted : Rooted s u) (rooted' : Rooted s' u') (hd : d ∈ u.dirs)
    (hd' : d' ∈ u'.dirs) (haddr : UserAddr addr)
    (hreads : ReadsAs s u.table (slotOf d addr) s' u'.table (slotOf d' addr))
    (hb : s.userByte d addr = some b) : s'.userByte d' addr = some b := by
  rw [userByte_eq rooted hd haddr] at hb
  rw [userByte_eq rooted' hd' haddr]
  obtain ⟨e, he, rfl⟩ := map_eq_some_iff.mp hb
  obtain ⟨e', he', hbytes⟩ := hreads e he
  rw [he', map_some, hbytes _ (Nat.mod_lt _ (by decide))]

theorem ReadsAs.of_same {W R : Set Nat} (h : SpacesInv s dirs blk u) (hx : x ∈ u.slots)
    (k : Keeps s blk s' blk' W R) (hW : ∀ e, s.userEntry u.table x = some e → e.page ∉ W)
    (hsame : targets page (s'.userEntry u'.table) x =
      targets page (s.userEntry u.table) x) : ReadsAs s u.table x s' u'.table x := by
  intro e he
  rw [targets_eq_some he] at hsame
  obtain ⟨e', he', hpage⟩ := exists_of_targets hsame
  refine ⟨e', he', fun i hi => ?_⟩
  rw [hpage]
  exact k.byte (h.inv.frame x hx e he).1.not_isFree (hW e he) hi

theorem Extended.readsAs (ext : Extended s blk u d s' blk' u') (h : SpacesInv s dirs blk u)
    (hd : d ∈ u.dirs) (hx : x ∈ u.slots) : ReadsAs s u.table x s' u'.table x := by
  intro e he
  have hW : ∀ f, s.userEntry u.table x = some f → f.page ∉ {d} ∪ tablesOf u d := by
    rintro f hf (hq | hq)
    · exact (h.inv.frame x hx f hf).2.1 (Set.mem_singleton_iff.mp hq ▸ hd)
    · exact h.inv.frame_not_structural hx hf (tablesOf_structural hq)
  refine ReadsAs.of_same h hx ext.keeps hW ?_ e he
  rw [targets_eq_some he, targets_eq_some (ext.old x hx e he)]

/-- An address is its slot and its offset in the page. -/
theorem slotOf_inj (h : slotOf d addr = slotOf d' addr') (hoffset : addr % 4096 = addr' % 4096) :
    addr = addr' := by
  unfold slotOf pagingGetPdIndex pagingGetPtIndex at h
  obtain ⟨hpd, hpt⟩ := mk.inj (mk.inj h).2
  omega

/-- Directories that an operation does not tear down read as before, but for their own
writes. -/
theorem SpaceEffect.readsAs (h : SpacesInv s dirs blk u)
    (eff : SpaceEffect s dirs blk u ev τ blk' u') (hx : x ∈ u.slots) (htorn : ev ≠ .teardown x.1)
    (hwrite : ∀ addr v, ev = .write x.1 addr v → slotOf x.1 addr ≠ x) :
    ReadsAs s u.table x τ.1 u'.table x := by
  obtain ⟨hcur, -⟩ := h.current_mem
  have hstructural : ∀ e, s.userEntry u.table x = some e → e.page ∉ u.structural := fun e he =>
    h.inv.frame_not_structural hx he
  cases eff with
  | forked hsrc hfree f =>
    exact .of_same h hx f.keeps (fun e he hq => hstructural e he (tablesOf_structural hq))
      (f.pages x hx)
  | notRecovered => exact fun e he => ⟨e, he, fun _ _ => rfl⟩
  | @unshared addr _ _ _ haddr he hcow hun rooted' =>
    by_cases hxa : x = slotOf s.current addr
    · exact hxa ▸ hun.reads
    · exact hun.others h.inv hx hxa
  | @stored addr v _ _ haddr _ st =>
    refine st.others x hx fun hxa => ?_
    have hx1 : x.1 = s.current := by rw [hxa]; rfl
    exact hwrite addr v (by rw [hx1]) (by rw [hx1, hxa])
  | mapped ext => exact ext.readsAs h hcur hx
  | loaded ext _ _ => exact ext.readsAs h hcur hx
  | switched hd => exact fun e he => ⟨e, he, fun _ _ => rfl⟩
  | @tornDown d _ _ _ hd hdcur hkernel ht =>
    have hxd : x.1 ≠ d := fun hxd => htorn (by rw [hxd])
    have hx' : x ∈ u'.slots := by
      rw [h.slots, mem_allSlots] at hx
      rw [ht.slots, mem_allSlots, mem_erase]
      exact ⟨⟨hxd, hx.1⟩, hx.2⟩
    refine .of_same h hx ht.keeps ?_ (targets_congr (ht.same x hx'))
    rintro e he ((hq | ⟨-, honly⟩) | rfl)
    · exact hstructural e he (tablesOf_structural hq)
    · exact honly x hx hxd ⟨e, he, rfl⟩
    · exact (h.inv.frame x hx e he).2.1 (h.live ▸ hd)

/-- What one operation does to a byte that a directory can read. -/
theorem SpaceEffect.userByte (h : SpacesInv s dirs blk u)
    (eff : SpaceEffect s dirs blk u ev τ blk' u') (hd : d ∈ dirs) (htorn : ev ≠ .teardown d)
    (haddr : UserAddr addr) (hb : s.userByte d addr = some b) :
    d ∈ τ.2 ∧ τ.1.userByte d addr = some (ev.byteAfter d addr b) := by
  have hdu : d ∈ u.dirs := h.live ▸ hd
  have hx : slotOf d addr ∈ u.slots := h.slots ▸ slotOf_mem hdu haddr
  have st := eff.stepped h
  have hd' : d ∈ τ.2 := by
    cases eff with
    | forked => exact mem_insert_of_mem hd
    | tornDown => exact mem_erase.mpr ⟨fun e => htorn (by rw [e]), hd⟩
    | _ => exact hd
  have hdu' : d ∈ u'.dirs := st.live ▸ hd'
  refine ⟨hd', ?_⟩
  by_cases hwrite : ∀ addr' v, ev = .write d addr' v → slotOf d addr' ≠ slotOf d addr
  · -- the slot of the address is not written to
    rw [(eff.readsAs h hx htorn hwrite).userByte h.rooted st.rooted hdu hdu' haddr hb]
    cases ev with
    | write d' addr' v =>
      rw [byteAfter_write, if_neg]
      rintro ⟨rfl, rfl⟩
      exact hwrite addr' v rfl rfl
    | _ => rfl
  · push Not at hwrite
    obtain ⟨addr', v, rfl, hslot⟩ := hwrite
    cases eff with
    | stored haddr' _ hst =>
      obtain ⟨e, e', he, he', hbytes⟩ := hst.own
      rw [userByte_eq h.rooted hdu haddr, ← hslot, he, map_some] at hb
      rw [userByte_eq st.rooted hdu haddr, ← hslot, he', map_some,
        hbytes _ (Nat.mod_lt _ (by decide)), Option.some.inj hb, byteAfter_write]
      by_cases hoffset : addr % 4096 = addr' % 4096
      · rw [if_pos hoffset, if_pos ⟨rfl, slotOf_inj hslot hoffset.symm⟩]
      · rw [if_neg hoffset, if_neg]
        rintro ⟨-, rfl⟩
        exact hoffset rfl

/-- A byte of a live directory changes by the writes of that directory alone. -/
theorem SpaceRun.userByte (h : SpacesInv σ.1 σ.2 blk u) (run : SpaceRun σ evs τ) (hd : d ∈ σ.2)
    (htorn : .teardown d ∉ evs) (haddr : UserAddr addr) (hb : σ.1.userByte d addr = some b) :
    d ∈ τ.2 ∧ τ.1.userByte d addr = some (evs.foldl (byteAfter d addr) b) := by
  induction run with
  | nil => exact ⟨hd, hb⟩
  | snoc run step hsat ih =>
    rw [List.mem_append, List.mem_singleton, not_or] at htorn
    obtain ⟨hd1, hb1⟩ := ih htorn.1
    obtain ⟨blk1, u1, h1⟩ := run.spacesInv h
    obtain ⟨blk2, u2, eff⟩ := effect h1 step
    rw [foldl_append]
    exact eff.userByte h1 hd1 (Ne.symm htorn.2) haddr hb1

/-- A write changes nothing that another directory reads. -/
theorem Stored.userByte_other {v : BitVec 8} (h : SpacesInv s dirs blk u)
    (st : Stored s blk u d addr v s' blk') (hd' : d' ∈ u.dirs) (hne : d' ≠ d)
    (haddr' : UserAddr addr') : s'.userByte d' addr' = s.userByte d' addr' := by
  have hx : slotOf d' addr' ∈ u.slots := h.slots ▸ slotOf_mem hd' haddr'
  have hslot : slotOf d' addr' ≠ slotOf d addr := fun e => hne (mk.inj e).1
  cases hb : s.userByte d' addr' with
  | some b => exact (st.others _ hx hslot).userByte h.rooted st.rooted hd' hd' haddr' hb
  | none =>
    rw [userByte_eq h.rooted hd' haddr', map_eq_none_iff] at hb
    rw [userByte_eq st.rooted hd' haddr', st.entries _ hx hslot, hb]
    rfl

end Stos.Kernel
