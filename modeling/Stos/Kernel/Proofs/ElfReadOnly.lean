import Stos.Kernel.Proofs.SpaceRuns

/-!
# Pages loaded without write permission

`paging_clone_page_table` marks every page it shares as copy-on-write, whether or not it was
writable before, and `paging_handle_page_fault_cow` makes a marked page writable. So a page
of a read-only segment keeps its permission only as long as its address space is not cloned.
-/

namespace Stos.Kernel

open Machine List Option

variable {s s0 s' : Machine} {dirs : Finset Nat} {σ τ : Spaces} {blk blk' : Blocks}
  {u u' : UserSpaces} {d d0 addr virt : Nat} {ev : SpaceEvent} {evs : List SpaceEvent}
  {pages : Set (Nat × Nat)}

/-- The page at `virt` is mapped without write permission and without the copy-on-write mark. -/
structure MappedReadOnly (s : Machine) (u : UserSpaces) (d virt : Nat) : Prop where
  dir : d ∈ u.dirs
  addr : UserAddr virt
  align : virt % 4096 = 0
  entry : ∃ e, s.userEntry u.table (slotOf d virt) = some e ∧ e.rw = false ∧ e.cow = false

theorem MappedReadOnly.keep (h : MappedReadOnly s u d virt) (hd : d ∈ u'.dirs)
    (hsame : ∀ e, s.userEntry u.table (slotOf d virt) = some e → e.rw = false → e.cow = false →
      s'.userEntry u'.table (slotOf d virt) = some e) : MappedReadOnly s' u' d virt := by
  obtain ⟨e, he, hrw, hcow⟩ := h.entry
  exact ⟨hd, h.addr, h.align, e, hsame e he hrw hcow, hrw, hcow⟩

/-- Each of the pages is so mapped. -/
def ReadOnlyInv (s : Machine) (u : UserSpaces) (pages : Set (Nat × Nat)) : Prop :=
  ∀ d virt, (d, virt) ∈ pages → MappedReadOnly s u d virt

/-- Neither the processor nor the fault handler lets a write to such a page pass. -/
theorem userWrite_readOnly {e : PageEntry} (cur : Current s u d) (haddr : UserAddr addr)
    (he : s.userEntry u.table (slotOf d addr) = some e) (hrw : e.rw = false)
    (hcow : e.cow = false) (v : BitVec 8) :
    s.userWrite addr v = none := by
  have hstore : s.store false addr v = none := by
    unfold store
    rw [if_neg]
    intro hw
    obtain ⟨hpresent, hwritable⟩ := isWritable_entry hw
    obtain ⟨f, hf, -, hentry⟩ := currentSlot cur haddr hpresent
    obtain rfl := some.inj (he.symm.trans hf)
    rw [← hentry, hrw] at hwritable
    exact Bool.false_ne_true hwritable
  unfold userWrite pageFaultTryRecover
  rw [hstore, pagingHandlePageFaultCow_not_cow cur haddr he hcow]
  dsimp only
  split
  · next h =>
    split at h
    · cases h
    · cases h
  · rfl

/-- One operation keeps the pages read-only, unless it clones an address space that holds
one. -/
theorem SpaceEffect.readOnly (h : SpacesInv s dirs blk u)
    (eff : SpaceEffect s dirs blk u ev τ blk' u') (hro : ReadOnlyInv s u pages)
    (hfork : ∀ src dst, ev = .fork src dst true → ∀ virt, (src, virt) ∉ pages) :
    ReadOnlyInv τ.1 u' (ev.readOnlyAfter pages) := by
  have hslot : ∀ {d virt}, MappedReadOnly s u d virt → slotOf d virt ∈ u.slots :=
    fun m => h.slots ▸ slotOf_mem m.dir m.addr
  cases eff with
  | @forked src dst usermode s' _ _ hsrc hfree f =>
    -- the source has no such page, or its user space is not cloned
    have hold : ∀ d virt, (d, virt) ∈ pages → (usermode = true → d ≠ src) →
        MappedReadOnly s' u' d virt := by
      intro d virt hx hne
      have m := hro d virt hx
      refine m.keep (f.dirs ▸ Finset.mem_insert_of_mem m.dir) fun e he _ _ => ?_
      rw [f.same _ (hslot m), he]
      cases usermode with
      | false => exact .inr m.addr.pdIndex.1
      | true => exact .inl (hne rfl)
    cases usermode with
    | false => exact fun d virt hx => hold d virt hx fun e => by cases e
    | true =>
      rintro d virt (hx | ⟨-, hx⟩)
      · refine hold d virt hx fun _ hd => ?_
        exact hfork src dst rfl virt (hd ▸ hx)
      · exact absurd hx (hfork src dst rfl virt)
  | notRecovered => exact hro
  | @unshared addr e _ _ haddr he hcow hun rooted' =>
    intro d virt hx
    have m := hro d virt hx
    refine m.keep m.dir fun f hf _ hfcow => ?_
    rw [hun.rest _ (hslot m), hf]
    intro heq
    rw [heq] at hf
    rw [some.inj (hf.symm.trans he), hcow] at hfcow
    cases hfcow
  | @stored addr v _ _ haddr run st =>
    intro d virt hx
    have m := hro d virt hx
    refine m.keep m.dir fun f hf hfrw hfcow => ?_
    rw [st.entries _ (hslot m), hf]
    intro heq
    rw [heq] at hf
    rw [userWrite_readOnly h.inSpace.toCurrent haddr hf hfrw hfcow] at run
    cases run
  | mapped ext =>
    intro d virt hx
    have m := hro d virt hx
    exact m.keep (ext.dirs ▸ m.dir) fun f hf _ _ => ext.old _ (hslot m) f hf
  | @loaded elf loaded s' _ _ ext hsegs hloaded =>
    have hold : ReadOnlyInv s' u' pages := by
      intro d virt hx
      have m := hro d virt hx
      exact m.keep (ext.dirs ▸ m.dir) fun f hf _ _ => ext.old _ (hslot m) f hf
    cases loaded with
    | false => exact hold
    | true =>
      rintro d virt (hx | ⟨hd, seg, hseg, hflag, k, hk, hvirt⟩)
      · exact hold d virt hx
      · obtain rfl : d = s.current := hd
        obtain rfl : virt = seg.vaddrStart + k * 4096 := hvirt
        obtain ⟨e, he, hrw, hcow⟩ := hloaded rfl seg hseg k hk
        refine ⟨ext.dirs ▸ h.current_mem.1, (hsegs seg hseg).page hk, ?_, e, he, hrw.trans hflag, hcow⟩
        unfold ElfSegment.vaddrStart
        omega
  | switched hd => exact fun d virt hx => ⟨(hro d virt hx).dir, (hro d virt hx).addr,
      (hro d virt hx).align, (hro d virt hx).entry⟩
  | @tornDown d' _ _ _ hd hdcur hkernel ht =>
    rintro d virt ⟨hx, hne⟩
    have m := hro d virt hx
    have hd' : d ∈ u'.dirs := ht.dirs ▸ Finset.mem_erase.mpr ⟨hne, m.dir⟩
    refine m.keep hd' fun f hf _ _ => ?_
    have hx' : slotOf d virt ∈ u'.slots := by
      rw [ht.slots, ← ht.dirs]
      exact slotOf_mem hd' m.addr
    rw [ht.same _ hx', hf]

theorem ForksWritable.of_snoc (h : ForksWritable (evs ++ [ev])) :
    ForksWritable evs ∧
      ∀ src dst, ev = .fork src dst true → ∀ virt, (src, virt) ∉ readOnlyPages evs := by
  refine ⟨fun before src dst after he => h before src dst (after ++ [ev]) ?_, ?_⟩
  · rw [he, append_assoc, cons_append]
  · rintro src dst rfl
    exact h evs src dst [] rfl

theorem SpaceRun.readOnly (boot : Booted s0 blk d0) (run : SpaceRun (s0, {d0}) evs τ)
    (hfork : ForksWritable evs) :
    ∃ blk' u', SpacesInv τ.1 τ.2 blk' u' ∧ ReadOnlyInv τ.1 u' (readOnlyPages evs) := by
  generalize hσ : ((s0, {d0}) : Spaces) = σ at run
  induction run with
  | nil =>
    subst hσ
    exact ⟨blk, _, boot.bootSpaces, fun d virt hx => hx.elim⟩
  | snoc _ step hsat ih =>
    obtain ⟨hfork', hlast⟩ := hfork.of_snoc
    obtain ⟨blk1, u1, h₁, hro⟩ := ih hfork'
    obtain ⟨blk2, u2, eff⟩ := SpaceStep.effect h₁ step
    refine ⟨blk2, u2, (eff.stepped h₁).spacesInv hsat, ?_⟩
    unfold readOnlyPages
    rw [foldl_append]
    exact eff.readOnly h₁ hro hlast

/-- In every run that clones no address space with a page of a read-only segment, such a page
is never writable: not before and not after any operation of the run, and neither a write to
it nor the recovery of a fault there succeeds. -/
theorem spaceRun_readOnly (boot : Booted s₀ blk d₀) (run : SpaceRun (s₀, {d₀}) evs (s, dirs))
    (hfork : ForksWritable evs) (hx : (d, virt) ∈ readOnlyPages evs) :
    (∃ e, s.userEntry s.tableOf (slotOf d virt) = some e ∧ e.rw = false) ∧
      (s.current = d → ∀ addr, pagingAlignDown addr = virt →
        (∀ present writeAccess,
          s.pageFaultTryRecover present writeAccess addr = some (false, s)) ∧
        ∀ v, s.userWrite addr v = none) := by
  obtain ⟨blk', u', h, hro⟩ := run.readOnly boot hfork
  have m := hro d virt hx
  obtain ⟨e, he, hrw, hcow⟩ := m.entry
  constructor
  · refine ⟨e, ?_, hrw⟩
    rwa [h.userEntry_tableOf (slotOf_mem (h.live ▸ m.dir) m.addr)]
  · rintro rfl addr rfl
    have cur := h.inSpace.toCurrent
    have haddr : UserAddr addr := by
      obtain ⟨hlo, hhi⟩ := m.addr
      unfold pagingAlignDown at hlo hhi
      exact ⟨by omega, by omega⟩
    have hslot : slotOf s.current (pagingAlignDown addr) = slotOf s.current addr := by
      unfold slotOf
      rw [pagingGetPdIndex_alignDown, pagingGetPtIndex_alignDown]
    rw [hslot] at he
    refine ⟨fun present writeAccess => ?_, userWrite_readOnly cur haddr he hrw hcow⟩
    unfold pageFaultTryRecover
    rw [pagingHandlePageFaultCow_not_cow cur haddr he hcow]
    split
    · rfl
    · rfl

theorem spaceRun_readOnly_loadedMachine :
    (∃ e, loadedMachine.userEntry loadedMachine.tableOf (slotOf 8 0x400000) = some e ∧
      e.rw = false) ∧ loadedMachine.userWrite 0x400123 7 = none := by
  obtain ⟨⟨blk, boot⟩, run, -⟩ := smallRun_load
  have hfork : ForksWritable [.load 8 readOnlyElf true] := by
    rintro (_ | ⟨ev, before⟩) src dst after h
    · cases h
    · exact absurd h (by simp)
  have hx : (8, 0x400000) ∈ readOnlyPages [.load 8 readOnlyElf true] :=
    .inr ⟨rfl, _, mem_singleton_self _, by decide, 0, by decide, by decide⟩
  obtain ⟨hentry, hwrite⟩ := spaceRun_readOnly boot run hfork hx
  exact ⟨hentry, (hwrite (by decide +kernel) 0x400123 (by decide)).2 7⟩

/-! ## A clone makes the page writable -/

section Clone

variable {src dst i t : Nat} {s1 s2 s3 s4 : Machine}

theorem copyPresentEntries_absent {lo hi : Nat}
    (habsent : ∀ i, lo ≤ i → i < hi → (s.entry src i).present = false) :
    copyPresentEntries dst src lo hi s = s := by
  refine foldl_range_inv (P := fun _ b => b = s) rfl fun i b hlo hhi hb => ?_
  rw [hb, habsent i hlo (by omega)]
  rfl

/-- Cloning an address space that has a table at index `i` only and no stack. -/
theorem pagingCloneDirectory_single (hsrc : src ≠ 0) (hdst : dst ≠ 0)
    (hcreate : s.pagingCreateDirectory = (dst, s1))
    (hs2 : s2 = s1.setEntry dst 0 (s1.entry src 0))
    (hkernel : ∀ k, 256 ≤ k → k < 1024 → (s2.entry src k).present = false)
    (hi : 1 ≤ i ∧ i < 256) (hpresent : (s2.entry src i).present = true)
    (hbefore : ∀ k, 1 ≤ k → k < i → (s2.entry src k).present = false)
    (hclone : s2.pagingClonePageTable (s2.entry src i).addr i 0 0 = some (t, s3))
    (hs4 : s4 = (s3.setEntry dst i (s3.entry src i)).setEntry dst i
      { (s3.setEntry dst i (s3.entry src i)).entry dst i with frame := frameOf t })
    (hafter : ∀ k, i < k → k < 256 → (s4.entry src k).present = false) :
    s.pagingCloneDirectory src true 0 0 = some (dst, s4) := by
  have hskip : ∀ (b : Machine) k, (b.entry src k).present = false →
      cloneUserEntry dst src 0 0 b k = some b := by
    intro b k h
    simp [cloneUserEntry, h]
  have hloop : (range' 1 255).foldlM (cloneUserEntry dst src 0 0) s2 = some s4 := by
    refine foldlM_range_one hi (fun k h1 h2 => hskip s2 k (hbefore k h1 h2)) ?_
      fun k h1 h2 => hskip s4 k (hafter k h1 (by omega))
    unfold cloneUserEntry
    simp only [hpresent, Bool.not_true, Bool.false_eq_true, if_false, hclone]
    rw [hs4]
  unfold pagingCloneDirectory
  rw [if_neg hsrc, hcreate]
  dsimp only
  rw [if_neg hdst, ← hs2, copyPresentEntries_absent fun k h1 h2 => hkernel k (by omega) h2,
    copyPresentEntries_absent fun k h1 h2 => hkernel k h1 (by omega), if_pos rfl, hloop]
  rfl

/-- Cloning a table with one entry that is present. -/
theorem pagingClonePageTable_single {j : Nat} (hj : j < 1024) (ht : t ≠ 0)
    (halloc : s.allocPage = (t, s1)) (hs2 : s2 = s1.zeroPage t)
    (hbefore : ∀ k < j, (s2.entry src k).present = false)
    (hentry : clonePageTableEntry src t i 0 0 s2 j = some s3)
    (hafter : ∀ k, j < k → k < 1024 → (s3.entry src k).present = false) :
    s.pagingClonePageTable src i 0 0 = some (t, s3) := by
  have hskip : ∀ (b : Machine) k, (b.entry src k).present = false →
      clonePageTableEntry src t i 0 0 b k = some b := by
    intro b k h
    simp [clonePageTableEntry, isStackPage, h]
  have hloop : (range 1024).foldlM (clonePageTableEntry src t i 0 0) s2 = some s3 := by
    rw [range_eq_range']
    exact foldlM_range_one ⟨Nat.zero_le j, by omega⟩ (fun k _ h => hskip s2 k (hbefore k h)) hentry
      fun k h1 h2 => hskip s3 k (hafter k h1 (by omega))
  unfold pagingClonePageTable
  rw [halloc]
  dsimp only
  rw [if_neg ht, ← hs2, hloop]
  rfl

end Clone

theorem entry_present (s : Machine) (base i : Nat) :
    (s.entry base i).present = (s.mem (base + 4 * i)).getLsbD 0 := by
  unfold entry readEntry PageEntry.decode read32
  rw [BitVec.getLsbD_append]
  rfl

/-- The clone of `loadedMachine`, step by step: the new directory, the new table, the shared
page and the entry of the table. -/
def forkBase : Machine :=
  let s := loadedMachine.pagingCreateDirectory.2
  s.setEntry (11 * 4096) 0 (s.entry (8 * 4096) 0)

def forkTable : Machine := forkBase.allocPage.2.zeroPage (12 * 4096)

def forkShared : Machine :=
  (clonePageTableEntry (10 * 4096) (12 * 4096) 1 0 0 forkTable 0).getD forkTable

def forkedMachine : Machine :=
  let s := forkShared.setEntry (11 * 4096) 1 (forkShared.entry (8 * 4096) 1)
  s.setEntry (11 * 4096) 1 { s.entry (11 * 4096) 1 with frame := frameOf (12 * 4096) }

theorem forkedMachine_eq :
    loadedMachine.pagingCloneDirectory (8 * 4096) true 0 0 = some (11 * 4096, forkedMachine) := by
  have hpair : ∀ {r : Nat × Machine} {addr : Nat}, r.1 = addr → r = (addr, r.2) := by
    rintro ⟨a, s⟩ addr rfl
    rfl
  have hcreate := hpair (show loadedMachine.pagingCreateDirectory.1 = 11 * 4096 by decide +kernel)
  have halloc := hpair (show forkBase.allocPage.1 = 12 * 4096 by decide +kernel)
  have hentry : (forkBase.entry (8 * 4096) 1).present = true ∧
      (forkBase.entry (8 * 4096) 1).addr = 10 * 4096 := by decide +kernel
  have hshare : clonePageTableEntry (10 * 4096) (12 * 4096) 1 0 0 forkTable 0 = some forkShared := by
    have hsome : (clonePageTableEntry (10 * 4096) (12 * 4096) 1 0 0 forkTable 0).isSome := by
      decide +kernel
    obtain ⟨b, hb⟩ := isSome_iff_exists.mp hsome
    unfold forkShared
    rw [hb]
    rfl
  -- nothing else is present in the directory and in the table
  have hkernel : ∀ k < 768, (forkBase.mem (8 * 4096 + 4 * (256 + k))).getLsbD 0 = false := by
    decide +kernel
  have hdir : ∀ k < 254, (forkedMachine.mem (8 * 4096 + 4 * (2 + k))).getLsbD 0 = false := by
    decide +kernel
  have htable : ∀ k < 1023, (forkShared.mem (10 * 4096 + 4 * (1 + k))).getLsbD 0 = false := by
    decide +kernel
  have hclone : forkBase.pagingClonePageTable (forkBase.entry (8 * 4096) 1).addr 1 0 0 =
      some (12 * 4096, forkShared) := by
    rw [hentry.2]
    refine pagingClonePageTable_single (j := 0) (by decide) (by decide) halloc rfl
      (fun k h => by omega) hshare fun k h1 h2 => ?_
    rw [entry_present]
    have := htable (k - 1) (by omega)
    rwa [Nat.add_sub_cancel' h1] at this
  have hbase : forkBase = loadedMachine.pagingCreateDirectory.2.setEntry (11 * 4096) 0
      (loadedMachine.pagingCreateDirectory.2.entry (8 * 4096) 0) := rfl
  refine pagingCloneDirectory_single (by decide) (by decide) hcreate hbase (fun k h1 h2 => ?_)
    (by decide) hentry.1 (fun k h1 h2 => by omega) hclone rfl (fun k h1 h2 => ?_)
  · rw [entry_present]
    have := hkernel (k - 256) (by omega)
    rwa [Nat.add_sub_cancel' h1] at this
  · rw [entry_present]
    have := hdir (k - 2) (by omega)
    rwa [Nat.add_sub_cancel' h1] at this

/-- The parent has been forked. -/
theorem smallRun_fork :
    SmallRun [.load 8 readOnlyElf true, .fork 8 11 true] forkedMachine {11, 8} := by
  have hfork : SpaceStep (loadedMachine, {8}) (.fork 8 11 true) (forkedMachine, {11, 8}) :=
    .fork (Finset.mem_singleton_self 8) forkedMachine_eq
  exact smallRun_load.step hfork (by decide +kernel)

/-- After the parent has written to the page. -/
def faultedMachine : Machine :=
  ((forkedMachine.pageFaultTryRecover true true 0x400000).getD (true, forkedMachine)).2

/-- After a clone and a write fault of the parent its page of the read-only segment is
writable. -/
theorem readOnly_page_made_writable :
    ∃ evs, SpaceRun (oneDirectory 3, {8}) evs (faultedMachine, {11, 8}) ∧
    (8, 0x400000) ∈ readOnlyPages evs ∧
    forkedMachine.pageFaultTryRecover true true 0x400000 = some (true, faultedMachine) ∧
    ∃ e, faultedMachine.userEntry faultedMachine.tableOf (slotOf 8 0x400000) = some e ∧
      e.rw = true := by
  have hcur : forkedMachine.current = 8 := by decide +kernel
  have hrecover : forkedMachine.pageFaultTryRecover true true 0x400000 =
      some (true, faultedMachine) := by
    have hfst : (forkedMachine.pageFaultTryRecover true true 0x400000).map Prod.fst = some true := by
      decide +kernel
    obtain ⟨⟨b, s⟩, hb, rfl⟩ := Option.map_eq_some_iff.mp hfst
    unfold faultedMachine
    rw [hb]
    rfl
  have hfault : SpaceStep (forkedMachine, {11, 8}) (.fault 8 0x400000)
      (faultedMachine, {11, 8}) := by
    rw [← hcur]
    exact .fault (by decide) hrecover
  have run := smallRun_fork.step hfault (by decide +kernel)
  refine ⟨_, run.2.1, ?_, hrecover, ?_⟩
  · exact .inl (.inr ⟨rfl, _, mem_singleton_self _, by decide, 0, by decide, by decide⟩)
  · have hrw : (faultedMachine.userEntry faultedMachine.tableOf (slotOf 8 0x400000)).map
        PageEntry.rw = some true := by decide +kernel
    exact Option.map_eq_some_iff.mp hrw

end Stos.Kernel
