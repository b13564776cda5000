import Stos.Kernel.Proofs.PagingMap

/-!
# Writes to user pages and ELF loading

A write that the processor lets pass goes to a page that no other slot maps, because a shared
page is never writable. Loading an image only adds pages to the current directory, with the
permissions of their segments.
-/

namespace Stos.Kernel

open Machine ElfSegment Option Bool List BitVec

variable {s s' s'' : Machine} {blk blk' blk'' : Blocks} {u u' u'' : UserSpaces}
  {d addr virt k : Nat} {x : Slot} {e : PageEntry} {v : BitVec 8} {m : Mem} {supervisor : Bool}
  {flags : BitVec 32} {seg : ElfSegment}

/-! ## Writes -/

/-- Writes to the page of a slot change no entry. -/
theorem UserInv.writePage (inv : UserInv s blk u) (hx : x ∈ u.slots)
    (he : s.userEntry u.table x = some e) (outside : ∀ a, a / 4096 ≠ e.page → m a = s.mem a) :
    UserInv (s.setMem m) blk u ∧ Keeps s blk (s.setMem m) blk {e.page} ∅ ∧
      ∀ y ∈ u.slots, (s.setMem m).userEntry u.table y = s.userEntry u.table y := by
  obtain ⟨hpage, -, htable⟩ := inv.frame x hx e he
  have k := Keeps.write inv.steady hpage outside
  have hnot := noTable_singleton htable
  exact ⟨inv.keeps_written k hnot, k, fun y hy => inv.userEntry_keeps k hnot hy⟩

/-- The slot of an address that is present in the current directory. -/
theorem currentSlot (cur : Current s u d) (haddr : UserAddr addr) (h : s.isPresent addr = true) :
    ∃ e, s.userEntry u.table (slotOf d addr) = some e ∧ s.translate addr = e.page * 4096 + addr % 4096 ∧
      e = s.entry (s.entry s.currentPageDirectory (pagingGetPdIndex addr)).addr
        (pagingGetPtIndex addr) := by
  have htable := currentTable_eq cur haddr
  unfold isPresent at h
  rw [and_eq_true] at h
  rw [if_pos h.1] at htable
  exact ⟨_, (userEntry_eq_some htable).mpr ⟨rfl, h.2⟩, rfl, rfl⟩

/-- A slot that may be written to owns its page alone. -/
theorem UserInv.soleOwner (inv : UserInv s blk u) (hx : x ∈ u.slots)
    (he : s.userEntry u.table x = some e) (hrw : e.rw = true) : SoleOwner s u x e.page := by
  intro y hy hne f hf hpage
  have hlocked := inv.shared.locked x hx y hy e f hne.symm he hf hpage.symm
  rw [hlocked.2] at hrw
  cases hrw

/-- The pages that the address spaces own: directories, tables and mapped pages. -/
def owned (s : Machine) (u : UserSpaces) : Set Nat :=
  u.structural ∪ {q | ∃ x ∈ u.slots, q ∈ frameOfSlot s u x}

theorem frame_owned (hx : x ∈ u.slots) (he : s.userEntry u.table x = some e) :
    e.page ∈ owned s u := .inr ⟨x, hx, e, he, rfl⟩

/-- Pages that were mapped are mapped afterwards or were given back. -/
def NoneLost (s : Machine) (u : UserSpaces) (s' : Machine) (blk' : Blocks) (u' : UserSpaces) :
    Prop :=
  ∀ x ∈ u.slots, ∀ e, s.userEntry u.table x = some e →
    (∃ y ∈ u'.slots, ∃ f, s'.userEntry u'.table y = some f ∧ f.page = e.page) ∨
      IsFree blk' e.page

/-- The same tables map the pages they mapped before, or pages that were free. -/
structure Kept (s : Machine) (blk : Blocks) (u : UserSpaces) (s' : Machine) (blk' : Blocks) :
    Prop where
  inv : UserInv s' blk' u
  rooted : Rooted s' u
  dirs : ∀ d ∈ u.dirs, ∀ i, i < 1024 → s'.entry (d * 4096) i = s.entry (d * 4096) i
  keeps : Keeps s blk s' blk' (owned s u) (owned s u)
  lost : NoneLost s u s' blk' u
  taken : ∀ y ∈ u.slots, TakenFrom blk (frameOfSlot s u y) s' u.table y

/-- The byte at `addr` in directory `d` has been written. -/
structure Stored (s : Machine) (blk : Blocks) (u : UserSpaces) (d addr : Nat) (v : BitVec 8)
    (s' : Machine) (blk' : Blocks) : Prop extends Kept s blk u s' blk' where
  entries : ∀ y ∈ u.slots, y ≠ slotOf d addr → s'.userEntry u.table y = s.userEntry u.table y
  others : ∀ y ∈ u.slots, y ≠ slotOf d addr → ReadsAs s u.table y s' u.table y
  own : ∃ e e', s.userEntry u.table (slotOf d addr) = some e ∧
    s'.userEntry u.table (slotOf d addr) = some e' ∧
    ∀ k, k < 4096 → s'.mem (e'.page * 4096 + k) =
      if k = addr % 4096 then v else s.mem (e.page * 4096 + k)

/-- What the processor lets a program write to is present and writable. -/
theorem isWritable_entry (hw : s.isWritable supervisor addr = true) :
    s.isPresent addr = true ∧ (s.entry (s.entry s.currentPageDirectory (pagingGetPdIndex addr)).addr
      (pagingGetPtIndex addr)).rw = true := by
  unfold isWritable at hw
  unfold isPresent
  simp only [and_eq_true] at hw ⊢
  exact ⟨hw.1.1.1, hw.1.2⟩

theorem store_spec (h : InSpace s blk u d) (haddr : UserAddr addr)
    (run : s.store supervisor addr v = some s') :
    ∃ e, s.userEntry u.table (slotOf d addr) = some e ∧ Stored s blk u d addr v s' blk ∧
      Keeps s blk s' blk {e.page} ∅ := by
  unfold store at run
  split at run
  swap
  · cases run
  next hw =>
  obtain rfl := some.inj run
  have hx := h.slotOf_mem haddr
  obtain ⟨hpresent, hrw⟩ := isWritable_entry hw
  obtain ⟨e, he, htranslate, hentry⟩ := currentSlot h.toCurrent haddr hpresent
  obtain ⟨⟨rooted, -, -⟩, inv, -⟩ := h
  have hsole := inv.soleOwner hx he (hentry ▸ hrw)
  rw [htranslate]
  obtain ⟨hpage, hdir, htable⟩ := inv.frame _ hx e he
  have houtside : ∀ a, a / 4096 ≠ e.page →
      write8 s.mem (e.page * 4096 + addr % 4096) v a = s.mem a := by
    intro a ha
    unfold write8
    rw [if_neg (by omega)]
  obtain ⟨inv', k, hsame⟩ := inv.writePage hx he houtside
  have hnotdir := noDir_singleton hdir
  refine ⟨e, he, ⟨⟨inv', rooted.keeps inv k hnotdir, ?_, ?_, ?_, ?_⟩, fun y hy _ => hsame y hy, ?_,
    ⟨e, e, he, (hsame _ hx).trans he, ?_⟩⟩, k⟩
  · intro d' hd' i hi
    exact k.entry (inv.dir d' hd').1.not_isFree (hnotdir d' hd') hi
  · refine k.mono ?_ fun _ _ h => h.elim
    rintro q - rfl
    exact frame_owned hx he
  · intro y hy f hf
    exact .inl ⟨y, hy, f, (hsame y hy).trans hf, rfl⟩
  · intro y hy f hf
    exact .inr ⟨f, (hsame y hy).symm.trans hf, rfl⟩
  · intro y hy hne f hf
    refine ⟨f, (hsame y hy).trans hf, fun i hi => ?_⟩
    exact k.byte (inv.frame y hy f hf).1.not_isFree (hsole y hy hne f hf) hi
  · intro i hi
    show write8 s.mem _ v _ = _
    unfold write8
    simp only [add_left_cancel_iff]

/-! ### Writes after a fault -/

theorem ReadsAs.trans {T T' T'' : Nat → Nat → Option Nat} {y z : Slot}
    (h : ReadsAs s T x s' T' y) (h' : ReadsAs s' T' y s'' T'' z) : ReadsAs s T x s'' T'' z := by
  intro e he
  obtain ⟨f, hf, hbytes⟩ := h e he
  obtain ⟨g, hg, hbytes'⟩ := h' f hf
  exact ⟨g, hg, fun k hk => (hbytes' k hk).trans (hbytes k hk)⟩

theorem Unshared.kept (h : Unshared s blk u x e s' blk') (inv : UserInv s blk u) (hx : x ∈ u.slots)
    (he : s.userEntry u.table x = some e) (rooted' : Rooted s' u) : Kept s blk u s' blk' where
  inv := h.inv
  rooted := rooted'
  dirs d hd i hi := by
    refine h.keeps.entry (inv.dir d hd).1.not_isFree ?_ hi
    rintro (⟨i', ht⟩ | ⟨rfl, -⟩)
    · exact (inv.table _ i' d ht).2.2 hd
    · exact (inv.frame x hx e he).2.1 hd
  keeps := by
    refine h.keeps.mono ?_ ?_
    · rintro q - (hq | ⟨rfl, -⟩)
      · exact .inl (tablesOf_structural hq)
      · exact frame_owned hx he
    · rintro q - rfl
      exact frame_owned hx he
  lost y hy f hf := by
    by_cases hyx : y = x
    · -- the old page is still mapped elsewhere or was given back
      subst hyx
      obtain rfl := some.inj (he.symm.trans hf)
      by_cases hsole : SoleOwner s u y e.page
      · exact .inr (h.free.mpr hsole)
      · left
        unfold SoleOwner at hsole
        push Not at hsole
        obtain ⟨z, hz, hzy, g, hg, hpage⟩ := hsole
        exact ⟨z, hz, g, (h.rest z hz hzy).trans hg, hpage⟩
    · exact .inl ⟨y, hy, f, (h.rest y hy hyx).trans hf, rfl⟩
  taken y hy f hf := by
    by_cases hyx : y = x
    · exact .inl (h.fresh f (hyx ▸ hf))
    · exact .inr ⟨f, (h.rest y hy hyx).symm.trans hf, rfl⟩

/-- A write of a user program, with or without a copy-on-write fault. -/
theorem userWrite_spec (h : InSpace s blk u d) (haddr : UserAddr addr)
    (hsat : ∀ e, s.userEntry u.table (slotOf d addr) = some e → s.refs e.page < 65535)
    (run : s.userWrite addr v = some s') :
    ∃ blk', Stored s blk u d addr v s' blk' := by
  have hx := h.slotOf_mem haddr
  unfold userWrite at run
  split at run
  · next s1 hstore =>
    obtain rfl := some.inj run
    obtain ⟨-, -, hst, -⟩ := store_spec h haddr hstore
    exact ⟨blk, hst⟩
  split at run
  swap
  · cases run
  next s1 hrecover =>
  -- the fault is recovered by a private copy, and the write goes there
  have hfault : s.pagingHandlePageFaultCow addr = some (true, s1) := by
    unfold pageFaultTryRecover at hrecover
    split at hrecover
    · exact hrecover
    · cases hrecover
  rcases pagingHandlePageFaultCow_spec h haddr hsat with hcow | ⟨s2, blk1, e, hcow, he, -, hun, h1⟩
  · rw [hfault] at hcow
    cases hcow
  obtain rfl : s1 = s2 := by
    rw [hfault] at hcow
    exact (Prod.mk.inj (some.inj hcow)).2
  obtain ⟨f, hf, h2, k2⟩ := store_spec h1 haddr run
  obtain ⟨f', g, hf', hg, hbytes2⟩ := h2.own
  obtain rfl := some.inj (hf.symm.trans hf')
  obtain ⟨f'', hf'', hbytes⟩ := hun.reads e he
  obtain rfl := some.inj (hf.symm.trans hf'')
  have hkept := hun.kept h.inv hx he h1.rooted
  refine ⟨blk1, ⟨h2.inv, h2.rooted, ?_, ?_, ?_, ?_⟩, ?_, ?_, ⟨e, g, he, hg, ?_⟩⟩
  · intro d' hd' i hi
    exact (h2.dirs d' hd' i hi).trans (hkept.dirs d' hd' i hi)
  · refine hkept.keeps.trans k2 ?_ fun _ _ h => h.elim
    rintro q hq rfl
    exact absurd (hun.fresh _ hf) hq
  · intro y hy e' he'
    rcases hkept.lost y hy e' he' with ⟨z, hz, g', hg', hpage⟩ | hfree
    · exact hpage ▸ h2.lost z hz g' hg'
    · exact .inr hfree
  · intro y hy g' hg'
    rcases h2.taken y hy g' hg' with hfree | ⟨g'', hg'', hpage⟩
    · exact absurd hfree (h2.inv.frame y hy g' hg').1.not_isFree
    · exact hpage ▸ hkept.taken y hy g'' hg''
  · intro y hy hne
    exact (h2.entries y hy hne).trans (hun.rest y hy hne)
  · intro y hy hne
    exact (hun.others h.inv hy hne).trans (h2.others y hy hne)
  · intro k hk
    rw [hbytes2 k hk]
    split
    · rfl
    · exact hbytes k hk

/-! ## Loading an image -/

theorem Extended.trans (h : Extended s blk u d s' blk' u') (h' : Extended s' blk' u' d s'' blk'' u'') :
    Extended s blk u d s'' blk'' u'' where
  inv := h'.inv
  dirs := h'.dirs.trans h.dirs
  slots := h'.slots.trans h.slots
  rooted := h'.rooted
  old x hx e he := h'.old x (h.slots ▸ hx) e (h.old x hx e he)
  keeps := by
    refine h.keeps.trans h'.keeps ?_ fun _ _ => id
    rintro q hq (hqd | ⟨i, ht⟩)
    · exact .inl hqd
    · rcases h.tables i q ht with ht | hfree
      · exact .inr ⟨i, ht⟩
      · exact absurd hfree hq
  tables i t ht := by
    rcases h'.tables i t ht with ht | hfree
    · exact h.tables i t ht
    · exact .inr (h.keeps.isFree_of_isFree (fun _ => id) hfree)
  kernel i hi hk := (h'.kernel i hi hk).trans (h.kernel i hi hk)
  taken y hy e he := by
    rcases h'.taken y hy e he with hfree | ⟨f, hf, hpage⟩
    · exact .inl (h.keeps.isFree_of_isFree (fun _ => id) hfree)
    · exact hpage ▸ h.taken y (h'.slots ▸ hy) f hf

theorem Extended.inSpace (ext : Extended s blk u d s' blk' u') (h : InSpace s blk u d) :
    InSpace s' blk' u' d :=
  ⟨⟨ext.rooted, ext.keeps.current.trans h.current, ext.dirs ▸ h.mem⟩, ext.inv, by
    rw [ext.slots, ext.dirs, h.slots]⟩

/-- Writes to a page that was taken on the way. -/
theorem Extended.write (h : Extended s blk u d s' blk' u') (hd : d ∈ u'.dirs) (hx : x ∈ u'.slots)
    (he : s'.userEntry u'.table x = some e) (hfree : IsFree blk e.page)
    (outside : ∀ a, a / 4096 ≠ e.page → m a = s'.mem a) :
    Extended s blk u d (s'.setMem m) blk' u' := by
  obtain ⟨inv', k, hsame⟩ := h.inv.writePage hx he outside
  have hnotdir := noDir_singleton (h.inv.frame _ hx e he).2.1
  refine ⟨inv', h.dirs, h.slots, h.rooted.keeps h.inv k hnotdir, ?_, ?_, h.tables, ?_, ?_⟩
  · intro y hy f hf
    exact (hsame y (h.slots ▸ hy)).trans (h.old y hy f hf)
  · refine h.keeps.trans k ?_ fun _ _ => id
    rintro q hq rfl
    exact absurd hfree hq
  · intro i hi hk
    rw [← h.kernel i hi hk]
    exact k.entry (h.inv.dir d hd).1.not_isFree (hnotdir d hd) hi
  · intro y hy f hf
    exact h.taken y hy f ((hsame y hy).symm.trans hf)

/-- A page that was taken on the way is mapped again with other permissions. -/
theorem Extended.remap (h : Extended s blk u x.1 s' blk' u') (hnone : s.userEntry u.table x = none)
    (hfree : IsFree blk e.page) (m : Mapped s' blk' u' x e.page flags s'' blk' u') :
    Extended s blk u x.1 s'' blk' u' := by
  refine ⟨m.inv, h.dirs, h.slots, m.rooted, ?_, ?_, h.tables, ?_, ?_⟩
  · intro y hy f hf
    rw [m.rest y (h.slots ▸ hy)]
    · exact h.old y hy f hf
    · rintro rfl
      rw [hnone] at hf
      cases hf
  · refine h.keeps.trans m.keeps ?_ fun _ _ => id
    rintro q hq (hqd | ⟨i, ht⟩)
    · exact .inl hqd
    · rcases h.tables i q ht with ht | hfree
      · exact .inr ⟨i, ht⟩
      · exact absurd hfree hq
  · exact fun i hi hk => (m.kernel i hi hk).trans (h.kernel i hi hk)
  · intro y hy f hf
    obtain ⟨f', hf', hpage, -⟩ := m.entry
    rcases eq_some_of_overwrite hf' m.rest hy hf with ⟨-, rfl⟩ | ⟨-, hf⟩
    · exact .inl (hpage ▸ hfree)
    · exact h.taken y hy f hf

/-- The page at `virt` is mapped in directory `d`, writable as the segment says. -/
def LoadedAs (s : Machine) (u : UserSpaces) (d virt : Nat) (flags : BitVec 32) : Prop :=
  ∃ e, s.userEntry u.table (slotOf d virt) = some e ∧ e.rw = hasFlag flags 0x2 ∧ e.cow = false

/-- The page at `virt` holds these bytes. -/
def FilledAs (s : Machine) (u : UserSpaces) (d virt : Nat) (bytes : Nat → BitVec 8) : Prop :=
  ∃ e, s.userEntry u.table (slotOf d virt) = some e ∧
    ∀ k < 4096, s.mem (e.page * 4096 + k) = bytes k

/-- The page at `virt` of a segment is loaded. -/
structure PageLoaded (s : Machine) (u : UserSpaces) (d : Nat) (file : Nat → BitVec 8)
    (seg : ElfSegment) (virt : Nat) : Prop where
  mapped : LoadedAs s u d virt seg.pageFlags
  filled : FilledAs s u d virt (seg.pageByte file virt)

theorem Extended.loadedAs (h : Extended s blk u d s' blk' u') (hx : slotOf d virt ∈ u.slots)
    (hl : LoadedAs s u d virt flags) : LoadedAs s' u' d virt flags := by
  obtain ⟨e, he, hrest⟩ := hl
  exact ⟨e, h.old _ hx e he, hrest⟩

theorem Extended.filledAs {bytes : Nat → BitVec 8} (ext : Extended s blk u d s' blk' u')
    (h : InSpace s blk u d) (haddr : UserAddr virt) (hf : FilledAs s u d virt bytes) :
    FilledAs s' u' d virt bytes := by
  obtain ⟨e, he, hbytes⟩ := hf
  have hx := h.slotOf_mem haddr
  obtain ⟨hpage, hdir, htable⟩ := h.inv.frame _ hx e he
  refine ⟨e, ext.old _ hx e he, fun k hk => ?_⟩
  rw [← hbytes k hk]
  refine ext.keeps.byte hpage.not_isFree ?_ hk
  rintro (rfl | ⟨i, ht⟩)
  · exact hdir h.mem
  · exact htable d i ht

theorem Extended.pageLoaded {file : Nat → BitVec 8} (ext : Extended s blk u d s' blk' u')
    (h : InSpace s blk u d) (haddr : UserAddr virt) (hl : PageLoaded s u d file seg virt) :
    PageLoaded s' u' d file seg virt :=
  ⟨ext.loadedAs (h.slotOf_mem haddr) hl.mapped, ext.filledAs h haddr hl.filled⟩

theorem pagingGetPhysicalAddress_eq (h : Current s u d) (haddr : UserAddr virt)
    (he : s.userEntry u.table (slotOf d virt) = some e) :
    s.pagingGetPhysicalAddress virt = e.page * 4096 + virt % 4096 := by
  obtain ⟨t, ht⟩ := exists_table he
  obtain ⟨hentry, hpresent⟩ := (userEntry_eq_some ht).mp he
  unfold pagingGetPhysicalAddress
  rw [pagingGetPageTable_some h.current ((h.table_eq haddr).symm.trans ht) false]
  dsimp only
  rw [show s.entry (t * 4096) (pagingGetPtIndex virt) = e from hentry, userEntry_present he]
  rfl

/-- Filling a page writes to that page only, and to all of it. -/
theorem elfFillPage_eq (file : Nat → BitVec 8) (seg : ElfSegment) {p : Nat}
    (hp : s.pagingGetPhysicalAddress virt = p * 4096) :
    ∃ m, s.elfFillPage file seg virt = s.setMem m ∧ (∀ a, a / 4096 ≠ p → m a = s.mem a) ∧
      ∀ k < 4096, m (p * 4096 + k) = seg.pageByte file virt k := by
  unfold elfFillPage pageByte
  rw [hp]
  dsimp only
  have hle : seg.pageOffset virt < seg.filesz → seg.bytesToCopy virt ≤ 4096 := by
    intro hlt
    unfold bytesToCopy
    split
    · omega
    · exact le_rfl
  generalize seg.pageOffset virt = pageOffset at *
  generalize seg.bytesToCopy virt = n at *
  split
  · next hlt =>
    have hcopy : ∀ k < n, writeBytes s.mem (p * 4096)
        (fun k => file ((seg.offset + pageOffset + k) % 2 ^ 32)) n (p * 4096 + k) =
          file ((seg.offset + pageOffset + k) % 2 ^ 32) := by
      intro k hk
      unfold writeBytes
      rw [if_pos (by omega), Nat.add_sub_cancel_left]
    have hrest : ∀ a, a / 4096 ≠ p → writeBytes s.mem (p * 4096)
        (fun k => file ((seg.offset + pageOffset + k) % 2 ^ 32)) n a = s.mem a :=
      fun a ha => writeBytes_of_outside (by omega)
    split
    · next hn =>
      refine ⟨_, rfl, fun a ha => (fillBytes_of_outside (by omega)).trans (hrest a ha),
        fun k hk => ?_⟩
      by_cases hkn : k < n
      · rw [if_pos ⟨hlt, hkn⟩]
        exact (fillBytes_of_outside (by omega)).trans (hcopy k hkn)
      · rw [if_neg fun h => hkn h.2]
        exact if_pos (by omega)
    · next hn =>
      refine ⟨_, rfl, hrest, fun k hk => ?_⟩
      rw [if_pos ⟨hlt, by omega⟩]
      exact hcopy k (by omega)
  · next hlt =>
    refine ⟨_, rfl, fun a ha => fillBytes_of_outside (by omega), fun k hk => ?_⟩
    rw [if_neg fun h => hlt h.1]
    exact if_pos (by omega)

theorem hasFlag_or_present (h : hasFlag flags 0x1 = true) : hasFlag (flags ||| 0x2) 0x1 = true := by
  unfold hasFlag at *
  rw [decide_eq_true_eq] at *
  intro hz
  apply h
  have hbit : (flags ||| 2) &&& 1 = flags &&& 1 := by
    apply eq_of_getLsbD_eq
    intro i hi
    rcases Nat.eq_zero_or_pos i with rfl | hpos
    · simp
    · simp [getLsbD_one, show i ≠ 0 by omega]
  rwa [← hbit]

theorem hasFlag_or_write (flags : BitVec 32) : hasFlag (flags ||| 0x2) 0x2 = true := by
  unfold hasFlag
  rw [decide_eq_true_eq]
  intro hz
  have := congrArg (getLsbD · 1) hz
  simp at this

/-- The body of the loop over the pages of a segment. -/
theorem elfLoadPage_spec (h : InSpace s blk u d) (haddr : UserAddr virt) (halign : virt % 4096 = 0)
    (file : Nat → BitVec 8) (hflags : hasFlag seg.pageFlags 0x1 = true) :
    ∃ blk' u', Extended s blk u d (s.elfLoadPage file seg virt).2 blk' u' ∧
      ((s.elfLoadPage file seg virt).1 = true →
        PageLoaded (s.elfLoadPage file seg virt).2 u' d file seg virt) := by
  unfold elfLoadPage
  cases hmapped : s.pagingIsMapped virt with
  | true =>
    exact ⟨blk, u, .refl h, fun h => by cases h⟩
  | false =>
  have hnone := pagingIsMapped_eq_false h.toCurrent haddr hmapped
  have hload : hasFlag (seg.pageFlags ||| 0x2) 0x1 = true := hasFlag_or_present hflags
  rcases mapNewPage_spec h haddr hnone hload with
    ⟨s1, blk1, hrun, ext⟩ | ⟨p, s1, blk1, u1, hrun, hp, hfree, m1, ext⟩
  · rw [hrun]
    exact ⟨blk1, u, ext, fun h => by simp at h⟩
  rw [hrun]
  simp only [if_neg (mul_ne_zero hp (show 4096 ≠ 0 by decide))]
  obtain ⟨e, he, rfl, hrw, -, hcow⟩ := m1.entry
  have h1 := ext.inSpace h
  have hx1 := h1.slotOf_mem haddr
  -- the page is filled
  have hphys : s1.pagingGetPhysicalAddress virt = e.page * 4096 := by
    rw [pagingGetPhysicalAddress_eq h1.toCurrent haddr he, halign, add_zero]
  obtain ⟨m, hfill, houtside, hbytes⟩ := elfFillPage_eq file seg hphys
  rw [hfill]
  have ext2 := ext.write h1.mem hx1 he hfree houtside
  have he2 : (s1.setMem m).userEntry u1.table (slotOf d virt) = some e :=
    ((ext.inv.writePage hx1 he houtside).2.2 _ hx1).trans he
  by_cases hwrite : hasFlag seg.pageFlags 0x2 = true
  · -- a writable page stays as it is
    simp only [hwrite, Bool.not_true, Bool.false_eq_true, if_false]
    refine ⟨blk1, u1, ext2, fun _ => ⟨⟨e, he2, ?_, hcow⟩, e, he2, hbytes⟩⟩
    rw [hrw, hwrite]
    exact hasFlag_or_write _
  · -- a page of a read-only segment is mapped again
    simp only [hwrite, Bool.not_false, if_true]
    obtain ⟨s3, hrun3, m3⟩ := pagingMapPage_again (ext2.inSpace h) haddr he2 hcow hflags
    rw [hrun3]
    refine ⟨blk1, u1, ext2.remap hnone hfree m3, fun _ => ?_⟩
    obtain ⟨f, hf, hfpage, hfrw, -, hfcow⟩ := m3.entry
    obtain ⟨hpage, hdir, htable⟩ := ext2.inv.frame _ hx1 e he2
    refine ⟨⟨f, hf, hfrw, hfcow⟩, f, hf, fun k hk => ?_⟩
    rw [hfpage, ← hbytes k hk]
    refine m3.keeps.byte hpage.not_isFree ?_ hk
    rintro (hq | ⟨i, ht⟩)
    · exact hdir (hq ▸ h1.mem)
    · exact htable d i ht

/-- The pages of a segment that lies in user space do. -/
theorem ElfSegment.InUser.page (h : seg.InUser) (hk : k < seg.numPages) :
    UserAddr (seg.vaddrStart + k * 4096) := by
  have := h.low
  have := h.high
  unfold numPages vaddrEnd at hk
  unfold vaddrStart at hk ⊢
  unfold UserAddr
  omega

theorem ElfSegment.InUser.pageAddr_eq (h : seg.InUser) (hk : k < seg.numPages) :
    seg.pageAddr k = seg.vaddrStart + k * 4096 := by
  have := (h.page hk).2
  exact Nat.mod_eq_of_lt (by omega)

theorem elfLoadSegment_spec (h : InSpace s blk u d) (file : Nat → BitVec 8) (hseg : seg.InUser) :
    ∃ blk' u', Extended s blk u d (s.elfLoadSegment file seg).2 blk' u' ∧
      ((s.elfLoadSegment file seg).1 = true → ∀ k < seg.numPages,
        PageLoaded (s.elfLoadSegment file seg).2 u' d file seg (seg.vaddrStart + k * 4096)) := by
  -- after `k` turns the first `k` pages are there, unless the loop has been left
  let P : Nat → Bool × Machine → Prop := fun k r => ∃ blk' u', Extended s blk u d r.2 blk' u' ∧
    (r.1 = true → ∀ j < k, PageLoaded r.2 u' d file seg (seg.vaddrStart + j * 4096))
  have hend : P (0 + seg.numPages) (s.elfLoadSegment file seg) := by
    refine foldl_range_inv (P := P) ⟨blk, u, .refl h, fun _ j hj => by omega⟩ ?_
    rintro k ⟨b, s1⟩ - hk ⟨blk1, u1, ext, hloaded⟩
    cases b with
    | false => exact ⟨blk1, u1, ext, fun h => by cases h⟩
    | true =>
      have h1 := ext.inSpace h
      have haddr := hseg.page (show k < seg.numPages by omega)
      have halign : (seg.vaddrStart + k * 4096) % 4096 = 0 := by
        unfold vaddrStart
        omega
      obtain ⟨blk2, u2, ext2, hnew⟩ := elfLoadPage_spec h1 haddr halign file hseg.present
      rw [if_pos rfl, hseg.pageAddr_eq (show k < seg.numPages by omega)]
      refine ⟨blk2, u2, ext.trans ext2, fun hr j hj => ?_⟩
      rcases Nat.lt_succ_iff_lt_or_eq.mp hj with hj | rfl
      · have hpage := hseg.page (show j < seg.numPages by omega)
        exact ext2.pageLoaded h1 hpage (hloaded rfl j hj)
      · exact hnew hr
  rw [Nat.zero_add] at hend
  exact hend

/-- The loader does not touch the directory for this segment: it has no pages, or it is refused in
every state that loading can lead to. -/
def Untouched (s : Machine) (blk : Blocks) (u : UserSpaces) (d : Nat) (file : Nat → BitVec 8)
    (seg : ElfSegment) : Prop :=
  ∀ s' blk' u', Extended s blk u d s' blk' u' →
    s'.elfLoadSegment file seg = (decide (seg.numPages = 0), s')

/-- `elf_load_segments` only adds pages; when it succeeds every page of every segment is
mapped, and writable exactly when the segment is. -/
theorem elfLoadSegments_spec (h : InSpace s blk u d) (file : Nat → BitVec 8) {elf : Elf}
    (hsegs : ∀ seg ∈ elf.segments, seg.InUser ∨ Untouched s blk u d file seg) :
    ∃ blk' u', Extended s blk u d (s.elfLoadSegments file elf).2 blk' u' ∧
      ((s.elfLoadSegments file elf).1 = true → ∀ seg ∈ elf.segments, ∀ k < seg.numPages,
        seg.InUser ∧
          PageLoaded (s.elfLoadSegments file elf).2 u' d file seg (seg.vaddrStart + k * 4096)) := by
  unfold elfLoadSegments
  split
  · exact ⟨blk, u, .refl h, fun h => by cases h⟩
  split
  · exact ⟨blk, u, .refl h, fun h => by cases h⟩
  generalize elf.segments = segs at hsegs ⊢
  -- once a segment has failed the fold changes nothing more
  have hfailed : ∀ (segs : List ElfSegment) (s : Machine), segs.foldl
      (fun r seg => if r.1 then r.2.elfLoadSegment file seg else r) (false, s) = (false, s) := by
    intro segs s
    induction segs with
    | nil => rfl
    | cons seg segs ih => exact ih
  induction segs generalizing s blk u with
  | nil => exact ⟨blk, u, .refl h, fun _ seg hseg => by cases hseg⟩
  | cons seg segs ih =>
    have hone : ∃ blk' u', Extended s blk u d (s.elfLoadSegment file seg).2 blk' u' ∧
        ((s.elfLoadSegment file seg).1 = true → ∀ k < seg.numPages, seg.InUser ∧
          PageLoaded (s.elfLoadSegment file seg).2 u' d file seg (seg.vaddrStart + k * 4096)) := by
      rcases hsegs seg mem_cons_self with hseg | huntouched
      · obtain ⟨blk1, u1, ext, hfirst⟩ := elfLoadSegment_spec h file hseg
        exact ⟨blk1, u1, ext, fun hr k hk => ⟨hseg, hfirst hr k hk⟩⟩
      · rw [huntouched s blk u (.refl h)]
        refine ⟨blk, u, .refl h, fun hr k hk => ?_⟩
        rw [of_decide_eq_true hr] at hk
        cases hk
    obtain ⟨blk1, u1, ext, hfirst⟩ := hone
    rw [foldl_cons, if_pos rfl]
    generalize s.elfLoadSegment file seg = r at *
    obtain ⟨b, s1⟩ := r
    cases b with
    | false =>
      rw [hfailed]
      exact ⟨blk1, u1, ext, fun h => by cases h⟩
    | true =>
      have h1 := ext.inSpace h
      have hsegs1 : ∀ seg' ∈ segs, seg'.InUser ∨ Untouched s1 blk1 u1 d file seg' :=
        fun seg' h => (hsegs seg' (mem_cons_of_mem seg h)).imp_right
          fun huntouched s' blk' u' ext' => huntouched s' blk' u' (ext.trans ext')
      obtain ⟨blk2, u2, ext2, hrest⟩ := ih h1 hsegs1
      refine ⟨blk2, u2, ext.trans ext2, fun hr seg' hseg' k hk => ?_⟩
      rcases mem_cons.mp hseg' with rfl | hmem
      · obtain ⟨huser, hpage⟩ := hfirst rfl k hk
        exact ⟨huser, ext2.pageLoaded h1 (huser.page hk) hpage⟩
      · exact hrest hr seg' hmem k hk

end Stos.Kernel
