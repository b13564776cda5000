import Stos.Kernel.Proofs.ElfFile
import Stos.Kernel.Proofs.ElfReadOnly

/-!
# The image that the ELF loader leaves in memory

`elf_load_segments` fills whole pages. `page_offset` of the page in which a segment begins is
`vaddr - segment.vaddr`, which wraps around when the segment does not begin at the start of the page;
the page is then filled with zeros, also where the file has bytes for it.
-/

namespace Stos.Kernel

open Machine Reading List ElfSegment Option

variable {s s0 s' : Machine} {dirs : Finset Nat} {σ τ : Spaces} {blk blk' : Blocks}
  {u u' : UserSpaces} {d d0 addr virt : Nat} {evs : List SpaceEvent} {file : Mem} {elf : Elf}
  {seg : ElfSegment}

/-! ## The first four MiB -/

/-- Every live directory maps the first four MiB, through tables that belong to no address space
(`paging_init`, `paging.c:178-201`). -/
def LowMapped (s : Machine) (dirs : Finset Nat) (blk : Blocks) (u : UserSpaces) : Prop :=
  ∀ d ∈ dirs, ∃ t, s.tableOf d 0 = some t ∧ ¬ IsFree blk t ∧ t ∉ owned s u ∧
    ∀ j < 1024, (s.entry (t * 4096) j).present = true

theorem LowMapped.stepped (h : LowMapped s dirs blk u) (st : Stepped s dirs blk u τ blk' u') :
    LowMapped τ.1 τ.2 blk' u' := by
  intro d hd
  obtain ⟨d1, hd1, hhalf⟩ := st.kernelHalf d hd
  obtain ⟨t, ht, hfree, hown, hpresent⟩ := h d1 hd1
  obtain ⟨hblk, -, hmem⟩ := st.foreign t hfree hown
  refine ⟨t, (hhalf 0 (by decide) (.inl rfl)).trans ht, ?_, fun hown' => ?_, fun j hj => ?_⟩
  · rintro ⟨o, ho⟩
    exact hfree ⟨o, hblk.symm.trans ho⟩
  · exact (st.gained t hown').elim hown hfree
  · rw [entry_present, hmem _ (by omega), ← entry_present]
    exact hpresent j hj

theorem SpaceRun.lowMapped (h : SpacesInv σ.1 σ.2 blk u) (low : LowMapped σ.1 σ.2 blk u)
    (run : SpaceRun σ evs τ) :
    ∃ blk' u', SpacesInv τ.1 τ.2 blk' u' ∧ LowMapped τ.1 τ.2 blk' u' := by
  induction run with
  | nil => exact ⟨blk, u, h, low⟩
  | snoc _ step hsat ih =>
    obtain ⟨blk1, u1, h1, low1⟩ := ih
    obtain ⟨blk2, u2, eff⟩ := SpaceStep.effect h1 step
    have st := eff.stepped h1
    exact ⟨blk2, u2, st.spacesInv hsat, low1.stepped st⟩

/-- While an image is loaded the pages of the first four MiB stay mapped. -/
theorem LowMapped.pagingIsMapped (low : LowMapped s dirs blk u) (hd : d ∈ dirs) (hu : d ∈ u.dirs)
    (hcur : s.currentPageDirectory = d * 4096) (ext : Extended s blk u d s' blk' u')
    (hvirt : virt < 0x400000) : s'.pagingIsMapped virt = true := by
  obtain ⟨t, ht, hfree, hown, hpresent⟩ := low d hd
  have hindex : pagingGetPdIndex virt = 0 := by
    unfold pagingGetPdIndex
    omega
  have hentry := ext.kernel 0 (by decide) (.inl rfl)
  have hwritten : t ∉ ({d} ∪ tablesOf u d : Set Nat) := by
    rintro (rfl | htable)
    · exact hown (dir_owned hu)
    · exact hown (tablesOf_owned htable)
  have htable : s'.tableOf d (pagingGetPdIndex virt) = some t := by
    rw [hindex, ← ht]
    exact tableOf_congr hentry
  unfold Machine.pagingIsMapped
  rw [pagingGetPageTable_some (ext.keeps.current.trans hcur) htable false]
  dsimp only
  rw [ext.keeps.entry hfree hwritten (pagingGetPtIndex_lt virt)]
  exact hpresent _ (pagingGetPtIndex_lt virt)

/-! ## Segments that begin there -/

theorem foldl_refused {α : Type} (f : α → Machine → Bool × Machine) (s : Machine) (l : List α) :
    l.foldl (fun r p => if r.1 then f p r.2 else r) (false, s) = (false, s) := by
  induction l with
  | nil => rfl
  | cons p l ih => exact ih

/-- A segment that begins in the first four MiB is refused, unless it has no pages. -/
theorem LowMapped.untouched (low : LowMapped s dirs blk u) (hd : d ∈ dirs) (hu : d ∈ u.dirs)
    (hcur : s.currentPageDirectory = d * 4096) (file : Mem) (hseg : seg.vaddr < 0x400000) :
    Untouched s blk u d file seg := by
  intro s' blk' u' ext
  unfold elfLoadSegment
  cases hpages : seg.numPages with
  | zero => rfl
  | succ n =>
    have hfirst : seg.pageAddr 0 < 0x400000 := by
      unfold pageAddr vaddrStart
      omega
    rw [range'_succ, foldl_cons, if_pos rfl]
    unfold elfLoadPage
    rw [if_pos (low.pagingIsMapped hd hu hcur ext hfirst)]
    exact foldl_refused (fun p s => s.elfLoadPage file seg (seg.pageAddr p)) s' _

/-! ## The bytes of a page -/

theorem slotOf_page (d addr : Nat) : slotOf d (addr / 4096 * 4096) = slotOf d addr := by
  unfold slotOf pagingGetPdIndex pagingGetPtIndex
  simp only [Prod.mk.injEq, true_and]
  omega

theorem FilledAs.userByte {bytes : Nat → BitVec 8} (rooted : Rooted s u) (hd : d ∈ u.dirs)
    (haddr : UserAddr addr) (h : FilledAs s u d (addr / 4096 * 4096) bytes) :
    s.userByte d addr = some (bytes (addr % 4096)) := by
  obtain ⟨e, he, hbytes⟩ := h
  rw [slotOf_page] at he
  rw [userByte_eq rooted hd haddr, he, map_some, hbytes _ (Nat.mod_lt _ (by decide))]

/-- The byte with which the address `vaddr + k` is filled: none of the file where the page begins
before the segment. -/
theorem ElfSegment.pageByte_eq (hsize : seg.filesz ≤ seg.memsz)
    (hend : seg.vaddr + seg.memsz < 0x40000000) {k : Nat} (hk : k < seg.memsz) :
    seg.pageByte file ((seg.vaddr + k) / 4096 * 4096) ((seg.vaddr + k) % 4096) =
      if seg.vaddr ≤ (seg.vaddr + k) / 4096 * 4096 then seg.imageByte file k else 0 := by
  unfold pageByte imageByte
  by_cases hstart : seg.vaddr ≤ (seg.vaddr + k) / 4096 * 4096
  · have hoffset : seg.pageOffset ((seg.vaddr + k) / 4096 * 4096) =
        (seg.vaddr + k) / 4096 * 4096 - seg.vaddr := by
      unfold pageOffset
      omega
    have hcopied : (seg.pageOffset ((seg.vaddr + k) / 4096 * 4096) < seg.filesz ∧
        (seg.vaddr + k) % 4096 < seg.bytesToCopy ((seg.vaddr + k) / 4096 * 4096)) ↔
          k < seg.filesz := by
      unfold bytesToCopy
      split
      · omega
      · omega
    have hsum : seg.offset + seg.pageOffset ((seg.vaddr + k) / 4096 * 4096) +
        (seg.vaddr + k) % 4096 = seg.offset + k := by
      omega
    rw [if_pos hstart, hsum]
    exact if_congr hcopied rfl rfl
  · -- the offset of the page in the segment has wrapped around
    have hoffset : ¬ seg.pageOffset ((seg.vaddr + k) / 4096 * 4096) < seg.filesz := by
      unfold pageOffset
      omega
    rw [if_neg hstart, if_neg fun h => hoffset h.1]

/-! ## The image -/

theorem Reading.val_bind_of {α β : Type} {P : β → Prop} (x : Reading α) (f : α → Reading β)
    (h : ∀ a, P (f a).val) : P (x >>= f).val := h x.val

theorem Reading.exists_of_mem_forRange {α : Type} {n : Nat} {f : Nat → Reading α} {a : α}
    (h : a ∈ (forRange n f).val) : ∃ i, (f i).val = a := by
  obtain ⟨i, -, hi⟩ := mem_map.mp h
  exact ⟨i, hi⟩

/-- The pages of a segment that was stored are present. -/
def PresentPages (o : Option ElfSegment) : Prop :=
  ∀ seg, o = some seg → hasFlag seg.pageFlags 0x1 = true

theorem parsePht_presentPages (file : Mem) (i : Nat) : PresentPages (parsePht file i).val := by
  refine val_bind_of _ _ fun pht => val_bind_of _ _ fun type => ?_
  split
  case isTrue =>
    refine val_bind_of _ _ fun vaddr => val_bind_of _ _ fun memsz =>
      val_bind_of _ _ fun filesz => val_bind_of _ _ fun offset =>
        val_bind_of _ _ fun flags => ?_
    generalize hasFlag (.ofNat 32 flags) 0x2 = write
    intro seg hseg
    obtain rfl := some.inj hseg
    cases write with
    | false => exact show hasFlag 0x5 0x1 = true by decide
    | true => exact show hasFlag 0x7 0x1 = true by decide
  case isFalse =>
    intro seg hseg
    cases hseg

theorem elfParse_pageFlags (h : (elfParse file).val = some elf) (hseg : seg ∈ elf.segments) :
    hasFlag seg.pageFlags 0x1 = true := by
  obtain ⟨-, hsegments⟩ := elfParse_eq_some h
  rw [hsegments, mem_filterMap] at hseg
  obtain ⟨o, ho, hsome⟩ := hseg
  obtain ⟨i, hi⟩ := exists_of_mem_forRange ho
  have hpresent := parsePht_presentPages file i
  rw [hi] at hpresent
  exact hpresent seg hsome

/-- A segment whose pages are loaded is the image of the file, if its first page is. -/
theorem ElfSegment.loaded_iff (rooted : Rooted s u) (hd : d ∈ u.dirs) (hseg : seg.InUser)
    (hsize : seg.filesz ≤ seg.memsz)
    (hpages : ∀ k < seg.numPages, FilledAs s u d (seg.vaddrStart + k * 4096)
      (seg.pageByte file (seg.vaddrStart + k * 4096))) :
    seg.Loaded s d file ↔ seg.LoadsWell file := by
  have hlow := hseg.low
  have hhigh := hseg.high
  have hbyte : ∀ k < seg.memsz, s.userByte d (seg.vaddr + k) =
      some (if seg.vaddr ≤ (seg.vaddr + k) / 4096 * 4096 then seg.imageByte file k else 0) := by
    intro k hk
    have hpage : seg.vaddrStart + ((seg.vaddr + k) / 4096 - seg.vaddr / 4096) * 4096 =
        (seg.vaddr + k) / 4096 * 4096 := by
      unfold vaddrStart
      omega
    have hfilled := hpages ((seg.vaddr + k) / 4096 - seg.vaddr / 4096) (by
      unfold numPages vaddrEnd vaddrStart
      omega)
    rw [hpage] at hfilled
    rw [hfilled.userByte rooted hd ⟨by omega, by omega⟩, pageByte_eq hsize hhigh hk]
  constructor
  · intro h
    refine ⟨by omega, fun halign k hk hfirst => ?_⟩
    have hvalue := (h k (by omega)).2
    rw [hbyte k (by omega), if_neg (by omega), imageByte, if_pos hk] at hvalue
    exact (some.inj hvalue).symm
  · intro h k hk
    refine ⟨⟨by omega, by omega⟩, ?_⟩
    rw [hbyte k hk]
    split
    case isTrue => rfl
    case isFalse hstart =>
      unfold imageByte
      split
      case isTrue hfile => rw [h.first (by omega) k hfile (by omega)]
      case isFalse => rfl

/-- Where a segment reaches past 2 ^ 32 it cannot be at its addresses. -/
theorem ElfSegment.Loaded.below (h : seg.Loaded s d file) (hstart : seg.vaddr < vmmUserEnd) :
    seg.vaddr + seg.memsz < 2 ^ 32 := by
  have hend : vmmUserEnd = 0x40000000 := rfl
  by_contra hlong
  have := (h (0x40000000 - seg.vaddr) (by omega)).1.2
  omega

/-- After `elf_load_segments` has returned true, memory holds the segments just when the file has only
zeros for the rest of each page in the middle of which a segment begins. -/
theorem elfLoadSegments_loaded_iff (boot : Booted s₀ blk d₀)
    (low : LowMapped s₀ {d₀} blk (bootSpaces d₀)) (run : SpaceRun (s₀, {d₀}) evs (s, dirs))
    (hparse : (elfParse file).val = some elf)
    (hsize : ∀ seg ∈ elf.segments, seg.filesz ≤ seg.memsz)
    (hload : (s.elfLoadSegments file elf).1 = true) :
    (∀ seg ∈ elf.segments, seg.Loaded (s.elfLoadSegments file elf).2 s.current file) ↔
      ∀ seg ∈ elf.segments, seg.LoadsWell file := by
  obtain ⟨blk₁, u, h, low₁⟩ := run.lowMapped boot.bootSpaces low
  obtain ⟨hd, hcur⟩ := h.current_mem
  dsimp only at h low₁ hd hcur
  have hdirs : s.current ∈ dirs := h.live ▸ hd
  -- both sides say that no segment wraps around
  have key : (∀ seg ∈ elf.segments, seg.vaddr + seg.memsz < 2 ^ 32) → ∀ seg ∈ elf.segments,
      (seg.Loaded (s.elfLoadSegments file elf).2 s.current file ↔ seg.LoadsWell file) := by
    intro hbelow seg hseg
    have hsegs : ∀ seg ∈ elf.segments,
        seg.InUser ∨ Untouched s blk₁ u s.current file seg := by
      intro seg hseg
      obtain ⟨-, hend⟩ := elfLoadSegments_inUserspace hload hseg
      rw [Nat.mod_eq_of_lt (hbelow seg hseg)] at hend
      rcases lt_or_ge seg.vaddr 0x400000 with hlow | hhigh
      · exact .inr (low₁.untouched hdirs hd hcur file hlow)
      · exact .inl ⟨hhigh, hend, elfParse_pageFlags hparse hseg⟩
    obtain ⟨blk₂, u₂, ext, hloaded⟩ := elfLoadSegments_spec h.inSpace file hsegs
    by_cases hpages : seg.numPages = 0
    · -- such a segment has no bytes
      obtain ⟨hstart, hend⟩ := elfLoadSegments_inUserspace hload hseg
      rw [Nat.mod_eq_of_lt (hbelow seg hseg)] at hend
      have huser : vmmUserEnd = 0x40000000 := rfl
      have hempty : seg.memsz = 0 ∧ seg.vaddr % 4096 = 0 := by
        unfold numPages vaddrEnd vaddrStart at hpages
        omega
      refine iff_of_true (fun k hk => ?_) ⟨hbelow seg hseg, fun halign => absurd hempty.2 halign⟩
      rw [hempty.1] at hk
      cases hk
    · have huser := (hloaded hload seg hseg 0 (Nat.pos_of_ne_zero hpages)).1
      exact loaded_iff ext.rooted (ext.dirs ▸ hd) huser (hsize seg hseg)
        fun k hk => (hloaded hload seg hseg k hk).2.filled
  constructor
  · intro hall seg hseg
    have hbelow : ∀ seg ∈ elf.segments, seg.vaddr + seg.memsz < 2 ^ 32 := fun seg hseg =>
      (hall seg hseg).below (elfLoadSegments_inUserspace hload hseg).1
    exact (key hbelow seg hseg).mp (hall seg hseg)
  · intro hall seg hseg
    exact (key (fun seg hseg => (hall seg hseg).below) seg hseg).mpr (hall seg hseg)

/-! ## A small machine with the first four MiB mapped -/

/-- Byte `k` of a table that maps the first four MiB to themselves. -/
def identityByte (k : Nat) : BitVec 8 :=
  if k % 4 = 0 then 0x3
  else if k % 4 = 1 then .ofNat 8 (k / 4 * 16)
  else if k % 4 = 2 then .ofNat 8 (k / 4 / 16)
  else 0

/-- The entry of a directory for the table at page `t`. -/
def tableEntryOf (t : Nat) : PageEntry :=
  ⟨true, true, false, false, false, false, false, false, false, 0, frameOf (t * 4096)⟩

/-- Page `t` is made the table for the first four MiB of directory `d`. -/
def Machine.mapLow (s : Machine) (d t : Nat) : Machine :=
  (s.setMem (writeBytes s.mem (t * 4096) identityByte 4096)).setEntry (d * 4096) 0 (tableEntryOf t)

theorem mapLow_booted {s1 : Machine} {blk1 : Blocks} {t : Nat} (boot : Booted s blk d)
    (g : Grabbed s blk t s1 blk1) :
    Booted (s1.mapLow d t) blk1 d ∧ LowMapped (s1.mapLow d t) {d} blk1 (bootSpaces d) := by
  have hne : t ≠ d := by
    rintro rfl
    exact boot.page.not_isFree g.fresh
  have hpage : IsPage blk1 d := g.keeps.isPage boot.page fun _ => id
  have k1 := Keeps.write (s := s1) (m := writeBytes s1.mem (t * 4096) identityByte 4096)
    g.keeps.steady g.page fun a ha => writeBytes_of_outside (by omega)
  have k2 := Keeps.setEntry k1.steady hpage (show 0 < 1024 by decide) (tableEntryOf t)
  have hd : d ∉ ({t} : Set Nat) := fun h => hne h.symm
  refine ⟨⟨k2.steady, hpage, ?_, ?_, ?_, fun i hi1 hi => ?_⟩, fun d' hd' => ?_⟩
  · exact (g.keeps.refs d boot.page.not_isFree id).trans boot.one
  · exact (k2.kernel.trans (k1.kernel.trans g.keeps.kernel)).trans boot.kernel
  · exact (k2.current.trans (k1.current.trans g.keeps.current)).trans boot.current
  · unfold mapLow
    rw [entry_setEntry_of_ne (by decide) (by omega) (.inr (by omega)),
      k1.entry hpage.not_isFree hd (by omega), g.keeps.entry boot.page.not_isFree id (by omega)]
    exact boot.empty i hi1 hi
  · obtain rfl := Finset.mem_singleton.mp hd'
    refine ⟨t, ?_, g.page.not_isFree, ?_, fun j hj => ?_⟩
    · unfold tableOf mapLow
      rw [entry_setEntry_self]
      exact congrArg some (frameOf_toNat g.lt)
    · rintro ((hdir | ⟨d', i, ht⟩) | ⟨x, -, e, he, -⟩)
      · exact hne (Finset.mem_singleton.mp hdir)
      · cases ht
      · obtain ⟨t', ht'⟩ := exists_table he
        cases ht'
    · unfold mapLow
      rw [entry_setEntry_of_ne (by decide) hj (.inl hne), entry_present]
      have hbyte : writeBytes s1.mem (t * 4096) identityByte 4096 (t * 4096 + 4 * j) =
          identityByte (4 * j) := by
        unfold writeBytes
        rw [if_pos (by omega), Nat.add_sub_cancel_left]
      have hfirst : identityByte (4 * j) = 0x3 := by
        unfold identityByte
        rw [if_pos (by omega)]
      show (writeBytes s1.mem (t * 4096) identityByte 4096 (t * 4096 + 4 * j)).getLsbD 0 = true
      rw [hbyte, hfirst]
      rfl

/-- The machine of 16 pages, with directory 8 and table 9. -/
def lowMachine : Machine := (oneDirectory 3).allocPage.2.mapLow 8 9

theorem lowMachine_booted :
    ∃ blk, Booted lowMachine blk 8 ∧ LowMapped lowMachine {8} blk (bootSpaces 8) := by
  obtain ⟨blk, boot⟩ := smallRun_boot.1
  have hpage : (oneDirectory 3).allocPage.1 = 9 * 4096 := by decide +kernel
  rcases allocPage_spec boot.steady with h | ⟨t, s1, blk1, h, g⟩
  · rw [h] at hpage
    cases hpage
  · rw [h] at hpage
    obtain rfl : t = 9 := Nat.eq_of_mul_eq_mul_right (by decide) hpage
    unfold lowMachine
    rw [h]
    exact ⟨blk1, mapLow_booted boot g⟩

/-- A segment that begins at the start of a page. -/
theorem elfLoadSegments_loaded_iff_small :
    (lowMachine.elfLoadSegments (smallFile 0x400000 84 4)
        ⟨0x400000, [⟨0x400000, 4, 4, 84, 0x7⟩]⟩).1 = true ∧
      (ElfSegment.mk 0x400000 4 4 84 0x7).Loaded
        (lowMachine.elfLoadSegments (smallFile 0x400000 84 4)
          ⟨0x400000, [⟨0x400000, 4, 4, 84, 0x7⟩]⟩).2 lowMachine.current
        (smallFile 0x400000 84 4) := by
  have hload : (lowMachine.elfLoadSegments (smallFile 0x400000 84 4)
      ⟨0x400000, [⟨0x400000, 4, 4, 84, 0x7⟩]⟩).1 = true := by decide +kernel
  obtain ⟨blk, boot, low⟩ := lowMachine_booted
  refine ⟨hload, (elfLoadSegments_loaded_iff boot low (.nil _) (by decide +kernel) ?_ hload).mpr ?_ _
    (mem_singleton_self _)⟩
  · intro seg hseg
    obtain rfl := mem_singleton.mp hseg
    decide
  · intro seg hseg
    obtain rfl := mem_singleton.mp hseg
    exact ⟨by decide, fun halign => absurd rfl halign⟩

/-- A segment that begins in the middle of a page: the loader returns true, and the first byte of the
segment is 0 where the file has 42. -/
theorem elfLoadSegments_lostBytes :
    (elfParse (smallFile 0x400800 84 4)).val = some ⟨0x400800, [⟨0x400800, 4, 4, 84, 0x7⟩]⟩ ∧
      (lowMachine.elfLoadSegments (smallFile 0x400800 84 4)
        ⟨0x400800, [⟨0x400800, 4, 4, 84, 0x7⟩]⟩).1 = true ∧
      (ElfSegment.mk 0x400800 4 4 84 0x7).imageByte (smallFile 0x400800 84 4) 0 = 42 ∧
      (lowMachine.elfLoadSegments (smallFile 0x400800 84 4)
        ⟨0x400800, [⟨0x400800, 4, 4, 84, 0x7⟩]⟩).2.userByte lowMachine.current 0x400800 = some 0 ∧
      ¬ (ElfSegment.mk 0x400800 4 4 84 0x7).Loaded
        (lowMachine.elfLoadSegments (smallFile 0x400800 84 4)
          ⟨0x400800, [⟨0x400800, 4, 4, 84, 0x7⟩]⟩).2 lowMachine.current
        (smallFile 0x400800 84 4) := by
  have hfile : (mk 0x400800 4 4 84 0x7).imageByte (smallFile 0x400800 84 4) 0 = 42 := by
    decide +kernel
  have hbyte : (lowMachine.elfLoadSegments (smallFile 0x400800 84 4)
      ⟨0x400800, [⟨0x400800, 4, 4, 84, 0x7⟩]⟩).2.userByte lowMachine.current 0x400800 = some 0 := by
    decide +kernel
  refine ⟨by decide +kernel, by decide +kernel, hfile, hbyte, fun h => ?_⟩
  have hvalue := (h 0 (by decide)).2
  cases hbyte.symm.trans hvalue

end Stos.Kernel
