import Stos.Kernel.Proofs.UserAccess

/-!
# Invariants of the address spaces

What each operation does is said once, by `SpaceEffect`; that the counts stay right, that no
address space sees the writes of another and that the kernel half is shared are read off it.
-/

namespace Stos.Kernel

open Machine Finset Option Prod

/-- The state between two operations. -/
structure SpacesInv (s : Machine) (dirs : Finset Nat) (blk : Blocks) (u : UserSpaces) : Prop where
  inv : UserInv s blk u
  live : u.dirs = dirs
  slots : u.slots = allSlots u.dirs
  rooted : Rooted s u
  current : ∃ d ∈ dirs, s.currentPageDirectory = d * 4096
  unsaturated : ∀ x ∈ u.slots, ∀ e, s.userEntry u.table x = some e → s.refs e.page < 65535

/-! ## The effect of one operation -/

/-- What an operation has done, in terms of the address spaces. -/
inductive SpaceEffect (s : Machine) (dirs : Finset Nat) (blk : Blocks) (u : UserSpaces) :
    SpaceEvent → Spaces → Blocks → UserSpaces → Prop where
  | forked {src dst usermode s' blk' u'} (hsrc : src ∈ dirs) (hfree : IsFree blk dst)
      (h : Forking s blk u src dst (if usermode then 256 else 1) s' blk' u') :
      SpaceEffect s dirs blk u (.fork src dst usermode) (s', insert dst dirs) blk' u'
  | notRecovered {addr} : SpaceEffect s dirs blk u (.fault s.current addr) (s, dirs) blk u
  | unshared {addr e s' blk'} (haddr : UserAddr addr)
      (he : s.userEntry u.table (slotOf s.current addr) = some e) (hcow : e.cow = true)
      (h : Unshared s blk u (slotOf s.current addr) e s' blk') (rooted : Rooted s' u) :
      SpaceEffect s dirs blk u (.fault s.current addr) (s', dirs) blk' u
  | stored {addr v s' blk'} (haddr : UserAddr addr) (run : s.userWrite addr v = some s')
      (h : Stored s blk u s.current addr v s' blk') :
      SpaceEffect s dirs blk u (.write s.current addr v) (s', dirs) blk' u
  | mapped {virt s' blk' u'} (h : Extended s blk u s.current s' blk' u') :
      SpaceEffect s dirs blk u (.map s.current virt) (s', dirs) blk' u'
  | loaded {elf loaded s' blk' u'} (h : Extended s blk u s.current s' blk' u')
      (hsegs : ∀ seg ∈ elf.segments, seg.InUser)
      (hloaded : loaded = true → ∀ seg ∈ elf.segments, ∀ k < seg.numPages,
        LoadedAs s' u' s.current (seg.vaddrStart + k * 4096) seg.pageFlags) :
      SpaceEffect s dirs blk u (.load s.current elf loaded) (s', dirs) blk' u'
  | switched {d} (hd : d ∈ dirs) :
      SpaceEffect s dirs blk u (.switch d) (s.pagingSwitchDirectory (d * 4096), dirs) blk u
  | tornDown {d s' blk' u'} (hd : d ∈ dirs) (hcur : s.currentPageDirectory ≠ d * 4096)
      (hkernel : s.kernelPageDirectory ≠ d * 4096) (h : TornDown s blk u d s' blk' u') :
      SpaceEffect s dirs blk u (.teardown d) (s', dirs.erase d) blk' u'

variable {s s' : Machine} {dirs : Finset Nat} {σ τ : Spaces} {blk blk' : Blocks} {u u' : UserSpaces}
  {d addr q : Nat} {ev : SpaceEvent} {evs : List SpaceEvent}

theorem SpacesInv.current_mem (h : SpacesInv s dirs blk u) :
    s.current ∈ u.dirs ∧ s.currentPageDirectory = s.current * 4096 := by
  obtain ⟨d, hd, hcur⟩ := h.current
  have hd' : s.current = d := by
    unfold Machine.current
    omega
  rw [hd', h.live]
  exact ⟨hd, hcur⟩

theorem SpacesInv.inSpace (h : SpacesInv s dirs blk u) : InSpace s blk u s.current :=
  ⟨⟨h.rooted, h.current_mem.2, h.current_mem.1⟩, h.inv, h.slots⟩

theorem SpaceStep.effect (h : SpacesInv s dirs blk u) (step : SpaceStep (s, dirs) ev τ) :
    ∃ blk' u', SpaceEffect s dirs blk u ev τ blk' u' := by
  have hin := h.inSpace
  cases step with
  | fork hsrc run =>
    obtain ⟨dst, blk', u', rfl, hfree, f⟩ :=
      pagingCloneDirectory_spec h.inv h.rooted h.slots (h.live ▸ hsrc) run
    rw [Nat.mul_div_cancel _ (by decide)]
    exact ⟨blk', u', .forked hsrc hfree f⟩
  | @fault _ _ present writeAccess addr recovered s' haddr run =>
    have hsat := h.unsaturated _ (hin.slotOf_mem haddr)
    unfold pageFaultTryRecover at run
    split at run
    · rcases pagingHandlePageFaultCow_spec hin haddr hsat with
        hrun | ⟨s1, blk', e, hrun, he, hcow, hun, hin'⟩
      · obtain ⟨rfl, rfl⟩ := mk.inj (some.inj (run.symm.trans hrun))
        exact ⟨blk, u, .notRecovered⟩
      · obtain ⟨rfl, rfl⟩ := mk.inj (some.inj (run.symm.trans hrun))
        exact ⟨blk', u, .unshared haddr he hcow hun hin'.rooted⟩
    · obtain ⟨rfl, rfl⟩ := mk.inj (some.inj run)
      exact ⟨blk, u, .notRecovered⟩
  | write haddr run =>
    have hsat := h.unsaturated _ (hin.slotOf_mem haddr)
    obtain ⟨blk', hst⟩ := userWrite_spec hin haddr hsat run
    exact ⟨blk', u, .stored haddr run hst⟩
  | map haddr hnew hflags =>
    have hnone := pagingIsMapped_eq_false hin.toCurrent haddr hnew
    rcases mapNewPage_spec hin haddr hnone hflags with
      ⟨s1, blk', hrun, ext⟩ | ⟨p, s1, blk', u', hrun, -, -, -, ext⟩
    · rw [hrun]
      exact ⟨blk', u, .mapped ext⟩
    · rw [hrun]
      exact ⟨blk', u', .mapped ext⟩
  | load hsegs =>
    obtain ⟨blk', u', ext, hloaded⟩ := elfLoadSegments_spec hin _ fun seg hseg => .inl (hsegs seg hseg)
    exact ⟨blk', u', .loaded ext hsegs fun hr seg hseg k hk => (hloaded hr seg hseg k hk).2.mapped⟩
  | switch hd => exact ⟨blk, u, .switched hd⟩
  | teardown hd hcur hkernel run =>
    obtain ⟨s1, hrun, blk', u', htorn⟩ :=
      pagingFreeUserPages_spec h.inv h.rooted h.slots (h.live ▸ hd) h.unsaturated
    obtain rfl := some.inj (run.symm.trans hrun)
    exact ⟨blk', u', .tornDown hd hcur hkernel htorn⟩

/-! ## What every operation keeps -/

/-- The invariant afterwards, and how the pages of the address spaces and those of others
have changed. -/
structure Stepped (s : Machine) (dirs : Finset Nat) (blk : Blocks) (u : UserSpaces) (τ : Spaces)
    (blk' : Blocks) (u' : UserSpaces) : Prop where
  inv : UserInv τ.1 blk' u'
  live : u'.dirs = τ.2
  slots : u'.slots = allSlots u'.dirs
  rooted : Rooted τ.1 u'
  current : ∃ d ∈ τ.2, τ.1.currentPageDirectory = d * 4096
  lost : NoneLost s u τ.1 blk' u'
  foreign : ∀ q, ¬ IsFree blk q → q ∉ owned s u →
    blk' q = blk q ∧ τ.1.refs q = s.refs q ∧ ∀ a, a / 4096 = q → τ.1.mem a = s.mem a
  gained : ∀ q ∈ owned τ.1 u', q ∈ owned s u ∨ IsFree blk q
  kernelHalf : ∀ d ∈ τ.2, ∃ d0 ∈ dirs, ∀ i, i < 1024 → i = 0 ∨ 256 ≤ i →
    τ.1.tableOf d i = s.tableOf d0 i

theorem Keeps.foreign {W R : Set Nat} (k : Keeps s blk s' blk' W R) (hW : W ⊆ owned s u)
    (hR : R ⊆ owned s u) (hq : ¬ IsFree blk q) (hn : q ∉ owned s u) :
    blk' q = blk q ∧ s'.refs q = s.refs q ∧ ∀ a, a / 4096 = q → s'.mem a = s.mem a := by
  refine ⟨k.status q hq fun h => absurd (hW h) hn, k.refs q hq fun h => hn (hR h), ?_⟩
  rintro a rfl
  exact k.mem a hq fun h => hn (hW h)

theorem tablesOf_owned : tablesOf u d ⊆ owned s u := fun _ h => .inl (tablesOf_structural h)

theorem dir_owned (hd : d ∈ u.dirs) : d ∈ owned s u := .inl (.inl hd)

theorem framesOf_owned : framesOf s u d ⊆ owned s u := fun _ ⟨x, hx, _, hq⟩ => .inr ⟨x, hx, hq⟩

/-- How the owned pages of a later state are found among those of an earlier one. -/
theorem owned_cases {S : Set Nat} (hdirs : ∀ q ∈ u'.dirs, q ∈ S)
    (htables : ∀ d i t, u'.table d i = some t → t ∈ S)
    (hframes : ∀ x ∈ u'.slots, ∀ e, s'.userEntry u'.table x = some e → e.page ∈ S) :
    owned s' u' ⊆ S := by
  rintro q ((hq | ⟨d, i, ht⟩) | ⟨x, hx, e, he, rfl⟩)
  · exact hdirs q hq
  · exact htables d i q ht
  · exact hframes x hx e he

/-- The tables of a directory whose entries have not changed. -/
theorem table_congr (inv' : UserInv s' blk' u') (rooted : Rooted s u) (rooted' : Rooted s' u')
    (hd : d ∈ u.dirs) {i t : Nat} (ht : u'.table d i = some t)
    (hentry : ∀ i < 1024, s'.entry (d * 4096) i = s.entry (d * 4096) i) :
    u.table d i = some t := by
  obtain ⟨hd', hi1, hi⟩ := inv'.table_dir d i t ht
  rw [rooted d hd i hi1 hi, ← ht, rooted' d hd' i hi1 hi]
  exact (tableOf_congr (hentry i (by omega))).symm

section Stepped

variable {src dst k : Nat}

section

variable (h : SpacesInv s dirs blk u)

include h

theorem Forking.stepped (hsrc : src ∈ dirs) (hfree : IsFree blk dst)
    (f : Forking s blk u src dst k s' blk' u') :
    Stepped s dirs blk u (s', insert dst dirs) blk' u' := by
  have hentries : ∀ d ∈ u.dirs, ∀ i < 1024, s'.entry (d * 4096) i = s.entry (d * 4096) i := by
    intro d hd i hi
    refine f.keeps.entry (h.inv.dir d hd).1.not_isFree ?_ hi
    rintro ⟨i', ht⟩
    exact (h.inv.table src i' d ht).2.2 hd
  have hsub : ∀ x ∈ u.slots, x ∈ u'.slots := by
    intro x hx
    rw [h.slots, mem_allSlots] at hx
    rw [f.slots, mem_allSlots]
    exact ⟨mem_insert_of_mem hx.1, hx.2⟩
  refine ⟨f.inv, ?_, ?_, f.rooted, ?_, ?_, fun q => f.keeps.foreign tablesOf_owned framesOf_owned, ?_, ?_⟩
  · rw [f.dirs, h.live]
  · rw [f.slots, f.dirs]
  · obtain ⟨d, hd, hcur⟩ := h.current
    exact ⟨d, mem_insert_of_mem hd, f.keeps.current.trans hcur⟩
  · intro x hx e he
    have hpages := f.pages x hx
    rw [targets_eq_some he] at hpages
    obtain ⟨e', he', hpage⟩ := exists_of_targets hpages
    exact .inl ⟨x, hsub x hx, e', he', hpage⟩
  · refine owned_cases (S := {q | q ∈ owned s u ∨ IsFree blk q}) ?_ ?_ ?_
    · intro q hq
      rcases mem_insert.mp (f.dirs ▸ hq) with rfl | hq
      · exact .inr hfree
      · exact .inl (dir_owned hq)
    · intro d i t ht
      by_cases hd : d = dst
      · subst hd
        exact .inr (f.tables i t ht)
      · rw [f.old d i hd] at ht
        exact .inl (tablesOf_owned ⟨i, ht⟩)
    · intro x hx e he
      by_cases hd : x.1 = dst
      · exact (f.taken x hx hd e he).symm.imp (fun hq => framesOf_owned hq) id
      · have hxu : x ∈ u.slots := by
          rw [f.slots, mem_allSlots] at hx
          rw [h.slots, mem_allSlots]
          exact ⟨(mem_insert.mp hx.1).resolve_left hd, hx.2⟩
        have hpages := f.pages x hxu
        rw [targets_eq_some he] at hpages
        obtain ⟨e', he', hpage⟩ := exists_of_targets hpages.symm
        exact .inl (hpage ▸ frame_owned hxu he')
  · intro d hd
    by_cases hdd : d = dst
    · rw [hdd]
      exact ⟨src, hsrc, f.kernel⟩
    · have hd' := (mem_insert.mp hd).resolve_left hdd
      exact ⟨d, hd', fun i hi _ => tableOf_congr (hentries d (h.live ▸ hd') i hi)⟩

theorem Kept.stepped (k : Kept s blk u s' blk') : Stepped s dirs blk u (s', dirs) blk' u := by
  refine ⟨k.inv, h.live, h.slots, k.rooted, ?_, k.lost, fun q => k.keeps.foreign (fun _ => id) fun _ => id,
    ?_, ?_⟩
  · obtain ⟨d, hd, hcur⟩ := h.current
    exact ⟨d, hd, k.keeps.current.trans hcur⟩
  · refine owned_cases (S := {q | q ∈ owned s u ∨ IsFree blk q}) (fun q hq => .inl (dir_owned hq))
      (fun d i t ht => .inl (tablesOf_owned ⟨i, ht⟩)) ?_
    intro y hy f hf
    rcases k.taken y hy f hf with hfree | ⟨g, hg, hpage⟩
    · exact .inr hfree
    · exact .inl (hpage ▸ frame_owned hy hg)
  · exact fun d hd => ⟨d, hd, fun i hi _ => tableOf_congr (k.dirs d (h.live ▸ hd) i hi)⟩

theorem Extended.stepped (hd : d ∈ u.dirs) (ext : Extended s blk u d s' blk' u') :
    Stepped s dirs blk u (s', dirs) blk' u' := by
  have hentries : ∀ d' ∈ u.dirs, d' ≠ d → ∀ i, i < 1024 →
      s'.entry (d' * 4096) i = s.entry (d' * 4096) i := by
    intro d' hd' hne i hi
    refine ext.keeps.entry (h.inv.dir d' hd').1.not_isFree ?_ hi
    rintro (rfl | ⟨i', ht⟩)
    · exact hne rfl
    · exact (h.inv.table d i' d' ht).2.2 hd'
  have hW : {d} ∪ tablesOf u d ⊆ owned s u := by
    rintro q (rfl | hq)
    · exact dir_owned hd
    · exact tablesOf_owned hq
  refine ⟨ext.inv, ext.dirs.trans h.live, by rw [ext.slots, ext.dirs, h.slots], ext.rooted, ?_, ?_,
    fun q => ext.keeps.foreign hW fun _ h => h.elim, ?_, ?_⟩
  · obtain ⟨c, hc, hcur⟩ := h.current
    exact ⟨c, hc, ext.keeps.current.trans hcur⟩
  · exact fun x hx e he => .inl ⟨x, ext.slots ▸ hx, e, ext.old x hx e he, rfl⟩
  · refine owned_cases (S := {q | q ∈ owned s u ∨ IsFree blk q})
      (fun q hq => .inl (dir_owned (ext.dirs ▸ hq))) ?_ ?_
    · intro d' i t ht
      by_cases hdd : d' = d
      · subst hdd
        exact (ext.tables i t ht).imp (fun ht => tablesOf_owned ⟨i, ht⟩) id
      · have hd' := ext.dirs ▸ (ext.inv.table_dir d' i t ht).1
        have ht' := table_congr ext.inv h.rooted ext.rooted hd' ht (hentries d' hd' hdd)
        exact .inl (tablesOf_owned ⟨i, ht'⟩)
    · intro y hy f hf
      rcases ext.taken y hy f hf with hfree | ⟨g, hg, hpage⟩
      · exact .inr hfree
      · exact .inl (hpage ▸ frame_owned (ext.slots ▸ hy) hg)
  · intro d' hd'
    refine ⟨d', hd', fun i hi hk => tableOf_congr ?_⟩
    by_cases hdd : d' = d
    · exact hdd ▸ ext.kernel i hi hk
    · exact hentries d' (h.live ▸ hd') hdd i hi

theorem TornDown.stepped (hd : d ∈ dirs) (hcur : s.currentPageDirectory ≠ d * 4096)
    (htorn : TornDown s blk u d s' blk' u') : Stepped s dirs blk u (s', dirs.erase d) blk' u' := by
  have hd' : d ∈ u.dirs := h.live ▸ hd
  have hentries : ∀ d' ∈ u'.dirs, ∀ i, i < 1024 →
      s'.entry (d' * 4096) i = s.entry (d' * 4096) i := by
    intro d' hd' i hi
    obtain ⟨hne, hd'⟩ := mem_erase.mp (htorn.dirs ▸ hd')
    refine htorn.keeps.entry (h.inv.dir d' hd').1.not_isFree ?_ hi
    rintro ((⟨i', ht⟩ | ⟨⟨x, hx, -, e, he, rfl⟩, -⟩) | rfl)
    · exact (h.inv.table d i' d' ht).2.2 hd'
    · exact (h.inv.frame x hx e he).2.1 hd'
    · exact hne rfl
  have hW : tablesOf u d ∪ onlyOf s u d ∪ {d} ⊆ owned s u := by
    rintro q ((hq | ⟨hq, -⟩) | rfl)
    · exact tablesOf_owned hq
    · exact framesOf_owned hq
    · exact dir_owned hd'
  have hR : tablesOf u d ∪ framesOf s u d ∪ {d} ⊆ owned s u := by
    rintro q ((hq | hq) | rfl)
    · exact tablesOf_owned hq
    · exact framesOf_owned hq
    · exact dir_owned hd'
  have hsub : ∀ x, x ∈ u'.slots ↔ x ∈ u.slots ∧ x.1 ≠ d := by
    intro x
    rw [htorn.slots, h.slots, mem_allSlots, mem_allSlots, mem_erase]
    tauto
  refine ⟨htorn.inv, htorn.dirs.trans (by rw [h.live]), by rw [htorn.slots, htorn.dirs],
    htorn.rooted, ?_, ?_, fun q => htorn.keeps.foreign hW hR, ?_, ?_⟩
  · obtain ⟨c, hc, hcc⟩ := h.current
    refine ⟨c, mem_erase.mpr ⟨?_, hc⟩, htorn.keeps.current.trans hcc⟩
    rintro rfl
    exact hcur hcc
  · intro x hx e he
    by_cases hxd : x.1 = d
    · -- the page was mapped in `d`: another directory maps it too, or it was given back
      by_cases honly : ∀ y ∈ u.slots, y.1 ≠ d → e.page ∉ frameOfSlot s u y
      · exact .inr (htorn.freed _ ⟨⟨x, hx, hxd, e, he, rfl⟩, honly⟩)
      · push Not at honly
        obtain ⟨y, hy, hyd, f, hf, hpage⟩ := honly
        have hy' := (hsub y).mpr ⟨hy, hyd⟩
        exact .inl ⟨y, hy', f, (htorn.same y hy').trans hf, hpage⟩
    · have hx' := (hsub x).mpr ⟨hx, hxd⟩
      exact .inl ⟨x, hx', e, (htorn.same x hx').trans he, rfl⟩
  · refine owned_cases (S := {q | q ∈ owned s u ∨ IsFree blk q}) ?_ ?_ ?_
    · intro q hq
      exact .inl (dir_owned (mem_of_mem_erase (htorn.dirs ▸ hq)))
    · intro d' i t ht
      have hd' := (htorn.inv.table_dir d' i t ht).1
      have ht' := table_congr htorn.inv h.rooted htorn.rooted
        (mem_of_mem_erase (htorn.dirs ▸ hd')) ht (hentries d' hd')
      exact .inl (tablesOf_owned ⟨i, ht'⟩)
    · intro y hy f hf
      exact .inl (frame_owned ((hsub y).mp hy).1 ((htorn.same y hy).symm.trans hf))
  · intro d' hd'
    have hlive : d' ∈ u'.dirs := by rwa [htorn.dirs, h.live]
    exact ⟨d', mem_of_mem_erase hd', fun i hi _ => tableOf_congr (hentries d' hlive i hi)⟩

end

/-- Only the current directory changes in a task switch. -/
theorem UserInv.switch (inv : UserInv s blk u) (pd : Nat) :
    UserInv (s.pagingSwitchDirectory pd) blk u :=
  ⟨inv.steady, inv.dir, inv.table, inv.table_inj, inv.table_dir, inv.slot_lt, inv.clean, inv.frame,
    inv.shared⟩

theorem SpacesInv.switch (h : SpacesInv s dirs blk u) (hd : d ∈ dirs) :
    Stepped s dirs blk u (s.pagingSwitchDirectory (d * 4096), dirs) blk u :=
  ⟨h.inv.switch _, h.live, h.slots, h.rooted, ⟨d, hd, rfl⟩,
    fun x hx e he => .inl ⟨x, hx, e, he, rfl⟩, fun _ _ _ => ⟨rfl, rfl, fun _ _ => rfl⟩,
    fun _ => .inl, fun d hd => ⟨d, hd, fun _ _ _ => rfl⟩⟩

theorem SpaceEffect.stepped (h : SpacesInv s dirs blk u)
    (eff : SpaceEffect s dirs blk u ev τ blk' u') : Stepped s dirs blk u τ blk' u' := by
  obtain ⟨hcur, -⟩ := h.current_mem
  cases eff with
  | forked hsrc hfree f => exact f.stepped h hsrc hfree
  | notRecovered =>
    exact ⟨h.inv, h.live, h.slots, h.rooted, h.current, fun x hx e he => .inl ⟨x, hx, e, he, rfl⟩,
      fun _ _ _ => ⟨rfl, rfl, fun _ _ => rfl⟩, fun _ => .inl, fun d hd => ⟨d, hd, fun _ _ _ => rfl⟩⟩
  | unshared haddr he hcow hun rooted' =>
    exact (hun.kept h.inv (h.slots ▸ slotOf_mem hcur haddr) he rooted').stepped h
  | stored haddr _ st => exact st.toKept.stepped h
  | mapped ext => exact ext.stepped h hcur
  | loaded ext _ _ => exact ext.stepped h hcur
  | switched hd => exact h.switch hd
  | tornDown hd hcur _ htorn => exact htorn.stepped h hd hcur

/-- The pages that the address spaces own were handed out one by one. -/
theorem UserInv.owned_isPage (inv : UserInv s blk u) (hq : q ∈ owned s u) : IsPage blk q := by
  rcases hq with (hq | ⟨d, i, ht⟩) | ⟨x, hx, e, he, rfl⟩
  · exact (inv.dir q hq).1
  · exact (inv.table d i q ht).1
  · exact (inv.frame x hx e he).1

/-- Pages of no block stay as they are. -/
theorem Stepped.outside (h : SpacesInv s dirs blk u) (st : Stepped s dirs blk u τ blk' u')
    (hq : blk q = none) : blk' q = none ∧ τ.1.refs q = s.refs q := by
  have hfree : ¬ IsFree blk q := by
    rintro ⟨o, ho⟩
    cases hq.symm.trans ho
  have hn : q ∉ owned s u := fun ho => by cases hq.symm.trans (h.inv.owned_isPage ho)
  obtain ⟨hblk, hrefs, -⟩ := st.foreign q hfree hn
  exact ⟨hblk.trans hq, hrefs⟩

end Stepped

end Stos.Kernel
