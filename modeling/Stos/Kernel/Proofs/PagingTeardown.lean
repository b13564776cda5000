import Stos.Kernel.Proofs.PagingFault

/-!
# Teardown of an address space

`paging_free_user_pages` followed by `pmm_free_page` of the directory: never stops the
machine, leaves every other address space as it was, and gives back exactly the pages that
only the torn down directory mapped.
-/

namespace Stos.Kernel

open Machine List Finset Option UserSpaces PageEntry

variable {s s' s'' : Machine} {blk blk' blk'' : Blocks} {u u' : UserSpaces} {d i j t : Nat}
  {x : Slot} {e : PageEntry}

/-! ## One entry -/

/-- Slot `x` no longer counts, and its page was given back if it was the last one. -/
structure DroppedSlot (s : Machine) (blk : Blocks) (u : UserSpaces) (x : Slot) (s' : Machine)
    (blk' : Blocks) : Prop where
  inv : UserInv s' blk' { u with slots := u.slots.erase x }
  keeps : Keeps s blk s' blk' {q | q ∈ frameOfSlot s u x ∧ SoleOwner s u x q} (frameOfSlot s u x)
  same : ∀ y ∈ u.slots, s'.userEntry u.table y = s.userEntry u.table y
  refs_le : ∀ y ∈ u.slots, ∀ f, s.userEntry u.table y = some f → s'.refs f.page ≤ s.refs f.page
  freed : ∀ q ∈ frameOfSlot s u x, SoleOwner s u x q → IsFree blk' q
  free : ∀ q, IsFree blk q → IsFree blk' q

/-- The reference of slot `x` is gone, and with the last one the page. -/
theorem UserInv.dropSlot (inv : UserInv s blk u) (hx : x ∈ u.slots)
    (he : s.userEntry u.table x = some e) (hsat : s.refs e.page < 65535)
    (k : Keeps s blk s' blk' {q | q = e.page ∧ SoleOwner s u x q} {e.page})
    (hone : s'.refs e.page + 1 = s.refs e.page)
    (hfreed : SoleOwner s u x e.page → IsFree blk' e.page)
    (hfree : ∀ q, IsFree blk q → IsFree blk' q) : DroppedSlot s blk u x s' blk' := by
  obtain ⟨hpage, hdir, htable⟩ := inv.frame x hx e he
  have hnottable := noTable_singleton htable
  have hW : u.NoTable {q | q = e.page ∧ SoleOwner s u x q} := fun d i t ht hq =>
    hnottable d i t ht hq.1
  have hsame : ∀ y ∈ u.slots, s'.userEntry u.table y = s.userEntry u.table y := fun y hy =>
    inv.userEntry_keeps k hW hy
  have hother : ∀ y ∈ u.slots, ∀ f, s.userEntry u.table y = some f → f.page ≠ e.page →
      s'.refs f.page = s.refs f.page := fun y hy f hf hne =>
    k.refs _ (inv.frame y hy f hf).1.not_isFree hne
  have hframe : ∀ q ∈ frameOfSlot s u x, q = e.page := by
    rintro q ⟨f, hf, rfl⟩
    obtain rfl := some.inj (he.symm.trans hf)
    rfl
  have hself : e.page ∈ frameOfSlot s u x := ⟨e, he, rfl⟩
  refine ⟨inv.rebuild k (noDir_singleton hdir) hnottable (erase_subset _ _)
    (inv.clean_keeps k hW) ?_ ?_, k.mono ?_ ?_, hsame, ?_, ?_, hfree⟩
  · intro y hy f hf
    obtain ⟨hne, hy⟩ := mem_erase.mp hy
    have hf := (hsame y hy).symm.trans hf
    obtain ⟨hp, hn⟩ := inv.frame y hy f hf
    refine ⟨k.isPage hp ?_, hn⟩
    rintro ⟨-, hsole⟩
    exact absurd rfl (hsole y hy hne f hf)
  · refine (inv.shared.drop hx he hsat hone hother).congr ?_ fun _ _ _ _ => rfl
    intro y hy
    exact hsame y (mem_of_mem_erase hy)
  · rintro q - ⟨rfl, hsole⟩
    exact ⟨hself, hsole⟩
  · rintro q - rfl
    exact hself
  · intro y hy f hf
    by_cases hfe : f.page = e.page
    · rw [hfe]
      omega
    · exact le_of_eq (hother y hy f hf hfe)
  · intro q hq hsole
    obtain rfl := hframe q hq
    exact hfreed hsole

/-- The body of the loop over a user page table. -/
theorem freeUserPage_spec (inv : UserInv s blk u) (ht : u.table d i = some t)
    (hx : (d, i, j) ∈ u.slots)
    (hsat : ∀ e, s.userEntry u.table (d, i, j) = some e → s.refs e.page < 65535) :
    ∃ s' blk', freeUserPage (t * 4096) s j = some s' ∧
      DroppedSlot s blk u (d, i, j) s' blk' := by
  unfold freeUserPage
  by_cases hpresent : (s.entry (t * 4096) j).present = true
  swap
  · -- nothing is mapped here
    rw [Bool.not_eq_true] at hpresent
    have hnone := (userEntry_eq_none ht).mpr hpresent
    have hempty : ∀ q, q ∉ frameOfSlot s u (d, i, j) := by
      rintro q ⟨e, he, -⟩
      rw [hnone] at he
      cases he
    refine ⟨s, blk, by simp [hpresent], ?_, .refl inv.steady, fun _ _ => rfl,
      fun _ _ _ _ => le_rfl, fun q hq => absurd hq (hempty q), fun _ => id⟩
    refine inv.restrict (erase_subset _ _) fun y hy hn => ?_
    have : y = (d, i, j) := by
      by_contra hne
      exact hn (mem_erase.mpr ⟨hne, hy⟩)
    rw [this, hnone]
  have he := (userEntry_eq_some ht).mpr ⟨rfl, hpresent⟩
  obtain ⟨hpage, -, -⟩ := inv.frame _ hx _ he
  have hsat := hsat _ he
  have hpos := inv.shared.refs_pos hx he (by decide)
  generalize s.entry (t * 4096) j = e at *
  have hsole : s.refs e.page = 1 ↔ SoleOwner s u (d, i, j) e.page :=
    inv.shared.refs_eq_one_iff hx he hsat
  simp only [hpresent, Bool.not_true, Bool.false_eq_true, if_false, addr_eq]
  by_cases hcow : e.cow = true
  · -- a page that may be shared loses one reference
    simp only [hcow, if_true]
    obtain ⟨s1, hdec, hr⟩ := decRefcount_spec inv.steady hpage hpos hsat
    rw [hdec]
    dsimp only
    by_cases hzero : s.refs e.page - 1 = 0
    · rw [if_pos hzero]
      obtain ⟨blk', hdrop⟩ := freePage_spec hr.keeps.steady hpage
        (by rw [hr.refs]; omega)
      refine ⟨_, blk', rfl, inv.dropSlot hx he hsat ?_ ?_ (fun _ => hdrop.free) ?_⟩
      · refine (hr.keeps.mono (fun _ _ h => h.elim) fun _ _ => id).trans hdrop.keeps ?_
          fun _ _ => id
        rintro q - rfl
        exact ⟨rfl, hsole.mp (by omega)⟩
      · rw [hdrop.zero]
        omega
      · exact hdrop.isFree_mono
    · rw [if_neg hzero]
      refine ⟨_, blk, rfl, inv.dropSlot hx he hsat (hr.keeps.mono (fun _ _ h => h.elim) fun _ _ => id)
        ?_ (fun h => absurd (hsole.mpr h) (by omega)) fun _ => id⟩
      rw [hr.refs]
      omega
  · -- a private page: only one slot maps it
    simp only [hcow]
    have halone : SoleOwner s u (d, i, j) e.page := by
      intro y hy hne f hf hpage
      exact hcow (inv.shared.locked _ hx y hy e f hne.symm he hf hpage.symm).1
    have hrefs := hsole.mpr halone
    obtain ⟨blk', hdrop⟩ := freePage_spec inv.steady hpage (by omega)
    refine ⟨_, blk', rfl, inv.dropSlot hx he hsat (hdrop.keeps.mono ?_ fun _ _ => id) ?_
      (fun _ => hdrop.free) hdrop.isFree_mono⟩
    · rintro q - rfl
      exact ⟨rfl, halone⟩
    · rw [hdrop.zero]
      omega

/-! ## One table and the directory -/

/-- The pages that directory `d` maps and no other live directory does. -/
def onlyOf (s : Machine) (u : UserSpaces) (d : Nat) : Set Nat :=
  {q | q ∈ framesOf s u d ∧ ∀ y ∈ u.slots, y.1 ≠ d → q ∉ frameOfSlot s u y}

/-- What is left when the tables of `d` below index `i` are gone and, of the table at `i`, the
slots below `j`. -/
def UserSpaces.without (u : UserSpaces) (d i j : Nat) : UserSpaces where
  dirs := u.dirs
  table := fun d' i' => if d' = d ∧ i' < i then none else u.table d' i'
  slots := u.slots.filter fun x => ¬ (x.1 = d ∧ (x.2.1 < i ∨ x.2.1 = i ∧ x.2.2 < j))

theorem mem_without : x ∈ (u.without d i j).slots ↔
    x ∈ u.slots ∧ ¬ (x.1 = d ∧ (x.2.1 < i ∨ x.2.1 = i ∧ x.2.2 < j)) := mem_filter

/-- Teardown of `d` has come to slot `(d, i, j)`. -/
structure Dropping (s : Machine) (blk : Blocks) (u : UserSpaces) (d i j : Nat) (s' : Machine)
    (blk' : Blocks) : Prop where
  inv : UserInv s' blk' (u.without d i j)
  keeps : Keeps s blk s' blk' (tablesOf u d ∪ onlyOf s u d) (tablesOf u d ∪ framesOf s u d)
  same : ∀ x ∈ (u.without d i j).slots,
    s'.userEntry (u.without d i j).table x = s.userEntry u.table x
  sat : ∀ x ∈ (u.without d i j).slots, ∀ e, s.userEntry u.table x = some e →
    s'.refs e.page < 65535
  freed : ∀ x ∈ u.slots, x ∉ (u.without d i j).slots → ∀ q ∈ frameOfSlot s u x,
    (∀ y ∈ (u.without d i j).slots, q ∉ frameOfSlot s u y) → IsFree blk' q
  free : ∀ q, IsFree blk q → IsFree blk' q

section Dropping

theorem Dropping.frameOfSlot_eq (h : Dropping s blk u d i j s' blk')
    (hx : x ∈ (u.without d i j).slots) :
    frameOfSlot s' (u.without d i j) x = frameOfSlot s u x := by
  unfold frameOfSlot
  rw [h.same x hx]

theorem Dropping.nextSlot (h : Dropping s blk u d i j s' blk') (hx : (d, i, j) ∈ u.slots)
    (c : DroppedSlot s' blk' (u.without d i j) (d, i, j) s'' blk'') :
    Dropping s blk u d i (j + 1) s'' blk'' := by
  have hx' : (d, i, j) ∈ (u.without d i j).slots := mem_without.mpr ⟨hx, by dsimp only; omega⟩
  have herase : (u.without d i j).slots.erase (d, i, j) = (u.without d i (j + 1)).slots := by
    ext y
    rw [mem_erase, mem_without, mem_without]
    constructor
    · rintro ⟨hne, hy, hn⟩
      refine ⟨hy, fun hd => hn ⟨hd.1, ?_⟩⟩
      have : ¬ (y.2.1 = i ∧ y.2.2 = j) := fun e => hne (Prod.ext hd.1 (Prod.ext e.1 e.2))
      omega
    · rintro ⟨hy, hn⟩
      refine ⟨?_, hy, by omega⟩
      rintro rfl
      exact hn ⟨rfl, .inr ⟨rfl, Nat.lt_succ_self j⟩⟩
  have hsub : ∀ y ∈ (u.without d i (j + 1)).slots, y ∈ (u.without d i j).slots ∧ y ≠ (d, i, j) := by
    intro y hy
    rw [← herase, mem_erase] at hy
    exact ⟨hy.2, hy.1⟩
  have hsole : ∀ q, (∀ y ∈ (u.without d i (j + 1)).slots, q ∉ frameOfSlot s u y) →
      SoleOwner s' (u.without d i j) (d, i, j) q := by
    intro q hq y hy hne f hf hpage
    have hy' : y ∈ (u.without d i (j + 1)).slots := herase ▸ mem_erase.mpr ⟨hne, hy⟩
    exact hq y hy' ⟨f, (h.same y hy).symm.trans hf, hpage⟩
  refine ⟨?_, h.keeps.trans c.keeps ?_ ?_, ?_, ?_, ?_, fun q hq => c.free q (h.free q hq)⟩
  · have inv := c.inv
    rw [herase] at inv
    exact inv
  · rintro q - ⟨hq, hsole⟩
    rw [h.frameOfSlot_eq hx'] at hq
    refine .inr ⟨⟨_, hx, rfl, hq⟩, fun y hy hyd hyq => ?_⟩
    have hy' : y ∈ (u.without d i j).slots := mem_without.mpr ⟨hy, fun e => hyd e.1⟩
    obtain ⟨f, hf, hpage⟩ := hyq
    exact hsole y hy' (fun e => hyd (by rw [e])) f ((h.same y hy').trans hf) hpage
  · rintro q - hq
    rw [h.frameOfSlot_eq hx'] at hq
    exact .inr ⟨_, hx, rfl, hq⟩
  · intro y hy
    obtain ⟨hy', -⟩ := hsub y hy
    rw [← h.same y hy']
    exact c.same y hy'
  · intro y hy e he
    obtain ⟨hy', -⟩ := hsub y hy
    exact lt_of_le_of_lt (c.refs_le y hy' e ((h.same y hy').trans he)) (h.sat y hy' e he)
  · intro y hy hn q hq hlast
    by_cases hmap : q ∈ frameOfSlot s u (d, i, j)
    · exact c.freed q (h.frameOfSlot_eq hx' ▸ hmap) (hsole q hlast)
    · refine c.free q (h.freed y hy ?_ q hq ?_)
      · intro hy'
        by_cases hne : y = (d, i, j)
        · exact hmap (hne ▸ hq)
        · exact hn (herase ▸ mem_erase.mpr ⟨hne, hy'⟩)
      · intro z hz hzq
        by_cases hne : z = (d, i, j)
        · exact hmap (hne ▸ hzq)
        · exact hlast z (herase ▸ mem_erase.mpr ⟨hne, hz⟩) hzq

/-- All slots of the table are gone and the table is given back. -/
theorem Dropping.nextTable (h : Dropping s blk u d i 1024 s' blk')
    (hslots : u.slots = allSlots u.dirs) (ht : u.table d i = some t) :
    ∃ blk'', Dropping s blk u d (i + 1) 0 (s'.freePage (t * 4096)) blk'' := by
  have hset : setTable (u.without d i 1024).table d i none = (u.without d (i + 1) 0).table := by
    funext d' i'
    unfold UserSpaces.without setTable
    by_cases hd : d' = d
    · by_cases hi : i' = i
      · simp [hd, hi]
      · simp [hd, hi, show i' < i + 1 ↔ i' < i by omega]
    · simp [hd]
  have hslots' : (u.without d i 1024).slots = (u.without d (i + 1) 0).slots := by
    apply Finset.filter_congr
    intro x hx
    rw [hslots, mem_allSlots] at hx
    omega
  have hu : UserSpaces.mk u.dirs (setTable (u.without d i 1024).table d i none)
      (u.without d i 1024).slots = u.without d (i + 1) 0 := by
    rw [hset, hslots']
    rfl
  have htable : (u.without d i 1024).table d i = some t := by
    unfold UserSpaces.without
    simp [ht]
  have hnone : ∀ x ∈ (u.without d i 1024).slots, ¬ (x.1 = d ∧ x.2.1 = i) := by
    intro x hx hxi
    obtain ⟨hxu, hn⟩ := mem_without.mp hx
    rw [hslots, mem_allSlots] at hxu
    omega
  obtain ⟨inv1, loose, hsame⟩ := h.inv.dropTable htable hnone
  obtain ⟨blk'', inv2, hdrop⟩ := loose.free inv1
  rw [hset, hslots'] at hsame
  replace inv1 : UserInv s' blk' (u.without d (i + 1) 0) := hu ▸ inv1
  replace inv2 : UserInv (s'.freePage (t * 4096)) blk'' (u.without d (i + 1) 0) := hu ▸ inv2
  replace loose : Loose s' blk' (u.without d (i + 1) 0) t := hu ▸ loose
  have hmem : t ∈ tablesOf u d := ⟨i, ht⟩
  refine ⟨blk'', inv2, h.keeps.trans hdrop.keeps ?_ ?_, ?_, ?_, ?_,
    fun q hq => hdrop.isFree_mono q (h.free q hq)⟩
  · rintro q - rfl
    exact .inl hmem
  · rintro q - rfl
    exact .inl hmem
  · intro x hx
    rw [inv1.userEntry_keeps hdrop.keeps (noTable_singleton loose.table) hx, hsame x hx]
    exact h.same x (hslots' ▸ hx)
  · intro x hx e he
    have hx' : x ∈ (u.without d i 1024).slots := hslots' ▸ hx
    have he' : s'.userEntry (u.without d (i + 1) 0).table x = some e := by
      rw [hsame x hx, h.same x hx', he]
    rw [hdrop.keeps.refs _ (inv1.frame x hx e he').1.not_isFree (loose.frame x hx e he')]
    exact h.sat x hx' e he
  · intro x hx hn q hq hlast
    rw [← hslots'] at hn hlast
    exact hdrop.isFree_mono q (h.freed x hx hn q hq hlast)

/-- A directory entry without a table is passed over. -/
theorem Dropping.skip (h : Dropping s blk u d i 0 s' blk') (hnone : u.table d i = none) :
    Dropping s blk u d (i + 1) 0 s' blk' := by
  have htable : (u.without d (i + 1) 0).table = (u.without d i 0).table := by
    funext d' i'
    unfold UserSpaces.without
    by_cases hd : d' = d
    · by_cases hi : i' = i
      · simp [hd, hi, hnone]
      · simp [hd, show i' < i + 1 ↔ i' < i by omega]
    · simp [hd]
  have hsub : (u.without d (i + 1) 0).slots ⊆ (u.without d i 0).slots := by
    intro x hx
    obtain ⟨hxu, hn⟩ := mem_without.mp hx
    exact mem_without.mpr ⟨hxu, by omega⟩
  have hempty : ∀ x ∈ u.slots, x ∈ (u.without d i 0).slots → x ∉ (u.without d (i + 1) 0).slots →
      s.userEntry u.table x = none := by
    intro x hx hin hout
    obtain ⟨-, hn⟩ := mem_without.mp hin
    have hxi : x.1 = d ∧ x.2.1 = i := by
      by_contra hne
      exact hout (mem_without.mpr ⟨hx, by omega⟩)
    unfold userEntry
    rw [hxi.1, hxi.2, hnone]
    rfl
  have hu : UserSpaces.mk u.dirs (u.without d i 0).table (u.without d (i + 1) 0).slots =
      u.without d (i + 1) 0 := by
    rw [← htable]
    rfl
  refine ⟨?_, h.keeps, ?_, fun x hx => h.sat x (hsub hx), ?_, h.free⟩
  · rw [← hu]
    refine h.inv.restrict hsub fun x hx hn => ?_
    rw [h.same x hx]
    exact hempty x (mem_without.mp hx).1 hx hn
  · intro x hx
    rw [htable]
    exact h.same x (hsub hx)
  · intro x hx hn q hq hlast
    by_cases hin : x ∈ (u.without d i 0).slots
    · obtain ⟨e, he, -⟩ := hq
      rw [hempty x hx hin hn] at he
      cases he
    · refine h.freed x hx hin q hq fun y hy hyq => ?_
      by_cases hout : y ∈ (u.without d (i + 1) 0).slots
      · exact hlast y hout hyq
      · obtain ⟨e, he, -⟩ := hyq
        rw [hempty y (mem_without.mp hy).1 hy hout] at he
        cases he

/-- The directory is only read. -/
theorem Dropping.tableOf (h : Dropping s blk u d i j s' blk') (inv : UserInv s blk u) {d' : Nat}
    (hd : d' ∈ u.dirs) {i' : Nat} (hi : i' < 1024) :
    s'.entry (d' * 4096) i' = s.entry (d' * 4096) i' := by
  refine h.keeps.entry (inv.dir d' hd).1.not_isFree ?_ hi
  rintro (⟨k, ht⟩ | ⟨⟨x, hx, -, e, he, hpage⟩, -⟩)
  · exact (inv.table d k d' ht).2.2 hd
  · exact (inv.frame x hx e he).2.1 (hpage ▸ hd)

/-- The body of the loop over the directory. -/
theorem freeUserTable_spec (h : Dropping s blk u d i 0 s' blk') (inv : UserInv s blk u)
    (rooted : Rooted s u) (hslots : u.slots = allSlots u.dirs) (hd : d ∈ u.dirs) (hi1 : 1 ≤ i)
    (hi : i < 256) :
    ∃ s'' blk'', freeUserTable (d * 4096) s' i = some s'' ∧
      Dropping s blk u d (i + 1) 0 s'' blk'' := by
  have hentry := h.tableOf inv hd (show i < 1024 by omega)
  have hroot := rooted d hd i hi1 hi
  unfold freeUserTable
  by_cases hpresent : (s.entry (d * 4096) i).present = true
  swap
  · rw [Bool.not_eq_true] at hpresent
    rw [tableOf_eq_none hpresent] at hroot
    refine ⟨s', blk', ?_, h.skip hroot⟩
    rw [hentry]
    simp [hpresent]
  · rw [tableOf_eq_some hpresent] at hroot
    generalize hpage : (s.entry (d * 4096) i).page = t at hroot
    have hslot : ∀ j < 1024, (d, i, j) ∈ u.slots := by
      intro j hj
      rw [hslots, mem_allSlots]
      exact ⟨hd, ⟨hi1, hi⟩, hj⟩
    obtain ⟨s1, hloop, blk1, h1⟩ := foldlM_range_total
      (f := freeUserPage (t * 4096)) (m := 0) (n := 1024)
      (P := fun j b => ∃ blk', Dropping s blk u d i j b blk') ⟨blk', h⟩ <| by
        rintro j b - hj ⟨blk', hb⟩
        have hin : (d, i, j) ∈ (u.without d i j).slots :=
          mem_without.mpr ⟨hslot j hj, by dsimp only; omega⟩
        have htable : (u.without d i j).table d i = some t := by
          unfold without
          simp [hroot]
        obtain ⟨b', blk'', hrun, c⟩ := freeUserPage_spec hb.inv htable hin fun e he =>
          hb.sat _ hin e ((hb.same _ hin).symm.trans he)
        exact ⟨b', hrun, blk'', hb.nextSlot (hslot j hj) c⟩
    obtain ⟨blk'', h2⟩ := h1.nextTable hslots hroot
    refine ⟨_, blk'', ?_, h2⟩
    have hentry1 := h1.tableOf inv hd (show i < 1024 by omega)
    rw [hentry]
    simp only [hpresent, Bool.not_true, Bool.false_eq_true, if_false]
    rw [addr_eq, hpage, range_eq_range', hloop, map_some, hentry1,
      addr_eq, hpage]

end Dropping

/-! ## The whole teardown -/

/-- The address space `d` is gone. -/
structure TornDown (s : Machine) (blk : Blocks) (u : UserSpaces) (d : Nat) (s' : Machine)
    (blk' : Blocks) (u' : UserSpaces) : Prop where
  inv : UserInv s' blk' u'
  dirs : u'.dirs = u.dirs.erase d
  slots : u'.slots = allSlots (u.dirs.erase d)
  rooted : Rooted s' u'
  keeps : Keeps s blk s' blk' (tablesOf u d ∪ onlyOf s u d ∪ {d})
    (tablesOf u d ∪ framesOf s u d ∪ {d})
  same : ∀ x ∈ u'.slots, s'.userEntry u'.table x = s.userEntry u.table x
  freed : ∀ q ∈ onlyOf s u d, IsFree blk' q

/-- `paging_free_user_pages` and `pmm_free_page` of the directory. -/
theorem pagingFreeUserPages_spec (inv : UserInv s blk u) (rooted : Rooted s u)
    (hslots : u.slots = allSlots u.dirs) (hd : d ∈ u.dirs)
    (hsat : ∀ x ∈ u.slots, ∀ e, s.userEntry u.table x = some e → s.refs e.page < 65535) :
    ∃ s1, s.pagingFreeUserPages (d * 4096) = some s1 ∧
      ∃ blk' u', TornDown s blk u d (s1.freePage (d * 4096)) blk' u' := by
  have hstart : u.without d 1 0 = u := by
    unfold without
    cases u with
    | mk dirs table slots =>
      congr 1
      · funext d' i'
        split
        · next hi =>
          cases ht : table d' i' with
          | none => rfl
          | some t =>
            have := inv.table_dir d' i' t ht
            omega
        · rfl
      · apply filter_true_of_mem
        intro x hx
        have hx : x ∈ allSlots dirs := hslots ▸ hx
        rw [mem_allSlots] at hx
        omega
  have h0 : Dropping s blk u d 1 0 s blk := by
    refine ⟨hstart.symm ▸ inv, .refl inv.steady, ?_, ?_, ?_, fun _ => id⟩
    · intro x _
      rw [hstart]
    · rw [hstart]
      exact hsat
    · intro x hx hn
      rw [hstart] at hn
      exact absurd hx hn
  obtain ⟨s1, hloop, blk1, h1⟩ := foldlM_range_total
    (f := freeUserTable (d * 4096)) (m := 1) (n := 255)
    (P := fun i b => ∃ blk', Dropping s blk u d i 0 b blk') ⟨blk, h0⟩ <| by
      rintro i b hi1 hi ⟨blk', hb⟩
      obtain ⟨b', blk'', hrun, hb'⟩ :=
        freeUserTable_spec hb inv rooted hslots hd hi1 (by omega)
      exact ⟨b', hrun, blk'', hb'⟩
  have hpos : d ≠ 0 := by
    rintro rfl
    exact inv.steady.zero_not_live 0 (inv.dir 0 hd).1
  refine ⟨s1, ?_, ?_⟩
  · unfold pagingFreeUserPages
    rw [if_neg (mul_ne_zero hpos (by decide)), hloop]
  -- the directory has no table left
  have hnone : ∀ i, (u.without d (1 + 255) 0).table d i = none := by
    intro i
    unfold without
    by_cases hi : i < 256
    · simp [hi]
    · simp only [hi, and_false, if_false]
      cases ht : u.table d i with
      | none => rfl
      | some t => exact absurd (inv.table_dir d i t ht).2.2 hi
  obtain ⟨inv2, loose⟩ := h1.inv.dropDir hd hnone
  obtain ⟨blk', inv3, hdrop⟩ := loose.free inv2
  have hslots' : (u.without d (1 + 255) 0).slots = allSlots (u.dirs.erase d) := by
    ext x
    rw [mem_without, hslots, mem_allSlots, mem_allSlots, mem_erase]
    constructor
    · rintro ⟨⟨hx, hi, hj⟩, hn⟩
      exact ⟨⟨fun e => hn ⟨e, .inl hi.2⟩, hx⟩, hi, hj⟩
    · rintro ⟨⟨hne, hx⟩, hi, hj⟩
      exact ⟨⟨hx, hi, hj⟩, fun e => hne e.1⟩
  have hother : ∀ d' i, d' ≠ d → (u.without d (1 + 255) 0).table d' i = u.table d' i := by
    intro d' i hne
    unfold without
    simp [hne]
  refine ⟨blk', _, inv3, rfl, hslots', ?_, ?_, ?_, ?_⟩
  · intro d' hd' i hi1 hi
    obtain ⟨hne, hd'⟩ := mem_erase.mp hd'
    refine (hother d' i hne).trans ((rooted d' hd' i hi1 hi).trans ?_)
    apply (tableOf_congr _).symm
    rw [hdrop.keeps.entry (h1.inv.dir d' hd').1.not_isFree hne (by omega)]
    exact h1.tableOf inv hd' (by omega)
  · refine (h1.keeps.mono (fun _ _ h => .inl h) fun _ _ h => .inl h).trans hdrop.keeps ?_ ?_
    · exact fun _ _ h => .inr h
    · exact fun _ _ h => .inr h
  · intro x hx
    rw [inv2.userEntry_keeps hdrop.keeps (noTable_singleton loose.table) hx]
    exact h1.same x hx
  · rintro q ⟨⟨x, hx, hxd, hq⟩, hothers⟩
    refine hdrop.isFree_mono q (h1.freed x hx ?_ q hq ?_)
    · rw [hslots', mem_allSlots, hxd]
      simp
    · intro y hy
      rw [hslots', mem_allSlots, mem_erase] at hy
      refine hothers y ?_ hy.1.1
      rw [hslots, mem_allSlots]
      exact ⟨hy.1.2, hy.2⟩

end Stos.Kernel
