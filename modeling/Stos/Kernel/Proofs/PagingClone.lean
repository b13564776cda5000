import Stos.Kernel.Proofs.UserSlots
import Stos.Misc.Loop

/-!
# Cloning a directory

`paging_clone_directory` over every source directory and every stack: the counts stay exact,
every slot of the source keeps its page, and every slot of the new directory reads as the
slot of the source did.
-/

namespace Stos.Kernel

open Machine List Finset Option BitVec PageEntry Keeps Nat Prod UserInv Set

variable {s s' s'' s1 s2 s3 : Machine} {blk blk' blk'' blk1 : Blocks} {u u' u'' : UserSpaces}
  {src dst i j t t' userStackBase userStackSize d q p addr : Nat} {x y z : Slot} {e : PageEntry}
  {W W' : Set Nat} {A B C : Set (Nat × Nat)}

/-- Whatever slot `x` maps in `s`, slot `y` maps in `s'` with the same bytes. -/
def ReadsAs (s : Machine) (table : Nat → Nat → Option Nat) (x : Slot) (s' : Machine)
    (table' : Nat → Nat → Option Nat) (y : Slot) : Prop :=
  ∀ e, s.userEntry table x = some e → ∃ e', s'.userEntry table' y = some e' ∧
    ∀ k, k < 4096 → s'.mem (e'.page * 4096 + k) = s.mem (e.page * 4096 + k)

/-- The pages that slot `x` maps (at most one). -/
def frameOfSlot (s : Machine) (u : UserSpaces) (x : Slot) : Set Nat :=
  {q | ∃ e, s.userEntry u.table x = some e ∧ e.page = q}

/-- The pages that directory `d` maps in user space. -/
def framesOf (s : Machine) (u : UserSpaces) (d : Nat) : Set Nat :=
  {q | ∃ x ∈ u.slots, x.1 = d ∧ q ∈ frameOfSlot s u x}

/-- Slot `y` maps a page of `S`, or one that was free before. -/
def TakenFrom (blk : Blocks) (S : Set Nat) (s : Machine) (table : Nat → Nat → Option Nat)
    (y : Slot) : Prop :=
  ∀ e, s.userEntry table y = some e → IsFree blk e.page ∨ e.page ∈ S

/-- The pages of the tables of directory `d`. -/
def tablesOf (u : UserSpaces) (d : Nat) : Set Nat := {q | ∃ i, u.table d i = some q}

/-- The pages of directories and tables. -/
def UserSpaces.structural (u : UserSpaces) : Set Nat :=
  {q | q ∈ u.dirs ∨ ∃ d i, u.table d i = some q}

theorem UserInv.frame_not_structural (inv : UserInv s blk u) (hx : x ∈ u.slots)
    (he : s.userEntry u.table x = some e) : e.page ∉ u.structural := by
  obtain ⟨-, hdir, htable⟩ := inv.frame x hx e he
  rintro (h | ⟨d, i, h⟩)
  · exact hdir h
  · exact htable d i h

/-- Directories and tables are not mapped, so a change to the bytes of the ones and to the
counts of the others gives nothing back. -/
theorem UserInv.frames_disjoint (inv : UserInv s blk u) (hW : W ⊆ u.structural) (hq : q ∈ W) :
    q ∉ framesOf s u d := by
  rintro ⟨x, hx, -, e, he, rfl⟩
  exact inv.frame_not_structural hx he (hW hq)

theorem tablesOf_structural (h : q ∈ tablesOf u d) : q ∈ u.structural := by
  obtain ⟨i, hi⟩ := h
  exact .inr ⟨d, i, hi⟩

section ReadsAs

variable {T T' T'' : Nat → Nat → Option Nat} {R : Set Nat}

/-- Later changes to directories and tables only do not show. -/
theorem ReadsAs.keeps_right (h : ReadsAs s T x s' u.table y) (inv : UserInv s' blk' u)
    (hy : y ∈ u.slots) (k : Keeps s' blk' s'' blk'' W R) (hW : W ⊆ u.structural)
    (hsame : s''.userEntry T'' y = s'.userEntry u.table y) : ReadsAs s T x s'' T'' y := by
  intro e he
  obtain ⟨e', he', hbytes⟩ := h e he
  refine ⟨e', hsame.trans he', fun i hi => ?_⟩
  rw [k.byte (inv.frame y hy e' he').1.not_isFree
    (fun hw => inv.frame_not_structural hy he' (hW hw)) hi]
  exact hbytes i hi

theorem ReadsAs.keeps_left (h : ReadsAs s' T' x s'' T'' y) (inv : UserInv s blk u)
    (hx : x ∈ u.slots) (k : Keeps s blk s' blk' W R) (hW : W ⊆ u.structural)
    (hsame : s'.userEntry T' x = s.userEntry u.table x) : ReadsAs s u.table x s'' T'' y := by
  intro e he
  obtain ⟨e', he', hbytes⟩ := h e (hsame.trans he)
  refine ⟨e', he', fun i hi => ?_⟩
  rw [hbytes i hi]
  exact k.byte (inv.frame x hx e he).1.not_isFree
    (fun hw => inv.frame_not_structural hx he (hW hw)) hi

end ReadsAs

/-- Slots that keep their page map nothing new. -/
theorem framesOf_subset (hslots : ∀ x ∈ u'.slots, x.1 = d → x ∈ u.slots)
    (hpages : ∀ x ∈ u.slots, x.1 = d → targets PageEntry.page (s'.userEntry u'.table) x =
      targets PageEntry.page (s.userEntry u.table) x) : framesOf s' u' d ⊆ framesOf s u d := by
  rintro q ⟨x, hx, hxd, e, he, hq⟩
  have hxu := hslots x hx hxd
  have hp := hpages x hxu hxd
  rw [targets_eq_some he] at hp
  obtain ⟨e', he', hpage⟩ := exists_of_targets hp.symm
  exact ⟨x, hxu, hxd, e', he', hpage.trans hq⟩

/-! ## Entries that the clone writes -/

theorem frameOf_toNat (hp : p < 2 ^ 20) : (frameOf (p * 4096)).toNat = p := by
  unfold frameOf
  rw [Nat.mul_div_cancel _ (by decide), toNat_ofNat, Nat.mod_eq_of_lt hp]

theorem PageEntry.addr_eq (e : PageEntry) : e.addr = e.page * 4096 := rfl

theorem stackEntry_page (e : PageEntry) (hp : p < 2 ^ 20) :
    (stackEntry e (p * 4096)).page = p := frameOf_toNat hp

theorem cowEntry_present (e : PageEntry) : (cowEntry e).present = e.present := rfl

theorem cowEntry_locked (e : PageEntry) : (cowEntry e).Locked := by
  refine ⟨?_, rfl⟩
  show (e.available ||| 1).getLsbD 0 = true
  simp

/-! ## Entries that are cloned -/

/-- The entries at the indices in `A` have been cloned from `src` to `dst`, with writes to the pages in
`W`. -/
structure Cloned (s : Machine) (blk : Blocks) (u : UserSpaces) (src dst : Nat) (A : Set (Nat × Nat))
    (W : Set Nat) (s' : Machine) (blk' : Blocks) (u' : UserSpaces) : Prop where
  inv : UserInv s' blk' u'
  keeps : Keeps s blk s' blk' W (framesOf s u src)
  pages : ∀ x ∈ u.slots, x.1 ≠ dst → targets page (s'.userEntry u'.table) x =
    targets page (s.userEntry u.table) x
  same : ∀ x ∈ u.slots, (x.1 ≠ src ∧ x.1 ≠ dst) ∨ x.2 ∉ A →
    s'.userEntry u'.table x = s.userEntry u.table x
  reads : ∀ a ∈ A, ReadsAs s u.table (src, a) s' u'.table (dst, a)
  taken : ∀ a ∈ A, TakenFrom blk (framesOf s u src) s' u'.table (dst, a)

/-- Other entries are cloned after that. -/
theorem Cloned.trans (h : Cloned s blk u src dst A W s' blk' u')
    (h' : Cloned s' blk' u' src dst B W' s'' blk'' u'') (inv : UserInv s blk u) (hne : src ≠ dst)
    (hslots : u'.slots = u.slots) (hW : W ⊆ u.structural) (hW' : W' ⊆ u'.structural)
    (hWW' : ∀ q, ¬ IsFree blk q → q ∈ W' → q ∈ W)
    (hA : ∀ a ∈ A, a ∉ B ∧ (dst, a) ∈ u'.slots) (hB : ∀ a ∈ B, a ∉ A ∧ (src, a) ∈ u.slots)
    (hC : ∀ a, a ∈ C ↔ a ∈ A ∨ a ∈ B) : Cloned s blk u src dst C W s'' blk'' u'' := by
  have hframes : framesOf s' u' src ⊆ framesOf s u src :=
    framesOf_subset (fun x hx _ => hslots ▸ hx) fun x hx hxs => h.pages x hx (hxs ▸ hne)
  have hold : ∀ a ∈ A, s''.userEntry u''.table (dst, a) = s'.userEntry u'.table (dst, a) :=
    fun a ha => h'.same _ (hA a ha).2 (.inr (hA a ha).1)
  refine ⟨h'.inv, h.keeps.trans h'.keeps hWW' fun _ _ => @hframes _, fun x hx hxd => ?_,
    fun x hx hcase => ?_, fun a ha => ?_, fun a ha e he => ?_⟩
  · rw [h'.pages x (hslots ▸ hx) hxd, h.pages x hx hxd]
  · rw [h'.same x (hslots ▸ hx) (hcase.imp_right fun hn hb => hn ((hC _).mpr (.inr hb))),
      h.same x hx (hcase.imp_right fun hn ha => hn ((hC _).mpr (.inl ha)))]
  · rcases (hC a).mp ha with ha | hb
    · exact (h.reads a ha).keeps_right h.inv (hA a ha).2 h'.keeps hW' (hold a ha)
    · exact (h'.reads a hb).keeps_left inv (hB a hb).2 h.keeps hW
        (h.same _ (hB a hb).2 (.inr (hB a hb).1))
  · rcases (hC a).mp ha with ha | hb
    · exact h.taken a ha e ((hold a ha).symm.trans he)
    · exact (h'.taken a hb e he).imp (h.keeps.isFree_of_isFree (inv.frames_disjoint hW))
        (@hframes _)

/-! ## One entry -/

section Entry

variable (inv : UserInv s blk u) (ht' : u.table dst i = some t') (hx : (src, i, j) ∈ u.slots)
  (hy : (dst, i, j) ∈ u.slots) (hnone : s.userEntry u.table (dst, i, j) = none)

include inv ht' hx hy hnone

/-- A stack page gets a page of its own, which has been filled from the page of the source if there is
one. -/
theorem cloneStackSlot_spec (hW : t' ∈ W) (g : Grabbed s blk p s1 blk1)
    (k2 : Keeps s1 blk1 s2 blk1 {p} ∅) (hcopy : ∀ e, s1.userEntry u.table (src, i, j) = some e →
      ∀ k < 4096, s2.mem (p * 4096 + k) = s1.mem (e.page * 4096 + k)) :
    Cloned s blk u src dst {(i, j)} W
      (s2.setEntry (t' * 4096) j (stackEntry (s2.entry (t' * 4096) j) (p * 4096))) blk1 u := by
  have hj : j < 1024 := inv.slot_lt _ hx
  obtain ⟨inv1, loose1⟩ := g.loose inv
  have hsame1 : ∀ z ∈ u.slots, s1.userEntry u.table z = s.userEntry u.table z := fun z hz =>
    inv.userEntry_keeps g.keeps (fun _ _ _ _ => id) hz
  obtain ⟨inv2, loose2, hfilled⟩ := loose1.write inv1 k2
  have hsame2 : ∀ z ∈ u.slots, s2.userEntry u.table z = s.userEntry u.table z := fun z hz =>
    (hfilled z hz).trans (hsame1 z hz)
  -- the entry is set
  have k3 := setEntry inv2.steady (inv2.table _ _ _ ht').1 hj
    (stackEntry (s2.entry (t' * 4096) j) (p * 4096))
  have hself := userEntry_setEntry_self (s := s2) (j := j) ht'
    (show (stackEntry (s2.entry (t' * 4096) j) (p * 4096)).present = true from rfl)
  have hrest : ∀ z ∈ u.slots, z ≠ (dst, i, j) →
      (s2.setEntry (t' * 4096) j (stackEntry (s2.entry (t' * 4096) j) (p * 4096))).userEntry
        u.table z = s.userEntry u.table z := fun z hz hzy =>
    (inv2.userEntry_setEntry ht' hj _ hz hzy).trans (hsame2 z hz)
  have hp : p ≠ t' := fun h => loose2.table dst i (h ▸ ht')
  refine ⟨inv2.fillSlot loose2 ht' hy ((hsame2 _ hy).trans hnone) rfl (stackEntry_page _ g.lt),
    (g.written k2).widen.trans k3 (fun _ _ hq => hq ▸ hW) fun _ _ h => h.elim,
    fun z hz hzd => targets_congr (hrest z hz fun h => hzd (h ▸ rfl)), fun z hz hcase => ?_,
    fun a ha e he => ?_, fun a ha e he => ?_⟩
  · refine hrest z hz ?_
    rintro rfl
    exact hcase.elim (fun h => h.2 rfl) fun h => h rfl
  · obtain rfl := ha
    refine ⟨_, hself, fun k hk => ?_⟩
    rw [stackEntry_page _ g.lt, k3.byte loose2.page.not_isFree hp hk,
      hcopy e ((hsame1 _ hx).trans he) k hk]
    exact g.keeps.byte (inv.frame _ hx e he).1.not_isFree id hk
  · obtain rfl := ha
    obtain rfl := some.inj (hself.symm.trans he)
    rw [stackEntry_page _ g.lt]
    exact .inl g.fresh

/-- One stack page of a new table, where the source has no table. -/
theorem createStackEntry_spec (ht : u.table src i = none)
    (run : createStackEntry (t' * 4096) i userStackBase userStackSize s j = some s') :
    ∃ blk', Cloned s blk u src dst {(i, j)} {t'} s' blk' u := by
  have hno : ∀ (b : Machine) e, b.userEntry u.table (src, i, j) ≠ some e := by
    intro b e he
    obtain ⟨t, h⟩ := exists_table he
    cases ht.symm.trans h
  unfold createStackEntry at run
  dsimp only at run
  split at run
  · rcases allocPage_spec inv.steady with h | ⟨p, s1, blk1, h, g⟩
    · rw [h] at run
      simp at run
    rw [h] at run
    have hpos := g.pos
    rw [if_neg (by omega)] at run
    obtain rfl := some.inj run
    exact ⟨blk1, cloneStackSlot_spec inv ht' hx hy hnone rfl g (.zeroPage g.keeps.steady g.page)
      fun e he => absurd he (hno s1 e)⟩
  · obtain rfl := some.inj run
    refine ⟨blk, inv, .refl inv.steady, fun _ _ _ => rfl, fun _ _ _ => rfl, ?_, ?_⟩
    · rintro _ rfl e he
      exact absurd he (hno s e)
    · rintro _ rfl e he
      rw [hnone] at he
      cases he

variable (hne : src ≠ dst)

include hne

/-- A page outside the stack is shared. -/
theorem cloneSharedSlot_spec (ht : u.table src i = some t)
    (he : s.userEntry u.table (src, i, j) = some e)
    (hs1 : Recounted s blk e.page (min (s.refs e.page + 1) 65535) s1)
    (hs2 : s2 = s1.setEntry (t' * 4096) j (s1.entry (t * 4096) j))
    (hs3 : s3 = s2.setEntry (t * 4096) j (cowEntry (s2.entry (t * 4096) j))) :
    Cloned s blk u src dst {(i, j)} {t, t'}
      (s3.setEntry (t' * 4096) j (cowEntry (s3.entry (t' * 4096) j))) blk u := by
  have hj : j < 1024 := inv.slot_lt _ hx
  have hpt := (inv.table _ _ _ ht).1
  have hpt' := (inv.table _ _ _ ht').1
  have htt' : t ≠ t' := fun h => hne (inv.table_inj _ _ _ _ _ (h ▸ ht) ht').1
  obtain ⟨hentry, hpresent⟩ := (userEntry_eq_some ht).mp he
  -- what the three stores write
  have h1 : s1.entry (t * 4096) j = e := by
    rw [← hentry]
    exact hs1.keeps.entry hpt.not_isFree id hj
  have h2 : s2.entry (t * 4096) j = e := by
    rw [hs2, entry_setEntry_of_ne hj hj (.inl htt'), h1]
  have h3 : s3.entry (t' * 4096) j = e := by
    rw [hs3, entry_setEntry_of_ne hj hj (.inl htt'.symm), hs2,
      entry_setEntry_self, h1]
  rw [h1] at hs2
  rw [h2] at hs3
  rw [h3]
  have k2 : Keeps s1 blk s2 blk {t'} ∅ := hs2 ▸ setEntry hs1.keeps.steady hpt' hj e
  have k3 : Keeps s2 blk s3 blk {t} ∅ := hs3 ▸ setEntry k2.steady hpt hj (cowEntry e)
  have k4 := setEntry k3.steady hpt' hj (cowEntry e)
  have kall : Keeps s blk (s3.setEntry (t' * 4096) j (cowEntry e)) blk {t, t'} {e.page} := by
    refine (((hs1.keeps.mono (fun _ _ h => h.elim) fun _ _ => id).trans k2 ?_ ?_).trans
      k3 ?_ ?_).trans k4 ?_ ?_
    · exact fun _ _ h => .inr h
    · exact fun _ _ h => h.elim
    · exact fun _ _ h => .inl h
    · exact fun _ _ h => h.elim
    · exact fun _ _ h => .inr h
    · exact fun _ _ h => h.elim
  have hpe : (cowEntry e).present = true := (cowEntry_present e).trans (userEntry_present he)
  have hclean2 : s2.Clean u := by
    rw [hs2]
    exact (inv.clean.of_mem hs1.mem).setEntry hj (userEntry_present he)
  have hclean3 : s3.Clean u := by
    rw [hs3]
    exact hclean2.setEntry hj hpe
  have hclean : (s3.setEntry (t' * 4096) j (cowEntry e)).Clean u := hclean3.setEntry hj hpe
  have hxy : ((src, i, j) : Slot) ≠ (dst, i, j) := fun h => hne (mk.inj h).1
  have hcx' : (s3.setEntry (t' * 4096) j (cowEntry e)).userEntry u.table (src, i, j) =
      some (cowEntry e) := by
    rw [inv.userEntry_setEntry ht' hj _ hx hxy, hs3]
    exact userEntry_setEntry_self ht hpe
  have hcy' : (s3.setEntry (t' * 4096) j (cowEntry e)).userEntry u.table (dst, i, j) =
      some (cowEntry e) :=
    userEntry_setEntry_self ht' hpe
  have hrest : ∀ z ∈ u.slots, z ≠ (src, i, j) → z ≠ (dst, i, j) →
      (s3.setEntry (t' * 4096) j (cowEntry e)).userEntry u.table z = s.userEntry u.table z := by
    intro z hz hzx hzy
    rw [inv.userEntry_setEntry ht' hj _ hz hzy, hs3, inv.userEntry_setEntry ht hj _ hz hzx, hs2,
      inv.userEntry_setEntry ht' hj _ hz hzy]
    exact inv.userEntry_keeps hs1.keeps (fun _ _ _ _ => id) hz
  refine ⟨inv.shareSlot kall hx hy he hnone hcx' hcy' rfl rfl (cowEntry_locked e)
    (cowEntry_locked e) hrest hclean ?_, ?_, fun z hz hzd => ?_, fun z hz hcase => ?_, ?_, ?_⟩
  · have hr : (s3.setEntry (t' * 4096) j (cowEntry e)).refs = s1.refs := by
      rw [hs3, hs2]
      rfl
    rw [hr]
    exact hs1.refs
  · exact kall.mono (fun _ _ => id) fun q _ hq => ⟨_, hx, rfl, e, he, hq.symm⟩
  · by_cases hzx : z = (src, i, j)
    · rw [hzx, targets_eq_some hcx', targets_eq_some he]
      rfl
    · exact targets_congr (hrest z hz hzx fun h => hzd (h ▸ rfl))
  · apply hrest z hz
    · rintro rfl
      exact hcase.elim (fun h => h.1 rfl) fun h => h rfl
    · rintro rfl
      exact hcase.elim (fun h => h.2 rfl) fun h => h rfl
  · rintro _ rfl e' he'
    obtain rfl := some.inj (he.symm.trans he')
    refine ⟨_, hcy', fun k hk => ?_⟩
    obtain ⟨hpage, -, hntable⟩ := inv.frame _ hx e he
    refine kall.byte hpage.not_isFree ?_ hk
    rintro (h | h)
    · exact hntable src i (h ▸ ht)
    · exact hntable dst i (h ▸ ht')
  · rintro _ rfl e' he'
    obtain rfl := some.inj (hcy'.symm.trans he')
    exact .inr ⟨_, hx, rfl, e, he, rfl⟩

theorem clonePageTableEntry_spec (ht : u.table src i = some t)
    (run : clonePageTableEntry (t * 4096) (t' * 4096) i userStackBase userStackSize s j =
      some s') :
    ∃ blk', Cloned s blk u src dst {(i, j)} {t, t'} s' blk' u := by
  unfold clonePageTableEntry at run
  dsimp only at run
  split at run
  · -- a stack page
    rcases allocPage_spec inv.steady with h | ⟨p, s1, blk1, h, g⟩
    · rw [h] at run
      simp at run
    · rw [h] at run
      have hpos := g.pos
      rw [if_neg (by omega)] at run
      obtain rfl := some.inj run
      refine ⟨blk1, cloneStackSlot_spec inv ht' hx hy hnone (.inr rfl) g ?_ fun e he k hk => ?_⟩
      · split
        · exact .copyPage g.keeps.steady g.page _
        · exact .zeroPage g.keeps.steady g.page
      · obtain ⟨rfl, hpresent⟩ := (userEntry_eq_some ht).mp he
        rw [if_pos hpresent]
        exact copyBytes_of_inside hk
  · split at run
    · next hpresent =>
      have he := (userEntry_eq_some ht).mpr ⟨rfl, hpresent⟩
      obtain ⟨hpage, -, -⟩ := inv.frame _ hx _ he
      have hle : s.refs (s.entry (t * 4096) j).page ≤ 65535 := by
        rw [inv.shared.counted _ hx _ he]
        exact min_le_right _ _
      obtain ⟨s1, hrun, hs1⟩ := incRefcount_spec inv.steady hpage hle
      rw [addr_eq, hrun] at run
      dsimp only at run
      rw [if_neg (by omega)] at run
      obtain rfl := some.inj run
      exact ⟨blk, cloneSharedSlot_spec inv ht' hx hy hnone hne ht he hs1 rfl rfl⟩
    · next hpresent =>
      obtain rfl := some.inj run
      refine ⟨blk, inv, .refl inv.steady, fun _ _ _ => rfl, fun _ _ _ => rfl, ?_, ?_⟩
      · rintro _ rfl e he
        exact absurd ((userEntry_eq_some ht).mp he).2 hpresent
      · rintro _ rfl e he
        rw [hnone] at he
        cases he

end Entry

/-! ## One table -/

/-- A new table for index `i` of the directory `dst`, not yet entered there, that reads as
the table of `src`. -/
structure NewTable (s : Machine) (blk : Blocks) (u : UserSpaces) (src dst i t' : Nat)
    (s' : Machine) (blk' : Blocks) : Prop extends
    Cloned s blk u src dst {a | a.1 = i ∧ a.2 < 1024} (tablesOf u src) s' blk'
      { u with table := setTable u.table dst i (some t') } where
  lt : t' < 2 ^ 20
  fresh : IsFree blk t'

/-- A page is taken, cleared and becomes the table of a directory entry. -/
theorem UserInv.newTable (inv : UserInv s blk u) (g : Grabbed s blk p s1 blk1) (hd : d ∈ u.dirs)
    (hi : 1 ≤ i ∧ i < 256) (hnone : u.table d i = none) :
    UserInv (s1.zeroPage (p * 4096)) blk1 { u with table := setTable u.table d i (some p) } ∧
      Keeps s blk (s1.zeroPage (p * 4096)) blk1 ∅ ∅ ∧
      (∀ j < 1024, ((s1.zeroPage (p * 4096)).entry (p * 4096) j).present = false) ∧
      ∀ x ∈ u.slots, (s1.zeroPage (p * 4096)).userEntry (setTable u.table d i (some p)) x =
        s.userEntry u.table x := by
  obtain ⟨inv1, loose1⟩ := g.loose inv
  have k2 : Keeps s1 blk1 (s1.zeroPage (p * 4096)) blk1 {p} ∅ :=
    .zeroPage inv1.steady loose1.page
  obtain ⟨inv2, loose2, hsame2⟩ := loose1.write inv1 k2
  have hzero : ∀ j < 1024, (s1.zeroPage (p * 4096)).entry (p * 4096) j = .empty := fun j hj =>
    entry_zeroPage hj
  obtain ⟨inv3, hsame3⟩ := inv2.addTable loose2 hd hi hnone hzero
  refine ⟨inv3, ?_, fun j hj => ?_, fun x hx => ?_⟩
  · exact g.written k2
  · rw [hzero j hj]
    exact empty_present
  · rw [hsame3 x hx, hsame2 x hx]
    exact inv.userEntry_keeps g.keeps (fun _ _ _ _ => id) hx

section Table

variable (inv : UserInv s blk u) (hd : dst ∈ u.dirs) (hi : 1 ≤ i ∧ i < 256)
  (hnone : u.table dst i = none) (hne : src ≠ dst) (hx : ∀ j < 1024, (src, i, j) ∈ u.slots)
  (hy : ∀ j < 1024, (dst, i, j) ∈ u.slots)

include inv hd hi hnone hne hx hy

/-- A new table is taken and filled entry by entry, with writes to the tables of the source in `W`. -/
theorem UserInv.cloneTable (hW : W ⊆ tablesOf u src)
    {f : Nat → Machine → Nat → Option Machine} (run : (let (p, s) := s.allocPage
      if p = 0 then none
      else ((List.range 1024).foldlM (f p) (s.zeroPage p)).map (p, ·)) = some (addr, s'))
    (hstep : ∀ p b b' blk' u2 j, UserInv b blk' u2 → u2.table = setTable u.table dst i (some p) →
      u2.slots = u.slots → j < 1024 → b.userEntry u2.table (dst, i, j) = none →
      f (p * 4096) b j = some b' →
      ∃ blk'', Cloned b blk' u2 src dst {(i, j)} (insert p W) b' blk'' u2) :
    ∃ t' blk', addr = t' * 4096 ∧ NewTable s blk u src dst i t' s' blk' := by
  rcases allocPage_spec inv.steady with h | ⟨p, s1, blk1, h, g⟩
  · rw [h] at run
    simp at run
  rw [h] at run
  have hpos := g.pos
  simp only [if_neg (show p * 4096 ≠ 0 by omega)] at run
  obtain ⟨s3, hloop, hs3⟩ := map_eq_some_iff.mp run
  obtain ⟨rfl, rfl⟩ := mk.inj hs3
  obtain ⟨inv2, k2, hempty, hsame2⟩ := inv.newTable g hd hi hnone
  generalize hu : ({ u with table := setTable u.table dst i (some p) } : UserSpaces) = u2 at inv2
  have htable : u2.table = setTable u.table dst i (some p) := by rw [← hu]
  have hslots : u2.slots = u.slots := by rw [← hu]
  have ht2 : u2.table dst i = some p := by rw [htable, setTable_self]
  have hstruct : insert p W ⊆ u2.structural := by
    rintro q (rfl | hq)
    · exact .inr ⟨dst, i, ht2⟩
    · obtain ⟨i', ht⟩ := hW hq
      exact .inr ⟨src, i', by rw [htable, setTable_of_ne fun h => hne h.1, ht]⟩
  rw [← htable] at hsame2
  rw [range_eq_range'] at hloop
  have hend := foldlM_range_inv (P := fun k b => ∃ blk',
    Cloned s blk u src dst {a | a.1 = i ∧ a.2 < k} (tablesOf u src) b blk' u2) hloop
    ⟨blk1, inv2, k2.widen, fun x hx _ => targets_congr (hsame2 x hx), fun x hx _ => hsame2 x hx,
      fun _ h => absurd h.2 (not_lt_zero _), fun _ h => absurd h.2 (not_lt_zero _)⟩ ?_
  · obtain ⟨blk', c⟩ := hend
    exact ⟨p, blk', rfl, by simpa only [hu, zero_add] using c, g.lt, g.fresh⟩
  · rintro k b b' - hk ⟨blk', c⟩ hb
    have hempty' : b.userEntry u2.table (dst, i, k) = none := by
      rw [c.same _ (hy k hk) (.inr fun h => lt_irrefl _ h.2), ← hsame2 _ (hy k hk)]
      exact (userEntry_eq_none ht2).mpr (hempty k hk)
    obtain ⟨blk'', c'⟩ := hstep p b b' blk' u2 k c.inv htable hslots hk hempty' hb
    refine ⟨blk'', c.trans c' inv hne hslots (fun _ => tablesOf_structural) hstruct ?_ ?_ ?_ ?_⟩
    · rintro q hq (rfl | hqW)
      · exact absurd g.fresh hq
      · exact hW hqW
    · rintro ⟨_, j⟩ ⟨rfl, hj⟩
      exact ⟨fun e => by cases e; omega, hslots ▸ hy j (by omega)⟩
    · rintro _ rfl
      exact ⟨fun h => lt_irrefl _ h.2, hx k hk⟩
    · rintro ⟨i', j⟩
      rw [mem_singleton_iff, Prod.mk.injEq]
      simp only [mem_ofPred_eq]
      omega

/-- `paging_clone_page_table`. -/
theorem pagingClonePageTable_spec (ht : u.table src i = some t)
    (run : s.pagingClonePageTable (t * 4096) i userStackBase userStackSize = some (addr, s')) :
    ∃ t' blk', addr = t' * 4096 ∧ NewTable s blk u src dst i t' s' blk' := by
  refine inv.cloneTable (W := {t})
    (f := fun p => clonePageTableEntry (t * 4096) p i userStackBase userStackSize)
    hd hi hnone hne hx hy (fun q hq => ⟨i, hq ▸ ht⟩) run
    fun p b b' blk' u2 j inv2 htable hslots hj hempty hb => ?_
  rw [pair_comm]
  refine clonePageTableEntry_spec inv2 ?_ (hslots ▸ hx j hj) (hslots ▸ hy j hj) hempty hne ?_ hb
  · rw [htable, setTable_self]
  · rw [htable, setTable_of_ne fun h => hne h.1, ht]

/-- `paging_create_stack_page_table`, called where the source has no table. -/
theorem pagingCreateStackPageTable_spec (ht : u.table src i = none)
    (run : s.pagingCreateStackPageTable i userStackBase userStackSize = some (addr, s')) :
    ∃ t' blk', addr = t' * 4096 ∧ NewTable s blk u src dst i t' s' blk' := by
  refine inv.cloneTable (W := ∅)
    (f := fun p => createStackEntry p i userStackBase userStackSize)
    hd hi hnone hne hx hy (fun _ h => h.elim) run
    fun p b b' blk' u2 j inv2 htable hslots hj hempty hb => ?_
  rw [LawfulSingleton.insert_empty_eq]
  refine createStackEntry_spec inv2 ?_ (hslots ▸ hx j hj) (hslots ▸ hy j hj) hempty ?_ hb
  · rw [htable, setTable_self]
  · rw [htable, setTable_of_ne fun h => hne h.1, ht]

end Table

/-! ## The whole directory -/

theorem tableOf_congr (h : s'.entry (d * 4096) i = s.entry (d * 4096) i) :
    s'.tableOf d i = s.tableOf d i := by
  unfold tableOf
  rw [h]

theorem tableOf_eq_none (h : (s.entry (d * 4096) i).present = false) : s.tableOf d i = none := by
  unfold tableOf
  simp [h]

theorem tableOf_eq_some (h : (s.entry (d * 4096) i).present = true) :
    s.tableOf d i = some (s.entry (d * 4096) i).page := by
  unfold tableOf
  simp [h]

/-- The entries of user space below index `k` of `src` have been cloned to `dst`. -/
structure Forking (s : Machine) (blk : Blocks) (u : UserSpaces) (src dst k : Nat)
    (s' : Machine) (blk' : Blocks) (u' : UserSpaces) : Prop where
  inv : UserInv s' blk' u'
  dirs : u'.dirs = insert dst u.dirs
  slots : u'.slots = allSlots (insert dst u.dirs)
  old : ∀ d i, d ≠ dst → u'.table d i = u.table d i
  todo : ∀ i, k ≤ i → u'.table dst i = none
  rooted : Rooted s' u'
  keeps : Keeps s blk s' blk' (tablesOf u src) (framesOf s u src)
  pages : ∀ x ∈ u.slots, targets page (s'.userEntry u'.table) x =
    targets page (s.userEntry u.table) x
  same : ∀ x ∈ u.slots, x.1 ≠ src ∨ k ≤ x.2.1 →
    s'.userEntry u'.table x = s.userEntry u.table x
  reads : ∀ i j, 1 ≤ i → i < k → j < 1024 →
    ReadsAs s u.table (src, i, j) s' u'.table (dst, i, j)
  kernel : ∀ i, i < 1024 → i = 0 ∨ 256 ≤ i → s'.tableOf dst i = s.tableOf src i
  tables : ∀ i t, u'.table dst i = some t → IsFree blk t
  taken : ∀ y ∈ u'.slots, y.1 = dst → TakenFrom blk (framesOf s u src) s' u'.table y

theorem mem_allSlots {dirs : Finset Nat} :
    x ∈ allSlots dirs ↔ x.1 ∈ dirs ∧ (1 ≤ x.2.1 ∧ x.2.1 < 256) ∧ x.2.2 < 1024 := by
  unfold allSlots
  rw [Finset.mem_product, Finset.mem_product, Finset.mem_Ico, Finset.mem_range]

section Forking

variable {k : Nat} (h : Forking s blk u src dst k s' blk' u') (inv : UserInv s blk u)
  (hslots : u.slots = allSlots u.dirs) (hsrc : src ∈ u.dirs) (hdst : dst ∉ u.dirs)
  (hfree : IsFree blk dst) (hk1 : 1 ≤ k) (hk : k < 256)

include h inv hslots hsrc hdst hfree hk1 hk

/-- The new table for index `k` is entered in the directory. -/
theorem Forking.enter (n : NewTable s' blk' u' src dst k t' s1 blk1)
    (kd : Keeps s1 blk1 s'' blk1 {dst} ∅)
    (hentries : ∀ i < 1024, i ≠ k → s''.entry (dst * 4096) i = s1.entry (dst * 4096) i)
    (hentry : s''.tableOf dst k = some t') :
    Forking s blk u src dst (k + 1) s'' blk1
      { u' with table := setTable u'.table dst k (some t') } := by
  have hne : src ≠ dst := fun e => hdst (e ▸ hsrc)
  have hsub : ∀ x ∈ u.slots, x ∈ u'.slots ∧ x.1 ≠ dst := by
    intro x hx
    rw [hslots, mem_allSlots] at hx
    rw [h.slots, mem_allSlots]
    exact ⟨⟨mem_insert_of_mem hx.1, hx.2⟩, fun e => hdst (e ▸ hx.1)⟩
  have hx : ∀ j < 1024, (src, k, j) ∈ u.slots := by
    intro j hj
    rw [hslots, mem_allSlots]
    exact ⟨hsrc, ⟨hk1, hk⟩, hj⟩
  have hy : ∀ i j, 1 ≤ i → i < 256 → j < 1024 → (dst, i, j) ∈ u'.slots := by
    intro i j hi1 hi hj
    rw [h.slots, mem_allSlots]
    exact ⟨mem_insert_self _ _, ⟨hi1, hi⟩, hj⟩
  have htables : tablesOf u' src = tablesOf u src := by
    unfold tablesOf
    simp only [h.old src _ hne]
  have hframes : framesOf s' u' src ⊆ framesOf s u src := by
    refine framesOf_subset (fun x hxs hsrcx => ?_) fun x hx _ => h.pages x hx
    rw [h.slots, mem_allSlots] at hxs
    rw [hslots, mem_allSlots]
    exact ⟨hsrcx ▸ hsrc, hxs.2⟩
  -- entering the table writes to the directory only, so the slots read as before
  have hnotdir := n.inv.noTable_dir (h.dirs ▸ mem_insert_self dst u.dirs)
  have inv'' := n.inv.keeps_written kd hnotdir
  have hlast : ∀ x ∈ u'.slots, s''.userEntry (setTable u'.table dst k (some t')) x =
      s1.userEntry (setTable u'.table dst k (some t')) x := fun x hx =>
    n.inv.userEntry_keeps kd hnotdir hx
  have hstep : Keeps s' blk' s'' blk1 (tablesOf u' src ∪ {dst}) (framesOf s' u' src) :=
    (n.keeps.mono (fun _ _ h => .inl h) fun _ _ => id).trans kd (fun _ _ h => .inr h)
      fun _ _ h => h.elim
  have hstepW : tablesOf u' src ∪ {dst} ⊆ u'.structural := by
    rintro q (hq | rfl)
    · exact tablesOf_structural hq
    · exact .inl (h.dirs ▸ mem_insert_self q u.dirs)
  have hmid : ∀ d ∈ u'.dirs, ∀ i < 1024, s1.tableOf d i = s'.tableOf d i := by
    intro d hd i hi
    apply tableOf_congr
    refine n.keeps.entry (h.inv.dir d hd).1.not_isFree ?_ hi
    rintro ⟨i', ht⟩
    exact (h.inv.table src i' d ht).2.2 hd
  have hdst' : dst ∈ u'.dirs := h.dirs ▸ mem_insert_self dst u.dirs
  have hentries' : ∀ i < 1024, i ≠ k → s''.tableOf dst i = s'.tableOf dst i := fun i hi hik =>
    (tableOf_congr (hentries i hi hik)).trans (hmid dst hdst' i hi)
  have hback : ∀ q, IsFree blk' q → IsFree blk q := fun q =>
    h.keeps.isFree_of_isFree (inv.frames_disjoint fun q hq => tablesOf_structural hq)
  refine ⟨inv'', h.dirs, h.slots, ?_, ?_, ?_, ?_, ?_, ?_, ?_, ?_, ?_, ?_⟩
  · intro d i hd
    rw [← h.old d i hd]
    exact setTable_of_ne fun e => hd e.1
  · intro i hi
    rw [← h.todo i (by omega)]
    exact setTable_of_ne fun e => by omega
  · intro d hd i hi1 hi
    by_cases hnew : d = dst ∧ i = k
    · obtain ⟨rfl, rfl⟩ := hnew
      rw [hentry]
      exact setTable_self _ _ _ _
    · refine (setTable_of_ne hnew).trans ((h.rooted d hd i hi1 hi).trans ?_)
      by_cases hd' : d = dst
      · subst hd'
        exact (hentries' i (by omega) fun e => hnew ⟨rfl, e⟩).symm
      · rw [← hmid d hd i (by omega)]
        have hdu : d ∈ u'.dirs := hd
        have hpage := (n.inv.dir d hdu).1
        exact (tableOf_congr (kd.entry hpage.not_isFree hd' (by omega))).symm
  · refine h.keeps.trans hstep ?_ fun _ _ hq => hframes hq
    rintro q hq (hq' | rfl)
    · exact htables ▸ hq'
    · exact absurd hfree hq
  · intro x hxu
    obtain ⟨hxu', hxd⟩ := hsub x hxu
    rw [← h.pages x hxu, ← n.pages x hxu' hxd]
    exact targets_congr (hlast x hxu')
  · intro x hxu hcase
    obtain ⟨hxu', hxd⟩ := hsub x hxu
    rw [← h.same x hxu (by omega),
      ← n.same x hxu' (hcase.imp (⟨·, hxd⟩) fun hle ha => ne_of_gt hle ha.1)]
    exact hlast x hxu'
  · intro i j hi1 hi hj
    by_cases hik : i = k
    · subst hik
      have hback := h.same _ (hx j hj) (.inr le_rfl)
      refine ((n.reads (i, j) ⟨rfl, hj⟩).keeps_left inv (hx j hj) h.keeps
        (fun q hq => tablesOf_structural hq) hback).keeps_right n.inv (hy i j hi1 hk hj) kd ?_ ?_
      · rintro q rfl
        exact .inl hdst'
      · exact hlast _ (hy i j hi1 hk hj)
    · have hiu := hy i j hi1 (by omega) hj
      refine (h.reads i j hi1 (by omega) hj).keeps_right h.inv hiu hstep hstepW ?_
      exact (hlast _ hiu).trans (n.same _ hiu (.inr fun ha => hik ha.1))
  · intro i hi hkernel
    rw [← h.kernel i hi hkernel]
    exact hentries' i hi (by omega)
  · intro i t ht
    by_cases hik : i = k
    · subst hik
      obtain rfl := some.inj ((setTable_self _ _ _ _).symm.trans ht)
      exact hback _ n.fresh
    · exact h.tables i t ((setTable_of_ne fun e => hik e.2).symm.trans ht)
  · rintro ⟨d, i, j⟩ hyu rfl e he
    replace he := (hlast _ hyu).symm.trans he
    by_cases hik : i = k
    · subst hik
      exact (n.taken (i, j) ⟨rfl, n.inv.slot_lt _ hyu⟩ e he).imp (hback _) (@hframes _)
    · exact h.taken _ hyu rfl e ((n.same _ hyu (.inr fun ha => hik ha.1)).symm.trans he)

/-- The body of the loop over user space. -/
theorem cloneUserEntry_spec (run : cloneUserEntry (dst * 4096) (src * 4096) userStackBase
      userStackSize s' k = some s'') :
    ∃ blk'' u'', Forking s blk u src dst (k + 1) s'' blk'' u'' := by
  have hne : src ≠ dst := fun e => hdst (e ▸ hsrc)
  have hsrc' : src ∈ u'.dirs := h.dirs ▸ mem_insert_of_mem hsrc
  have hdst' : dst ∈ u'.dirs := h.dirs ▸ mem_insert_self dst u.dirs
  have hroot : u'.table src k = s'.tableOf src k := h.rooted src hsrc' k hk1 hk
  have hnone : u'.table dst k = none := h.todo k le_rfl
  have hx : ∀ d ∈ u'.dirs, ∀ j < 1024, (d, k, j) ∈ u'.slots := by
    intro d hd j hj
    rw [h.slots, mem_allSlots, ← h.dirs]
    exact ⟨hd, ⟨hk1, hk⟩, hj⟩
  unfold cloneUserEntry at run
  dsimp only at run
  split at run
  · next habsent =>
    rw [Bool.not_eq_eq_eq_not, Bool.not_true] at habsent
    rw [tableOf_eq_none habsent] at hroot
    split at run
    · -- a table for the stack alone
      split at run
      · cases run
      · next addr s1 hrun =>
        obtain ⟨t', blk1, rfl, n⟩ :=
          pagingCreateStackPageTable_spec h.inv hdst' ⟨hk1, hk⟩ hnone hne (hx src hsrc')
            (hx dst hdst') hroot hrun
        obtain rfl := some.inj run
        refine ⟨blk1, _, h.enter inv hslots hsrc hdst hfree hk1 hk n
          (setEntry n.inv.steady (n.inv.dir dst hdst').1 (by omega) _) ?_ ?_⟩
        · intro i hi hik
          exact entry_setEntry_of_ne (by omega) hi (.inr hik)
        · unfold tableOf
          rw [entry_setEntry_self]
          exact congrArg some (frameOf_toNat n.lt)
    · obtain rfl := some.inj run
      refine ⟨blk', u', h.inv, h.dirs, h.slots, h.old, fun i hi => h.todo i (by omega), h.rooted,
        h.keeps, h.pages, fun x hx hcase => h.same x hx (by omega), ?_, h.kernel, h.tables,
        h.taken⟩
      intro i j hi1 hi hj
      by_cases hik : i = k
      · subst hik
        intro e he
        obtain ⟨t, ht⟩ := exists_table he
        rw [h.old src i hne] at hroot
        rw [hroot] at ht
        cases ht
      · exact h.reads i j hi1 (by omega) hj
  · next hpresent =>
    rw [Bool.not_eq_true, Bool.not_eq_false'] at hpresent
    rw [tableOf_eq_some hpresent] at hroot
    split at run
    · cases run
    · next addr s1 hrun =>
      obtain ⟨t', blk1, rfl, n⟩ :=
        pagingClonePageTable_spec h.inv hdst' ⟨hk1, hk⟩ hnone hne (hx src hsrc') (hx dst hdst') hroot
          hrun
      obtain rfl := some.inj run
      have hpage := (n.inv.dir dst hdst').1
      have k1 := setEntry n.inv.steady hpage (show k < 1024 by omega)
        (s1.entry (src * 4096) k)
      refine ⟨blk1, _, h.enter inv hslots hsrc hdst hfree hk1 hk n
        (k1.andThen (setEntry k1.steady hpage (by omega) _)) ?_ ?_⟩
      · intro i hi hik
        rw [entry_setEntry_of_ne (by omega) hi (.inr hik),
          entry_setEntry_of_ne (by omega) hi (.inr hik)]
      · have hsrcEntry : s1.entry (src * 4096) k = s'.entry (src * 4096) k := by
          refine n.keeps.entry (h.inv.dir src hsrc').1.not_isFree ?_ (by omega)
          rintro ⟨i', ht⟩
          exact (h.inv.table src i' src ht).2.2 hsrc'
        unfold tableOf
        rw [entry_setEntry_self, entry_setEntry_self, hsrcEntry]
        simp only [hpresent, if_true]
        exact congrArg some (frameOf_toNat n.lt)

end Forking

/-- Copying the entries of the kernel half. -/
theorem copyPresentEntries_spec {lo hi : Nat} (st : Steady s.pmm blk) (hdst : IsPage blk dst)
    (hsrc : ¬ IsFree blk src) (hne : src ≠ dst) (hlo : lo ≤ hi) (hhi : hi ≤ 1024) :
    Keeps s blk (copyPresentEntries (dst * 4096) (src * 4096) lo hi s) blk {dst} ∅ ∧
      ∀ i, i < 1024 →
        (copyPresentEntries (dst * 4096) (src * 4096) lo hi s).entry (dst * 4096) i =
          if lo ≤ i ∧ i < hi ∧ (s.entry (src * 4096) i).present then s.entry (src * 4096) i
          else s.entry (dst * 4096) i := by
  have hend := foldl_range_inv (m := lo) (n := hi - lo) (a := s)
    (g := fun s i => if (s.entry (src * 4096) i).present
      then s.setEntry (dst * 4096) i (s.entry (src * 4096) i) else s)
    (P := fun k b => Keeps s blk b blk {dst} ∅ ∧ ∀ i < 1024, b.entry (dst * 4096) i =
      if lo ≤ i ∧ i < k ∧ (s.entry (src * 4096) i).present then s.entry (src * 4096) i
      else s.entry (dst * 4096) i) ?_ ?_
  · rwa [Nat.add_sub_cancel' hlo] at hend
  · refine ⟨.refl st, fun i _ => ?_⟩
    rw [if_neg (by omega)]
  · rintro k b hk1 hk ⟨kb, hb⟩
    have hk : k < 1024 := by omega
    have hsame : b.entry (src * 4096) k = s.entry (src * 4096) k := kb.entry hsrc hne hk
    rw [hsame]
    split
    · next hpresent =>
      refine ⟨kb.andThen (setEntry kb.steady hdst hk _), ?_⟩
      intro i hi
      by_cases hik : i = k
      · subst hik
        rw [entry_setEntry_self, if_pos ⟨hk1, lt_succ_self i, hpresent⟩]
      · rw [entry_setEntry_of_ne hk hi (.inr hik), hb i hi]
        simp only [show i < k + 1 ↔ i < k by omega]
    · next hpresent =>
      refine ⟨kb, fun i hi => ?_⟩
      rw [hb i hi]
      by_cases hik : i = k
      · subst hik
        simp [hpresent]
      · simp only [show i < k + 1 ↔ i < k by omega]

/-- The new directory with its kernel half, before user space is cloned. -/
theorem UserInv.newDirectory (inv : UserInv s blk u) (rooted : Rooted s u)
    (hslots : u.slots = allSlots u.dirs) (hsrc : src ∈ u.dirs) (g : Grabbed s blk dst s1 blk1)
    (hs2 : s2 = s1.zeroPage (dst * 4096))
    (hs3 : s3 = s2.setEntry (dst * 4096) 0 (s2.entry (src * 4096) 0)) :
    ∃ u', Forking s blk u src dst 1
      (copyPresentEntries (dst * 4096) (src * 4096) 256 768
        (copyPresentEntries (dst * 4096) (src * 4096) 768 1024 s3)) blk1 u' := by
  obtain ⟨inv1, loose1⟩ := g.loose inv
  have hsrcPage := (inv1.dir src hsrc).1
  have hne : src ≠ dst := fun e => loose1.dir (e ▸ hsrc)
  have k2 : Keeps s1 blk1 s2 blk1 {dst} ∅ := hs2 ▸ .zeroPage inv1.steady loose1.page
  have k3 : Keeps s2 blk1 s3 blk1 {dst} ∅ :=
    hs3 ▸ setEntry k2.steady loose1.page (by decide) _
  obtain ⟨k4, h4⟩ := copyPresentEntries_spec k3.steady loose1.page hsrcPage.not_isFree hne
    (show 768 ≤ 1024 by decide) le_rfl
  obtain ⟨k5, h5⟩ := copyPresentEntries_spec k4.steady loose1.page hsrcPage.not_isFree hne
    (show 256 ≤ 768 by decide) (by decide)
  generalize copyPresentEntries (dst * 4096) (src * 4096) 768 1024 s3 = s4 at *
  generalize copyPresentEntries (dst * 4096) (src * 4096) 256 768 s4 = s5 at *
  have kdst : Keeps s1 blk1 s5 blk1 {dst} ∅ :=
    ((k2.andThen k3).andThen k4).andThen k5
  have kall : Keeps s blk s5 blk1 ∅ ∅ := g.written kdst
  -- what the entries of the source and of the new directory are
  have hsrcNotFree := (inv.dir src hsrc).1.not_isFree
  have hsrcEntry : ∀ (b : Machine), Keeps s1 blk1 b blk1 {dst} ∅ → ∀ i, i < 1024 →
      b.entry (src * 4096) i = s.entry (src * 4096) i := by
    intro b kb i hi
    rw [kb.entry hsrcPage.not_isFree hne hi]
    exact g.keeps.entry hsrcNotFree id hi
  have hentry : ∀ i < 1024, s5.entry (dst * 4096) i =
      if i = 0 ∨ 256 ≤ i ∧ (s.entry (src * 4096) i).present then s.entry (src * 4096) i
      else .empty := by
    intro i hi
    have e3 : s3.entry (dst * 4096) i = if i = 0 then s.entry (src * 4096) i else .empty := by
      rw [hs3]
      by_cases h0 : i = 0
      · subst h0
        rw [entry_setEntry_self, hsrcEntry s2 k2 0 hi, if_pos rfl]
      · rw [entry_setEntry_of_ne (by decide) hi (.inr h0), if_neg h0, hs2]
        exact entry_zeroPage hi
    have ks3 := k2.andThen k3
    have ks4 := ks3.andThen k4
    rw [h5 i hi, h4 i hi, hsrcEntry s4 ks4 i hi, hsrcEntry s3 ks3 i hi, e3]
    by_cases hp : (s.entry (src * 4096) i).present
    · simp only [hp, and_true]
      by_cases h0 : i = 0
      · subst h0
        simp
      · by_cases h256 : 256 ≤ i
        · by_cases h768 : i < 768
          · simp [h0, h256, h768]
          · simp [h0, h256, h768, hi, not_lt.mp h768]
        · simp [h0, h256, show ¬ 768 ≤ i by omega]
    · simp [hp]
  have huser : ∀ i, 1 ≤ i → i < 256 → s5.tableOf dst i = none := by
    intro i hi1 hi
    apply tableOf_eq_none
    rw [hentry i (by omega), if_neg (by omega)]
    exact empty_present
  -- the page becomes a directory
  obtain ⟨inv5, loose5, -⟩ := loose1.write inv1 kdst
  have hnone : ∀ i, u.table dst i = none := by
    intro i
    cases ht : u.table dst i with
    | none => rfl
    | some t => exact absurd (inv.table_dir dst i t ht).1 loose1.dir
  have hsame : ∀ x ∈ u.slots, s5.userEntry u.table x = s.userEntry u.table x := fun x hx =>
    inv.userEntry_keeps kall (fun _ _ _ _ => id) hx
  refine ⟨⟨insert dst u.dirs, u.table, allSlots (insert dst u.dirs)⟩, ?_, rfl, rfl,
    fun _ _ _ => rfl, fun i _ => hnone i, ?_, kall.widen,
    fun x hx => targets_congr (hsame x hx), fun x hx _ => hsame x hx, fun i j _ h => by omega, ?_,
    fun i t ht => ?_, fun y _ hy e he => ?_⟩
  · refine inv5.addDir loose5 ?_ ?_
    · intro x hx
      rw [hslots, mem_allSlots] at hx
      exact mem_allSlots.mpr ⟨mem_insert_of_mem hx.1, hx.2⟩
    · intro x hx hn
      rw [mem_allSlots] at hx
      rw [hslots, mem_allSlots] at hn
      rcases mem_insert.mp hx.1 with hd | hd
      · exact ⟨hd, hx.2.2⟩
      · exact absurd ⟨hd, hx.2⟩ hn
  · intro d hd i hi1 hi
    rcases mem_insert.mp hd with rfl | hd
    · exact (hnone i).trans (huser i hi1 hi).symm
    · refine (rooted d hd i hi1 hi).trans (tableOf_congr ?_).symm
      exact kall.entry (inv.dir d hd).1.not_isFree id (by omega)
  · intro i hi hkernel
    by_cases hp : (s.entry (src * 4096) i).present = true
    · have hcopy : s5.entry (dst * 4096) i = s.entry (src * 4096) i := by
        rw [hentry i hi, if_pos]
        exact hkernel.imp id fun h => ⟨h, hp⟩
      unfold tableOf
      rw [hcopy]
    · rw [Bool.not_eq_true] at hp
      rw [tableOf_eq_none hp]
      apply tableOf_eq_none
      rw [hentry i hi]
      split
      · exact hp
      · exact empty_present
  · cases (hnone i).symm.trans ht
  · obtain ⟨t, ht⟩ := exists_table he
    rw [hy] at ht
    cases (hnone _).symm.trans ht

/-- `paging_clone_directory` of a live directory: unless the machine stops, a new directory
whose address is returned. With `usermode` all of user space has been cloned. -/
theorem pagingCloneDirectory_spec (inv : UserInv s blk u) (rooted : Rooted s u)
    (hslots : u.slots = allSlots u.dirs) (hsrc : src ∈ u.dirs) {usermode : Bool}
    (run : s.pagingCloneDirectory (src * 4096) usermode userStackBase userStackSize =
      some (addr, s')) : ∃ dst blk' u', addr = dst * 4096 ∧ IsFree blk dst ∧
      Forking s blk u src dst (if usermode then 256 else 1) s' blk' u' := by
  unfold pagingCloneDirectory at run
  split at run
  · cases run
  unfold pagingCreateDirectory at run
  rcases allocPage_spec inv.steady with h | ⟨dst, s1, blk1, h, g⟩
  · rw [h] at run
    simp at run
  rw [h] at run
  have hpos := g.pos
  simp only [if_neg (mul_ne_zero hpos (show 4096 ≠ 0 by decide))] at run
  obtain ⟨u1, f⟩ := inv.newDirectory rooted hslots hsrc g rfl rfl
  have hdst : dst ∉ u.dirs := fun hd => (inv.dir dst hd).1.not_isFree g.fresh
  split at run
  · next huser =>
    obtain ⟨s2, hloop, hs2⟩ := map_eq_some_iff.mp run
    obtain ⟨rfl, rfl⟩ := mk.inj hs2
    have hend := foldlM_range_inv (P := fun k b => ∃ blk' u', Forking s blk u src dst k b blk' u')
      hloop ⟨blk1, u1, f⟩ ?_
    · obtain ⟨blk', u', f'⟩ := hend
      rw [if_pos huser]
      exact ⟨dst, blk', u', rfl, g.fresh, f'⟩
    · rintro k b b' hk1 hk ⟨blk', u', f'⟩ hb
      exact cloneUserEntry_spec f' inv hslots hsrc hdst g.fresh hk1 (by omega) hb
  · next huser =>
    obtain ⟨rfl, rfl⟩ := mk.inj (some.inj run)
    rw [if_neg huser]
    exact ⟨dst, blk1, u1, rfl, g.fresh, f⟩

end Stos.Kernel
