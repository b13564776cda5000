import Stos.Kernel.Brk
import Stos.Kernel.Proofs.SpaceRuns

/-!
# The user half of one directory

How `DirectoryOk` follows the changes that mapping and unmapping a page are made of. Unlike
`UserInv` it speaks of the current directory only and leaves the exact reference counts open,
so it also holds after `sys_brk` has unmapped a page that another directory still maps.
-/

namespace Stos.Kernel

open Machine Option PageEntry Set Keeps

variable {s s' : Machine} {blk blk' : Blocks} {W R : Set Nat} {d i j t p virt : Nat} {x : Slot}
  {e : PageEntry}

/-- The tables of user space are those of `s`. -/
def SameTables (s : Machine) (d : Nat) (s' : Machine) : Prop :=
  ∀ i, UserIndex i → s'.tableOf d i = s.tableOf d i

/-- The present entries are those of `s`. -/
def SameSlots (s : Machine) (d : Nat) (s' : Machine) : Prop :=
  ∀ x, UserSlot d x → s'.slotEntry x = s.slotEntry x

theorem UserIndex.lt (hi : UserIndex i) : i < 1024 := by
  unfold UserIndex at hi
  omega

theorem slotEntry_eq (ht : s.tableOf d i = some t) :
    s.slotEntry (d, i, j) =
      if (s.entry (t * 4096) j).present then some (s.entry (t * 4096) j) else none :=
  userEntry_eq (u := ⟨∅, s.tableOf, ∅⟩) ht

theorem slotEntry_of_no_table (ht : s.tableOf d i = none) : s.slotEntry (d, i, j) = none := by
  unfold slotEntry userEntry
  rw [ht]
  rfl

/-- Slots of the same table hold the same if the entries do. -/
theorem slotEntry_congr (htable : s'.tableOf x.1 x.2.1 = s.tableOf x.1 x.2.1)
    (h : ∀ t, s.tableOf x.1 x.2.1 = some t →
      s'.entry (t * 4096) x.2.2 = s.entry (t * 4096) x.2.2) :
    s'.slotEntry x = s.slotEntry x := by
  unfold slotEntry userEntry
  rw [htable]
  cases ht : s.tableOf x.1 x.2.1 with
  | none => rfl
  | some t =>
    rw [bind_some, bind_some]
    simp only [h t ht]

/-- Page `p` is in use, but neither as the directory nor as a table nor as a mapped page. -/
structure Unused (s : Machine) (blk : Blocks) (d p : Nat) : Prop where
  page : IsPage blk p
  dir : p ≠ d
  table : ∀ i, UserIndex i → s.tableOf d i ≠ some p
  frame : ∀ x e, UserSlot d x → s.slotEntry x = some e → e.page ≠ p

namespace DirectoryOk

/-- A change after which at most one table and at most one mapped page are new; both were not used. -/
theorem change (ok : DirectoryOk s blk d) (k : Keeps s blk s' blk' W R) (hd : d ∈ W → d ∉ R)
    (htable : ∀ i' t, UserIndex i' → s'.tableOf d i' = some t →
      s.tableOf d i' = some t ∧ (t ∈ W → t ∉ R) ∨ i' = i ∧ Unused s blk' d t)
    (hslot : ∀ y e, UserSlot d y → s'.slotEntry y = some e → s.slotEntry y = some e ∧ e.page ∉ R ∨
      y = x ∧ Unused s blk' d e.page ∧ ∀ i', UserIndex i' → s'.tableOf d i' ≠ some e.page) :
    DirectoryOk s' blk' d := by
  refine ⟨k.steady, k.current.trans ok.current, k.isPage ok.dir hd, ?_, ?_, ?_, ?_⟩
  · intro i' t hi ht
    rcases htable i' t hi ht with ⟨hold, hn⟩ | ⟨-, hun⟩
    · obtain ⟨hp, hne⟩ := ok.table i' t hi hold
      exact ⟨k.isPage hp hn, hne⟩
    · exact ⟨hun.page, hun.dir⟩
  · intro i1 i2 t h₁ h₂ ht1 ht2
    rcases htable i1 t h₁ ht1 with ⟨hold1, -⟩ | ⟨rfl, hun⟩
    · rcases htable i2 t h₂ ht2 with ⟨hold2, -⟩ | ⟨-, hun⟩
      · exact ok.table_inj i1 i2 t h₁ h₂ hold1 hold2
      · exact absurd hold1 (hun.table i1 h₁)
    · rcases htable i2 t h₂ ht2 with ⟨hold2, -⟩ | ⟨rfl, -⟩
      · exact absurd hold2 (hun.table i2 h₂)
      · rfl
  · intro y e hy he
    rcases hslot y e hy he with ⟨hold, hn⟩ | ⟨-, hun, hn⟩
    · obtain ⟨hp, hne, hno⟩ := ok.frame y e hy hold
      refine ⟨k.isPage hp fun _ => hn, hne, fun i' hi ht => ?_⟩
      rcases htable i' _ hi ht with ⟨h, -⟩ | ⟨-, hun⟩
      · exact hno i' hi h
      · exact hun.frame y e hy hold rfl
    · exact ⟨hun.page, hun.dir, hn⟩
  · intro y z e f hy hz hyz he hf hpage
    rcases hslot y e hy he with ⟨hold, hn⟩ | ⟨rfl, hun, -⟩
    · rcases hslot z f hz hf with ⟨holdf, -⟩ | ⟨-, hun, -⟩
      · rw [k.refs _ (ok.frame y e hy hold).1.not_isFree hn]
        exact ok.shared y z e f hy hz hyz hold holdf hpage
      · exact absurd hpage (hun.frame y e hy hold)
    · rcases hslot z f hz hf with ⟨holdf, -⟩ | ⟨rfl, -⟩
      · exact absurd hpage.symm (hun.frame z f hz holdf)
      · exact absurd rfl hyz

/-- A change that touches neither the directory nor its tables nor the counts of its pages. -/
theorem keeps (ok : DirectoryOk s blk d) (k : Keeps s blk s' blk' W R) (hd : d ∉ W)
    (htable : ∀ i t, UserIndex i → s.tableOf d i = some t → t ∉ W)
    (hframe : ∀ x e, UserSlot d x → s.slotEntry x = some e → e.page ∉ R) :
    DirectoryOk s' blk' d ∧ SameTables s d s' ∧ SameSlots s d s' := by
  have tables : SameTables s d s' := fun i hi => tableOf_congr (k.entry ok.dir.not_isFree hd hi.lt)
  have slots : SameSlots s d s' := by
    rintro x ⟨rfl, hi, hj⟩
    exact slotEntry_congr (tables _ hi) fun t ht =>
      k.entry (ok.table _ t hi ht).1.not_isFree (htable _ t hi ht) hj
  refine ⟨ok.change (i := 0) (x := (0, 0, 0)) k (fun h => absurd h hd) ?_ ?_, tables, slots⟩
  · intro i t hi ht
    rw [tables i hi] at ht
    exact .inl ⟨ht, fun h => absurd h (htable i t hi ht)⟩
  · intro x e hx he
    rw [slots x hx] at he
    exact .inl ⟨he, hframe x e hx he⟩

end DirectoryOk

theorem Unused.not_table (h : Unused s blk d p) :
    ∀ i t, UserIndex i → s.tableOf d i = some t → t ∉ ({p} : Set Nat) := by
  rintro i t hi ht rfl
  exact h.table i hi ht

/-- A new page is not used yet. -/
theorem Grabbed.unused (g : Grabbed s blk p s' blk') (ok : DirectoryOk s blk d) :
    DirectoryOk s' blk' d ∧ SameTables s d s' ∧ SameSlots s d s' ∧ Unused s' blk' d p := by
  obtain ⟨ok', tables, slots⟩ := ok.keeps g.keeps id (fun _ _ _ _ => id) fun _ _ _ _ => id
  have hne : ∀ q, IsPage blk q → q ≠ p := by
    rintro q hq rfl
    exact hq.not_isFree g.fresh
  refine ⟨ok', tables, slots, g.page, (hne d ok.dir).symm, ?_, ?_⟩
  · intro i hi ht
    rw [tables i hi] at ht
    exact hne p (ok.table i p hi ht).1 rfl
  · intro x e hx he
    rw [slots x hx] at he
    exact hne _ (ok.frame x e hx he).1

/-- Writes to a page that is not used. -/
theorem Unused.write (h : Unused s blk d p) (ok : DirectoryOk s blk d)
    (k : Keeps s blk s' blk {p} ∅) :
    DirectoryOk s' blk d ∧ SameTables s d s' ∧ SameSlots s d s' ∧ Unused s' blk d p := by
  obtain ⟨ok', tables, slots⟩ := ok.keeps k h.dir.symm h.not_table fun _ _ _ _ => id
  refine ⟨ok', tables, slots, h.page, h.dir, ?_, ?_⟩
  · intro i hi
    rw [tables i hi]
    exact h.table i hi
  · intro x e hx he
    rw [slots x hx] at he
    exact h.frame x e hx he

/-- Giving back a page that is not used. -/
theorem Unused.free (h : Unused s blk d p) (ok : DirectoryOk s blk d) (hrefs : s.refs p ≤ 1) :
    ∃ blk', Dropped s blk p (s.freePage (p * 4096)) blk' ∧
      DirectoryOk (s.freePage (p * 4096)) blk' d ∧ SameTables s d (s.freePage (p * 4096)) ∧
      SameSlots s d (s.freePage (p * 4096)) := by
  obtain ⟨blk', drop⟩ := freePage_spec ok.steady h.page hrefs
  obtain ⟨ok', same⟩ := ok.keeps drop.keeps h.dir.symm h.not_table h.frame
  exact ⟨blk', drop, ok', same⟩

/-! ## New tables and slots -/

namespace DirectoryOk

/-- A page without present entries becomes the table of index `i`. -/
theorem addTable (ok : DirectoryOk s blk d) (h : Unused s blk d p) (hi : UserIndex i)
    (hnone : s.tableOf d i = none)
    (hempty : ∀ j < 1024, (s.entry (p * 4096) j).present = false)
    (he : e.present = true) (hpage : e.page = p) :
    DirectoryOk (s.setEntry (d * 4096) i e) blk d ∧
      (s.setEntry (d * 4096) i e).tableOf d i = some p ∧
      (∀ i', UserIndex i' → i' ≠ i → (s.setEntry (d * 4096) i e).tableOf d i' = s.tableOf d i') ∧
      SameSlots s d (s.setEntry (d * 4096) i e) := by
  have k := setEntry ok.steady ok.dir hi.lt e
  have hself : (s.setEntry (d * 4096) i e).tableOf d i = some p := by
    unfold tableOf
    rw [entry_setEntry_self]
    simp only [he, if_true, hpage]
  have hrest : ∀ i', UserIndex i' → i' ≠ i →
      (s.setEntry (d * 4096) i e).tableOf d i' = s.tableOf d i' := by
    exact fun i' hi' hne => tableOf_congr (entry_setEntry_of_ne hi.lt hi'.lt (.inr hne))
  have hentry : ∀ t j, j < 1024 → t ≠ d →
      (s.setEntry (d * 4096) i e).entry (t * 4096) j = s.entry (t * 4096) j := fun t j hj hne =>
    entry_setEntry_of_ne hi.lt hj (.inl hne)
  have slots : SameSlots s d (s.setEntry (d * 4096) i e) := by
    rintro ⟨d', i', j⟩ ⟨rfl, hi'', hj⟩
    by_cases hii : i' = i
    · subst hii
      rw [slotEntry_eq hself, slotEntry_of_no_table hnone, hentry p j hj h.dir, hempty j hj]
      rfl
    · exact slotEntry_congr (hrest i' hi'' hii) fun t ht =>
        hentry t j hj (ok.table i' t hi'' ht).2
  refine ⟨ok.change (i := i) (x := (0, 0, 0)) k (fun _ => id) ?_ ?_, hself, hrest, slots⟩
  · intro i' t hi' ht
    by_cases hii : i' = i
    · subst hii
      obtain rfl := some.inj (hself.symm.trans ht)
      exact .inr ⟨rfl, h⟩
    · rw [hrest i' hi' hii] at ht
      exact .inl ⟨ht, fun _ => id⟩
  · intro x f hx hf
    rw [slots x hx] at hf
    exact .inl ⟨hf, id⟩

/-- Entry `j` of the table of index `i` changes; a page that it maps afterwards was not used
before. -/
theorem setSlot (ok : DirectoryOk s blk d) (hi : UserIndex i)
    (ht : s.tableOf d i = some t) (k : Keeps s blk s' blk {t} ∅)
    (hother : ∀ j' < 1024, j' ≠ j → s'.entry (t * 4096) j' = s.entry (t * 4096) j')
    (hnew : ∀ e, s'.slotEntry (d, i, j) = some e → Unused s blk d e.page) :
    DirectoryOk s' blk d ∧ SameTables s d s' ∧
      ∀ x, UserSlot d x → x ≠ (d, i, j) → s'.slotEntry x = s.slotEntry x := by
  obtain ⟨htpage, htd⟩ := ok.table i t hi ht
  have tables : SameTables s d s' := fun i' hi' =>
    tableOf_congr (k.entry ok.dir.not_isFree (Ne.symm htd) hi'.lt)
  have rest : ∀ x, UserSlot d x → x ≠ (d, i, j) → s'.slotEntry x = s.slotEntry x := by
    rintro ⟨d', i', j'⟩ ⟨rfl, hi', hj'⟩ hne
    refine slotEntry_congr (tables i' hi') fun t' ht' => ?_
    by_cases htt : t' = t
    · subst htt
      obtain rfl := ok.table_inj i' i t' hi' hi ht' ht
      exact hother j' hj' fun h => hne (by rw [h])
    · exact k.entry (ok.table i' t' hi' ht').1.not_isFree htt hj'
  refine ⟨ok.change (i := 0) (x := (d, i, j)) k (fun _ => id) ?_ ?_, tables, rest⟩
  · intro i' t' hi' ht'
    rw [tables i' hi'] at ht'
    exact .inl ⟨ht', fun _ => id⟩
  · intro y f hy hf
    by_cases hyx : y = (d, i, j)
    · subst hyx
      refine .inr ⟨rfl, hnew f hf, fun i' hi' => ?_⟩
      rw [tables i' hi']
      exact (hnew f hf).table i' hi'
    · rw [rest y hy hyx] at hf
      exact .inl ⟨hf, id⟩

end DirectoryOk

/-! ## Free pages -/

theorem mem_freePages (st : Steady s.pmm blk) {q : Nat} : q ∈ s.freePages ↔ IsFree blk q :=
  pageFree_iff st

theorem freePages_congr (st : Steady s.pmm blk) (st' : Steady s'.pmm blk')
    (h : ∀ q, IsFree blk' q ↔ IsFree blk q) : s'.freePages = s.freePages := by
  ext q
  rw [mem_freePages st, mem_freePages st', h]

theorem freePages_finite (st : Steady s.pmm blk) : s.freePages.Finite := by
  refine (finite_lt_nat (2 ^ 20)).subset fun q hq => ?_
  obtain ⟨o, ho⟩ := (mem_freePages st).mp hq
  exact lt_of_lt_of_le (st.inRange q o _ ho) st.total_le

/-- A free page is `p` or one of the others. -/
theorem isFree_iff_or (hp : IsFree blk p) (q : Nat) : IsFree blk q ↔ IsFree blk q ∧ q ≠ p ∨ q = p := by
  by_cases hqp : q = p
  · simp [hqp, hp]
  · simp [hqp]

/-- One page more or less on the free lists. -/
theorem ncard_freePages_succ (st : Steady s.pmm blk) (st' : Steady s'.pmm blk')
    (hp : IsFree blk p) (h : ∀ q, IsFree blk' q ↔ IsFree blk q ∧ q ≠ p) :
    s.freePages.ncard = s'.freePages.ncard + 1 := by
  have hset : s.freePages = insert p s'.freePages := by
    ext q
    rw [mem_insert_iff, mem_freePages st, mem_freePages st', h, or_comm]
    exact isFree_iff_or hp q
  rw [hset, ncard_insert_of_notMem _ (freePages_finite st')]
  rw [mem_freePages st', h]
  exact fun hn => hn.2 rfl

theorem Grabbed.isFree_iff (g : Grabbed s blk p s' blk') (q : Nat) :
    IsFree blk' q ↔ IsFree blk q ∧ q ≠ p := by
  by_cases hqp : q = p
  · subst hqp
    exact ⟨fun h => absurd h g.page.not_isFree, fun h => absurd rfl h.2⟩
  · rw [g.rest q hqp]
    exact ⟨fun h => ⟨h, hqp⟩, fun h => h.1⟩

theorem Dropped.isFree_iff (h : Dropped s blk p s' blk') (q : Nat) :
    IsFree blk' q ↔ IsFree blk q ∨ q = p := by
  by_cases hqp : q = p
  · subst hqp
    exact ⟨fun _ => .inr rfl, fun _ => h.free⟩
  · rw [h.rest q hqp]
    exact ⟨.inl, fun h => h.resolve_right hqp⟩

/-- Taking a page fails only when the free lists are empty. -/
theorem ncard_freePages_eq_zero (st : Steady s.pmm blk) (h : s.allocPage = (0, s)) :
    s.freePages.ncard = 0 := by
  rcases buddyAllocOrder_spec st.toBuddyInv (Nat.zero_le 10) with ⟨-, hnone⟩ | ⟨p, blk', haddr, ha⟩
  · rw [ncard_eq_zero (freePages_finite st), eq_empty_iff_forall_notMem]
    intro q hq
    obtain ⟨o, ho⟩ := (mem_freePages st).mp hq
    exact hnone o (q / 2 ^ o * 2 ^ o) o.zero_le
      (st.aligned.hasBlock ho)
  · have hzero : s.allocPage.1 = p * 4096 := haddr
    rw [h] at hzero
    have := ha.pos
    omega

/-! ## Mapping a page -/

theorem Unused.transfer (h : Unused s blk d p) (hp : IsPage blk' p)
    (tables : ∀ i, UserIndex i → s'.tableOf d i = some p → s.tableOf d i = some p)
    (slots : SameSlots s d s') : Unused s' blk' d p := by
  refine ⟨hp, h.dir, fun i hi ht => h.table i hi (tables i hi ht), fun x e hx he => ?_⟩
  rw [slots x hx] at he
  exact h.frame x e hx he

/-- The address `virt` has a table with index `t`; nothing else has changed for the directory. -/
structure TableAt (s : Machine) (blk : Blocks) (d virt t : Nat) (s' : Machine) (blk' : Blocks) :
    Prop where
  ok : DirectoryOk s' blk' d
  table : s'.tableOf d (pagingGetPdIndex virt) = some t
  tables : ∀ i, UserIndex i → i ≠ pagingGetPdIndex virt → s'.tableOf d i = s.tableOf d i
  slots : SameSlots s d s'
  keeps : Keeps s blk s' blk' {d} ∅
  old : ∀ t', s.tableOf d (pagingGetPdIndex virt) = some t' → t' = t
  new : s.tableOf d (pagingGetPdIndex virt) = none → IsFree blk t
  free : ∀ q, IsFree blk' q → IsFree blk q
  count : s.freePages.ncard = s'.freePages.ncard +
    if s.tableOf d (pagingGetPdIndex virt) = none then 1 else 0

/-- `paging_get_page_table` for a page that is to be mapped. -/
theorem pagingGetPageTable_view (ok : DirectoryOk s blk d) (haddr : UserAddr virt) :
    (s.pagingGetPageTable virt true = (none, s) ∧
        s.tableOf d (pagingGetPdIndex virt) = none ∧ s.freePages.ncard = 0) ∨
      ∃ t s' blk', s.pagingGetPageTable virt true = (some (t * 4096), s') ∧
        TableAt s blk d virt t s' blk' := by
  have hi : UserIndex (pagingGetPdIndex virt) := haddr.pdIndex
  cases htable : s.tableOf d (pagingGetPdIndex virt) with
  | some t =>
    right
    exact ⟨t, s, blk, pagingGetPageTable_some ok.current htable true, ok, htable,
      fun _ _ _ => rfl, fun _ _ => rfl, .refl ok.steady,
      fun t' ht' => some.inj (ht'.symm.trans htable), fun hn => absurd htable (by simp [hn]),
      fun _ => id, by simp [htable]⟩
  | none =>
    rcases pagingGetPageTable_create ok.steady ok.current htable with
      ⟨halloc, h⟩ | ⟨t, s1, blk1, pde, g, hpresent, hpage, h⟩
    · exact .inl ⟨h, rfl, ncard_freePages_eq_zero ok.steady halloc⟩
    right
    rw [h]
    obtain ⟨ok1, tables1, slots1, unused1⟩ := g.unused ok
    have k2 := zeroPage ok1.steady g.page
    have hempty : ∀ j < 1024, ((s1.zeroPage (t * 4096)).entry (t * 4096) j).present = false := by
      intro j hj
      rw [entry_zeroPage hj]
      exact empty_present
    obtain ⟨ok2, tables2, slots2, unused2⟩ := unused1.write ok1 k2
    generalize s1.zeroPage (t * 4096) = s2 at *
    have hsame : SameTables s d s2 := fun i hi => (tables2 i hi).trans (tables1 i hi)
    obtain ⟨ok3, table3, tables3, slots3⟩ := ok2.addTable unused2 hi ((hsame _ hi).trans htable)
      hempty hpresent hpage
    refine ⟨t, _, blk1, rfl, ok3, table3, fun i hi hne => ?_, fun x hx => ?_,
      (g.written k2).widen.andThen (.setEntry ok2.steady ok2.dir hi.lt pde),
      fun _ ht' => absurd htable (by simp [ht']), fun _ => g.fresh,
      fun q hq => ((g.isFree_iff q).mp hq).1, ?_⟩
    · exact (tables3 i hi hne).trans (hsame i hi)
    · exact (slots3 x hx).trans ((slots2 x hx).trans (slots1 x hx))
    · rw [if_pos htable]
      exact ncard_freePages_succ ok.steady ok3.steady g.fresh g.isFree_iff

/-- Page `p` is mapped at `virt` for user mode; no other slot has changed. -/
structure MappedAt (s : Machine) (blk : Blocks) (d virt p : Nat) (s' : Machine) (blk' : Blocks) :
    Prop where
  ok : DirectoryOk s' blk' d
  entry : ∃ e, s'.slotEntry (slotOf d virt) = some e ∧ e.page = p ∧ e.user = true
  rest : ∀ x, UserSlot d x → x ≠ slotOf d virt → s'.slotEntry x = s.slotEntry x
  tables : ∀ i, UserIndex i → i ≠ pagingGetPdIndex virt → s'.tableOf d i = s.tableOf d i
  refs : ∀ q, ¬ IsFree blk q → s'.refs q = s.refs q
  table : ∃ t, s'.tableOf d (pagingGetPdIndex virt) = some t ∧
    ∀ t', s.tableOf d (pagingGetPdIndex virt) = some t' → t' = t
  free : ∀ q, IsFree blk' q → IsFree blk q
  count : s.freePages.ncard = s'.freePages.ncard +
    if s.tableOf d (pagingGetPdIndex virt) = none then 1 else 0

/-- `paging_map_page` with `PAGE_FLAGS_USER` for a page that is not used yet. -/
theorem pagingMapPage_view (ok : DirectoryOk s blk d) (haddr : UserAddr virt)
    (hp : Unused s blk d p) :
    (s.pagingMapPage virt (p * 4096) 0x7 = (false, s) ∧
        s.tableOf d (pagingGetPdIndex virt) = none ∧ s.freePages.ncard = 0) ∨
      ∃ s' blk', s.pagingMapPage virt (p * 4096) 0x7 = (true, s') ∧
        MappedAt s blk d virt p s' blk' := by
  have hlt : p < 2 ^ 20 := ok.steady.page_lt hp.page
  have hi : UserIndex (pagingGetPdIndex virt) := haddr.pdIndex
  have hj := pagingGetPtIndex_lt virt
  rcases pagingGetPageTable_view ok haddr.alignDown with ⟨h, htable, hzero⟩ | ⟨t, s1, blk1, h, r⟩
  · left
    rw [pagingGetPdIndex_alignDown] at htable
    refine ⟨?_, htable, hzero⟩
    unfold pagingMapPage
    dsimp only
    rw [h]
  right
  have hrun := pagingMapPage_eq p 0x7 h
  obtain ⟨ok1, htable, tables, slots, k1, old, new, free, count⟩ := r
  rw [pagingGetPdIndex_alignDown] at htable tables old new count
  have hp1 : Unused s1 blk1 d p := by
    refine hp.transfer (k1.isPage hp.page fun _ => id) (fun i hi ht => ?_) slots
    by_cases hii : i = pagingGetPdIndex virt
    · subst hii
      obtain rfl := some.inj (htable.symm.trans ht)
      cases hs : s.tableOf d (pagingGetPdIndex virt) with
      | some t' => rw [old t' hs]
      | none => exact absurd (new hs) hp.page.not_isFree
    · rw [← tables i hi hii]
      exact ht
  generalize hpte : mapEntry (s1.entry (t * 4096) (pagingGetPtIndex virt)) (p * 4096) 0x7 = pte at hrun
  have hpresent : pte.present = true := by
    rw [← hpte]
    exact (by decide : hasFlag 0x7 0x1 = true)
  have huser : pte.user = true := by
    rw [← hpte]
    exact (by decide : hasFlag 0x7 0x4 = true)
  have hpage : pte.page = p := by
    rw [← hpte]
    exact frameOf_toNat hlt
  have k2 := setEntry ok1.steady (ok1.table _ t hi htable).1 hj pte
  have htable2 : (s1.setEntry (t * 4096) (pagingGetPtIndex virt) pte).tableOf d
      (pagingGetPdIndex virt) = some t := by
    rw [← htable]
    exact tableOf_congr (k2.entry ok1.dir.not_isFree (ok1.table _ t hi htable).2.symm hi.lt)
  have hself : (s1.setEntry (t * 4096) (pagingGetPtIndex virt) pte).slotEntry (slotOf d virt) =
      some pte := by
    unfold slotOf
    rw [slotEntry_eq htable2, entry_setEntry_self, hpresent]
    rfl
  obtain ⟨ok2, tables2, rest2⟩ := ok1.setSlot hi htable k2
    (fun j' hj' hne => entry_setEntry_of_ne hj hj' (.inr hne)) fun e he => by
      obtain rfl := some.inj (hself.symm.trans he)
      exact hpage.symm ▸ hp1
  refine ⟨_, blk1, hrun, ok2, ⟨pte, hself, hpage, huser⟩, ?_, ?_, ?_, ⟨t, htable2, old⟩, free, ?_⟩
  · exact fun x hx hne => (rest2 x hx hne).trans (slots x hx)
  · exact fun i hi hne => (tables2 i hi).trans (tables i hi hne)
  · exact fun q hq => (k2.refs q (k1.not_isFree hq fun _ => id) id).trans (k1.refs q hq id)
  · rw [count, freePages_congr ok1.steady ok2.steady fun _ => Iff.rfl]

/-! ## Unmapping a page -/

theorem UserAddr.userSlot (haddr : UserAddr virt) : UserSlot d (slotOf d virt) :=
  ⟨rfl, haddr.pdIndex, pagingGetPtIndex_lt virt⟩

theorem slotEntry_table (he : s.slotEntry x = some e) : ∃ t, s.tableOf x.1 x.2.1 = some t :=
  exists_table (u := ⟨∅, s.tableOf, ∅⟩) he

theorem getPhysicalAddress_view (ok : DirectoryOk s blk d) (haddr : UserAddr virt)
    (he : s.slotEntry (slotOf d virt) = some e) :
    s.pagingGetPhysicalAddress virt = e.page * 4096 + virt % 4096 :=
  pagingGetPhysicalAddress_eq (u := ⟨{d}, s.tableOf, ∅⟩)
    ⟨fun _ _ _ _ _ => rfl, ok.current, Finset.mem_singleton_self d⟩ haddr he

/-- `paging_unmap_page` for an address with a page. -/
theorem pagingUnmapPage_view (ok : DirectoryOk s blk d) (haddr : UserAddr virt)
    (he : s.slotEntry (slotOf d virt) = some e) :
    DirectoryOk (s.pagingUnmapPage virt) blk d ∧ SameTables s d (s.pagingUnmapPage virt) ∧
      (s.pagingUnmapPage virt).slotEntry (slotOf d virt) = none ∧
      (∀ x, UserSlot d x → x ≠ slotOf d virt →
        (s.pagingUnmapPage virt).slotEntry x = s.slotEntry x) ∧
      ∀ q, (s.pagingUnmapPage virt).refs q = s.refs q := by
  have hi : UserIndex (pagingGetPdIndex virt) := haddr.pdIndex
  have hj := pagingGetPtIndex_lt virt
  obtain ⟨t, ht⟩ := slotEntry_table he
  have ht : s.tableOf d (pagingGetPdIndex virt) = some t := ht
  have hpresent : (s.entry (t * 4096) (pagingGetPtIndex virt)).present = true := by
    unfold slotOf at he
    rw [slotEntry_eq ht] at he
    split at he
    · next h => exact h
    · cases he
  have hrun : s.pagingUnmapPage virt =
      s.setMem (fillBytes s.mem (t * 4096 + 4 * pagingGetPtIndex virt) 0 4) := by
    unfold pagingUnmapPage
    dsimp only
    rw [pagingGetPageTable_some ok.current (t := t) (by rw [pagingGetPdIndex_alignDown]; exact ht),
      pagingGetPtIndex_alignDown]
    simp only [hpresent, if_true]
  have k : Keeps s blk (s.pagingUnmapPage virt) blk {t} ∅ := by
    rw [hrun]
    exact .write ok.steady (ok.table _ t hi ht).1 fun a ha => fillBytes_of_outside (by omega)
  have hcleared : ((s.pagingUnmapPage virt).entry (t * 4096) (pagingGetPtIndex virt)).present =
      false := by
    rw [hrun]
    show (decode (read32 (fillBytes _ _ _ _) _)).present = _
    rw [read32_fillBytes_zero le_rfl le_rfl]
    exact empty_present
  have hother : ∀ j < 1024, j ≠ pagingGetPtIndex virt →
      (s.pagingUnmapPage virt).entry (t * 4096) j = s.entry (t * 4096) j := by
    intro j _ hne
    rw [hrun]
    exact congrArg decode (read32_congr fun b _ _ => fillBytes_of_outside (by omega))
  have htable : (s.pagingUnmapPage virt).tableOf d (pagingGetPdIndex virt) = some t := by
    rw [← ht]
    exact tableOf_congr (k.entry ok.dir.not_isFree (ok.table _ t hi ht).2.symm hi.lt)
  have hnone : (s.pagingUnmapPage virt).slotEntry (slotOf d virt) = none := by
    unfold slotOf
    rw [slotEntry_eq htable, hcleared]
    rfl
  obtain ⟨ok', tables, rest⟩ := ok.setSlot hi ht k hother fun f hf => by
    cases hnone.symm.trans hf
  refine ⟨ok', tables, hnone, rest, fun q => ?_⟩
  rw [hrun]
  rfl

theorem freePage_shared (st : Steady s.pmm blk) (hp : IsPage blk p) (hrefs : 1 < s.refs p) :
    s.freePage (p * 4096) = s := by
  have hlt := st.page_lt hp
  have haddr : pmmPageToAddr p = p * 4096 := by
    unfold pmmPageToAddr
    omega
  unfold freePage
  rw [← haddr, pmmFreePage_shared st.toBuddyInv (o := 0) ⟨by simp, hp⟩ rfl hrefs]

/-- The page at `virt` is unmapped, and given back if nothing else refers to it. -/
structure Released (s : Machine) (blk : Blocks) (d virt : Nat) (e : PageEntry) (s' : Machine)
    (blk' : Blocks) : Prop where
  ok : DirectoryOk s' blk' d
  none : s'.slotEntry (slotOf d virt) = none
  rest : ∀ x, UserSlot d x → x ≠ slotOf d virt → s'.slotEntry x = s.slotEntry x
  refs : ∀ q, ¬ IsFree blk q → q ≠ e.page → s'.refs q = s.refs q
  free : s.refs e.page ≤ 1 → ∀ q, IsFree blk' q ↔ IsFree blk q ∨ q = e.page

/-- `paging_unmap_page` and `pmm_free_page`. -/
theorem released (ok : DirectoryOk s blk d) (haddr : UserAddr virt)
    (he : s.slotEntry (slotOf d virt) = some e) :
    ∃ blk', Released s blk d virt e ((s.pagingUnmapPage virt).freePage (e.page * 4096)) blk' := by
  obtain ⟨ok1, tables1, hnone, rest1, refs1⟩ := pagingUnmapPage_view ok haddr he
  obtain ⟨hp, hdir, htable⟩ := ok.frame _ e haddr.userSlot he
  generalize s.pagingUnmapPage virt = s1 at *
  by_cases hrefs : s.refs e.page ≤ 1
  · have unused : Unused s1 blk d e.page := by
      refine ⟨hp, hdir, fun i hi => ?_, fun x f hx hf hpage => ?_⟩
      · rw [tables1 i hi]
        exact htable i hi
      · have hne : x ≠ slotOf d virt := by
          rintro rfl
          cases hnone.symm.trans hf
        rw [rest1 x hx hne] at hf
        have := ok.shared _ x e f haddr.userSlot hx hne.symm he hf hpage.symm
        omega
    obtain ⟨blk2, drop, ok2, -, slots2⟩ := unused.free ok1 (by rw [refs1]; exact hrefs)
    refine ⟨blk2, ok2, (slots2 _ haddr.userSlot).trans hnone,
      fun x hx hne => (slots2 x hx).trans (rest1 x hx hne),
      fun q hq hne => (drop.keeps.refs q hq hne).trans (refs1 q), fun _ => drop.isFree_iff⟩
  · rw [freePage_shared ok1.steady hp (by rw [refs1]; omega)]
    exact ⟨blk, ok1, hnone, rest1, fun q _ _ => refs1 q, fun h => absurd h hrefs⟩

end Stos.Kernel
