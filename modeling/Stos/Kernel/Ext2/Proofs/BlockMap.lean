import Stos.Kernel.Ext2.BlockMap
import Stos.Kernel.Ext2.Proofs.Volume

/-!
# Growing and freeing the block map

On a volume below 4 GiB whose blocks are numbered from 0, `ext2_alloc_block` fails only if no block is
free. `ext2_set_block_id` then adds one leaf to the trees of an inode, and `ext2_truncate` frees all their
blocks. What is written outside the trees belongs to the allocator.
-/

namespace Stos.Kernel.Ext2

open PointerTree List Finset Ext2 Layout Volume

variable {b a k r p j block i : Nat} {v' : Volume} {created : List Nat}

namespace Layout

variable {L : Layout} {d d' : Mem} {v : Volume} {blocks : List Nat} {g mode table : Nat}

/-! ## Allocation on a well-formed volume -/

/-- All addresses have 32 bits. -/
def Small (L : Layout) : Prop := L.total * L.blockSize ≤ 2 ^ 32

/-- The addresses of a block and of its mark have 32 bits. -/
structure Low (L : Layout) (b : Nat) : Prop where
  fits : b * L.blockSize + L.blockSize ≤ 2 ^ 32
  below : L.Below (L.group b)

/-- The addresses of the first `k` free blocks and of the groups up to theirs have 32 bits. -/
def LowFree (L : Layout) (d : Mem) (k : Nat) : Prop :=
  ∀ b ∈ L.freeSet d, ((L.freeSet d).filter (· < b)).card < k →
    L.total + L.perGroup ≤ 2 ^ 32 ∧ L.Low b ∧ ∀ g < L.group b, L.Below g

/-- The addresses that only the allocator writes. -/
def Owned (L : Layout) (a : Nat) : Prop :=
  1024 ≤ a ∧ a < 1024 + 90 ∨ gdtStart L.blockSize ≤ a ∧ a < L.gdtEnd ∨
    ∃ g < L.groups, L.bitmapBlock g * L.blockSize ≤ a ∧ a < L.bitmapBlock g * L.blockSize + L.blockSize

/-- Nothing changes outside the allocator's data and the given blocks. -/
def Keeps (L : Layout) (blocks : List Nat) (d d' : Mem) : Prop :=
  ∀ a, ¬ L.Owned a → a / L.blockSize ∉ blocks → d' a = d a

/-- A block that some file has for data or pointers. -/
structure Taken (L : Layout) (d : Mem) (b : Nat) : Prop where
  lt : b < L.total
  not_free : b ∉ L.freeSet d
  not_metadata : ¬ L.metadata b

/-- A block in use that can be read, written and freed. -/
structure InUse (L : Layout) (d : Mem) (b : Nat) : Prop extends L.Taken d b where
  low : L.Low b

theorem div_blockSize (hlo : b * L.blockSize ≤ a) (hhi : a < b * L.blockSize + L.blockSize) :
    a / L.blockSize = b := by
  rw [Nat.div_eq_iff (by have := L.blockSize_pos; omega)]
  omega

/-- The blocks of the allocator are metadata. -/
theorem Sound.not_owned (sound : L.Sound) (hb : ¬ L.metadata b) (hlo : b * L.blockSize ≤ a)
    (hhi : a < b * L.blockSize + L.blockSize) : ¬ L.Owned a := by
  have hstart := L.gdtStart_ge
  rintro (⟨-, h⟩ | ⟨-, h⟩ | ⟨g, hg, hglo, hghi⟩)
  · refine hb (sound.head_metadata b ?_)
    unfold gdtEnd
    omega
  · exact hb (sound.head_metadata b (by omega))
  · have : b = L.bitmapBlock g := (div_blockSize hlo hhi).symm.trans (div_blockSize hglo hghi)
    exact hb (this ▸ sound.bitmap_metadata g hg)

theorem InUse.ne_zero (h : L.InUse d b) (sound : L.Sound) : b ≠ 0 := by
  rintro rfl
  have hstart := L.gdtStart_ge
  refine h.not_metadata (sound.head_metadata 0 ?_)
  unfold gdtEnd
  omega

theorem Keeps.refl (blocks : List Nat) (d : Mem) : L.Keeps blocks d d := fun _ _ _ => rfl

theorem Keeps.mono {blocks' : List Nat} (h : L.Keeps blocks d d') (hsub : blocks ⊆ blocks') :
    L.Keeps blocks' d d' := fun a howned ha => h a howned fun hmem => ha (hsub hmem)

theorem Keeps.trans {d'' : Mem} (h : L.Keeps blocks d d') (h' : L.Keeps blocks d' d'') :
    L.Keeps blocks d d'' := fun a howned ha => (h' a howned ha).trans (h a howned ha)

/-- A block that is not written is the same. -/
theorem Keeps.agree (h : L.Keeps blocks d d') (sound : L.Sound) (hb : ¬ L.metadata b)
    (hmem : b ∉ blocks) : Agree L.blockSize d d' b := fun a hlo hhi =>
  h a (sound.not_owned hb hlo hhi) (by rwa [div_blockSize hlo hhi])

/-- An edit of one group is in the allocator's data. -/
theorem Edited.keeps {count total : Nat} {bits : Mem} (h : L.Edited d d' g bits count total)
    (hg : g < L.groups) : L.Keeps [] d d' := by
  intro a howned _
  unfold Owned at howned
  push Not at howned
  obtain ⟨hsb, hgdt, hbitmap⟩ := howned
  have hend := gdt_le_gdtEnd hg
  have hbits := hbitmap g hg
  exact h.same a (by omega) (by omega) (by omega)

theorem Small.lt (small : L.Small) (hb : b < L.total) : b * L.blockSize + L.blockSize ≤ 2 ^ 32 := by
  have : (b + 1) * L.blockSize ≤ L.total * L.blockSize := Nat.mul_le_mul_right _ hb
  rw [Nat.succ_mul] at this
  exact this.trans small

theorem Small.total_add_le (small : L.Small) : L.total + L.perGroup ≤ 2 ^ 32 := by
  have hper := L.perGroup_le
  have hmul : L.total * 1024 ≤ L.total * L.blockSize := Nat.mul_le_mul_left _ L.blockSize_pos
  unfold Small at small
  rcases L.blockSize_eq with h | h | h <;> rw [h] at hper <;> omega

theorem Small.below (small : L.Small) (sound : L.Sound) (hg : g < L.groups) : L.Below g := by
  have hlast := small.lt (sound.bitmap_lt g hg)
  have hge := sound.bitmap_ge g hg
  refine ⟨?_, by rwa [Nat.succ_mul]⟩
  unfold gdtEnd at hge
  omega

theorem Small.lowFree (small : L.Small) (sound : L.Sound) (d : Mem) (k : Nat) : L.LowFree d k := by
  intro b hb _
  obtain ⟨hlt, hlo, -⟩ := mem_freeSet.mp hb
  have hg := group_lt hlo hlt
  exact ⟨small.total_add_le, ⟨small.lt hlt, small.below sound hg⟩, fun g hg' => small.below sound (hg'.trans hg)⟩

theorem LowFree.mono {k' : Nat} (h : L.LowFree d k) (hle : k' ≤ k) :
    L.LowFree d k' := fun b hb hcard =>
  h b hb (by omega)

theorem LowFree.congr (h : L.LowFree d k) (hset : L.freeSet d' = L.freeSet d) : L.LowFree d' k := by
  unfold LowFree
  rw [hset]
  exact h

theorem LowFree.of_empty (h : L.freeSet d = ∅) (k : Nat) : L.LowFree d k := fun b hb _ => by
  rw [h] at hb
  exact absurd hb (notMem_empty b)

/-- The first free block. -/
theorem LowFree.first (h : L.LowFree d 1) (hb : b ∈ L.freeSet d) (hfirst : ∀ b' ∈ L.freeSet d, b ≤ b') :
    L.total + L.perGroup ≤ 2 ^ 32 ∧ L.Low b := by
  have hnone : (L.freeSet d).filter (· < b) = ∅ :=
    filter_eq_empty_iff.mpr fun b' hb' => not_lt.mpr (hfirst b' hb')
  obtain ⟨htotal, hlow, -⟩ := h b hb (by rw [hnone, card_empty]; omega)
  exact ⟨htotal, hlow⟩

theorem WellFormed.counted (hd : L.WellFormed d) : L.Counted d :=
  ⟨hd.described, hd.totalUnallocBlocks, hd.unallocBlocksCount⟩

/-- A group that is passed over has no free block. -/
theorem Counted.exhausted (hd : L.Counted d) (hg : g < L.groups) (h : L.Exhausted d g) :
    ∀ b ∈ L.freeSet d, L.group b ≠ g := by
  rcases h with hcount | hfree
  · rintro b hb rfl
    rw [hd.unallocBlocksCount _ hg, card_eq_zero] at hcount
    have hmem : b ∈ (L.freeSet d).filter fun b' => L.group b' = L.group b := mem_filter.mpr ⟨hb, rfl⟩
    rw [hcount] at hmem
    exact absurd hmem (notMem_empty b)
  · exact hfree

/-- The first free block is reachable if it is low. -/
theorem WellFormed.reachable (hd : L.WellFormed d) (hlow : L.LowFree d 1) : L.Reachable d := by
  intro b hb
  obtain ⟨m, hm, hmin⟩ := (L.freeSet d).exists_min_image id ⟨b, hb⟩
  exact ⟨hd.ne_zero hb, (hlow.first hm hmin).1, fun hfirst => (hlow.first hb hfirst).2.below⟩

namespace Takes

variable {r : Nat}

theorem group_lt (h : L.Takes d d' r) : L.group r < L.groups := by
  obtain ⟨hlt, hlo, -⟩ := mem_freeSet.mp h.free
  exact Layout.group_lt hlo hlt

/-- The counts are right after a block was taken. -/
theorem counted (h : L.Takes d d' r) (hd : L.Counted d) : L.Counted d' := by
  have hset := h.freeSet hd.sound
  refine ⟨h.edited.described hd.toDescribed h.group_lt, ?_, fun g hg => ?_⟩
  · have hcard : 0 < (L.freeSet d).card := card_pos.mpr ⟨r, h.free⟩
    have hlt : totalUnallocBlocks d < 2 ^ 32 := readLE_lt _ _ _
    rw [h.edited.total, hset, card_erase_of_mem h.free, sub32_eq (by rw [hd.totalUnallocBlocks]; omega) hlt,
      hd.totalUnallocBlocks]
  · rw [hset]
    by_cases hgroup : g = L.group r
    · have hmem : r ∈ (L.freeSet d).filter fun b => L.group b = g :=
        mem_filter.mpr ⟨h.free, hgroup.symm⟩
      rw [filter_erase, card_erase_of_mem hmem, ← hd.unallocBlocksCount g hg, hgroup,
        h.edited.count]
    · have hmem : r ∉ (L.freeSet d).filter fun b => L.group b = g :=
        fun hmem => hgroup (Finset.mem_filter.mp hmem).2.symm
      rw [filter_erase, erase_eq_of_notMem hmem, ← hd.unallocBlocksCount g hg]
      exact h.edited.count_other hd.sound h.group_lt hg hgroup

theorem wellFormed (h : L.Takes d d' r) (hd : L.WellFormed d) : L.WellFormed d' := by
  have hcounted := h.counted hd.counted
  exact ⟨h.shaped hd.toShaped, hcounted.totalUnallocBlocks, hcounted.unallocBlocksCount⟩

/-- The first free block is taken. -/
theorem least (h : L.Takes d d' r) (hd : L.WellFormed d) : ∀ b ∈ L.freeSet d, r ≤ b := by
  intro b hb
  by_contra hlt
  have hmono : L.group b ≤ L.group r := Nat.div_le_div_right (by omega)
  rcases lt_or_eq_of_le hmono with hgroup | hgroup
  · exact hd.counted.exhausted (hgroup.trans h.group_lt) (h.passed _ hgroup) b hb rfl
  · exact hlt (h.first b hb hgroup)

theorem low (h : L.Takes d d' r) (hd : L.WellFormed d) (hlow : L.LowFree d 1) : L.Low r :=
  (hlow.first h.free (h.least hd)).2

end Takes

/-- `ext2_alloc_block` fails only if no block is free. -/
theorem Counted.allocBlock (hd : L.Counted v.disk) (hsize : L.blockSize ≠ 1024) (h : L.Reachable v.disk) :
    (L.freeSet v.disk = ∅ ∧ (Ext2.allocBlock L.blockSize v).1 = 0 ∧
      (Ext2.allocBlock L.blockSize v).2.disk = v.disk) ∨
    L.Takes v.disk (Ext2.allocBlock L.blockSize v).2.disk (Ext2.allocBlock L.blockSize v).1 := by
  by_cases hempty : L.freeSet v.disk = ∅
  · have hfree : Ext2.totalUnallocBlocks v.disk = 0 := by rw [hd.totalUnallocBlocks, hempty, card_empty]
    rw [allocBlock_full hfree]
    exact .inl ⟨hempty, rfl, rfl⟩
  -- the group of the first free block is the last one that is looked at
  obtain ⟨m, hm, hfirst⟩ := (L.freeSet v.disk).exists_min_image id (nonempty_iff_ne_empty.mpr hempty)
  obtain ⟨-, htotal, hbelow⟩ := h m hm
  have hnext := (hbelow hfirst).1
  have hfree : Ext2.totalUnallocBlocks v.disk ≠ 0 := by rwa [hd.totalUnallocBlocks, Ne, card_eq_zero]
  have hgroups : ∀ g < L.groups, (∀ g' < g, L.Exhausted v.disk g') →
      gdtStart L.blockSize + (g + 1) * 32 ≤ 2 ^ 32 ∧ (L.unallocBlocksCount v.disk g ≠ 0 → L.Below g) := by
    intro g hg passed
    rcases lt_trichotomy g (L.group m) with hlt | rfl | hgt
    · refine ⟨by omega, fun hcount => absurd ?_ hcount⟩
      rw [hd.unallocBlocksCount g hg, card_eq_zero, filter_eq_empty_iff]
      rintro b hb rfl
      exact absurd (Nat.div_le_div_right (Nat.sub_le_sub_right (hfirst b hb) _)) (not_le.mpr hlt)
    · exact ⟨hnext, fun _ => hbelow hfirst⟩
    · exact absurd rfl (hd.exhausted (hgt.trans hg) (passed _ hgt) m hm)
  rw [hd.allocBlock_eq hsize htotal hfree]
  rcases hd.allocLoop hsize htotal (fun b hb => (h b hb).1) hgroups L.groups 0 v rfl (by omega) (by omega)
    with ⟨hnone, -⟩ | htakes
  · obtain ⟨hlt, hlo, -⟩ := mem_freeSet.mp hm
    exact absurd rfl (hd.exhausted (group_lt hlo hlt) (hnone _ (group_lt hlo hlt)) m hm)
  · exact .inr htakes

/-- A group has no more blocks than bits. -/
theorem card_group_le (d : Mem) (g : Nat) : ((L.freeSet d).filter fun b => L.group b = g).card ≤ L.perGroup := by
  have hinj : Set.InjOn (fun b => (b - L.firstData) % L.perGroup)
      ((L.freeSet d).filter fun b => L.group b = g : Finset Nat) := by
    intro b hb b' hb' hbit
    obtain ⟨hfree, hgroup⟩ := Finset.mem_filter.mp hb
    obtain ⟨hfree', hgroup'⟩ := Finset.mem_filter.mp hb'
    exact eq_of_group_bit (mem_freeSet.mp hfree).2.1 (mem_freeSet.mp hfree').2.1 (hgroup.trans hgroup'.symm) hbit
  calc ((L.freeSet d).filter fun b => L.group b = g).card ≤ (Finset.range L.perGroup).card :=
        Finset.card_le_card_of_injOn _ (fun b _ => Finset.mem_coe.mpr (Finset.mem_range.mpr (L.bit_lt b))) hinj
    _ = L.perGroup := Finset.card_range _

/-- `ext2_free_block` of a block that is marked. -/
theorem Counted.freeBlock (hd : L.Counted v.disk) (hsize : L.blockSize ≠ 1024) (hlt : b < L.total)
    (hb : b ∉ L.freeSet v.disk) (below : L.Below (L.group b)) :
    L.Counted (freeBlock L.blockSize v b).disk := by
  have hfirst : L.firstData = 0 := if_neg hsize
  have hg : L.group b < L.groups := group_lt (by omega) hlt
  have hedit := hd.toDescribed.freeBlock hsize hlt below
  have hset := hedit.freeSet_clear hd.sound (by omega) hlt
  refine ⟨hedit.described hd.toDescribed hg, ?_, fun g hgroup => ?_⟩
  · have hle : (insert b (L.freeSet v.disk)).card ≤ L.total := by
      have hsub : insert b (L.freeSet v.disk) ⊆ Finset.range L.total := by
        intro b' hb'
        rcases mem_insert.mp hb' with rfl | hb'
        · exact Finset.mem_range.mpr hlt
        · exact Finset.mem_range.mpr (mem_freeSet.mp hb').1
      simpa using card_le_card hsub
    have htotal := L.total_lt
    rw [hset, hedit.total, hd.totalUnallocBlocks]
    rw [card_insert_of_notMem hb] at hle ⊢
    exact Nat.mod_eq_of_lt (by omega)
  · have hbound := card_group_le (L := L) (Ext2.freeBlock L.blockSize v b).disk g
    have hper := L.perGroup_le
    have hlarge : L.perGroup < 2 ^ 16 := by
      rcases L.blockSize_eq with h | h | h <;> omega
    rw [hset] at hbound ⊢
    by_cases hne : g = L.group b
    · subst hne
      have hnew : b ∉ (L.freeSet v.disk).filter fun b' => L.group b' = L.group b :=
        fun hmem => hb (Finset.mem_filter.mp hmem).1
      rw [filter_insert, if_pos rfl, card_insert_of_notMem hnew] at hbound ⊢
      rw [hedit.count, hd.unallocBlocksCount _ hg]
      exact Nat.mod_eq_of_lt (by omega)
    · rw [filter_insert, if_neg (fun h => hne h.symm), ← hd.unallocBlocksCount g hgroup]
      exact hedit.count_other hd.sound hg hgroup hne

/-- `ext2_free_block` of a block in use. -/
theorem WellFormed.freeBlock (hd : L.WellFormed v.disk) (hsize : L.blockSize ≠ 1024)
    (hb : L.InUse v.disk b) : L.WellFormed (freeBlock L.blockSize v b).disk ∧
      L.freeSet (freeBlock L.blockSize v b).disk = insert b (L.freeSet v.disk) ∧
      L.Keeps [] v.disk (freeBlock L.blockSize v b).disk := by
  have hfirst : L.firstData = 0 := if_neg hsize
  have hg : L.group b < L.groups := group_lt (by omega) hb.lt
  have hedit := hd.described.freeBlock hsize hb.lt hb.low.below
  have hset := hedit.freeSet_clear hd.sound (by omega) hb.lt
  have hcounted := hd.counted.freeBlock hsize hb.lt hb.not_free hb.low.below
  refine ⟨⟨?_, hcounted.totalUnallocBlocks, hcounted.unallocBlocksCount⟩, hset, hedit.keeps hg⟩
  refine hedit.shaped_of_freeSet hd.toShaped hg fun b' hb' => ?_
  rw [hset] at hb'
  rcases mem_insert.mp hb' with rfl | hb'
  · exact .inr hb.not_metadata
  · exact .inl hb'

/-- In every state that such calls lead to, the counts agree with the bitmaps, and `ext2_alloc_block` gives 0
only if no block is free. -/
theorem countRun_counted (hsize : L.blockSize ≠ 1024) (run : L.CountRun v) :
    L.Counted v.disk ∧
      (L.Reachable v.disk → (Ext2.allocBlock L.blockSize v).1 = 0 → L.freeSet v.disk = ∅) := by
  have hcounted : L.Counted v.disk := by
    induction run with
    | init h => exact h.counted
    | alloc _ reachable ih =>
      rcases ih.allocBlock hsize reachable with ⟨-, -, hdisk⟩ | htakes
      · rwa [hdisk]
      · exact htakes.counted ih
    | free _ hlt hused below ih =>
      refine ih.freeBlock hsize hlt (fun hfree => ?_) below
      rw [(mem_freeSet.mp hfree).2.2] at hused
      exact absurd hused (by decide)
  refine ⟨hcounted, fun reachable hresult => ?_⟩
  rcases hcounted.allocBlock hsize reachable with ⟨hempty, -⟩ | htakes
  · exact hempty
  · exact absurd hresult (reachable _ htakes.free).1

theorem countRun_counted_smallLayout :
    smallLayout.CountRun (Ext2.freeBlock 4096 ⟨smallDisk 4096 2 10 0x3f, fun _ => 0⟩ 3) ∧
      smallLayout.Counted (Ext2.freeBlock 4096 ⟨smallDisk 4096 2 10 0x3f, fun _ => 0⟩ 3).disk := by
  have run : smallLayout.CountRun (freeBlock 4096 ⟨smallDisk 4096 2 10 0x3f, fun _ => 0⟩ 3) :=
    .free (.init smallLayout_wellFormed) (by decide) (by decide +kernel) ⟨by decide, by decide⟩
  exact ⟨run, (countRun_counted (by decide) run).1⟩

/-- Block 0 is marked as used. Once it is freed, it is taken again, but the call gives 0, although block 6 is
free. -/
theorem countRun_blockZero :
    smallLayout.CountRun (Ext2.freeBlock 4096 ⟨smallDisk 4096 2 10 0x3f, fun _ => 0⟩ 0) ∧
      (Ext2.allocBlock 4096 (Ext2.freeBlock 4096 ⟨smallDisk 4096 2 10 0x3f, fun _ => 0⟩ 0)).1 = 0 ∧
      6 ∈ smallLayout.freeSet (Ext2.freeBlock 4096 ⟨smallDisk 4096 2 10 0x3f, fun _ => 0⟩ 0).disk :=
  ⟨.free (.init smallLayout_wellFormed) (by decide) (by decide +kernel) ⟨by decide, by decide⟩, by decide +kernel,
    by decide +kernel⟩

/-! ## Writes to blocks -/

theorem freeSet_congr (same : ∀ a, L.Owned a → d' a = d a) : L.freeSet d' = L.freeSet d := by
  ext b
  rw [mem_freeSet, mem_freeSet]
  refine and_congr_right fun hlt => and_congr_right fun hlo => ?_
  have hbyte := L.bit_byte_lt b
  have hused : L.used d' b = L.used d b :=
    byteBit_congr (same _ (.inr (.inr ⟨L.group b, group_lt hlo hlt, by omega, by omega⟩)))
  rw [hused]

theorem WellFormed.congr (hd : L.WellFormed d) (same : ∀ a, L.Owned a → d' a = d a) : L.WellFormed d' := by
  have hset := freeSet_congr same
  have hentry : ∀ g < L.groups, ∀ a, gdtStart L.blockSize + g * 32 ≤ a →
      a < gdtStart L.blockSize + g * 32 + 32 → L.Owned a := fun g hg a hlo hhi =>
    .inr (.inl ⟨by omega, by unfold gdtEnd; omega⟩)
  refine ⟨⟨hd.sound, ?_, ?_, fun g hg => ?_, fun g hg => ?_, fun b hmeta hlo hlt => ?_⟩, ?_, fun g hg => ?_⟩
  · rw [← hd.total]
    exact readLE_congr fun a _ _ => same a (.inl ⟨by omega, by omega⟩)
  · rw [← hd.perGroup]
    exact readLE_congr fun a _ _ => same a (.inl ⟨by omega, by omega⟩)
  · rw [← hd.bitmapBlock g hg]
    exact readLE_congr fun a _ _ => same a (hentry g hg a (by omega) (by omega))
  · rw [← hd.inodeTable g hg]
    exact readLE_congr fun a _ _ => same a (hentry g hg a (by omega) (by omega))
  · by_contra hused
    have hfree : b ∈ L.freeSet d' := mem_freeSet.mpr ⟨hlt, hlo, by simpa using hused⟩
    rw [hset] at hfree
    exact hd.not_metadata hfree hmeta
  · rw [hset, ← hd.totalUnallocBlocks]
    exact readLE_congr fun a _ _ => same a (.inl ⟨by omega, by omega⟩)
  · rw [hset, ← hd.unallocBlocksCount g hg]
    exact readLE_congr fun a _ _ => same a (hentry g hg a (by omega) (by omega))

/-- From one volume to another: the blocks in `created` were allocated, and only they and the blocks in
`touched` were written. -/
structure Extends (L : Layout) (v v' : Volume) (created touched : List Nat) : Prop where
  wellFormed : L.WellFormed v'.disk
  nodup : created.Nodup
  free : ∀ b ∈ created, b ∈ L.freeSet v.disk
  low : ∀ b ∈ created, L.Low b
  freeSet : L.freeSet v'.disk = L.freeSet v.disk \ created.toFinset
  keeps : L.Keeps (touched ++ created) v.disk v'.disk

namespace Extends

variable {v v' v'' : Volume} {created created' touched touched' : List Nat} {b : Nat}

theorem refl (hd : L.WellFormed v.disk) (touched : List Nat) : L.Extends v v [] touched :=
  ⟨hd, nodup_nil, nofun, nofun, by simp,
    .refl _ _⟩

section

variable (h : L.Extends v v' created touched)

include h

theorem mono (hsub : touched ⊆ touched') : L.Extends v v' created touched' :=
  ⟨h.wellFormed, h.nodup, h.free, h.low, h.freeSet,
    h.keeps.mono (append_subset.mpr ⟨List.Subset.trans hsub (subset_append_left _ _),
      subset_append_right _ _⟩)⟩

theorem of_disk (hdisk : v''.disk = v'.disk) : L.Extends v v'' created touched := by
  obtain ⟨hformed, hnodup, hfree, hlow, hset, hkeeps⟩ := h
  rw [← hdisk] at hformed hset hkeeps
  exact ⟨hformed, hnodup, hfree, hlow, hset, hkeeps⟩

theorem taken (hb : L.Taken v.disk b) : L.Taken v'.disk b := by
  refine ⟨hb.lt, fun hfree => hb.not_free ?_, hb.not_metadata⟩
  rw [h.freeSet] at hfree
  exact (mem_sdiff.mp hfree).1

theorem inUse (hb : L.InUse v.disk b) : L.InUse v'.disk b :=
  ⟨h.taken hb.toTaken, hb.low⟩

/-- A block that was created is in use. -/
theorem inUse_created (hv : L.WellFormed v.disk) (hb : b ∈ created) : L.InUse v'.disk b := by
  have hfree := h.free b hb
  refine ⟨⟨(mem_freeSet.mp hfree).1, fun hmem => ?_, hv.not_metadata hfree⟩, h.low b hb⟩
  rw [h.freeSet] at hmem
  exact (mem_sdiff.mp hmem).2 (mem_toFinset.mpr hb)

theorem not_mem_created (hb : L.Taken v.disk b) : b ∉ created :=
  fun hmem => hb.not_free (h.free b hmem)

theorem agree (hb : L.Taken v.disk b) (hmem : b ∉ touched) : Agree L.blockSize v.disk v'.disk b :=
  h.keeps.agree h.wellFormed.sound hb.not_metadata fun hin =>
    (mem_append.mp hin).elim hmem (h.not_mem_created hb)

theorem card : (L.freeSet v'.disk).card = (L.freeSet v.disk).card - created.length := by
  rw [h.freeSet, card_sdiff_of_subset fun b hb => h.free b (mem_toFinset.mp hb),
    toFinset_card_of_nodup h.nodup]

theorem trans (h' : L.Extends v' v'' created' (touched ++ created)) :
    L.Extends v v'' (created ++ created') touched := by
  refine ⟨h'.wellFormed, ?_, fun b hb => ?_, fun b hb => ?_, ?_, ?_⟩
  · refine h.nodup.append h'.nodup fun b hb hb' => ?_
    have hfree := h'.free b hb'
    rw [h.freeSet] at hfree
    exact (mem_sdiff.mp hfree).2 (mem_toFinset.mpr hb)
  · rcases mem_append.mp hb with hb | hb
    · exact h.free b hb
    · have hfree := h'.free b hb
      rw [h.freeSet] at hfree
      exact (mem_sdiff.mp hfree).1
  · exact (mem_append.mp hb).elim (h.low b) (h'.low b)
  · rw [h'.freeSet, h.freeSet, toFinset_append, sdiff_sdiff, sup_eq_union]
  · have hkeeps := h'.keeps
    rw [append_assoc] at hkeeps
    exact (h.keeps.mono (append_subset.mpr ⟨subset_append_left _ _,
      List.Subset.trans (subset_append_left _ _) (subset_append_right _ _)⟩)).trans hkeeps

/-- Fewer free blocks are left, and the first of them are still low. -/
theorem lowFree (hlow : L.LowFree v.disk (created.length + k)) : L.LowFree v'.disk k := by
  intro b hb hcard
  rw [h.freeSet] at hb hcard
  refine hlow b (Finset.mem_sdiff.mp hb).1 ?_
  have hsub : (L.freeSet v.disk).filter (· < b) ⊆
      (L.freeSet v.disk \ created.toFinset).filter (· < b) ∪ created.toFinset := by
    intro c hc
    obtain ⟨hfree, hlt⟩ := Finset.mem_filter.mp hc
    by_cases hmem : c ∈ created.toFinset
    · exact Finset.mem_union_right _ hmem
    · exact Finset.mem_union_left _ (Finset.mem_filter.mpr ⟨Finset.mem_sdiff.mpr ⟨hfree, hmem⟩, hlt⟩)
  have hle := (Finset.card_le_card hsub).trans (Finset.card_union_le _ _)
  have hlen := List.toFinset_card_le created
  omega

end

end Extends

/-- A write to a block that is no metadata. -/
theorem WellFormed.write (hd : L.WellFormed v.disk) {o n : Nat} (buffer : Mem)
    (writes : writeable mode = true) (hlow : L.Low b) (hdata : ¬ L.metadata b)
    (hfits : o + n ≤ L.blockSize) (hn : 0 < n) :
    (v.write mode (b * L.blockSize + o) n buffer).disk =
        writeBytes v.disk (b * L.blockSize + o) buffer n ∧
      L.Extends v (v.write mode (b * L.blockSize + o) n buffer) [] [b] := by
  have hend := hlow.fits
  have hdisk : (v.write mode (b * L.blockSize + o) n buffer).disk =
      writeBytes v.disk (b * L.blockSize + o) buffer n := write_disk writes (by omega)
  have houtside : ∀ a, (a < b * L.blockSize ∨ b * L.blockSize + L.blockSize ≤ a) →
      (v.write mode (b * L.blockSize + o) n buffer).disk a = v.disk a := fun a ha => by
    rw [hdisk, writeBytes_of_outside (by omega)]
  have howned : ∀ a, L.Owned a → (v.write mode (b * L.blockSize + o) n buffer).disk a = v.disk a :=
    fun a ha => houtside a (by
      by_contra hin
      exact hd.sound.not_owned hdata (by omega) (by omega) ha)
  refine ⟨hdisk, hd.congr howned, nodup_nil, nofun, nofun, ?_, ?_⟩
  · rw [freeSet_congr howned, toFinset_nil, sdiff_empty]
  · intro a _ ha
    refine houtside a ?_
    by_contra hin
    have hblock : a / L.blockSize = b := div_blockSize (by omega) (by omega)
    exact ha (hblock ▸ mem_cons_self)

/-- `ext2_alloc_block` as a step. -/
theorem Takes.extends (h : L.Takes v.disk v'.disk r) (hd : L.WellFormed v.disk)
    (hlow : L.LowFree v.disk 1) : L.Extends v v' [r] [] := by
  refine ⟨h.wellFormed hd, nodup_singleton r, fun b hb => ?_, fun b hb => ?_, ?_, ?_⟩
  · rw [List.mem_singleton.mp hb]
    exact h.free
  · rw [List.mem_singleton.mp hb]
    exact h.low hd hlow
  · rw [h.freeSet hd.sound, toFinset_cons, toFinset_nil, insert_empty_eq, sdiff_singleton_eq_erase]
  · exact (h.edited.keeps h.group_lt).mono (nil_subset _)

/-! ## Tables -/

theorem width_pos (L : Layout) : 0 < width L.blockSize := by
  have := L.blockSize_pos
  unfold width
  omega

theorem Low.readBlockPtr (hp : L.Low p) (v : Volume) (hj : j < width L.blockSize) :
    readBlockPtr v L.blockSize p j = slot L.blockSize v.disk p j := by
  have hend := hp.fits
  unfold width at hj
  exact readLE_read (by omega) _ _

/-- A pointer is stored, the others stay. -/
theorem WellFormed.writeBlockPtr (hd : L.WellFormed v.disk) (hp : L.Low p) (hdata : ¬ L.metadata p)
    (hj : j < width L.blockSize) (hblock : block < 2 ^ 32) :
    slot L.blockSize (writeBlockPtr v L.blockSize p j block).disk p j = block ∧
      (∀ j' < width L.blockSize, j' ≠ j →
        slot L.blockSize (writeBlockPtr v L.blockSize p j block).disk p j' = slot L.blockSize v.disk p j') ∧
      L.Extends v (writeBlockPtr v L.blockSize p j block) [] [p] := by
  have hfits : j * 4 + 4 ≤ L.blockSize := by
    unfold width at hj
    omega
  obtain ⟨hdisk, hext⟩ := hd.write (writeLE (fun _ => 0) 0 4 block)
    writeable_oRdwr hp hdata hfits (by omega)
  refine ⟨?_, fun j' hj' hne => ?_, hext⟩
  · unfold slot Ext2.writeBlockPtr
    rw [hdisk]
    refine readLE_eq hblock fun i hi => ?_
    rw [writeBytes, if_pos (by omega), Nat.add_sub_cancel_left, writeLE, if_pos (by omega), Nat.sub_zero]
  · unfold slot Ext2.writeBlockPtr
    rw [hdisk]
    exact readLE_congr fun a _ _ => writeBytes_of_outside (by omega)

/-- A new table is filled with zeros. -/
theorem WellFormed.zeroBlock (hd : L.WellFormed v.disk) (writes : writeable mode = true)
    (hp : L.Low p) (hdata : ¬ L.metadata p) : L.Extends v (v.zeroBlock mode L.blockSize p) [] [p] ∧
      (L.blockSize ≠ 2048 → ∀ j < width L.blockSize,
        slot L.blockSize (v.zeroBlock mode L.blockSize p).disk p j = 0) := by
  have hsize := L.blockSize_pos
  obtain ⟨hdisk, hext⟩ := hd.write (v.zeros L.blockSize) writes hp hdata
    (by omega : 0 + L.blockSize ≤ L.blockSize) (by omega)
  refine ⟨hext, fun hzeros j hj => ?_⟩
  unfold width at hj
  unfold slot Volume.zeroBlock
  rw [add_zero] at hdisk
  rw [hdisk, zeros, if_neg hzeros]
  refine readLE_eq (by decide) fun i hi => ?_
  rw [writeBytes, if_pos (by omega), Nat.zero_div]
  rfl

/-! ## One more leaf below a table -/

/-- The way from a table down to a leaf. -/
def descend (blockSize : Nat) : Nat → Volume → Nat → Nat → Nat → Bool × Volume
  | 0, v, table, i, newBlock => (true, writeBlockPtr v blockSize table i newBlock)
  | k + 1, v, table, i, newBlock =>
    let (next, v) := nextTable v blockSize table (i / width blockSize ^ (k + 1))
    if next = 0 then (false, v) else descend blockSize k v next (i % width blockSize ^ (k + 1)) newBlock

/-- The number of tables that are missing on this way. -/
def missing (w : Nat) : Nat → Nat → Nat
  | 0, _ => 0
  | k + 1, i => (if i % w ^ (k + 1) = 0 then 1 else 0) + missing w k (i % w ^ (k + 1))

/-- A table is allocated and filled with zeros. -/
theorem WellFormed.newTable (hd : L.WellFormed v.disk) (hlow : L.LowFree v.disk 1) (hsize : L.blockSize = 4096)
    (hfree : 0 < (L.freeSet v.disk).card) :
    ∃ r v', r ≠ 0 ∧ r ∈ L.freeSet v.disk ∧ (allocBlock L.blockSize v).1 = r ∧
      (allocBlock L.blockSize v).2.zeroBlock oRdwr L.blockSize r = v' ∧
      L.Extends v v' [r] [] ∧ ∀ j < width L.blockSize, slot L.blockSize v'.disk r j = 0 := by
  rcases hd.counted.allocBlock (by omega) (hd.reachable hlow) with ⟨hempty, -⟩ | htakes
  · rw [hempty, card_empty] at hfree
    exact absurd hfree (lt_irrefl 0)
  have hext := htakes.extends hd hlow
  obtain ⟨hzero, hslots⟩ := hext.wellFormed.zeroBlock writeable_oRdwr (htakes.low hd hlow)
    (hd.not_metadata htakes.free)
  exact ⟨_, _, hd.ne_zero htakes.free, htakes.free, rfl, rfl, hext.trans (hzero.mono (subset_append_right _ _)),
    hslots (by omega)⟩

/-- What the way down from a table does: the tree has one leaf more. -/
structure Descends (L : Layout) (v v' : Volume) (k table i newBlock : Nat) (created : List Nat) : Prop where
  grows : Grows L.blockSize v.disk v'.disk (k + 1) table table i newBlock (created ++ [newBlock])
  extends_ : L.Extends v v' created (tables L.blockSize v.disk (k + 1) table)
  count : created.length = missing (width L.blockSize) k i

variable {newBlock : Nat}

/-- The last step: the pointer of the leaf is stored. -/
theorem WellFormed.descend_last (hd : L.WellFormed v.disk)
    (htable : Table L.blockSize v.disk 0 table i) (hi : i < width L.blockSize)
    (hinUse : L.InUse v.disk table) (hnew : newBlock ≠ 0) (hlt : newBlock < 2 ^ 32) :
    L.Descends v (Ext2.writeBlockPtr v L.blockSize table i newBlock) 0 table i newBlock [] := by
  obtain ⟨hslot, hslots, hext⟩ := hd.writeBlockPtr hinUse.low hinUse.not_metadata hi hlt
  have hone : i / width L.blockSize ^ 0 = i := by rw [Nat.pow_zero, Nat.div_one]
  have hzero : slot L.blockSize v.disk table i = 0 := by
    have := (htable.2 i hi).eq_zero_iff
    rw [this, pow_zero]
    unfold part
    omega
  refine ⟨Grows.node L.width_pos htable (by simpa using hi) (fun j hj hne => ?_) ?_ ?_, ?_, rfl⟩
  · rw [hone] at hne
    exact hslots j hj hne
  · exact nofun
  · rw [hone, hslot, hzero, Nat.pow_zero, Nat.mod_one, nil_append]
    exact grows_leaf _ _ hnew
  · refine hext.mono ?_
    rw [tables_succ htable.1]
    exact cons_subset_cons table (nil_subset _)

/-- A table grows with one of its trees. -/
theorem Descends.node {next : Nat} (htable : Table L.blockSize v.disk (k + 1) table i)
    (hi : i < width L.blockSize ^ (k + 2)) (hnodup : (reach L.blockSize v.disk (k + 2) table).Nodup)
    (hinUse : ∀ b ∈ reach L.blockSize v.disk (k + 2) table, L.InUse v.disk b)
    (child : Grows L.blockSize v.disk v'.disk (k + 1)
      (slot L.blockSize v.disk table (i / width L.blockSize ^ (k + 1))) next
      (i % width L.blockSize ^ (k + 1)) newBlock (created ++ [newBlock]))
    (hnext : slot L.blockSize v'.disk table (i / width L.blockSize ^ (k + 1)) = next)
    (hslots : ∀ j < width L.blockSize, j ≠ i / width L.blockSize ^ (k + 1) →
      slot L.blockSize v'.disk table j = slot L.blockSize v.disk table j)
    (hext : L.Extends v v' created (table :: tables L.blockSize v.disk (k + 1)
      (slot L.blockSize v.disk table (i / width L.blockSize ^ (k + 1)))))
    (hcount : created.length = missing (width L.blockSize) (k + 1) i) :
    L.Descends v v' (k + 1) table i newBlock created := by
  have hj := div_lt_width hi
  obtain ⟨hroot, hapart⟩ := reach_disjoint htable.1 hnodup
  subst hnext
  refine ⟨Grows.node L.width_pos htable hi hslots (fun j hjw hne b hb => ?_) child, hext.mono ?_, hcount⟩
  · -- a table of another tree is in use and not written
    have hreach := tables_subset_reach _ _ _ hb
    have hmem := (reach_slot_sublist htable.1 hjw).subset hreach
    refine hext.agree (hinUse b hmem).toTaken fun hin => ?_
    rcases mem_cons.mp hin with rfl | hin
    · exact hroot j hjw hreach
    · exact hapart j hjw _ hj hne b hreach (tables_subset_reach _ _ _ hin)
  · intro b hb
    rcases mem_cons.mp hb with rfl | hb
    · exact mem_tables_root htable.1
    · exact mem_tables_of_slot htable.1 hj hb

/-- A missing table: it is allocated, filled with zeros and stored in the table above. -/
theorem WellFormed.newChild (hd : L.WellFormed v.disk) (hlow : L.LowFree v.disk 1)
    (hsize : L.blockSize = 4096) (hfree : 0 < (L.freeSet v.disk).card)
    (htable : L.InUse v.disk table) (hj : j < width L.blockSize)
    (hmissing : slot L.blockSize v.disk table j = 0) :
    ∃ r v', nextTable v L.blockSize table j = (r, v') ∧ r ≠ 0 ∧ table ≠ r ∧ L.Extends v v' [r] [table] ∧
      slot L.blockSize v'.disk table j = r ∧
      (∀ j' < width L.blockSize, j' ≠ j →
        slot L.blockSize v'.disk table j' = slot L.blockSize v.disk table j') ∧
      ∀ j' < width L.blockSize, slot L.blockSize v'.disk r j' = 0 := by
  obtain ⟨r, v1, hr, hrFree, halloc, hv1, hext1, hslots1⟩ := hd.newTable hlow hsize hfree
  have hne : table ≠ r := fun h => htable.not_free (h ▸ hrFree)
  obtain ⟨hslot, hother, hext⟩ := hext1.wellFormed.writeBlockPtr htable.low htable.not_metadata hj
    ((mem_freeSet.mp hrFree).1.trans L.total_lt)
  refine ⟨r, _, ?_, hr, hne, ?_, hslot, fun j' hj' hne' => ?_, fun j' hj' => ?_⟩
  · unfold nextTable
    rw [htable.low.readBlockPtr v hj, if_neg (fun h => h hmissing)]
    dsimp only
    rw [halloc, if_neg hr, hv1]
  · exact (hext1.mono (nil_subset _)).trans (hext.mono (subset_append_left _ _))
  · rw [hother j' hj' hne', slot_congr (hext1.agree htable.toTaken not_mem_nil) hj']
  · rw [slot_congr (hext.agree (hext1.inUse_created hd mem_cons_self).toTaken (by simpa using hne.symm)) hj']
    exact hslots1 j' hj'

/-- The way down from a table succeeds if there are enough free blocks. -/
theorem WellFormed.descend (hnew : newBlock ≠ 0) (hlt : newBlock < 2 ^ 32) (k : Nat) :
    ∀ (v : Volume) (table i : Nat), L.WellFormed v.disk →
      Table L.blockSize v.disk k table i → i < width L.blockSize ^ (k + 1) →
      (reach L.blockSize v.disk (k + 1) table).Nodup →
      (∀ b ∈ reach L.blockSize v.disk (k + 1) table, L.InUse v.disk b) →
      missing (width L.blockSize) k i ≤ (L.freeSet v.disk).card →
      L.LowFree v.disk (missing (width L.blockSize) k i) →
      (L.blockSize = 4096 ∨ missing (width L.blockSize) k i = 0) →
      ∃ v' created, descend L.blockSize k v table i newBlock = (true, v') ∧
        L.Descends v v' k table i newBlock created := by
  induction k with
  | zero =>
    intro v table i hd htable hi _ hinUse _ _ _
    exact ⟨_, [], rfl, hd.descend_last htable (by simpa using hi)
      (hinUse table (mem_reach_root htable.1)) hnew hlt⟩
  | succ k ih =>
    intro v table i hd htable hi hnodup hinUse hfree hlow hzeros
    have hw := width_pow_pos L.width_pos (k + 1)
    have hj := div_lt_width hi
    have htableUse : L.InUse v.disk table := hinUse table (mem_reach_root htable.1)
    obtain ⟨hroot, -⟩ := reach_disjoint htable.1 hnodup
    have hchild := htable.2 _ hj
    rw [part_div hw] at hchild
    rw [missing] at hfree hlow hzeros
    by_cases hzero : i % width L.blockSize ^ (k + 1) = 0
    · -- the next table is missing
      have hslotZero := hchild.eq_zero_iff.mpr hzero
      rw [if_pos hzero] at hfree hlow hzeros
      have h4096 : L.blockSize = 4096 := hzeros.resolve_right (by omega)
      obtain ⟨r, v1, hnext, hr, hne, hext1, hslot, hother, hslots⟩ :=
        hd.newChild (hlow.mono (by omega)) h4096 (by omega) htableUse hj hslotZero
      have hreach := reach_of_zeros (k := k) hr hslots
      have hcard := hext1.card
      rw [List.length_singleton] at hcard
      obtain ⟨v', created, hdescend, hdown⟩ := ih v1 r 0 hext1.wellFormed (table_of_zeros hr hslots)
        (Nat.pow_pos L.width_pos) (by rw [hreach]; exact List.nodup_singleton r)
        (fun b hb => by
          rw [hreach, List.mem_singleton] at hb
          exact hb ▸ hext1.inUse_created hd List.mem_cons_self)
        (by rw [hzero] at hfree; omega) (hext1.lowFree (hzero ▸ hlow)) (.inl h4096)
      have htables : tables L.blockSize v1.disk (k + 1) r ⊆ [r] := hreach ▸ tables_subset_reach _ _ _
      have hsame := hdown.extends_.agree (hext1.inUse htableUse).toTaken
        fun hmem => hne (List.mem_singleton.mp (htables hmem))
      refine ⟨v', r :: created, ?_, Descends.node htable hi hnodup hinUse ?_
        ((slot_congr hsame hj).trans hslot) (fun j hjw hnej => ?_) ?_ ?_⟩
      · unfold Layout.descend
        rw [hnext]
        dsimp only
        rw [if_neg hr, hzero]
        exact hdescend
      · rw [hslotZero, hzero]
        exact hdown.grows.of_zeros hr hslots v.disk
      · rw [slot_congr hsame hjw, hother j hjw hnej]
      · rw [hslotZero, tables_of_zero]
        exact hext1.trans (hdown.extends_.mono (List.Subset.trans htables (List.subset_append_right _ _)))
      · rw [missing, if_pos hzero, List.length_cons, hdown.count, hzero]
        omega
    · -- the next table exists
      have hslotNe : slot L.blockSize v.disk table (i / width L.blockSize ^ (k + 1)) ≠ 0 :=
        fun h => hzero (hchild.eq_zero_iff.mp h)
      rw [if_neg hzero, zero_add] at hfree hlow hzeros
      have hsub := reach_slot_sublist (m := v.disk) (k := k + 1) htable.1 hj
      obtain ⟨v', created, hdescend, hdown⟩ := ih v _ _ hd (hchild.table hzero) (Nat.mod_lt _ hw)
        (hnodup.sublist hsub) (fun b hb => hinUse b (hsub.subset hb)) hfree hlow hzeros
      have hsame := hdown.extends_.agree htableUse.toTaken
        fun hmem => hroot _ hj (tables_subset_reach _ _ _ hmem)
      refine ⟨v', created, ?_, Descends.node htable hi hnodup hinUse hdown.grows (slot_congr hsame hj)
        (fun j hjw _ => slot_congr hsame hjw) (hdown.extends_.mono (List.subset_cons_self _ _)) ?_⟩
      · unfold Layout.descend nextTable
        rw [htableUse.low.readBlockPtr v hj, if_pos hslotNe]
        dsimp only
        rw [if_neg hslotNe]
        exact hdescend
      · rw [missing, if_neg hzero, zero_add, hdown.count]

/-! ## One more leaf of a tree -/

/-- The number of tables that are missing for a leaf of a tree. -/
def rootMissing (w : Nat) : Nat → Nat → Nat
  | 0, _ => 0
  | k + 1, i => (if i = 0 then 1 else 0) + missing w k i

/-- `ensure_indirect` and the way down. -/
theorem WellFormed.growRoot (hd : L.WellFormed v.disk) (hnew : newBlock ≠ 0)
    (hlt : newBlock < 2 ^ 32) (hdense : Dense L.blockSize v.disk (k + 1) p i)
    (hi : i < width L.blockSize ^ (k + 1)) (hnodup : (reach L.blockSize v.disk (k + 1) p).Nodup)
    (hinUse : ∀ b ∈ reach L.blockSize v.disk (k + 1) p, L.InUse v.disk b)
    (hfree : rootMissing (width L.blockSize) (k + 1) i ≤ (L.freeSet v.disk).card)
    (hlow : L.LowFree v.disk (rootMissing (width L.blockSize) (k + 1) i))
    (hzeros : L.blockSize = 4096 ∨ rootMissing (width L.blockSize) (k + 1) i = 0) :
    ∃ r v1 v' created, ensureIndirect v L.blockSize p = (r, v1) ∧ r ≠ 0 ∧ r < 2 ^ 32 ∧
      Layout.descend L.blockSize k v1 r i newBlock = (true, v') ∧
      Grows L.blockSize v.disk v'.disk (k + 1) p r i newBlock (created ++ [newBlock]) ∧
      L.Extends v v' created (tables L.blockSize v.disk (k + 1) p) ∧
      created.length = rootMissing (width L.blockSize) (k + 1) i := by
  rw [rootMissing] at hfree hlow hzeros ⊢
  by_cases hzero : i = 0
  · subst hzero
    obtain rfl : p = 0 := hdense.eq_zero_iff.mpr rfl
    rw [if_pos rfl] at hfree hlow hzeros ⊢
    have h4096 : L.blockSize = 4096 := hzeros.resolve_right (by omega)
    obtain ⟨r, v1, hr, hrFree, halloc, hv1, hext1, hslots⟩ := hd.newTable (hlow.mono (by omega)) h4096 (by omega)
    have hreach := reach_of_zeros (k := k) hr hslots
    have hcard := hext1.card
    rw [List.length_singleton] at hcard
    obtain ⟨v', created, hdescend, hdown⟩ := WellFormed.descend hnew hlt k v1 r 0 hext1.wellFormed
      (table_of_zeros hr hslots) hi (by rw [hreach]; exact List.nodup_singleton r)
      (fun b hb => by
        rw [hreach, List.mem_singleton] at hb
        exact hb ▸ hext1.inUse_created hd List.mem_cons_self) (by omega) (hext1.lowFree hlow) (.inl h4096)
    have htables : tables L.blockSize v1.disk (k + 1) r ⊆ [r] := hreach ▸ tables_subset_reach _ _ _
    refine ⟨r, v1, v', r :: created, ?_, hr, (mem_freeSet.mp hrFree).1.trans L.total_lt, hdescend,
      hdown.grows.of_zeros hr hslots v.disk, ?_, ?_⟩
    · unfold ensureIndirect
      rw [if_neg (fun h => h rfl)]
      dsimp only
      rw [halloc, if_neg hr, hv1]
    · exact hext1.trans (hdown.extends_.mono (List.Subset.trans htables (List.subset_append_right _ _)))
    · rw [List.length_cons, hdown.count]
      omega
  · have hp : p ≠ 0 := fun hp => hzero (hdense.eq_zero_iff.mp hp)
    rw [if_neg hzero, zero_add] at hfree hlow hzeros ⊢
    obtain ⟨v', created, hdescend, hdown⟩ := WellFormed.descend hnew hlt k v p i hd
      (hdense.table hzero) hi hnodup hinUse hfree hlow hzeros
    have hroot : L.InUse v.disk p := hinUse p (mem_reach_root hp)
    refine ⟨p, v, v', created, ?_, hp, hroot.lt.trans L.total_lt, hdescend, hdown.grows, hdown.extends_,
      hdown.count⟩
    exact if_pos hp

end Layout

/-! ## The pointers of an inode -/

section

variable {inode : Mem} {j block : Nat}

theorem blockPtr_setBlockPtr (hblock : block < 2 ^ 32) (j' : Nat) :
    blockPtr (setBlockPtr inode j block) j' = if j' = j then block else blockPtr inode j' := by
  split
  · next h =>
    subst h
    exact readLE_writeLE _ _ hblock
  · exact readLE_writeLE_of_disjoint (by omega)

/-- The trees before a pointer. -/
def rootsBefore (inode : Mem) (j : Nat) : List (Nat × Nat) :=
  (List.range j).map fun j => (j - 11, blockPtr inode j)

/-- The trees behind a pointer. -/
def rootsBehind (inode : Mem) (j : Nat) : List (Nat × Nat) :=
  (List.range (14 - j)).map fun i => (j + 1 + i - 11, blockPtr inode (j + 1 + i))

theorem roots_split (inode : Mem) (hj : j < 15) :
    roots inode = rootsBefore inode j ++ (j - 11, blockPtr inode j) :: rootsBehind inode j := by
  have hrange : List.range 15 = List.range j ++ j :: (List.range (14 - j)).map (j + 1 + ·) := by
    rw [show 15 = j + 1 + (14 - j) by omega, List.range_add, List.range_succ, List.append_assoc]
    rfl
  unfold roots rootsBefore rootsBehind
  rw [hrange, List.map_append, List.map_cons, List.map_map]
  rfl

theorem roots_setBlockPtr (inode : Mem) (hj : j < 15) (hblock : block < 2 ^ 32) :
    roots (setBlockPtr inode j block) = rootsBefore inode j ++ (j - 11, block) :: rootsBehind inode j := by
  have hbefore : rootsBefore (setBlockPtr inode j block) j = rootsBefore inode j :=
    map_congr_left fun i hi => by
      have := List.mem_range.mp hi
      rw [blockPtr_setBlockPtr hblock, if_neg (by omega)]
  have hbehind : rootsBehind (setBlockPtr inode j block) j = rootsBehind inode j :=
    map_congr_left fun i _ => by rw [blockPtr_setBlockPtr hblock, if_neg (by omega)]
  rw [roots_split _ hj, hbefore, hbehind, blockPtr_setBlockPtr hblock, if_pos rfl]

/-- The number of leaves before a pointer. -/
theorem capacity_rootsBefore (blockSize : Nat) (inode : Mem) (j : Nat) :
    capacity blockSize (rootsBefore inode j) = ((List.range j).map fun j => width blockSize ^ (j - 11)).sum := by
  unfold capacity rootsBefore
  rw [List.map_map]
  rfl

theorem capacity_direct (blockSize : Nat) (inode : Mem) (hj : j ≤ 12) :
    capacity blockSize (rootsBefore inode j) = j := by
  rw [capacity_rootsBefore]
  have hones : (List.range j).map (fun j => width blockSize ^ (j - 11)) = List.replicate j 1 := by
    rw [eq_replicate_iff]
    refine ⟨by simp, fun x hx => ?_⟩
    obtain ⟨i, hi, rfl⟩ := mem_map.mp hx
    have := List.mem_range.mp hi
    rw [show i - 11 = 0 by omega, Nat.pow_zero]
  rw [hones, sum_replicate_nat, Nat.mul_one]

theorem capacity_thirteen (blockSize : Nat) (inode : Mem) :
    capacity blockSize (rootsBefore inode 13) = 12 + width blockSize := by
  have := capacity_direct blockSize inode le_rfl
  rw [capacity_rootsBefore] at this ⊢
  rw [range_succ, map_append, sum_append, this]
  simp

theorem capacity_fourteen (blockSize : Nat) (inode : Mem) :
    capacity blockSize (rootsBefore inode 14) = 12 + width blockSize + width blockSize ^ 2 := by
  have := capacity_thirteen blockSize inode
  rw [capacity_rootsBefore] at this ⊢
  rw [range_succ, map_append, sum_append, this]
  simp

end

/-! ## Reading the block map -/

/-- The trees of an inode: the first `n` leaves are in use, and all blocks are different and in use. -/
structure FileMap (L : Layout) (d inode : Mem) (n : Nat) : Prop where
  dense : ForestDense L.blockSize d (roots inode) n
  nodup : (forestReach L.blockSize d (roots inode)).Nodup
  inUse : ∀ b ∈ forestReach L.blockSize d (roots inode), L.InUse d b

/-- The block of a leaf. -/
def fileBlock (blockSize : Nat) (d inode : Mem) (i : Nat) : Nat := forestLeaf blockSize d (roots inode) i

/-- `read_block_ptr` down to a leaf. -/
def readTree (v : Volume) (blockSize : Nat) : (k p i : Nat) → Nat
  | 0, p, _ => p
  | k + 1, p, i =>
    readTree v blockSize k (readBlockPtr v blockSize p (i / width blockSize ^ k)) (i % width blockSize ^ k)

section

variable {L : Layout} {v : Volume} {inode m : Mem} {n newBlock : Nat}

theorem readTree_eq (hdense : Dense L.blockSize v.disk k p n) (hn : n ≤ width L.blockSize ^ k)
    (hinUse : ∀ b ∈ reach L.blockSize v.disk k p, L.InUse v.disk b) (hi : i < n) :
    readTree v L.blockSize k p i = leaf L.blockSize v.disk k p i := by
  induction k generalizing p n i with
  | zero => rfl
  | succ k ih =>
    have hp : p ≠ 0 := fun hp => by
      have := hdense.eq_zero_iff.mp hp
      omega
    have hj := div_lt_width (lt_of_lt_of_le hi hn)
    have hroot : L.InUse v.disk p := hinUse p (mem_reach_root hp)
    rw [readTree, leaf, hroot.low.readBlockPtr v hj]
    exact ih (hdense.2 hp _ hj) (part_le _ _ _)
      (fun b hb => hinUse b ((reach_slot_sublist hp hj).subset hb))
      (mod_lt_part (width_pow_pos L.width_pos k) hi)

theorem mem_forestReach_root (hj : j < 15)
    (hb : b ∈ reach L.blockSize m (j - 11) (blockPtr inode j)) :
    b ∈ forestReach L.blockSize m (roots inode) :=
  List.mem_flatMap.mpr ⟨(j - 11, blockPtr inode j), List.mem_map.mpr ⟨j, List.mem_range.mpr hj, rfl⟩, hb⟩

theorem FileMap.dense_root (h : FileMap L m inode n) (hj : j < 15) :
    Dense L.blockSize m (j - 11) (blockPtr inode j) (min (width L.blockSize ^ (j - 11))
      (n - capacity L.blockSize (rootsBefore inode j))) := by
  have hdense := h.dense
  rw [roots_split inode hj] at hdense
  exact hdense.behind

/-- A leaf of one of the trees. -/
theorem FileMap.readRoot (h : FileMap L v.disk inode n) (hj : j < 15)
    (hi : i < width L.blockSize ^ (j - 11))
    (hn : capacity L.blockSize (rootsBefore inode j) + i < n) :
    readTree v L.blockSize (j - 11) (blockPtr inode j) i =
      fileBlock L.blockSize v.disk inode (capacity L.blockSize (rootsBefore inode j) + i) := by
  rw [readTree_eq (h.dense_root hj) (min_le_left _ _)
    (fun b hb => h.inUse b (mem_forestReach_root hj hb)) (by omega), fileBlock, roots_split inode hj,
    forestLeaf_behind _ hi]

/-- The blocks of a map and the numbers of its trees: which tree a leaf is in. -/
theorem leaf_cases (L : Layout) (hi : i * L.blockSize < 2 ^ 32) :
    i < 12 ∨ 12 ≤ i ∧ i - 12 < width L.blockSize ∨
    12 + width L.blockSize ≤ i ∧ i - 12 - width L.blockSize < width L.blockSize ^ 2 ∨
    12 + width L.blockSize + width L.blockSize ^ 2 ≤ i ∧
      i - 12 - width L.blockSize - width L.blockSize ^ 2 < width L.blockSize ^ 3 := by
  unfold width
  rcases L.blockSize_eq with h | h | h <;> rw [h] at hi ⊢ <;> norm_num <;> omega

/-- `ext2_block_id_to_addr` gives the address of the block of a leaf. -/
theorem FileMap.blockIdToAddr (h : FileMap L v.disk inode n) (hi : i < n)
    (hsize : i * L.blockSize < sizeLo inode) :
    blockIdToAddr v inode i L.blockSize = fileBlock L.blockSize v.disk inode i * L.blockSize := by
  have hsizeLt : sizeLo inode < 2 ^ 32 := readLE_lt _ _ _
  -- the block is in use, so its address has 32 bits
  have haddr : fileBlock L.blockSize v.disk inode i * L.blockSize % 2 ^ 32 =
      fileBlock L.blockSize v.disk inode i * L.blockSize := by
    have hmem : fileBlock L.blockSize v.disk inode i ∈ forestReach L.blockSize v.disk (roots inode) :=
      (forestReach_perm L.width_pos h.dense).mem_iff.mpr
        (List.mem_append_right _ (List.mem_map.mpr ⟨i, List.mem_range.mpr hi, rfl⟩))
    have := (h.inUse _ hmem).low.fits
    have := L.blockSize_pos
    exact Nat.mod_eq_of_lt (by omega)
  have hwidth : L.blockSize / 4 = width L.blockSize := rfl
  unfold Ext2.blockIdToAddr
  rw [if_neg (by omega)]
  rcases leaf_cases L (hsize.trans hsizeLt) with hlt | ⟨hge, hlt⟩ | ⟨hge, hlt⟩ | ⟨hge, hlt⟩
  · have hread := h.readRoot (by omega : i < 15) (i := 0) (by rw [show i - 11 = 0 by omega]; simp)
      (by rw [capacity_direct _ _ (by omega)]; omega)
    rw [show i - 11 = 0 by omega, readTree, capacity_direct _ _ (by omega), Nat.add_zero] at hread
    rw [if_pos hlt, hread, haddr]
  · have hread := h.readRoot (by omega : 12 < 15) (i := i - 12) (by simpa using hlt)
      (by rw [capacity_direct _ _ (by omega)]; omega)
    rw [capacity_direct _ _ (by omega), show 12 + (i - 12) = i by omega] at hread
    simp only [readTree, Nat.reduceSub, Nat.pow_zero, Nat.div_one] at hread
    rw [if_neg (by omega)]
    dsimp only
    rw [hwidth, if_pos hlt, hread, haddr]
  · have hread := h.readRoot (by omega : 13 < 15) (i := i - 12 - width L.blockSize) hlt
      (by rw [capacity_thirteen]; omega)
    rw [capacity_thirteen, show 12 + width L.blockSize + (i - 12 - width L.blockSize) = i by omega] at hread
    simp only [readTree, Nat.reduceSub, Nat.pow_zero, Nat.pow_one, Nat.div_one] at hread
    rw [if_neg (by omega)]
    dsimp only
    rw [hwidth, if_neg (by omega), if_pos (by rwa [← Nat.pow_two]), hread, haddr]
  · have hread := h.readRoot (by omega : 14 < 15)
      (i := i - 12 - width L.blockSize - width L.blockSize ^ 2) hlt (by rw [capacity_fourteen]; omega)
    rw [capacity_fourteen, show 12 + width L.blockSize + width L.blockSize ^ 2 +
      (i - 12 - width L.blockSize - width L.blockSize ^ 2) = i by omega] at hread
    simp only [readTree, Nat.reduceSub, Nat.pow_zero, Nat.pow_one, Nat.div_one] at hread
    rw [Nat.pow_two, Nat.mod_mul_right_div_self, Nat.mod_mul_left_mod] at hread
    rw [if_neg (by omega)]
    dsimp only
    rw [hwidth, if_neg (by omega), if_neg (by rw [← Nat.pow_two]; omega), hread, haddr]

/-- Behind the end there is no address. -/
theorem blockIdToAddr_of_size_le {blockSize : Nat} (hsize : sizeLo inode ≤ i * blockSize) :
    blockIdToAddr v inode i blockSize = 0 := by
  exact if_pos hsize

/-! ## One more block of a file -/

/-- The number of tables that are missing for a leaf. -/
def tablesNeeded (w n : Nat) : Nat :=
  if n < 12 then 0
  else if n - 12 < w then rootMissing w 1 (n - 12)
  else if n - 12 - w < w ^ 2 then rootMissing w 2 (n - 12 - w)
  else rootMissing w 3 (n - 12 - w - w ^ 2)

/-- The block map of an inode has one leaf more: the blocks in `created` are new tables. -/
structure MapGrows (L : Layout) (v v' : Volume) (inode inode' : Mem) (n newBlock : Nat) (created : List Nat) :
    Prop where
  grows : ForestGrows L.blockSize v.disk v'.disk (roots inode) (roots inode') n newBlock (created ++ [newBlock])
  extends_ : L.Extends v v' created (forestTables L.blockSize v.disk (roots inode))
  count : created.length = tablesNeeded (width L.blockSize) n
  fields : ∀ a, a < 40 ∨ 100 ≤ a → inode' a = inode a

theorem setBlockPtr_of_outside (hj : j < 15) (ha : a < 40 ∨ 100 ≤ a) :
    setBlockPtr inode j block a = inode a := writeLE_of_outside (by omega)

/-- The trees of an inode other than one have no block of it. -/
theorem FileMap.disjoint_root (h : FileMap L v.disk inode n) (hj : j < 15)
    (hb : b ∈ reach L.blockSize v.disk (j - 11) (blockPtr inode j)) :
    b ∉ forestReach L.blockSize v.disk (rootsBefore inode j) ∧
      b ∉ forestReach L.blockSize v.disk (rootsBehind inode j) := by
  have hnodup := h.nodup
  rw [forestReach, roots_split inode hj, flatMap_append, flatMap_cons, nodup_append] at hnodup
  obtain ⟨-, hrest, hbefore⟩ := hnodup
  rw [nodup_append] at hrest
  exact ⟨fun hmem => hbefore b hmem b (mem_append_left _ hb) rfl, fun hmem => hrest.2.2 b hb b hmem rfl⟩

theorem forestTables_subset_reach (m : Mem) (rs : List (Nat × Nat)) :
    forestTables L.blockSize m rs ⊆ forestReach L.blockSize m rs := by
  intro b hb
  obtain ⟨r, hr, hb⟩ := mem_flatMap.mp hb
  exact mem_flatMap.mpr ⟨r, hr, tables_subset_reach _ _ _ hb⟩

/-- The forest grows with one of its trees. -/
theorem FileMap.growAt (h : FileMap L v.disk inode n) {fresh : List Nat} (hj : j < 15)
    (hi : i < width L.blockSize ^ (j - 11))
    (hn : n = capacity L.blockSize (rootsBefore inode j) + i) (hr : r < 2 ^ 32)
    (hgrows : Grows L.blockSize v.disk v'.disk (j - 11) (blockPtr inode j) r i newBlock fresh)
    (hext : L.Extends v v' created (tables L.blockSize v.disk (j - 11) (blockPtr inode j))) :
    ForestGrows L.blockSize v.disk v'.disk (roots inode) (roots (setBlockPtr inode j r)) n newBlock fresh ∧
      L.Extends v v' created (forestTables L.blockSize v.disk (roots inode)) := by
  have hagree : ∀ rs, forestReach L.blockSize v.disk rs ⊆ forestReach L.blockSize v.disk (roots inode) →
      (∀ b ∈ reach L.blockSize v.disk (j - 11) (blockPtr inode j), b ∉ forestReach L.blockSize v.disk rs) →
      ∀ b ∈ forestTables L.blockSize v.disk rs, Agree L.blockSize v.disk v'.disk b := by
    intro rs hsub hdisjoint b hb
    have hreach := forestTables_subset_reach _ _ hb
    exact hext.agree (h.inUse b (hsub hreach)).toTaken
      fun hmem => hdisjoint b (tables_subset_reach _ _ _ hmem) hreach
  have hsplit : forestReach L.blockSize v.disk (roots inode) =
      forestReach L.blockSize v.disk (rootsBefore inode j) ++
        (reach L.blockSize v.disk (j - 11) (blockPtr inode j) ++
          forestReach L.blockSize v.disk (rootsBehind inode j)) := by
    rw [forestReach, roots_split inode hj, flatMap_append, flatMap_cons]
    rfl
  refine ⟨?_, hext.mono fun b hb => ?_⟩
  · rw [roots_setBlockPtr inode hj hr, roots_split inode hj]
    refine ForestGrows.behind L.width_pos hgrows hi _ hn (roots_split inode hj ▸ h.dense) ?_ ?_
    · exact hagree _ (hsplit ▸ subset_append_left _ _) fun b hb => (h.disjoint_root hj hb).1
    · exact hagree _ (hsplit ▸ fun b hb => mem_append_right _ (mem_append_right _ hb))
        fun b hb => (h.disjoint_root hj hb).2
  · exact List.mem_flatMap.mpr ⟨(j - 11, blockPtr inode j), List.mem_map.mpr ⟨j, List.mem_range.mpr hj, rfl⟩, hb⟩

/-- A tree of depth at least one grows at its next leaf. -/
theorem FileMap.growTree (h : FileMap L v.disk inode n) (hd : L.WellFormed v.disk)
    (hnew : newBlock ≠ 0) (hlt : newBlock < 2 ^ 32) (hj : j < 15) (hk : j - 11 = k + 1)
    (hi : i < width L.blockSize ^ (k + 1)) (hn : n = capacity L.blockSize (rootsBefore inode j) + i)
    (hfree : Layout.rootMissing (width L.blockSize) (k + 1) i ≤ (L.freeSet v.disk).card)
    (hlow : L.LowFree v.disk (Layout.rootMissing (width L.blockSize) (k + 1) i))
    (hzeros : L.blockSize = 4096 ∨ Layout.rootMissing (width L.blockSize) (k + 1) i = 0) :
    ∃ r v1 v' created, ensureIndirect v L.blockSize (blockPtr inode j) = (r, v1) ∧ r ≠ 0 ∧
      Layout.descend L.blockSize k v1 r i newBlock = (true, v') ∧
      ForestGrows L.blockSize v.disk v'.disk (roots inode) (roots (setBlockPtr inode j r)) n newBlock
        (created ++ [newBlock]) ∧
      L.Extends v v' created (forestTables L.blockSize v.disk (roots inode)) ∧
      created.length = Layout.rootMissing (width L.blockSize) (k + 1) i := by
  have hdense := h.dense_root hj
  rw [hk, hn, Nat.add_sub_cancel_left, Nat.min_eq_right hi.le] at hdense
  have hsub : ∀ b ∈ reach L.blockSize v.disk (k + 1) (blockPtr inode j),
      b ∈ forestReach L.blockSize v.disk (roots inode) := fun b hb =>
    mem_forestReach_root hj (hk ▸ hb)
  have hnodup : (reach L.blockSize v.disk (k + 1) (blockPtr inode j)).Nodup := by
    have := h.nodup
    rw [forestReach, roots_split inode hj, flatMap_append, flatMap_cons] at this
    exact hk ▸ (nodup_append.mp (nodup_append.mp this).2.1).1
  obtain ⟨r, v1, v', created, hensure, hr, hrLt, hdescend, hgrows, hext, hcount⟩ :=
    hd.growRoot hnew hlt hdense hi hnodup (fun b hb => h.inUse b (hsub b hb)) hfree hlow hzeros
  rw [← hk] at hgrows hext hi
  obtain ⟨hforest, hextends⟩ := h.growAt hj hi hn hrLt hgrows hext
  exact ⟨r, v1, v', created, hensure, hr, hdescend, hforest, hextends, hcount⟩

/-- `ext2_set_block_id` of the block behind the last one succeeds if there are enough free blocks for the
tables. -/
theorem FileMap.setBlockId (h : FileMap L v.disk inode n) (hd : L.WellFormed v.disk)
    (hnew : newBlock ≠ 0) (hlt : newBlock < 2 ^ 32) (hn : n * L.blockSize < 2 ^ 32)
    (hfree : tablesNeeded (width L.blockSize) n ≤ (L.freeSet v.disk).card)
    (hlow : L.LowFree v.disk (tablesNeeded (width L.blockSize) n))
    (hzeros : L.blockSize = 4096 ∨ tablesNeeded (width L.blockSize) n = 0) :
    ∃ inode' v' created, setBlockId v inode n L.blockSize newBlock = (true, inode', v') ∧
      MapGrows L v v' inode inode' n newBlock created := by
  have hwidth : L.blockSize / 4 = width L.blockSize := rfl
  unfold Ext2.setBlockId
  rcases leaf_cases L hn with hcase | ⟨hge, hcase⟩ | ⟨hge, hcase⟩ | ⟨hge, hcase⟩
  · have hneeded : tablesNeeded (width L.blockSize) n = 0 := if_pos hcase
    have hk : n - 11 = 0 := by omega
    have hcap := capacity_direct L.blockSize inode (by omega : n ≤ 12)
    have hdense := h.dense_root (by omega : n < 15)
    rw [hcap, Nat.sub_self, Nat.min_zero] at hdense
    have hgrows : Grows L.blockSize v.disk v.disk (n - 11) (blockPtr inode n) newBlock 0 newBlock [newBlock] := by
      rw [hdense.eq_zero_iff.mpr rfl, hk]
      exact grows_leaf _ _ hnew
    have hext : L.Extends v v [] (tables L.blockSize v.disk (n - 11) (blockPtr inode n)) :=
      .refl hd _
    obtain ⟨hforest, hextends⟩ := h.growAt (by omega) (by rw [hk]; simp) (by omega) hlt hgrows hext
    rw [if_pos hcase]
    exact ⟨_, _, [], rfl, hforest, hextends, hneeded.symm, fun a ha => setBlockPtr_of_outside (by omega) ha⟩
  · have hneeded : tablesNeeded (width L.blockSize) n = rootMissing (width L.blockSize) 1 (n - 12) := by
      rw [tablesNeeded, if_neg (by omega), if_pos hcase]
    rw [hneeded] at hfree hlow hzeros
    obtain ⟨r, v1, v', created, hensure, hr, hdescend, hforest, hextends, hcount⟩ :=
      h.growTree hd hnew hlt (by omega : 12 < 15) rfl (by simpa using hcase)
        (by rw [capacity_direct _ _ (by omega)]; omega) hfree hlow hzeros
    rw [if_neg (by omega)]
    rw [hwidth, if_pos hcase, hensure]
    dsimp only
    rw [if_neg hr]
    refine ⟨_, _, created, rfl, ?_, ?_, hcount.trans hneeded.symm, fun a ha => setBlockPtr_of_outside (by omega) ha⟩
    all_goals
      simp only [descend, Prod.mk.injEq, true_and] at hdescend
      rw [hdescend]
      assumption
  · have hneeded : tablesNeeded (width L.blockSize) n =
        rootMissing (width L.blockSize) 2 (n - 12 - width L.blockSize) := by
      rw [tablesNeeded, if_neg (by omega), if_neg (by omega), if_pos hcase]
    rw [hneeded] at hfree hlow hzeros
    obtain ⟨r, v1, v', created, hensure, hr, hdescend, hforest, hextends, hcount⟩ :=
      h.growTree hd hnew hlt (by omega : 13 < 15) rfl hcase
        (by rw [capacity_thirteen]; omega) hfree hlow hzeros
    rw [if_neg (by omega)]
    rw [hwidth, if_neg (by omega), if_pos (by rwa [← pow_two]), hensure]
    dsimp only
    rw [if_neg hr]
    refine ⟨setBlockPtr inode 13 r, v', created, ?_, hforest, hextends, hcount.trans hneeded.symm,
      fun a ha => setBlockPtr_of_outside (by omega) ha⟩
    simp only [descend, Nat.reduceAdd, pow_one] at hdescend
    split at hdescend
    · simp at hdescend
    · next hne =>
      rw [if_neg hne]
      simp only [Prod.mk.injEq, true_and] at hdescend ⊢
      exact hdescend
  · have hneeded : tablesNeeded (width L.blockSize) n =
        rootMissing (width L.blockSize) 3 (n - 12 - width L.blockSize - width L.blockSize ^ 2) := by
      rw [tablesNeeded, if_neg (by omega), if_neg (by omega), if_neg (by omega)]
    rw [hneeded] at hfree hlow hzeros
    obtain ⟨r, v1, v', created, hensure, hr, hdescend, hforest, hextends, hcount⟩ :=
      h.growTree hd hnew hlt (by omega : 14 < 15) rfl hcase
        (by rw [capacity_fourteen]; omega) hfree hlow hzeros
    rw [if_neg (by omega)]
    rw [hwidth, if_neg (by omega), if_neg (by rw [← pow_two]; omega), hensure]
    dsimp only
    rw [if_neg hr]
    refine ⟨setBlockPtr inode 14 r, v', created, ?_, hforest, hextends, hcount.trans hneeded.symm,
      fun a ha => setBlockPtr_of_outside (by omega) ha⟩
    simp only [descend, Nat.reduceAdd, pow_one] at hdescend
    rw [Nat.pow_two, Nat.mod_mul_right_div_self, Nat.mod_mul_left_mod] at hdescend
    split at hdescend
    · simp at hdescend
    · next hne =>
      rw [if_neg hne]
      split at hdescend
      · simp at hdescend
      · next hne' =>
        rw [if_neg hne']
        simp only [Prod.mk.injEq, true_and] at hdescend ⊢
        exact hdescend

end

end Stos.Kernel.Ext2
