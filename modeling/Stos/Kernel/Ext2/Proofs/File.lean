import Stos.Kernel.Ext2.File
import Stos.Kernel.Ext2.Proofs.FreeMap

/-!
# A file is a growable array of bytes

What one turn of the loop of `ext2_write` does is said for the blocks that exist and for a block that is
appended; the size in the inode stays the old one until the loop ends. The loop keeps the bytes before the
offset and behind what was written.
-/

namespace Stos.Kernel.Ext2

open PointerTree List Finset Layout

variable {L : Layout} {v v' : Volume} {inode inode' : Mem}
  {n a b blockSize length i c o k newBlock w free offset size : Nat} {r : InodeRef}
  {created : List Nat} {s : WriteState}

/-! ## The inode on the device -/

/-- The address of an inode on the device. -/
def inodeAddr (L : Layout) (r : InodeRef) : Nat :=
  L.inodeTable ((r.number - 1) / r.inodesPerGroup) * L.blockSize + (r.number - 1) % r.inodesPerGroup * r.inodeSize

/-- The inode is in the metadata, apart from the data of the allocator. -/
structure InodePlace (L : Layout) (r : InodeRef) : Prop where
  group : (r.number - 1) / r.inodesPerGroup < L.groups
  descriptor : gdtStart L.blockSize + ((r.number - 1) / r.inodesPerGroup + 1) * 32 ≤ 2 ^ 32
  fits : inodeAddr L r + 128 ≤ 2 ^ 32
  not_owned : ∀ a, inodeAddr L r ≤ a → a < inodeAddr L r + 128 → ¬ L.Owned a
  metadata : ∀ a, inodeAddr L r ≤ a → a < inodeAddr L r + 128 → L.metadata (a / L.blockSize)

/-- The blocks that an inode is in. -/
def inodeBlocks (L : Layout) (r : InodeRef) : List Nat :=
  [inodeAddr L r / L.blockSize, (inodeAddr L r + 127) / L.blockSize]

theorem mem_inodeBlocks (hlo : inodeAddr L r ≤ a) (hhi : a < inodeAddr L r + 128) :
    a / L.blockSize ∈ inodeBlocks L r := by
  have hsize := L.blockSize_pos
  have hfirst : inodeAddr L r / L.blockSize ≤ a / L.blockSize := Nat.div_le_div_right hlo
  have hlast : a / L.blockSize ≤ (inodeAddr L r + 127) / L.blockSize := Nat.div_le_div_right (by omega)
  have hnext : (inodeAddr L r + 127) / L.blockSize ≤ inodeAddr L r / L.blockSize + 1 := by
    rw [← Nat.add_div_right _ (by omega : 0 < L.blockSize)]
    exact Nat.div_le_div_right (by omega)
  have : a / L.blockSize = inodeAddr L r / L.blockSize ∨
      a / L.blockSize = (inodeAddr L r + 127) / L.blockSize := by omega
  rcases this with h | h <;> rw [h] <;> simp [inodeBlocks]

theorem InodePlace.metadata_of_mem (place : InodePlace L r) (hb : b ∈ inodeBlocks L r) :
    L.metadata b := by
  rcases mem_cons.mp hb with rfl | hb
  · exact place.metadata _ le_rfl (by omega)
  · rw [List.mem_singleton.mp hb]
    exact place.metadata _ (by omega) (by omega)

/-- `ext2_write_inode` writes to the blocks of the inode only. -/
theorem writeInode_extends (hd : L.WellFormed v.disk) (place : InodePlace L r) (inode : Mem) :
    L.Extends v (writeInode v r L.blockSize inode) [] (inodeBlocks L r) := by
  have hgdt := place.descriptor
  have hfits := place.fits
  have htable : readLE (v.read (gdtStart L.blockSize + (r.number - 1) / r.inodesPerGroup * 32)) 8 4 =
      L.inodeTable ((r.number - 1) / r.inodesPerGroup) :=
    (readLE_read (by omega) _ _).trans (hd.inodeTable _ place.group)
  have hdisk : (writeInode v r L.blockSize inode).disk = writeBytes v.disk (inodeAddr L r) inode 128 := by
    unfold writeInode
    dsimp only
    rw [htable]
    exact Volume.write_disk writeable_oRdwr (by unfold inodeAddr at hfits; omega)
  have howned : ∀ a, L.Owned a → (writeInode v r L.blockSize inode).disk a = v.disk a := fun a ha => by
    rw [hdisk, writeBytes_of_outside]
    by_contra hin
    exact place.not_owned a (by omega) (by omega) ha
  refine ⟨hd.congr howned, nodup_nil, nofun, nofun, ?_, fun a _ ha => ?_⟩
  · rw [freeSet_congr howned, toFinset_nil, sdiff_empty]
  · rw [hdisk, writeBytes_of_outside]
    by_contra hin
    exact ha (mem_append_left _ (mem_inodeBlocks (by omega) (by omega)))

/-! ## The bytes of a file -/

/-- A byte of a file. -/
def byteAt (blockSize : Nat) (d inode : Mem) (o : Nat) : BitVec 8 :=
  d (fileBlock blockSize d inode (o / blockSize) * blockSize + o % blockSize)

/-- The number of blocks of a file. -/
def blockCount (blockSize length : Nat) : Nat := (length + blockSize - 1) / blockSize

theorem lt_blockCount_iff (hsize : 0 < blockSize) :
    i < blockCount blockSize length ↔ i * blockSize < length := by
  rw [blockCount, ← Nat.succ_le_iff, Nat.le_div_iff_mul_le hsize, Nat.succ_mul]
  omega

theorem blockCount_eq (hsize : 0 < blockSize) (hle : length ≤ c * blockSize)
    (hlt : ∀ i < c, i * blockSize < length) : blockCount blockSize length = c := by
  apply le_antisymm
  · by_contra h
    have := (lt_blockCount_iff hsize).mp (not_le.mp h)
    omega
  · by_contra h
    have := hlt _ (not_le.mp h)
    have := (lt_blockCount_iff hsize).mpr this
    omega

theorem blockCount_mono (h : a ≤ b) : blockCount blockSize a ≤ blockCount blockSize b :=
  Nat.div_le_div_right (by omega)

theorem le_blockCount_mul (length : Nat) (hsize : 0 < blockSize) :
    length ≤ blockCount blockSize length * blockSize := by
  by_contra h
  have := (lt_blockCount_iff hsize).mpr (not_le.mp h)
  omega

namespace FileMap

section

variable (h : FileMap L v.disk inode n)

include h

theorem mem_reach (hi : i < n) :
    fileBlock L.blockSize v.disk inode i ∈ forestReach L.blockSize v.disk (roots inode) :=
  (forestReach_perm L.width_pos h.dense).mem_iff.mpr
    (List.mem_append_right _ (List.mem_map.mpr ⟨i, List.mem_range.mpr hi, rfl⟩))

/-- The tables and the blocks of data are different. -/
theorem nodup_parts : (forestTables L.blockSize v.disk (roots inode) ++
      (List.range n).map (fileBlock L.blockSize v.disk inode)).Nodup :=
  (forestReach_perm L.width_pos h.dense).nodup_iff.mp h.nodup

theorem not_mem_tables (hi : i < n) :
    fileBlock L.blockSize v.disk inode i ∉ forestTables L.blockSize v.disk (roots inode) := fun hmem =>
  (List.nodup_append.mp h.nodup_parts).2.2 _ hmem _ (List.mem_map.mpr ⟨i, List.mem_range.mpr hi, rfl⟩) rfl

theorem fileBlock_inj {j : Nat} (hi : i < n) (hj : j < n)
    (heq : fileBlock L.blockSize v.disk inode i = fileBlock L.blockSize v.disk inode j) : i = j :=
  List.inj_on_of_nodup_map (List.nodup_append.mp h.nodup_parts).2.1 (List.mem_range.mpr hi)
    (List.mem_range.mpr hj) heq

/-- A volume on which the tables are the same and the blocks are still in use. -/
theorem congr (v' : Volume)
    (same : ∀ b ∈ forestTables L.blockSize v.disk (roots inode), Agree L.blockSize v.disk v'.disk b)
    (hinUse : ∀ b ∈ forestReach L.blockSize v.disk (roots inode), L.InUse v'.disk b) :
    FileMap L v'.disk inode n ∧
      (∀ i < n, fileBlock L.blockSize v'.disk inode i = fileBlock L.blockSize v.disk inode i) ∧
      forestReach L.blockSize v'.disk (roots inode) = forestReach L.blockSize v.disk (roots inode) := by
  have hreach := forestReach_congr same
  refine ⟨⟨h.dense.congr same, hreach ▸ h.nodup, hreach ▸ hinUse⟩, fun i hi => ?_, hreach⟩
  exact forestLeaf_congr L.width_pos h.dense same hi

/-- A write into a block of data. -/
theorem writeData (hd : L.WellFormed v.disk) {mode : Nat} {buffer : Mem}
    (writes : writeable mode = true) (hi : i < n) (hfits : o + k ≤ L.blockSize) (hk : 0 < k)
    (hv' : v.write mode (fileBlock L.blockSize v.disk inode i * L.blockSize + o) k buffer = v') :
    FileMap L v'.disk inode n ∧ L.Extends v v' [] [fileBlock L.blockSize v.disk inode i] ∧
      forestReach L.blockSize v'.disk (roots inode) = forestReach L.blockSize v.disk (roots inode) ∧
      ∀ a < n * L.blockSize, byteAt L.blockSize v'.disk inode a =
        if i * L.blockSize + o ≤ a ∧ a < i * L.blockSize + o + k then buffer (a - (i * L.blockSize + o))
        else byteAt L.blockSize v.disk inode a := by
  have hblock := h.inUse _ (h.mem_reach hi)
  obtain ⟨hdisk, hext⟩ := hd.write buffer writes hblock.low hblock.not_metadata hfits hk
  rw [hv'] at hdisk hext
  have hsame : ∀ b ∈ forestTables L.blockSize v.disk (roots inode), Agree L.blockSize v.disk v'.disk b :=
    fun b hb => hext.agree (h.inUse b (forestTables_subset_reach _ _ hb)).toTaken fun hmem =>
      h.not_mem_tables hi (List.mem_singleton.mp hmem ▸ hb)
  obtain ⟨hmap, hleaf, hreach⟩ := h.congr v' hsame fun b hb => hext.inUse (h.inUse b hb)
  refine ⟨hmap, hext, hreach, fun a ha => ?_⟩
  have hblockOf : a / L.blockSize < n := Nat.div_lt_of_lt_mul (by rwa [Nat.mul_comm] at ha)
  have hdm := Nat.div_add_mod a L.blockSize
  have hmod := Nat.mod_lt a (by omega : 0 < L.blockSize)
  rw [Nat.mul_comm] at hdm
  unfold byteAt
  rw [hleaf _ hblockOf, hdisk]
  by_cases hsameBlock : a / L.blockSize = i
  · subst hsameBlock
    unfold writeBytes
    by_cases hin : o ≤ a % L.blockSize ∧ a % L.blockSize < o + k
    · rw [if_pos (by omega), if_pos (by omega)]
      congr 1
      omega
    · rw [if_neg (by omega), if_neg (by omega)]
  · have hne : fileBlock L.blockSize v.disk inode (a / L.blockSize) ≠ fileBlock L.blockSize v.disk inode i :=
      fun heq => hsameBlock (h.fileBlock_inj hblockOf hi heq)
    rw [writeBytes_of_outside]
    · rw [if_neg]
      rintro ⟨hlo, hhi⟩
      exact hsameBlock (div_blockSize (by omega) (by omega))
    · rcases Nat.lt_or_gt_of_ne hne with hlt | hgt
      · have := Nat.mul_le_mul_right L.blockSize hlt
        rw [Nat.succ_mul] at this
        omega
      · have := Nat.mul_le_mul_right L.blockSize hgt
        rw [Nat.succ_mul] at this
        omega

end

end FileMap

/-! ## Appending a block -/

/-- The block map after `ext2_set_block_id`. -/
theorem MapGrows.fileMap (h : MapGrows L v v' inode inode' n newBlock created)
    (hmap : FileMap L v.disk inode n) (hd : L.WellFormed v.disk) (hnew : L.InUse v.disk newBlock)
    (hfresh : newBlock ∉ forestReach L.blockSize v.disk (roots inode)) :
    FileMap L v'.disk inode' (n + 1) := by
  have hperm := h.grows.reach
  refine ⟨h.grows.dense, hperm.nodup_iff.mpr ?_, fun b hb => ?_⟩
  · rw [append_assoc, singleton_append, nodup_append]
    refine ⟨h.extends_.nodup, nodup_cons.mpr ⟨hfresh, hmap.nodup⟩, fun b hb b' hb' heq => ?_⟩
    subst heq
    refine h.extends_.not_mem_created (Layout.InUse.toTaken ?_) hb
    rcases mem_cons.mp hb' with rfl | hb'
    · exact hnew
    · exact hmap.inUse b hb'
  · rcases mem_append.mp (hperm.mem_iff.mp hb) with hb | hb
    · rcases mem_append.mp hb with hb | hb
      · exact h.extends_.inUse_created hd hb
      · rw [List.mem_singleton.mp hb]
        exact h.extends_.inUse hnew
    · exact h.extends_.inUse (hmap.inUse b hb)

/-- A block was appended to a file that had `n` blocks. -/
structure Appends (L : Layout) (s s' : WriteState) (n newBlock : Nat) (created : List Nat) : Prop where
  written : s'.written = s.written
  map : FileMap L s'.vol.disk s'.inode (n + 1)
  block : fileBlock L.blockSize s'.vol.disk s'.inode n = newBlock
  reach : (forestReach L.blockSize s'.vol.disk (roots s'.inode)).Perm
    (created ++ forestReach L.blockSize s.vol.disk (roots s.inode))
  extends_ : L.Extends s.vol s'.vol created (forestReach L.blockSize s.vol.disk (roots s.inode))
  count : created.length = 1 + tablesNeeded (width L.blockSize) n
  fields : ∀ a, a < 40 ∨ 100 ≤ a → s'.inode a = s.inode a
  bytes : ∀ a < n * L.blockSize,
    byteAt L.blockSize s'.vol.disk s'.inode a = byteAt L.blockSize s.vol.disk s.inode a

/-- Without a free block the loop is left. -/
theorem appendBlock_full (hd : L.WellFormed s.vol.disk) (hsize : L.blockSize ≠ 1024)
    (hfull : L.freeSet s.vol.disk = ∅) :
    ∃ w : Volume, w.disk = s.vol.disk ∧ appendBlock L.blockSize i s = (none, { s with vol := w }) := by
  rcases hd.counted.allocBlock hsize (hd.reachable (.of_empty hfull 1)) with ⟨-, hzero, hdisk⟩ | htakes
  · refine ⟨_, hdisk, ?_⟩
    unfold appendBlock
    dsimp only
    rw [if_pos hzero]
  · have := htakes.free
    rw [hfull] at this
    exact absurd this (notMem_empty _)

/-- With enough free blocks a block is appended. -/
theorem appendBlock_spec (hmap : FileMap L s.vol.disk s.inode n) (hd : L.WellFormed s.vol.disk)
    (hsize : L.blockSize ≠ 1024) (hn : n * L.blockSize < 2 ^ 32)
    (hfree : 1 + tablesNeeded (width L.blockSize) n ≤ (L.freeSet s.vol.disk).card)
    (hlow : L.LowFree s.vol.disk (1 + tablesNeeded (width L.blockSize) n))
    (hzeros : L.blockSize = 4096 ∨ tablesNeeded (width L.blockSize) n = 0) :
    ∃ newBlock s' created, appendBlock L.blockSize n s = (some (newBlock * L.blockSize), s') ∧
      Appends L s s' n newBlock created := by
  have hlow1 := hlow.mono (Nat.le_add_right 1 _)
  rcases hd.counted.allocBlock hsize (hd.reachable hlow1) with ⟨hempty, -⟩ | htakes
  · rw [hempty, Finset.card_empty] at hfree
    omega
  generalize hnb : (allocBlock L.blockSize s.vol).1 = newBlock at htakes
  generalize hv1 : (allocBlock L.blockSize s.vol).2 = v1 at htakes
  have hext1 := htakes.extends hd hlow1
  have hlowNew := htakes.low hd hlow1
  have hne := hd.ne_zero htakes.free
  have hlt : newBlock < L.total := (mem_freeSet.mp htakes.free).1
  have hdata := hd.not_metadata htakes.free
  -- the trees are the same after the allocation
  obtain ⟨hmap1, hleaf1, hreach1⟩ := hmap.congr v1
    (fun b hb => hext1.agree (hmap.inUse b (forestTables_subset_reach _ _ hb)).toTaken List.not_mem_nil)
    (fun b hb => hext1.inUse (hmap.inUse b hb))
  have hnewUse := hext1.inUse_created hd List.mem_cons_self
  have hfresh : newBlock ∉ forestReach L.blockSize v1.disk (roots s.inode) := by
    rw [hreach1]
    exact fun hmem => (hmap.inUse _ hmem).not_free htakes.free
  have hcard := hext1.card
  rw [List.length_singleton] at hcard
  obtain ⟨inode', v2, tabs, hset, hgrows⟩ := hmap1.setBlockId hext1.wellFormed hne
    (hlt.trans L.total_lt) hn (by omega) (hext1.lowFree hlow) hzeros
  have hmap2 := hgrows.fileMap hmap1 hext1.wellFormed hnewUse hfresh
  have hblock2 : fileBlock L.blockSize v2.disk inode' n = newBlock := hgrows.grows.new
  have hext2 := hgrows.extends_
  obtain ⟨hext3, -⟩ := hext2.wellFormed.zeroBlock (by rfl : writeable oWronly = true) hlowNew hdata
  obtain ⟨hmap3, hleaf3, hreach3⟩ := hmap2.congr (v2.zeroBlock oWronly L.blockSize newBlock)
    (fun b hb => hext3.agree (hmap2.inUse b (forestTables_subset_reach _ _ hb)).toTaken fun hmem =>
      hmap2.not_mem_tables n.lt_succ_self (by rw [hblock2, ← List.mem_singleton.mp hmem]; exact hb))
    (fun b hb => hext3.inUse (hmap2.inUse b hb))
  refine ⟨newBlock, ⟨v2.zeroBlock oWronly L.blockSize newBlock, inode', s.written, true⟩, newBlock :: tabs, ?_,
    rfl, hmap3, ?_, ?_, ?_, ?_, hgrows.fields, fun a ha => ?_⟩
  · have haddr : newBlock * L.blockSize % 2 ^ 32 = newBlock * L.blockSize := by
      have := hlowNew.fits
      have := L.blockSize_pos
      exact Nat.mod_eq_of_lt (by omega)
    unfold appendBlock
    dsimp only
    rw [hnb, hv1, if_neg hne, hset]
    rw [haddr]
    rfl
  · exact (hleaf3 n n.lt_succ_self).trans hblock2
  · rw [hreach3]
    have := hgrows.grows.reach
    rw [hreach1] at this
    exact this.trans (List.Perm.append_right _ (List.perm_append_singleton _ _))
  · have hsub : forestTables L.blockSize v1.disk (roots s.inode) ⊆
        forestReach L.blockSize s.vol.disk (roots s.inode) := hreach1 ▸ forestTables_subset_reach _ _
    have h12 := (hext1.mono (List.nil_subset _)).trans
      (hext2.mono (List.Subset.trans hsub (List.subset_append_left _ [newBlock])))
    have h13 := h12.trans (hext3.mono (fun b hb => by
      rw [List.mem_singleton.mp hb]
      exact List.mem_append_right _ List.mem_cons_self))
    rwa [List.append_nil] at h13
  · rw [List.length_cons, hgrows.count]
    omega
  · -- a block of the file is neither a table nor the new block
    have hsizePos := L.blockSize_pos
    have hi : a / L.blockSize < n := Nat.div_lt_of_lt_mul (by rwa [Nat.mul_comm] at ha)
    have huse := hmap.inUse _ (hmap.mem_reach hi)
    have hold : fileBlock L.blockSize v2.disk inode' (a / L.blockSize) =
        fileBlock L.blockSize s.vol.disk s.inode (a / L.blockSize) :=
      (hgrows.grows.old _ hi).trans (hleaf1 _ hi)
    have hnotTable : fileBlock L.blockSize s.vol.disk s.inode (a / L.blockSize) ∉
        forestTables L.blockSize v1.disk (roots s.inode) := hleaf1 _ hi ▸ hmap1.not_mem_tables hi
    have hnotNew : fileBlock L.blockSize s.vol.disk s.inode (a / L.blockSize) ∉ [newBlock] := fun hmem =>
      huse.not_free (List.mem_singleton.mp hmem ▸ htakes.free)
    have hmod := Nat.mod_lt a (by omega : 0 < L.blockSize)
    unfold byteAt
    rw [hleaf3 _ (Nat.lt_succ_of_lt hi), hold,
      hext3.agree (hext2.inUse (hext1.inUse huse)).toTaken hnotNew _ (by omega) (by omega),
      hext2.agree (hext1.inUse huse).toTaken hnotTable _ (by omega) (by omega),
      hext1.agree huse.toTaken List.not_mem_nil _ (by omega) (by omega)]

/-! ## The loop of `ext2_write` -/

/-- The blocks that are taken to append the blocks from `a` up to `b`. -/
def cost (w a b : Nat) : Nat := ((range' a (b - a)).map fun i => 1 + tablesNeeded w i).sum

/-- Free blocks do not run out between a block of data and its tables. -/
def Roomy (w free a b : Nat) : Prop :=
  ∀ j, a ≤ j → j < b → cost w a j ≤ free → free = cost w a j ∨ cost w a (j + 1) ≤ free

theorem cost_self (w a : Nat) : cost w a a = 0 := by
  rw [cost, Nat.sub_self]
  rfl

theorem cost_head (h : a < b) : cost w a b = 1 + tablesNeeded w a + cost w (a + 1) b := by
  rw [cost, cost, show b - a = b - (a + 1) + 1 by omega, range'_succ, List.map_cons, List.sum_cons]

theorem cost_split (hac : a ≤ c) (hcb : c ≤ b) : cost w a b = cost w a c + cost w c b := by
  unfold cost
  rw [show b - a = c - a + (b - c) by omega, ← range'_append_1, map_append, sum_append,
    show a + (c - a) = c by omega]

/-- With enough free blocks for all of it. -/
theorem roomy_of_cost_le (h : cost w a b ≤ free) : Roomy w free a b := by
  intro j hlo hhi _
  have := cost_split (w := w) (by omega : a ≤ j + 1) (by omega : j + 1 ≤ b)
  exact .inr (by omega)

/-- After one block the rest is roomy. -/
theorem Roomy.next (h : Roomy w free a b) (hcost : 1 + tablesNeeded w a ≤ free) :
    Roomy w (free - (1 + tablesNeeded w a)) (a + 1) b := by
  intro j hlo hhi hle
  have hj := h j (by omega) hhi
  rw [cost_head (by omega : a < j), cost_head (by omega : a < j + 1)] at hj
  omega

/-- The first block: there is none left, or enough. -/
theorem Roomy.first (h : Roomy w free a b) (hab : a < b) :
    free = 0 ∨ 1 + tablesNeeded w a ≤ free := by
  have := h a le_rfl hab (by rw [cost_self]; omega)
  rwa [cost_self, cost_head a.lt_succ_self, cost_self, add_zero] at this

/-- Where the bytes of a block begin and how many there are. -/
theorem blockRange_eq {bs : Nat} (hbs : 0 < bs) (hsum : offset + size < 2 ^ 32)
    (hlo : offset / bs ≤ i) (hhi : i ≤ (offset + size) / bs) :
    blockRange bs offset size i = (max offset (i * bs),
      min (offset + size) (i * bs + bs) - max offset (i * bs)) := by
  have hstart : i * bs ≤ offset + size := (Nat.le_div_iff_mul_le hbs).mp hhi
  have hoffset : offset < (offset / bs + 1) * bs := Nat.lt_mul_of_div_lt (Nat.lt_succ_self _) hbs
  have hend : offset + size < ((offset + size) / bs + 1) * bs := Nat.lt_mul_of_div_lt (Nat.lt_succ_self _) hbs
  have hdivLe : offset / bs * bs ≤ offset := Nat.div_mul_le_self _ _
  rw [Nat.succ_mul] at hoffset hend
  -- the start
  have hfirst : (if i = offset / bs then offset else i * bs % 2 ^ 32) = max offset (i * bs) := by
    by_cases h : i = offset / bs
    · rw [if_pos h, h, Nat.max_eq_left hdivLe]
    · have : (offset / bs + 1) * bs ≤ i * bs := Nat.mul_le_mul_right bs (by omega)
      rw [Nat.succ_mul] at this
      rw [if_neg h, Nat.mod_eq_of_lt (by omega), Nat.max_eq_right (by omega)]
  -- the end
  have hlast : (if i = (offset + size) / bs then offset + size else (i * bs + bs) % 2 ^ 32) =
      min (offset + size) (i * bs + bs) := by
    by_cases h : i = (offset + size) / bs
    · rw [if_pos h, h, Nat.min_eq_left (by omega)]
    · have : (i + 1) * bs ≤ (offset + size) / bs * bs := Nat.mul_le_mul_right bs (by omega)
      have hle : (offset + size) / bs * bs ≤ offset + size := Nat.div_mul_le_self _ _
      rw [Nat.succ_mul] at this
      rw [if_neg h, Nat.mod_eq_of_lt (by omega), Nat.min_eq_right (by omega)]
  have hblock : offset < i * bs + bs := by
    have : offset / bs * bs ≤ i * bs := Nat.mul_le_mul_right bs hlo
    omega
  unfold blockRange
  dsimp only
  rw [Nat.mod_eq_of_lt hsum, hfirst, hlast, sub32_eq (by omega) (by omega)]

/-- What the loop of `ext2_write` has done: `written` bytes of `data` are in the file from `offset` on, which
had `length` bytes and now has `count` blocks. -/
structure Writes (L : Layout) (v : Volume) (inode : Mem) (length offset : Nat) (data : Mem) (s : WriteState)
    (count : Nat) (created : List Nat) : Prop where
  map : FileMap L s.vol.disk s.inode count
  reach : (forestReach L.blockSize s.vol.disk (roots s.inode)).Perm
    (created ++ forestReach L.blockSize v.disk (roots inode))
  extends_ : L.Extends v s.vol created (forestReach L.blockSize v.disk (roots inode))
  taken : created.length = cost (width L.blockSize) (blockCount L.blockSize length) count
  fields : ∀ a, a < 40 ∨ 100 ≤ a → s.inode a = inode a
  old : ∀ a < length, a < offset ∨ offset + s.written ≤ a →
    byteAt L.blockSize s.vol.disk s.inode a = byteAt L.blockSize v.disk inode a
  new : ∀ k < s.written, byteAt L.blockSize s.vol.disk s.inode (offset + k) = data k

namespace Writes

variable {length offset count : Nat} {data : Mem} {s s' : WriteState} {created : List Nat}

/-- A block of data is appended. -/
theorem append (h : Writes L v inode length offset data s count created) {tabs : List Nat}
    (happ : Appends L s s' count newBlock tabs) (hcount : blockCount L.blockSize length ≤ count)
    (hend : offset + s.written ≤ count * L.blockSize) :
    Writes L v inode length offset data s' (count + 1) (created ++ tabs) := by
  have hsize := L.blockSize_pos
  have hlength : length ≤ count * L.blockSize := by
    by_contra hlt
    have := (lt_blockCount_iff (by omega : 0 < L.blockSize)).mpr (by omega : count * L.blockSize < length)
    omega
  refine ⟨happ.map, ?_, ?_, ?_, fun a ha => (happ.fields a ha).trans (h.fields a ha),
    fun a ha hout => ?_, fun k hk => ?_⟩
  · refine happ.reach.trans ((h.reach.append_left tabs).trans ?_)
    rw [← append_assoc]
    exact List.Perm.append_right _ perm_append_comm
  · refine h.extends_.trans (happ.extends_.mono ?_)
    intro b hb
    exact mem_append.mpr ((mem_append.mp (h.reach.mem_iff.mp hb)).symm)
  · rw [length_append, h.taken, happ.count, cost_split hcount (Nat.le_succ count),
      cost_head count.lt_succ_self, cost_self, add_zero]
  · rw [happ.written] at hout
    rw [happ.bytes a (by omega)]
    exact h.old a ha hout
  · rw [happ.written] at hk
    rw [happ.bytes _ (by omega)]
    exact h.new k hk

/-- Bytes are written into a block. -/
theorem write (h : Writes L v inode length offset data s count created) (hi : i < count)
    (hk : 0 < k) (ho : i * L.blockSize + o = offset + s.written) (hfits : o + k ≤ L.blockSize)
    (hlength : length ≤ count * L.blockSize)
    (hw : s.vol.write oWronly (fileBlock L.blockSize s.vol.disk s.inode i * L.blockSize + o) k
      (fun j => data (s.written + j)) = v') :
    Writes L v inode length offset data ⟨v', s.inode, s.written + k, s.dirty⟩ count created := by
  have hcount : (i + 1) * L.blockSize ≤ count * L.blockSize := Nat.mul_le_mul_right _ hi
  rw [Nat.succ_mul] at hcount
  obtain ⟨hmap, hext, hreach, hbytes⟩ := h.map.writeData h.extends_.wellFormed
    (by rfl : writeable oWronly = true) hi hfits hk hw
  rw [ho] at hbytes
  refine ⟨hmap, hreach ▸ h.reach, ?_, h.taken, h.fields, fun a ha hout => ?_, fun j hj => ?_⟩
  · have hmem := h.reach.mem_iff.mp (h.map.mem_reach hi)
    have := h.extends_.trans (hext.mono fun b hb => by
      rw [List.mem_singleton.mp hb]
      exact List.mem_append.mpr (List.mem_append.mp hmem).symm)
    rwa [List.append_nil] at this
  · dsimp only at hout ⊢
    rw [hbytes a (by omega), if_neg (by omega)]
    exact h.old a ha (by omega)
  · dsimp only at hj ⊢
    rw [hbytes _ (by omega)]
    by_cases hnew : s.written ≤ j
    · rw [if_pos (by omega), show s.written + (offset + j - (offset + s.written)) = j by omega]
    · rw [if_neg (by omega)]
      exact h.new j (by omega)

end Writes

/-- The free blocks are those that were free before, without the ones that were created. -/
theorem Writes.freeSet {count : Nat} {data : Mem}
    (h : Writes L v inode length offset data s count created) :
    L.freeSet s.vol.disk = L.freeSet v.disk \ created.toFinset := h.extends_.freeSet

/-- What appending blocks needs: blocks are numbered from 0, and a table is filled with zeros. -/
def CanAppend (L : Layout) (length stop : Nat) : Prop :=
  blockCount L.blockSize length < blockCount L.blockSize stop →
    L.blockSize ≠ 1024 ∧ (L.blockSize = 4096 ∨ ∀ j, blockCount L.blockSize length ≤ j →
      j < blockCount L.blockSize stop → tablesNeeded (width L.blockSize) j = 0)

section Loop

variable {length offset i count : Nat} {data : Mem} {s : WriteState} {created : List Nat}

theorem Writes.of_disk (h : Writes L v inode length offset data s count created) {w : Volume}
    (hw : w.disk = s.vol.disk) : Writes L v inode length offset data { s with vol := w } count created := by
  obtain ⟨hmap, hreach, hext, htaken, hfields, hold, hnew⟩ := h
  rw [← hw] at hmap hreach hold hnew
  exact ⟨hmap, hreach, hext.of_disk hw, htaken, hfields, hold, hnew⟩

theorem lt_blockEnd (hbs : 0 < blockSize) (h : offset / blockSize ≤ i) :
    offset < i * blockSize + blockSize := by
  have hlt := Nat.lt_mul_of_div_lt (Nat.lt_succ_of_le h) hbs
  rwa [Nat.succ_mul] at hlt

/-- The bytes of block `i`, which the file has, are written. -/
theorem Writes.turn (size : Nat) (h : Writes L v inode length offset data s count created)
    (hi : i < count) (hcount : count = blockCount L.blockSize (max length (min (offset + size) (i * L.blockSize + L.blockSize))))
    (hpos : offset + s.written = max offset (i * L.blockSize))
    (hn : max offset (i * L.blockSize) < min (offset + size) (i * L.blockSize + L.blockSize)) :
    ∃ s', (⟨s.vol.write oWronly (fileBlock L.blockSize s.vol.disk s.inode i * L.blockSize +
          (max offset (i * L.blockSize) - i * L.blockSize))
          (min (offset + size) (i * L.blockSize + L.blockSize) - max offset (i * L.blockSize))
          (fun k => data (s.written + k)), s.inode, s.written +
          (min (offset + size) (i * L.blockSize + L.blockSize) - max offset (i * L.blockSize)), s.dirty⟩ :
          WriteState) = s' ∧
      Writes L v inode length offset data s' count created ∧
      s'.written = min size ((i + 1) * L.blockSize - offset) ∧
      count = blockCount L.blockSize (max length (offset + s'.written)) := by
  have hlength := le_blockCount_mul (max length (min (offset + size) (i * L.blockSize + L.blockSize)))
    L.zero_lt_blockSize
  rw [← hcount] at hlength
  refine ⟨_, rfl, h.write hi (by omega) (by omega) (by omega) (by omega) rfl, ?_, ?_⟩
  · dsimp only
    rw [Nat.succ_mul]
    omega
  · dsimp only
    rw [hcount]
    congr 2
    omega

/-- The loop of `ext2_write`: the file has the blocks for the bytes that were written, and with enough free
blocks all bytes are. -/
theorem writeLoop_spec (data : Mem) (hsum : offset + size < 2 ^ 32) (hoffset : offset ≤ length)
    (hsizeLo : sizeLo inode = length) (happend : CanAppend L length (offset + size)) (left : Nat) :
    ∀ (i : Nat) (s : WriteState) (count : Nat) (created : List Nat),
      Writes L v inode length offset data s count created → i + left = (offset + size) / L.blockSize + 1 →
      offset / L.blockSize ≤ i → s.written = min size (i * L.blockSize - offset) →
      count = blockCount L.blockSize (max length (offset + s.written)) →
      Roomy (width L.blockSize) (L.freeSet s.vol.disk).card count (blockCount L.blockSize (offset + size)) →
      L.LowFree s.vol.disk (cost (width L.blockSize) count (blockCount L.blockSize (offset + size))) →
      ∃ s' count' created', writeLoop L.blockSize offset size data left i s = s' ∧
        Writes L v inode length offset data s' count' created' ∧
        count' = blockCount L.blockSize (max length (offset + s'.written)) ∧ s'.written ≤ size ∧
        (cost (width L.blockSize) count (blockCount L.blockSize (offset + size)) ≤ (L.freeSet s.vol.disk).card →
          s'.written = size) := by
  have hbs := L.zero_lt_blockSize
  have hlast : offset + size < ((offset + size) / L.blockSize + 1) * L.blockSize :=
    Nat.lt_mul_of_div_lt (Nat.lt_succ_self _) hbs
  induction left with
  | zero =>
    intro i s count created h hi _ hwritten hcount _ _
    have hall : s.written = size := by
      rw [hwritten, show i = (offset + size) / L.blockSize + 1 by omega]
      omega
    exact ⟨s, count, created, rfl, h, hcount, hall.le, fun _ => hall⟩
  | succ left ih =>
    intro i s count created h hi hstart hwritten hcount hroomy hlow
    have hiLe : i ≤ (offset + size) / L.blockSize := by omega
    have hiEnd : i * L.blockSize ≤ offset + size := (Nat.le_div_iff_mul_le hbs).mp hiLe
    have hiStart := lt_blockEnd hbs hstart
    have hpos : offset + s.written = max offset (i * L.blockSize) := by omega
    have hsizeLo' : sizeLo s.inode = length := by
      rw [← hsizeLo]
      exact readLE_congr fun a _ _ => h.fields a (by omega)
    unfold writeLoop
    rw [blockRange_eq hbs hsum hstart hiLe]
    dsimp only
    by_cases hnone : min (offset + size) (i * L.blockSize + L.blockSize) - max offset (i * L.blockSize) = 0
    · -- the end is at the start of this block
      rw [if_pos hnone]
      exact ⟨s, count, created, rfl, h, hcount, by omega, fun _ => by omega⟩
    rw [if_neg hnone, sub32_eq (by omega) (by omega)]
    by_cases hold : i * L.blockSize < length
    · -- the block exists
      have hcount' : count = blockCount L.blockSize (max length (min (offset + size) (i * L.blockSize + L.blockSize))) := by
        have hic : i < count := by
          rw [hcount, lt_blockCount_iff hbs]
          omega
        have hnext : (i + 1) * L.blockSize ≤ count * L.blockSize := Nat.mul_le_mul_right _ hic
        have hmul := le_blockCount_mul (max length (offset + s.written)) hbs
        rw [← hcount] at hmul
        rw [Nat.succ_mul] at hnext
        refine (blockCount_eq hbs (by omega) fun j hj => ?_).symm
        have := (lt_blockCount_iff hbs).mp (hcount ▸ hj)
        omega
      have hic : i < count := by
        rw [hcount, lt_blockCount_iff hbs]
        omega
      have hne : fileBlock L.blockSize s.vol.disk s.inode i * L.blockSize ≠ 0 :=
        Nat.mul_ne_zero ((h.map.inUse _ (h.map.mem_reach hic)).ne_zero h.extends_.wellFormed.sound) (by omega)
      rw [h.map.blockIdToAddr hic (by rwa [hsizeLo']), if_neg hne]
      dsimp only
      obtain ⟨s', hs', hwrites, hwritten', hcount''⟩ := h.turn size hic hcount' hpos (by omega)
      rw [hs']
      have hfree : L.freeSet s'.vol.disk = L.freeSet s.vol.disk := hwrites.freeSet.trans h.freeSet.symm
      obtain ⟨t, count2, created2, ht, hwrites2, hcount2, hle2, hall2⟩ := ih (i + 1) s' count created hwrites
        (by omega) (by omega) hwritten' hcount'' (hfree ▸ hroomy) (hlow.congr hfree)
      exact ⟨t, count2, created2, ht, hwrites2, hcount2, hle2, fun hcost => hall2 (hfree ▸ hcost)⟩
    · -- the block is behind the end
      have hic : count = i := by
        rw [hcount]
        refine blockCount_eq hbs (by omega) fun j hj => ?_
        have := Nat.mul_le_mul_right L.blockSize hj
        rw [Nat.succ_mul] at this
        omega
      subst hic
      have hstop : count < blockCount L.blockSize (offset + size) := (lt_blockCount_iff hbs).mpr (by omega)
      have hlen : blockCount L.blockSize length ≤ count := by
        by_contra hlt
        exact hold ((lt_blockCount_iff hbs).mp (by omega))
      obtain ⟨hsize, hzeros⟩ := happend (by omega)
      rw [blockIdToAddr_of_size_le (by rw [hsizeLo']; omega), if_pos rfl]
      rw [cost_head hstop] at hlow
      rcases hroomy.first hstop with hfull | hroom
      · obtain ⟨w, hw, happ⟩ := appendBlock_full (i := count) h.extends_.wellFormed hsize (card_eq_zero.mp hfull)
        rw [happ]
        refine ⟨_, count, created, rfl, h.of_disk hw, hcount, by dsimp only; omega, fun hcost => ?_⟩
        rw [cost_head hstop] at hcost
        omega
      · obtain ⟨newBlock, s1, tabs, happ, happends⟩ := appendBlock_spec h.map h.extends_.wellFormed hsize
          (by omega) hroom (hlow.mono (by omega)) (hzeros.imp_right fun hz => hz count hlen hstop)
        rw [happ]
        dsimp only
        have hwrites1 := h.append happends hlen (by omega)
        obtain ⟨s', hs', hwrites, hwritten', hcount'⟩ := hwrites1.turn size count.lt_succ_self (by
            refine (blockCount_eq hbs ?_ fun j hj => ?_).symm
            · rw [Nat.succ_mul]
              omega
            · have := Nat.mul_le_mul_right L.blockSize (Nat.le_of_lt_succ hj)
              omega) (happends.written ▸ hpos) (by omega)
        rw [← happends.block, hs']
        have hfree : L.freeSet s'.vol.disk = L.freeSet s1.vol.disk := hwrites.freeSet.trans hwrites1.freeSet.symm
        have hcard := happends.extends_.card
        rw [happends.count, ← hfree] at hcard
        obtain ⟨t, count2, created2, ht, hwrites2, hcount2, hle2, hall2⟩ := ih (count + 1) s' (count + 1)
          (created ++ tabs) hwrites (by omega) (by omega) hwritten' hcount' (hcard ▸ hroomy.next hroom)
          ((happends.extends_.lowFree (happends.count ▸ hlow)).congr hfree)
        refine ⟨t, count2, created2, ht, hwrites2, hcount2, hle2, fun hcost => hall2 ?_⟩
        rw [cost_head hstop] at hcost
        omega

end Loop

end Stos.Kernel.Ext2
