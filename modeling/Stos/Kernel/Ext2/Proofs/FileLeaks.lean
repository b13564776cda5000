import Stos.Kernel.Ext2.Proofs.FileRuns

/-!
# No block is leaked

The blocks of a file that was new are exactly those that are no longer free, so that freeing them gives the
old set of free blocks. `ext2_write` breaks this if it finds a block for the data and none for its table: the
block of data is then marked, and no pointer leads to it.
-/

namespace Stos.Kernel.Ext2

open PointerTree List Finset Layout

variable {L : Layout} {r : InodeRef} {f f' f0 : OpenFile}

theorem sameUsed_of_freeSet {d d' : Mem} (h : L.freeSet d' = L.freeSet d) : SameUsed L d d' := by
  intro b hlo hlt
  have hiff : L.used d' b = false ↔ L.used d b = false := by
    have hmem : b ∈ L.freeSet d' ↔ b ∈ L.freeSet d := by rw [h]
    rw [mem_freeSet, mem_freeSet] at hmem
    exact ⟨fun hused => (hmem.mp ⟨hlt, hlo, hused⟩).2.2, fun hused => (hmem.mpr ⟨hlt, hlo, hused⟩).2.2⟩
  cases hused : L.used d b with
  | false => exact hiff.mpr hused
  | true =>
    rw [← Bool.not_eq_false]
    exact fun hfree => absurd (hiff.mp hfree) (by rw [hused]; decide)

theorem freeSet_of_sameUsed {d d' : Mem} (h : SameUsed L d d') : L.freeSet d' = L.freeSet d := by
  ext b
  rw [mem_freeSet, mem_freeSet]
  exact and_congr_right fun hlt => and_congr_right fun hlo => by rw [h b hlo hlt]

theorem tablesNeeded_twelve {w : Nat} (hw : 0 < w) : tablesNeeded w 12 = 1 := by
  rw [tablesNeeded, if_neg (by omega), if_pos (by omega)]
  rfl

/-! ## Files that were new -/

/-- A file that has grown from nothing: it has the blocks that are no longer free. -/
structure Grown (L : Layout) (f0 f : OpenFile) : Prop where
  ok : FileOk L f
  free : ∀ b ∈ fileBlocks L f, b ∈ L.freeSet f0.vol.disk
  freeSet : L.freeSet f.vol.disk = L.freeSet f0.vol.disk \ (fileBlocks L f).toFinset
  tables : CanTruncate L f.length

namespace Grown

theorem start (h : FileOk L f) (hnew : f.length = 0) : Grown L f f := by
  have hnone := h.fileBlocks_eq_nil hnew
  refine ⟨h, ?_, ?_, .inl hnew⟩
  · rw [hnone]
    exact nofun
  · rw [hnone, toFinset_nil, sdiff_empty]

/-- The blocks that are taken belong to the file afterwards. -/
theorem changed (h : Grown L f0 f) {created : List Nat} (hchanged : Changed L r f f' created)
    (htables : CanTruncate L f'.length) : Grown L f0 f' := by
  refine ⟨hchanged.ok, fun b hb => ?_, ?_, htables⟩
  · rcases mem_append.mp (hchanged.blocks.mem_iff.mp hb) with hnew | hold
    · have hfree := hchanged.extends_.free b hnew
      rw [h.freeSet] at hfree
      exact (mem_sdiff.mp hfree).1
    · exact h.free b hold
  · rw [hchanged.extends_.freeSet, h.freeSet, toFinset_eq_of_perm _ _ hchanged.blocks, toFinset_append,
      sdiff_sdiff, sup_eq_union, union_comm]

/-- A file that grows only where `ext2_write` can append has no table that `ext2_truncate` cannot free. -/
theorem canTruncate (h : Grown L f0 f) {stop : Nat} (happend : CanAppend L f.length stop)
    (hstop : f'.length ≤ max f.length stop) : CanTruncate L f'.length := by
  have hbs := L.zero_lt_blockSize
  have hcount : blockCount L.blockSize f'.length ≤ max (blockCount L.blockSize f.length) (blockCount L.blockSize stop) := by
    rcases le_total f.length stop with hle | hle
    · rw [max_eq_right hle] at hstop
      exact (blockCount_mono hstop).trans (le_max_right _ _)
    · rw [max_eq_left hle] at hstop
      exact (blockCount_mono hstop).trans (le_max_left _ _)
  have hstart : f.length = 0 → blockCount L.blockSize f.length = 0 := fun hzero => by rw [hzero, blockCount_zero]
  by_cases hgrows : blockCount L.blockSize f.length < blockCount L.blockSize stop
  · obtain ⟨hsize, hzeros⟩ := happend hgrows
    refine .inr ⟨hsize, ?_⟩
    rcases hzeros with h4096 | hnone
    · exact .inl (by omega)
    refine or_iff_not_imp_left.mpr fun h2048 => ?_
    have hold : blockCount L.blockSize f.length ≤ 12 := by
      rcases h.tables with hzero | ⟨-, hbuffer⟩
      · omega
      · exact hbuffer.resolve_left h2048
    -- the thirteenth block needs a table
    have hnew : blockCount L.blockSize stop ≤ 12 := by
      by_contra hlt
      have := hnone 12 hold (by omega)
      rw [tablesNeeded_twelve L.width_pos] at this
      omega
    omega
  · rcases h.tables with hzero | ⟨hsize, hbuffer⟩
    · have hlast := le_blockCount_mul f'.length hbs
      rw [show blockCount L.blockSize f'.length = 0 by omega, zero_mul] at hlast
      exact .inl (by omega)
    · exact .inr ⟨hsize, hbuffer.imp_right fun hle => by omega⟩

theorem write (h : Grown L f0 f) (place : InodePlace L r) (w : WriteArgs) (whole : w.Whole L f) :
    Grown L f0 (writeCall L.blockSize r w f).2 := by
  unfold writeCall
  by_cases hrefused : f.writeable = false ∨ f.length < w.offset
  · rw [ext2Write_refused hrefused]
    exact h
  push Not at hrefused
  rcases whole (by simpa using hrefused.1) hrefused.2 with hwraps | ⟨hsum, happend, hroomy, hlow⟩
  · obtain ⟨f', hcall, hchanged, hcontents⟩ := ext2Write_wraps h.ok place w.now (bufferOf w.data) hwraps
    rw [hcall]
    refine h.changed hchanged ?_
    have hlength := congrArg length hcontents
    rw [contents, contents, length_firstBytes, length_firstBytes] at hlength
    rw [hlength]
    exact h.tables
  · obtain ⟨written, f', created, hcall, hchanged, hcontents, -, hle, -⟩ := ext2Write_spec h.ok place w.now
      (bufferOf w.data) hsum fun _ _ => ⟨happend, hroomy, hlow⟩
    rw [hcall]
    refine h.changed hchanged (h.canTruncate happend ?_)
    have hlength := length_putBytes_le (contents L f) w.offset (firstBytes (bufferOf w.data) written)
    rw [← hcontents, contents, contents, length_firstBytes, length_firstBytes, length_firstBytes] at hlength
    dsimp only
    omega

/-- Freeing the blocks gives the old set of free blocks. -/
theorem truncate (h : Grown L f0 f) (place : InodePlace L r) (now : Nat) :
    L.freeSet (ext2Truncate L.blockSize r f now).vol.disk = L.freeSet f0.vol.disk := by
  obtain ⟨f', hcall, -, -, -, hfree, -⟩ := ext2Truncate_spec h.ok place now h.tables
  rw [hcall, hfree, h.freeSet]
  exact sdiff_union_of_subset fun b hb => h.free b (mem_toFinset.mp hb)

end Grown

/-- Writes to a new file and then `ext2_truncate` leave the same blocks marked, as long as free blocks do not
run out between a block of data and its tables. -/
theorem writesThenTruncate_sameUsed (h : FileOk L f) (hnew : f.length = 0) (place : InodePlace L r)
    {writes : List WriteArgs} (along : Calls.Along (writeCall L.blockSize r) (WriteArgs.Whole L) writes f)
    (now : Nat) : SameUsed L f.vol.disk (writesThenTruncate L.blockSize r writes now f).vol.disk := by
  have hend : Grown L f (Calls.run (writeCall L.blockSize r) writes f).2 :=
    Calls.run_inv (fun w g hgrown hwhole => hgrown.write place w hwhole) along (.start h hnew)
  exact sameUsed_of_freeSet (hend.truncate place now)

/-- Eleven blocks are to be written, and ten are free: the write stops when the volume is full. -/
theorem writesThenTruncate_sameUsed_full :
    Calls.Along (writeCall 4096 newInode) (WriteArgs.Whole Layout.smallLayout)
      [⟨5, 0, List.replicate (11 * 4096) 1⟩] (newFile (Layout.smallDisk 4096 2 10 0x3f)) ∧
    SameUsed Layout.smallLayout (Layout.smallDisk 4096 2 10 0x3f)
      (writesThenTruncate 4096 newInode [⟨5, 0, List.replicate (11 * 4096) 1⟩] 6
        (newFile (Layout.smallDisk 4096 2 10 0x3f))).vol.disk := by
  have small : smallLayout.Small := (by decide : 16 * 4096 ≤ 2 ^ 32)
  have hlength : (replicate (11 * 4096) (1 : BitVec 8)).length = 11 * 4096 := length_replicate
  generalize replicate (11 * 4096) (1 : BitVec 8) = data at hlength ⊢
  have along : Calls.Along (writeCall 4096 newInode) (WriteArgs.Whole smallLayout)
      [⟨5, 0, data⟩] (newFile (smallDisk 4096 2 10 0x3f)) := by
    refine ⟨fun _ _ => .inr ⟨?_, fun _ => ⟨by decide, .inl rfl⟩, ?_,
      small.lowFree smallLayout_wellFormed.sound _ _⟩, trivial⟩
    · dsimp only
      omega
    · have hfree : (smallLayout.freeSet (smallDisk 4096 2 10 0x3f)).card = 10 := by decide +kernel
      have hroomy : ∀ j < 11, cost 1024 0 j ≤ 10 → 10 = cost 1024 0 j ∨ cost 1024 0 (j + 1) ≤ 10 := by decide
      dsimp only
      rw [hlength]
      change Roomy 1024 (smallLayout.freeSet (smallDisk 4096 2 10 0x3f)).card 0 11
      exact fun j _ hj => hroomy j hj
  exact ⟨along, writesThenTruncate_sameUsed (newFile_ok smallLayout_wellFormed) rfl newInode_place_smallLayout
    along 6⟩

/-! ## Where a block is leaked -/

/-- With 12 blocks there is no table yet. -/
theorem FileMap.blockPtr_twelve {d inode : Mem} (h : FileMap L d inode 12) : blockPtr inode 12 = 0 := by
  have hdense := (roots_split inode (by omega : 12 < 15) ▸ h.dense :
    ForestDense L.blockSize d (rootsBefore inode 12 ++ (12 - 11, blockPtr inode 12) :: rootsBehind inode 12) 12).behind
  rw [capacity_direct _ _ le_rfl, Nat.sub_self, Nat.min_zero] at hdense
  exact hdense.eq_zero_iff.mpr rfl

/-- The last free block is taken for data, and there is none for the table. -/
theorem appendBlock_leaks {s : WriteState} (hmap : FileMap L s.vol.disk s.inode 12) (hd : L.WellFormed s.vol.disk)
    (hsize : L.blockSize ≠ 1024) (hlow : L.LowFree s.vol.disk 1) (hone : (L.freeSet s.vol.disk).card = 1) :
    ∃ w r, appendBlock L.blockSize 12 s = (none, { s with vol := w }) ∧ L.Extends s.vol w [r] [] ∧
      L.freeSet w.disk = ∅ := by
  rcases hd.counted.allocBlock hsize (hd.reachable hlow) with ⟨hempty, -⟩ | htakes
  · rw [hempty, card_empty] at hone
    omega
  generalize hnb : (allocBlock L.blockSize s.vol).1 = newBlock at htakes
  generalize hv1 : (allocBlock L.blockSize s.vol).2 = v1 at htakes
  have hext1 := htakes.extends hd hlow
  have hnone : L.freeSet v1.disk = ∅ := by
    have hcard := hext1.card
    rw [hone, length_singleton] at hcard
    exact card_eq_zero.mp hcard
  rcases hext1.wellFormed.counted.allocBlock hsize (hext1.wellFormed.reachable (.of_empty hnone 1)) with
    ⟨-, hzero, hdisk⟩ | hagain
  swap
  · have := hagain.free
    rw [hnone] at this
    exact absurd this (notMem_empty _)
  refine ⟨(allocBlock L.blockSize v1).2, newBlock, ?_, hext1.of_disk hdisk, by rw [hdisk, hnone]⟩
  have htable : ensureIndirect v1 L.blockSize (blockPtr s.inode 12) = (0, (allocBlock L.blockSize v1).2) := by
    unfold ensureIndirect
    rw [hmap.blockPtr_twelve, if_neg (fun h => h rfl)]
    dsimp only
    rw [if_pos hzero]
  have hset : setBlockId v1 s.inode 12 L.blockSize newBlock = (false, s.inode, (allocBlock L.blockSize v1).2) := by
    have := L.blockSize_pos
    unfold setBlockId
    rw [if_neg (by omega)]
    rw [if_pos (by omega), htable]
    dsimp only
    rw [if_pos rfl]
  unfold appendBlock
  dsimp only
  rw [hnb, hv1, if_neg (hd.ne_zero htakes.free), hset]
  rfl

/-- A write of one byte behind 12 blocks: the last free block is marked, but the file does not get it. -/
theorem ext2Write_leaks (h : FileOk L f) (place : InodePlace L r) (hw : f.writeable = true)
    (hlength : f.length = 12 * L.blockSize) (hsize : L.blockSize ≠ 1024) (hlow : L.LowFree f.vol.disk 1)
    (hone : (L.freeSet f.vol.disk).card = 1) (now : Nat) (data : Mem) :
    ∃ f', ext2Write L.blockSize r f now (12 * L.blockSize) 1 data = (0, f') ∧ FileOk L f' ∧
      (fileBlocks L f').Perm (fileBlocks L f) ∧ L.freeSet f'.vol.disk = ∅ := by
  have hbs := L.blockSize_pos
  have hbound : L.blockSize ≤ 4096 := by rcases L.blockSize_eq with h | h | h <;> omega
  unfold ext2Write
  rw [if_neg (by simp [hw, hlength])]
  dsimp only
  generalize hinode1 : writeLE f.inode 16 4 now = inode1
  generalize hv1 : writeInode f.vol r L.blockSize inode1 = v1
  obtain ⟨hchanged, -⟩ := h.touch place hinode1 (by decide) hv1
  have hsize1 : sizeLo inode1 = f.length := hchanged.ok.size
  have hfree1 := hchanged.extends_.freeSet_nil
  have hcount : blockCount L.blockSize f.length = 12 := by
    rw [hlength]
    refine blockCount_eq (by omega) le_rfl fun i hi => ?_
    exact Nat.mul_lt_mul_of_pos_right hi (by omega)
  have hmap1 := hchanged.ok.map
  rw [hcount] at hmap1
  obtain ⟨w, b, happ, hext, hnone⟩ := appendBlock_leaks (s := ⟨v1, inode1, 0, false⟩) hmap1 hchanged.ok.wellFormed hsize
    (hlow.congr hfree1) (by rw [hfree1, hone])
  -- the loop has one turn, which stops there
  have hfirst : 12 * L.blockSize / L.blockSize = 12 := Nat.mul_div_cancel _ (by omega)
  have hlast : (12 * L.blockSize + 1) / L.blockSize = 12 := div_blockSize (by omega) (by omega)
  have hturns : blockTurns L.blockSize (12 * L.blockSize) 1 = 1 := by
    rw [blockTurns, Nat.mod_eq_of_lt (by omega), hlast, hfirst]
  have hloop : writeLoop L.blockSize (12 * L.blockSize) 1 data 1 12 ⟨v1, inode1, 0, false⟩ =
      ⟨w, inode1, 0, false⟩ := by
    have haddr : blockIdToAddr v1 inode1 12 L.blockSize = 0 := blockIdToAddr_of_size_le (by omega)
    unfold writeLoop
    rw [blockRange_eq (by omega) (by omega) hfirst.le hlast.ge]
    dsimp only
    rw [if_neg (by omega), haddr, if_pos rfl, happ]
  rw [hturns, hfirst, hloop, Nat.add_zero, Nat.mod_eq_of_lt (by omega), decide_eq_false (by omega)]
  obtain ⟨hmap', hreach', -⟩ := hchanged.ok.map.elsewhere hext fun _ _ => not_mem_nil
  refine ⟨_, rfl, ⟨hext.wellFormed, hmap', hsize1⟩, ?_, hnone⟩
  have hblocks := hchanged.blocks
  unfold fileBlocks at hblocks ⊢
  exact hreach' ▸ hblocks

/-- Blocks of 4 KiB, of which 13 are free. -/
def thirteenFree : Layout := { smallLayout with total := 19, total_pos := by decide, total_lt := by decide }

def thirteenFreeDisk : Mem := writeLE (smallDisk 4096 2 13 0x3f) (1024 + 4) 4 19

theorem thirteenFree_wellFormed : thirteenFree.WellFormed thirteenFreeDisk :=
  wellFormed_of_one (n := 5) rfl (by decide +kernel)

theorem newInode_place_thirteenFree : InodePlace thirteenFree newInode := by
  refine .of_one (by decide) (by decide) (by decide) (by decide) (by decide) fun b _ hb => ?_
  rw [show (inodeAddr thirteenFree newInode + 127) / thirteenFree.blockSize = 4 by decide] at hb
  exact (by omega : b ≤ 5)

/-- Twelve blocks and one more byte are written: the thirteenth block is taken, but there is none left for the
table, and `ext2_truncate` does not find the block. -/
theorem not_sameUsed_thirteenFree :
    FileOk thirteenFree (newFile thirteenFreeDisk) ∧ InodePlace thirteenFree newInode ∧
    Calls.Along (writeCall 4096 newInode) (fun w f => w.offset ≤ f.length ∧ w.offset + w.data.length < 2 ^ 32)
      [⟨5, 0, List.replicate (12 * 4096) 1⟩, ⟨6, 12 * 4096, [1]⟩] (newFile thirteenFreeDisk) ∧
    ¬ SameUsed thirteenFree thirteenFreeDisk
      (writesThenTruncate 4096 newInode [⟨5, 0, List.replicate (12 * 4096) 1⟩, ⟨6, 12 * 4096, [1]⟩] 7
        (newFile thirteenFreeDisk)).vol.disk := by
  have small : thirteenFree.Small := (by decide : 19 * 4096 ≤ 2 ^ 32)
  have hlength : (replicate (12 * 4096) (1 : BitVec 8)).length = 12 * 4096 := length_replicate
  generalize replicate (12 * 4096) (1 : BitVec 8) = data at hlength ⊢
  have hok := newFile_ok thirteenFree_wellFormed
  have hlowFree := small.lowFree thirteenFree_wellFormed.sound
  have hfree : (thirteenFree.freeSet (newFile thirteenFreeDisk).vol.disk).card = 13 := by decide +kernel
  have hcost : cost (width thirteenFree.blockSize) (blockCount thirteenFree.blockSize (newFile thirteenFreeDisk).length)
      (blockCount thirteenFree.blockSize (0 + data.length)) = 12 := by
    rw [hlength]
    decide
  -- the first write takes 12 of the 13 blocks
  obtain ⟨written, f1, created, hcall1, hchanged1, hcontents1, hcreated, -, hall, -⟩ := ext2Write_spec
    hok newInode_place_thirteenFree 5 (bufferOf data) (by omega : 0 + data.length < 2 ^ 32)
    fun _ _ => ⟨fun _ => ⟨by decide, .inl rfl⟩, roomy_of_cost_le (by omega), hlowFree _ _⟩
  obtain rfl := hall rfl (Nat.zero_le _) (by omega)
  rw [firstBytes_bufferOf] at hcontents1
  have hlength1 : f1.length = 12 * 4096 := by
    have := congrArg length hcontents1
    rw [contents, length_firstBytes] at this
    rw [this, putBytes]
    simp [contents, newFile, hlength]
  rw [hlength1] at hcreated
  have hcount : created.length = 12 := hcreated.trans (by decide)
  have hfree1 : (thirteenFree.freeSet f1.vol.disk).card = 1 := by
    rw [hchanged1.extends_.card, hfree, hcount]
  -- the second one takes the last block
  obtain ⟨f2, hcall2, hok2, hblocks2, hfree2⟩ := ext2Write_leaks hchanged1.ok newInode_place_thirteenFree
    hchanged1.writeable hlength1 (by decide) (hlowFree _ _) hfree1 6 (bufferOf [1])
  obtain ⟨f3, hcall3, -, -, -, hfree3, -⟩ := ext2Truncate_spec hok2 newInode_place_thirteenFree 7
    (.inr ⟨by decide, .inl (by decide)⟩)
  have hstep1 : writeCall 4096 newInode ⟨5, 0, data⟩ (newFile thirteenFreeDisk) = (data.length, f1) := hcall1
  have hstep2 : writeCall 4096 newInode ⟨6, 12 * 4096, [1]⟩ f1 = (0, f2) := hcall2
  have hrun : writesThenTruncate 4096 newInode [⟨5, 0, data⟩, ⟨6, 12 * 4096, [1]⟩] 7 (newFile thirteenFreeDisk) =
      f3 := by
    unfold writesThenTruncate Calls.run Calls.run Calls.run
    rw [hstep1, hstep2]
    exact hcall3
  refine ⟨hok, newInode_place_thirteenFree, ⟨⟨Nat.zero_le _, ?_⟩, ?_, trivial⟩, fun hsame => ?_⟩
  · dsimp only
    omega
  · rw [hstep1]
    exact ⟨hlength1.ge, by decide⟩
  · have hset := freeSet_of_sameUsed hsame
    rw [hrun, hfree3, hfree2, empty_union] at hset
    have hblocks : (fileBlocks thirteenFree f2).length = 12 := by
      rw [(hblocks2.trans hchanged1.blocks).length_eq, hok.fileBlocks_eq_nil rfl, append_nil, hcount]
    have hcard := toFinset_card_le (fileBlocks thirteenFree f2)
    rw [hset, hblocks] at hcard
    exact absurd (hfree.symm.trans_le hcard) (by decide)

end Stos.Kernel.Ext2
