import Stos.Kernel.Ext2.Volume

/-!
# Allocation of blocks and inodes

What `ext2_alloc_block` and `ext2_free_block` write is said once, as an edit of the bitmap and the two
counts of one group (`Edited`). That the format is kept, that the set of free blocks changes by one block
and that the counts stay right follow from it.
-/

namespace Stos.Kernel.Ext2

open Allocator Nat Layout Volume Ext2 List

/-! ## The device -/

@[simp] theorem writeable_oRdwr : writeable oRdwr = true := rfl

variable {v : Volume} {offset b bit i g : Nat}

namespace Volume

@[simp] theorem useBuffer_disk (v : Volume) (blockSize : Nat) (buffer : Mem) :
    (v.useBuffer blockSize buffer).disk = v.disk := by
  unfold useBuffer
  split <;> rfl

theorem read_apply (below : offset < 2 ^ 32) (i : Nat) : v.read offset i = v.disk (offset + i) := by
  rw [read, mod_eq_of_lt below]

variable {mode n : Nat} {buffer : Mem}

theorem write_disk (writes : writeable mode = true) (below : offset < 2 ^ 32) :
    (v.write mode offset n buffer).disk = writeBytes v.disk offset buffer n := by
  rw [write, if_pos writes, mod_eq_of_lt below]

theorem write_refused (refuses : writeable mode = false) : v.write mode offset n buffer = v := by
  rw [write, refuses, if_neg Bool.false_ne_true]

end Volume

theorem readLE_read (below : offset < 2 ^ 32) (a n : Nat) :
    readLE (v.read offset) a n = readLE v.disk (offset + a) n := by
  induction n generalizing a with
  | zero => rfl
  | succ n ih => rw [readLE, readLE, read_apply below, ih, add_assoc]

theorem sub32_eq {a : Nat} (hba : b ≤ a) (ha : a < 2 ^ 32) : sub32 a b = a - b := by
  rw [sub32, mod_eq_of_lt (by omega : b < 2 ^ 32)]
  omega

/-! ## One turn of the loop over the groups -/

namespace Allocator

variable {A : Allocator} {blockSize count g : Nat} {v : Volume} {sb bitmap : Mem}

theorem allocGroup_skip (hcount : readLE (v.read (gdtStart blockSize + g * 32)) A.gdtFree 2 = 0) :
    A.allocGroup blockSize count g v sb = (0, v, sb) := by
  exact if_pos hcount

theorem allocGroup_none (hcount : readLE (v.read (gdtStart blockSize + g * 32)) A.gdtFree 2 ≠ 0)
    (hbitmap : v.read (readLE (v.read (gdtStart blockSize + g * 32)) A.gdtBitmap 4 * blockSize) = bitmap)
    (hfind : A.findBit sb count g bitmap = none) :
    A.allocGroup blockSize count g v sb = (0, v.useBuffer blockSize bitmap, sb) := by
  unfold allocGroup
  dsimp only
  rw [if_neg hcount, hbitmap, hfind]

theorem allocGroup_some (hcount : readLE (v.read (gdtStart blockSize + g * 32)) A.gdtFree 2 ≠ 0)
    (hbitmap : v.read (readLE (v.read (gdtStart blockSize + g * 32)) A.gdtBitmap 4 * blockSize) = bitmap)
    (hfind : A.findBit sb count g bitmap = some bit) :
    A.allocGroup blockSize count g v sb = (A.number sb g bit,
      A.commit blockSize (v.useBuffer blockSize (setByteBit bitmap bit))
        (readLE (v.read (gdtStart blockSize + g * 32)) A.gdtBitmap 4 * blockSize)
        (gdtStart blockSize + g * 32) (setByteBit bitmap bit)
        (writeLE (v.read (gdtStart blockSize + g * 32)) A.gdtFree 2
          (readLE (v.read (gdtStart blockSize + g * 32)) A.gdtFree 2 - 1))
        (writeLE sb A.sbFree 4 (sub32 (readLE sb A.sbFree 4) 1)),
      writeLE sb A.sbFree 4 (sub32 (readLE sb A.sbFree 4) 1)) := by
  unfold allocGroup
  dsimp only
  rw [if_neg hcount, hbitmap, hfind]

theorem findBit_none_iff : A.findBit sb count g bitmap = none ↔
    ∀ bit < A.bitsInGroup sb count g, byteBit bitmap bit = true ∨ A.number sb g bit < A.usable sb := by
  simp only [findBit, find?_eq_none, mem_range, Bool.and_eq_true, Bool.not_eq_true',
    decide_eq_true_eq, not_and, not_le]
  refine forall₂_congr fun bit _ => ?_
  cases byteBit bitmap bit <;> simp

theorem findBit_some (hfind : A.findBit sb count g bitmap = some bit) :
    bit < A.bitsInGroup sb count g ∧ byteBit bitmap bit = false ∧ A.usable sb ≤ A.number sb g bit := by
  have hbit := find?_some hfind
  rw [Bool.and_eq_true, Bool.not_eq_true', decide_eq_true_eq] at hbit
  exact ⟨mem_range.mp (mem_of_find?_eq_some hfind), hbit⟩

/-- The bits before the one that is found are set or may not be given out. -/
theorem findBit_first (hfind : A.findBit sb count g bitmap = some bit) (hi : i < bit) :
    byteBit bitmap i = true ∨ A.number sb g i < A.usable sb := by
  have hnot := (find?_range_eq_some.mp hfind).2.2 i hi
  rw [Bool.not_eq_true', Bool.and_eq_false_iff, Bool.not_eq_false', decide_eq_false_iff_not, not_le] at hnot
  exact hnot

end Allocator

/-! ## The layout -/

namespace Layout

variable {L : Layout} {d d' : Mem} {g g' r : Nat}

theorem blockSize_pos (L : Layout) : 1024 ≤ L.blockSize := by
  rcases L.blockSize_eq with h | h | h <;> omega

theorem zero_lt_blockSize (L : Layout) : 0 < L.blockSize := by
  have := L.blockSize_pos
  omega

theorem gdtStart_ge (L : Layout) : 2048 ≤ gdtStart L.blockSize := by
  unfold gdtStart
  split <;> rcases L.blockSize_eq with h | h | h <;> omega

theorem mem_freeSet : b ∈ L.freeSet d ↔ b < L.total ∧ L.firstData ≤ b ∧ L.used d b = false := by
  simp [freeSet]

/-- A group exists if its first block does. -/
theorem lt_groups_iff : g < L.groups ↔ L.firstData + g * L.perGroup < L.total := by
  have hpos := L.perGroup_pos
  rw [groups, ← succ_le_iff, le_div_iff_mul_le hpos, succ_mul]
  omega

theorem group_lt (hlo : L.firstData ≤ b) (hb : b < L.total) : L.group b < L.groups := by
  rw [lt_groups_iff]
  have := div_mul_le_self (b - L.firstData) L.perGroup
  unfold group
  omega

theorem bit_lt (L : Layout) (b : Nat) : (b - L.firstData) % L.perGroup < L.perGroup :=
  mod_lt _ L.perGroup_pos

/-- The byte of a bit is inside the bitmap block. -/
theorem bit_byte_lt (L : Layout) (b : Nat) : (b - L.firstData) % L.perGroup / 8 < L.blockSize := by
  have := L.bit_lt b
  have := L.perGroup_le
  omega

theorem gdt_le_gdtEnd (hg : g < L.groups) : gdtStart L.blockSize + g * 32 + 32 ≤ L.gdtEnd := by
  unfold gdtEnd
  omega

/-- The bitmaps of two groups are apart. -/
theorem Sound.bitmap_apart (sound : L.Sound) (hg : g < L.groups) (hg' : g' < L.groups)
    (hne : g' ≠ g) : L.bitmapBlock g' * L.blockSize + L.blockSize ≤ L.bitmapBlock g * L.blockSize ∨
      L.bitmapBlock g * L.blockSize + L.blockSize ≤ L.bitmapBlock g' * L.blockSize := by
  have hblocks : L.bitmapBlock g' ≠ L.bitmapBlock g := fun h => hne (sound.bitmap_inj g' hg' g hg h)
  rcases lt_or_gt_of_ne hblocks with h | h
  · left
    rw [← succ_mul]
    exact mul_le_mul_right _ h
  · right
    rw [← succ_mul]
    exact mul_le_mul_right _ h

theorem Shaped.described (hd : L.Shaped d) : L.Described d :=
  ⟨hd.sound, hd.total, hd.perGroup, hd.bitmapBlock⟩

/-! ## An edit of one group -/

/-- The bitmap of a group and the counts are new, everything else is as it was. -/
structure Edited (L : Layout) (d d' : Mem) (g : Nat) (bits : Mem) (count total : Nat) : Prop where
  bitmap : ∀ i < L.blockSize, d' (L.bitmapBlock g * L.blockSize + i) = bits i
  count : L.unallocBlocksCount d' g = count
  total : totalUnallocBlocks d' = total
  same : ∀ a, (a < 1024 + 12 ∨ 1024 + 16 ≤ a) →
    (a < gdtStart L.blockSize + g * 32 + 12 ∨ gdtStart L.blockSize + g * 32 + 14 ≤ a) →
    (a < L.bitmapBlock g * L.blockSize ∨ L.bitmapBlock g * L.blockSize + L.blockSize ≤ a) → d' a = d a

/-- The three writes at the end of both functions. -/
theorem commit_edited {w : Volume} (bits : Mem) (count total : Nat) (hw : w.disk = v.disk)
    (sound : L.Sound) (hg : g < L.groups) (below : L.Below g) :
    L.Edited v.disk (blocks.commit L.blockSize w (L.bitmapBlock g * L.blockSize)
      (gdtStart L.blockSize + g * 32) bits
      (writeLE (v.read (gdtStart L.blockSize + g * 32)) 12 2 count)
      (writeLE (v.read 1024) 12 4 total)).disk g bits (count % 2 ^ 16) (total % 2 ^ 32) := by
  have hgdt := below.1
  have hbitmap := below.2
  rw [succ_mul] at hgdt hbitmap
  have hsize := L.blockSize_pos
  have hstart := L.gdtStart_ge
  have hge := sound.bitmap_ge g hg
  have hend := gdt_le_gdtEnd hg
  -- the bytes of the device after the three writes, which do not overlap
  have hdisk : ∀ a, (blocks.commit L.blockSize w (L.bitmapBlock g * L.blockSize)
      (gdtStart L.blockSize + g * 32) bits (writeLE (v.read (gdtStart L.blockSize + g * 32)) 12 2 count)
      (writeLE (v.read 1024) 12 4 total)).disk a =
      if 1024 ≤ a ∧ a < 1024 + 90 then writeLE (v.read 1024) 12 4 total (a - 1024)
      else if gdtStart L.blockSize + g * 32 ≤ a ∧ a < gdtStart L.blockSize + g * 32 + 32 then
        writeLE (v.read (gdtStart L.blockSize + g * 32)) 12 2 count (a - (gdtStart L.blockSize + g * 32))
      else if L.bitmapBlock g * L.blockSize ≤ a ∧ a < L.bitmapBlock g * L.blockSize + L.blockSize then
        bits (a - L.bitmapBlock g * L.blockSize)
      else v.disk a := by
    intro a
    unfold commit
    rw [write_disk (by rfl) (by omega), write_disk (by rfl) (by omega),
      write_disk (by rfl) (by omega), hw]
    rfl
  constructor
  · intro i hi
    rw [hdisk, if_neg (by omega), if_neg (by omega), if_pos (by omega), Nat.add_sub_cancel_left]
  · refine readLE_eq_mod fun j hj => ?_
    rw [hdisk, if_neg (by omega), if_pos (by omega), writeLE, if_pos (by omega),
      show gdtStart L.blockSize + g * 32 + 12 + j - (gdtStart L.blockSize + g * 32) - 12 = j by omega]
  · refine readLE_eq_mod fun j hj => ?_
    rw [hdisk, if_pos (by omega), writeLE, if_pos (by omega), show 1024 + 12 + j - 1024 - 12 = j by omega]
  · intro a hsb hcnt hbits
    rw [hdisk]
    split
    · rw [writeLE_of_outside (by omega), read_apply (by omega), show 1024 + (a - 1024) = a by omega]
    · split
      · rw [writeLE_of_outside (by omega), read_apply (by omega), Nat.add_sub_cancel' (by omega)]
      · rw [if_neg (by omega)]

namespace Edited

variable {bits : Mem} {count total : Nat}

section

variable (h : L.Edited d d' g bits count total)

include h

/-- The bitmaps of the other groups. -/
theorem bitmap_other (sound : L.Sound) (hg : g < L.groups) (hg' : g' < L.groups) (hne : g' ≠ g)
    (hi : i < L.blockSize) : L.bitmap d' g' i = L.bitmap d g' i := by
  have hapart := sound.bitmap_apart hg hg' hne
  have hge := sound.bitmap_ge g' hg'
  have hstart := L.gdtStart_ge
  have hend := gdt_le_gdtEnd hg
  exact h.same _ (by omega) (by omega) (by omega)

theorem used (sound : L.Sound) (hg : g < L.groups) (hlo : L.firstData ≤ b) (hb : b < L.total) :
    L.used d' b = if L.group b = g then byteBit bits ((b - L.firstData) % L.perGroup) else L.used d b := by
  have hbyte := L.bit_byte_lt b
  unfold Layout.used
  split
  · next hgroup => rw [hgroup]; exact byteBit_congr (h.bitmap _ hbyte)
  · next hgroup =>
    exact byteBit_congr (h.bitmap_other sound hg (group_lt hlo hb) hgroup hbyte)

/-- The superblock and the descriptors still say where the bitmaps are. -/
theorem described (hd : L.Described d) (hg : g < L.groups) : L.Described d' := by
  have hstart := L.gdtStart_ge
  have hge := hd.sound.bitmap_ge g hg
  have hend := gdt_le_gdtEnd hg
  refine ⟨hd.sound, ?_, ?_, ?_⟩
  · rw [← hd.total]
    exact readLE_congr fun a _ _ => h.same a (by omega) (by omega) (by omega)
  · rw [← hd.perGroup]
    exact readLE_congr fun a _ _ => h.same a (by omega) (by omega) (by omega)
  · intro g' hg'
    rw [← hd.bitmapBlock g' hg']
    have hend' := gdt_le_gdtEnd hg'
    exact readLE_congr fun a _ _ => h.same a (by omega) (by omega) (by omega)

theorem shaped (shaped : L.Shaped d) (hg : g < L.groups)
    (marked : ∀ b, L.metadata b → L.firstData ≤ b → b < L.total → L.used d' b) : L.Shaped d' := by
  have hstart := L.gdtStart_ge
  have hge := shaped.sound.bitmap_ge g hg
  obtain ⟨hsound, htotal, hper, hbitmap⟩ := h.described shaped.described hg
  refine ⟨hsound, htotal, hper, hbitmap, fun g' hg' => ?_, marked⟩
  rw [← shaped.inodeTable g' hg']
  have hend' := gdt_le_gdtEnd hg'
  exact readLE_congr fun a _ _ => h.same a (by omega) (by omega) (by omega)

/-- The counts of the other groups. -/
theorem count_other (sound : L.Sound) (hg : g < L.groups) (hg' : g' < L.groups) (hne : g' ≠ g) :
    L.unallocBlocksCount d' g' = L.unallocBlocksCount d g' := by
  have hstart := L.gdtStart_ge
  have hge := sound.bitmap_ge g hg
  have hend' := gdt_le_gdtEnd hg'
  exact readLE_congr fun a _ _ => h.same a (by omega) (by omega) (by omega)

end

end Edited

/-! ## The set of free blocks -/

/-- A block is given by its group and its bit. -/
theorem eq_of_group_bit (hb : L.firstData ≤ b) (hr : L.firstData ≤ r)
    (hgroup : L.group b = L.group r)
    (hbit : (b - L.firstData) % L.perGroup = (r - L.firstData) % L.perGroup) : b = r := by
  unfold group at hgroup
  have hdb := div_add_mod (b - L.firstData) L.perGroup
  have hdr := div_add_mod (r - L.firstData) L.perGroup
  rw [hgroup, hbit] at hdb
  omega

namespace Edited

variable {count total r : Nat} {bits : Mem}

/-- If only the bit of one block changes, the other blocks are as free as before. -/
theorem mem_freeSet_of_ne (h : L.Edited d d' (L.group r) bits count total) (sound : L.Sound)
    (hlo : L.firstData ≤ r) (hr : r < L.total) (hbits : ∀ i, i ≠ (r - L.firstData) % L.perGroup →
      byteBit bits i = byteBit (L.bitmap d (L.group r)) i) (hne : b ≠ r) :
    b ∈ L.freeSet d' ↔ b ∈ L.freeSet d := by
  rw [mem_freeSet, mem_freeSet]
  refine and_congr_right fun hb => and_congr_right fun hbd => ?_
  rw [h.used sound (group_lt hlo hr) hbd hb]
  by_cases hgroup : L.group b = L.group r
  · rw [if_pos hgroup, hbits _ fun hbit => hne (eq_of_group_bit hbd hlo hgroup hbit), ← hgroup]
    rfl
  · rw [if_neg hgroup]

/-- Marking a block takes it out of the free blocks. -/
theorem freeSet_mark (h : L.Edited d d' (L.group r)
      (setByteBit (L.bitmap d (L.group r)) ((r - L.firstData) % L.perGroup)) count total)
    (sound : L.Sound) (hlo : L.firstData ≤ r) (hr : r < L.total) :
    L.freeSet d' = (L.freeSet d).erase r := by
  ext b
  rw [Finset.mem_erase]
  by_cases hbr : b = r
  · rw [hbr, mem_freeSet, h.used sound (group_lt hlo hr) hlo hr]
    simp
  · rw [h.mem_freeSet_of_ne sound hlo hr (fun i hi => by simp [hi]) hbr, and_iff_right hbr]

/-- Clearing the mark of a block puts it into the free blocks. -/
theorem freeSet_clear (h : L.Edited d d' (L.group r)
      (clearByteBit (L.bitmap d (L.group r)) ((r - L.firstData) % L.perGroup)) count total)
    (sound : L.Sound) (hlo : L.firstData ≤ r) (hr : r < L.total) :
    L.freeSet d' = insert r (L.freeSet d) := by
  ext b
  rw [Finset.mem_insert]
  by_cases hbr : b = r
  · rw [hbr, mem_freeSet, h.used sound (group_lt hlo hr) hlo hr]
    simp [hlo, hr]
  · rw [h.mem_freeSet_of_ne sound hlo hr (fun i hi => by simp [hi]) hbr, or_iff_right hbr]

/-- Metadata stays marked if no metadata is freed. -/
theorem shaped_of_freeSet {bits : Mem} (h : L.Edited d d' g bits count total) (hd : L.Shaped d)
    (hg : g < L.groups) (free : ∀ b ∈ L.freeSet d', b ∈ L.freeSet d ∨ ¬ L.metadata b) :
    L.Shaped d' := by
  refine h.shaped hd hg fun b hmeta hlo hb => ?_
  by_contra hused
  have hfree : b ∈ L.freeSet d' := mem_freeSet.mpr ⟨hb, hlo, by simpa using hused⟩
  rcases free b hfree with hfree | hdata
  · have hunused := (mem_freeSet.mp hfree).2.2
    rw [hd.metadata b hmeta hlo hb] at hunused
    exact absurd hunused (by decide)
  · exact hdata hmeta

end Edited

/-- A free block is no metadata. -/
theorem Shaped.not_metadata (hd : L.Shaped d) (hb : b ∈ L.freeSet d) : ¬ L.metadata b := by
  intro hmeta
  obtain ⟨hlt, hlo, hfree⟩ := mem_freeSet.mp hb
  rw [hd.metadata b hmeta hlo hlt] at hfree
  exact absurd hfree (by decide)

/-! ## One group -/

variable {v : Volume}

theorem Described.read_perGroup (hd : L.Described v.disk) : readLE (v.read 1024) 32 4 = L.perGroup :=
  (readLE_read (by omega) _ _).trans hd.perGroup

theorem Described.read_total (hd : L.Described v.disk) : readLE (v.read 1024) 4 4 = L.total :=
  (readLE_read (by omega) _ _).trans hd.total

theorem Below.read_bitmap (below : L.Below g) :
    v.read (L.bitmapBlock g * L.blockSize) = L.bitmap v.disk g := by
  have hend := below.2
  have hsize := L.blockSize_pos
  rw [succ_mul] at hend
  funext i
  exact read_apply (by omega) i

/-- The bits that are looked at are those of the blocks of the group. -/
theorem Described.lt_bitsInGroup_iff (hd : L.Described v.disk) (hsize : L.blockSize ≠ 1024)
    (htotal : L.total + L.perGroup ≤ 2 ^ 32) (hg : g < L.groups) (i : Nat) :
    i < blocks.bitsInGroup (v.read 1024) L.groups g ↔ i < L.perGroup ∧ g * L.perGroup + i < L.total := by
  have hfirst : L.firstData = 0 := if_neg hsize
  have hin : g * L.perGroup < L.total := by
    have := lt_groups_iff.mp hg
    omega
  have hnext : g + 1 < L.groups ↔ (g + 1) * L.perGroup < L.total := by
    have := lt_groups_iff (L := L) (g := g + 1)
    rwa [hfirst, zero_add] at this
  have hgroups : L.groups < 2 ^ 32 := by
    have : L.groups ≤ L.total - L.firstData + L.perGroup - 1 := div_le_self _ _
    omega
  rw [succ_mul] at hnext
  unfold bitsInGroup
  simp only [blocks]
  rw [hd.read_perGroup, hd.read_total, sub32_eq (by omega) hgroups, sub32_eq (by omega) L.total_lt]
  split <;> omega

/-- One turn of the loop of `ext2_alloc_block`. -/
theorem Described.allocGroup (hd : L.Described v.disk) (hsize : L.blockSize ≠ 1024)
    (htotal : L.total + L.perGroup ≤ 2 ^ 32) (hg : g < L.groups)
    (hgdt : gdtStart L.blockSize + (g + 1) * 32 ≤ 2 ^ 32)
    (below : L.unallocBlocksCount v.disk g ≠ 0 → L.Below g) :
    (L.Exhausted v.disk g ∧ ∃ v' : Volume, v'.disk = v.disk ∧
      blocks.allocGroup L.blockSize L.groups g v (v.read 1024) = (0, v', v.read 1024)) ∨
    L.Below g ∧ ∃ r ∈ L.freeSet v.disk, ∃ v' sb, L.group r = g ∧ (∀ b ∈ L.freeSet v.disk, L.group b = g → r ≤ b) ∧
      blocks.allocGroup L.blockSize L.groups g v (v.read 1024) = (r, v', sb) ∧
      L.Edited v.disk v'.disk g (setByteBit (L.bitmap v.disk g) ((r - L.firstData) % L.perGroup))
        (L.unallocBlocksCount v.disk g - 1) (sub32 (totalUnallocBlocks v.disk) 1) := by
  have hfirst : L.firstData = 0 := if_neg hsize
  have hcount : readLE (v.read (gdtStart L.blockSize + g * 32)) blocks.gdtFree 2 =
      L.unallocBlocksCount v.disk g := readLE_read (by omega) _ _
  by_cases hzero : L.unallocBlocksCount v.disk g = 0
  · exact .inl ⟨.inl hzero, v, rfl, allocGroup_skip (hcount.trans hzero)⟩
  replace below := below hzero
  have hsb : readLE (v.read 1024) blocks.sbFree 4 = totalUnallocBlocks v.disk := readLE_read (by omega) _ _
  have haddr : readLE (v.read (gdtStart L.blockSize + g * 32)) blocks.gdtBitmap 4 = L.bitmapBlock g :=
    (readLE_read (by omega) _ _).trans (hd.bitmapBlock g hg)
  have hbits := hd.lt_bitsInGroup_iff hsize htotal hg
  -- the block of a bit of the group
  have hblock : ∀ i < L.perGroup, L.group (g * L.perGroup + i) = g ∧
      (g * L.perGroup + i - L.firstData) % L.perGroup = i := by
    intro i hi
    rw [group, hfirst, Nat.sub_zero, Nat.mul_comm, Nat.mul_add_div L.perGroup_pos, Nat.div_eq_of_lt hi,
      mul_add_mod, mod_eq_of_lt hi]
    exact ⟨rfl, rfl⟩
  have hbitmap : v.read (readLE (v.read (gdtStart L.blockSize + g * 32)) blocks.gdtBitmap 4 * L.blockSize) =
      L.bitmap v.disk g := by rw [haddr, below.read_bitmap]
  -- the bit of a free block of the group
  have hbitOf : ∀ b ∈ L.freeSet v.disk, L.group b = g →
      b % L.perGroup < blocks.bitsInGroup (v.read 1024) L.groups g ∧
        byteBit (L.bitmap v.disk g) (b % L.perGroup) = false ∧ g * L.perGroup + b % L.perGroup = b := by
    intro b hb hgroup
    obtain ⟨hlt, -, hfree⟩ := mem_freeSet.mp hb
    have hdm := div_add_mod b L.perGroup
    rw [used, hgroup, hfirst, Nat.sub_zero] at hfree
    rw [group, hfirst, Nat.sub_zero] at hgroup
    rw [hgroup, mul_comm] at hdm
    exact ⟨(hbits _).mpr ⟨mod_lt _ L.perGroup_pos, by omega⟩, hfree, hdm⟩
  have hnonzero : readLE (v.read (gdtStart L.blockSize + g * 32)) blocks.gdtFree 2 ≠ 0 := by rwa [hcount]
  cases hfind : blocks.findBit (v.read 1024) L.groups g (L.bitmap v.disk g) with
  | none =>
    refine .inl ⟨.inr fun b hb hgroup => ?_, _, useBuffer_disk _ _ _,
      allocGroup_none hnonzero hbitmap hfind⟩
    obtain ⟨hbit, hfree, -⟩ := hbitOf b hb hgroup
    rcases findBit_none_iff.mp hfind (b % L.perGroup) hbit with hset | hsmall
    · rw [hfree] at hset
      exact absurd hset (by decide)
    · exact absurd hsmall (not_lt_zero _)
  | some i =>
    obtain ⟨hlt, hclear, -⟩ := findBit_some hfind
    have hi := (hbits i).mp hlt
    obtain ⟨hgroup, hbit⟩ := hblock i hi.1
    have hnumber : blocks.number (v.read 1024) g i = g * L.perGroup + i := by
      have hnum : blocks.number (v.read 1024) g i = (g * readLE (v.read 1024) 32 4 + i + 0) % 2 ^ 32 := rfl
      rw [hnum, hd.read_perGroup, mod_eq_of_lt (by omega), add_zero]
    refine .inr ⟨below, g * L.perGroup + i, mem_freeSet.mpr ⟨hi.2, by omega, ?_⟩, _, _, hgroup, fun b hb hgroup' => ?_,
      hnumber ▸ allocGroup_some hnonzero hbitmap hfind, ?_⟩
    · rw [used, hgroup, hbit]
      exact hclear
    · obtain ⟨hbit', hfree, hdm⟩ := hbitOf b hb hgroup'
      by_contra hlt'
      rcases findBit_first hfind (by omega : b % L.perGroup < i) with hset | hsmall
      · rw [hfree] at hset
        exact absurd hset (by decide)
      · exact absurd hsmall (not_lt_zero _)
    · rw [hbit, haddr, hcount, hsb]
      have hcount' : L.unallocBlocksCount v.disk g < 256 ^ 2 := readLE_lt _ _ _
      have hedit := commit_edited (setByteBit (L.bitmap v.disk g) i) (L.unallocBlocksCount v.disk g - 1)
        (sub32 (totalUnallocBlocks v.disk) 1)
        (v.useBuffer_disk L.blockSize (setByteBit (L.bitmap v.disk g) i)) hd.sound hg below
      rwa [mod_eq_of_lt (by omega), sub32, mod_mod, ← sub32] at hedit

/-! ## `ext2_alloc_block` -/

/-- A free block is taken: it is marked, and the counts go down by one. -/
structure Takes (L : Layout) (d d' : Mem) (r : Nat) : Prop where
  free : r ∈ L.freeSet d
  below : L.Below (L.group r)
  first : ∀ b ∈ L.freeSet d, L.group b = L.group r → r ≤ b
  passed : ∀ g < L.group r, L.Exhausted d g
  edited : L.Edited d d' (L.group r) (setByteBit (L.bitmap d (L.group r)) ((r - L.firstData) % L.perGroup))
    (L.unallocBlocksCount d (L.group r) - 1) (sub32 (totalUnallocBlocks d) 1)

/-- Block 0 is never free. -/
theorem Shaped.ne_zero (hd : L.Shaped d) (hb : b ∈ L.freeSet d) : b ≠ 0 := by
  rintro rfl
  have hstart := L.gdtStart_ge
  refine hd.not_metadata hb (hd.sound.head_metadata 0 ?_)
  unfold gdtEnd
  omega

/-- The loop over the groups: all groups are passed over, or a block of the first other one is taken. -/
theorem Described.allocLoop (hd : L.Described d) (hsize : L.blockSize ≠ 1024)
    (htotal : L.total + L.perGroup ≤ 2 ^ 32) (hzero : ∀ b ∈ L.freeSet d, b ≠ 0)
    (below : ∀ g < L.groups, (∀ g' < g, L.Exhausted d g') →
      gdtStart L.blockSize + (g + 1) * 32 ≤ 2 ^ 32 ∧ (L.unallocBlocksCount d g ≠ 0 → L.Below g))
    (left : Nat) :
    ∀ (g : Nat) (v : Volume), v.disk = d → g + left = L.groups → (∀ g' < g, L.Exhausted d g') →
      ((∀ g' < L.groups, L.Exhausted d g') ∧
        (blocks.allocLoop L.blockSize L.groups left g v (v.read 1024)).1 = 0 ∧
        (blocks.allocLoop L.blockSize L.groups left g v (v.read 1024)).2.disk = d) ∨
      L.Takes d (blocks.allocLoop L.blockSize L.groups left g v (v.read 1024)).2.disk
        (blocks.allocLoop L.blockSize L.groups left g v (v.read 1024)).1 := by
  induction left with
  | zero =>
    intro g v hv hg passed
    exact .inl ⟨fun g' hg' => passed g' (by omega), rfl, hv⟩
  | succ left ih =>
    intro g v hv hg passed
    subst hv
    have hlt : g < L.groups := by omega
    obtain ⟨hgdt, hbelow⟩ := below g hlt passed
    rcases hd.allocGroup hsize htotal hlt hgdt hbelow with
      ⟨hpassed, v', hv', hturn⟩ | ⟨hbelow, r, hr, v', sb, hgroup, hfirst, hturn, hedit⟩
    · have hread : v.read 1024 = v'.read 1024 := by
        unfold Volume.read
        rw [hv']
      unfold allocLoop
      rw [hturn]
      rw [hread]
      refine ih (g + 1) v' hv' (by omega) fun g' hg' => ?_
      rcases Nat.lt_succ_iff_lt_or_eq.mp hg' with hg' | rfl
      · exact passed g' hg'
      · exact hpassed
    · unfold allocLoop
      rw [hturn]
      simp only [if_neg (hzero r hr)]
      subst hgroup
      exact .inr ⟨hr, hbelow, hfirst, passed, hedit⟩

/-- The number of groups that the code computes, unless the sum wraps around. -/
theorem Described.allocBlock_eq (hd : L.Described v.disk) (hsize : L.blockSize ≠ 1024)
    (htotal : L.total + L.perGroup ≤ 2 ^ 32) (hfree : totalUnallocBlocks v.disk ≠ 0) :
    allocBlock L.blockSize v = blocks.allocLoop L.blockSize L.groups L.groups 0 v (v.read 1024) := by
  have hper : readLE (v.read 1024) blocks.sbPerGroup 4 = L.perGroup := hd.read_perGroup
  have htot : readLE (v.read 1024) blocks.sbTotal 4 = L.total := hd.read_total
  have hsb : readLE (v.read 1024) blocks.sbFree 4 = totalUnallocBlocks v.disk := readLE_read (by omega) _ _
  have hpos := L.perGroup_pos
  have hsum : sub32 (L.total + L.perGroup) 1 = L.total + L.perGroup - 1 := by
    rw [sub32]
    omega
  have hgroups : (L.total + L.perGroup - 1) / L.perGroup = L.groups := by
    rw [groups, firstData, if_neg hsize, Nat.sub_zero]
  unfold allocBlock allocate
  rw [if_neg (by rwa [hsb]), groupCount, hper, htot, hsum, hgroups]

/-- A sum that wraps around gives no group at all. -/
theorem Described.allocBlock_wraps (hd : L.Described v.disk) (htotal : 2 ^ 32 < L.total + L.perGroup) :
    allocBlock L.blockSize v = (0, v) := by
  have hper : readLE (v.read 1024) blocks.sbPerGroup 4 = L.perGroup := hd.read_perGroup
  have htot : readLE (v.read 1024) blocks.sbTotal 4 = L.total := hd.read_total
  have hsum : sub32 (L.total + L.perGroup) 1 < L.perGroup := by
    have := L.total_lt
    rw [sub32]
    omega
  unfold allocBlock allocate
  dsimp only
  split
  · rfl
  · rw [groupCount, hper, htot, div_eq_of_lt hsum]
    rfl

theorem allocBlock_full (hfree : totalUnallocBlocks v.disk = 0) (blockSize : Nat) :
    allocBlock blockSize v = (0, v) :=
  if_pos ((readLE_read (by omega) _ _).trans hfree)

/-- What a careful call of `ext2_alloc_block` does. -/
theorem Shaped.allocBlock (hd : L.Shaped v.disk) (careful : L.Careful v.disk) :
    ((totalUnallocBlocks v.disk = 0 ∨ 2 ^ 32 < L.total + L.perGroup ∨
        ∀ g < L.groups, L.Exhausted v.disk g) ∧
      (allocBlock L.blockSize v).1 = 0 ∧ (allocBlock L.blockSize v).2.disk = v.disk) ∨
    L.blockSize ≠ 1024 ∧
      L.Takes v.disk (allocBlock L.blockSize v).2.disk (allocBlock L.blockSize v).1 := by
  by_cases hfree : totalUnallocBlocks v.disk = 0
  · rw [allocBlock_full hfree]
    exact .inl ⟨.inl hfree, rfl, rfl⟩
  by_cases hwrap : 2 ^ 32 < L.total + L.perGroup
  · rw [hd.described.allocBlock_wraps hwrap]
    exact .inl ⟨.inr (.inl hwrap), rfl, rfl⟩
  obtain ⟨hsize, below⟩ := (careful.resolve_left hfree).resolve_left hwrap
  rw [hd.described.allocBlock_eq hsize (by omega) hfree]
  rcases hd.described.allocLoop hsize (by omega) (fun b => hd.ne_zero)
    (fun g hg passed => ⟨(below g hg passed).1, fun _ => below g hg passed⟩)
    L.groups 0 v rfl (by omega) (by omega) with
    ⟨hnone, hresult⟩ | htakes
  · exact .inl ⟨.inr (.inr hnone), hresult⟩
  · exact .inr ⟨hsize, htakes⟩

namespace Takes

variable {r : Nat}

theorem freeSet (h : L.Takes d d' r) (sound : L.Sound) : L.freeSet d' = (L.freeSet d).erase r := by
  obtain ⟨hlt, hlo, -⟩ := mem_freeSet.mp h.free
  exact h.edited.freeSet_mark sound hlo hlt

theorem shaped (h : L.Takes d d' r) (hd : L.Shaped d) : L.Shaped d' := by
  obtain ⟨hlt, hlo, -⟩ := mem_freeSet.mp h.free
  refine h.edited.shaped_of_freeSet hd (group_lt hlo hlt) fun b hb => .inl ?_
  rw [h.freeSet hd.sound] at hb
  exact Finset.mem_of_mem_erase hb

theorem allocates (h : L.Takes d d' r) (hd : L.Shaped d) : L.Allocates d r d' := by
  refine ⟨.inr ⟨h.free, hd.not_metadata h.free⟩, ?_⟩
  rw [if_neg (hd.ne_zero h.free), h.freeSet hd.sound]

end Takes

theorem Shaped.allocates (hd : L.Shaped v.disk) (careful : L.Careful v.disk) :
    L.Allocates v.disk (Ext2.allocBlock L.blockSize v).1 (Ext2.allocBlock L.blockSize v).2.disk := by
  rcases hd.allocBlock careful with ⟨-, hzero, hdisk⟩ | ⟨-, htakes⟩
  · refine ⟨.inl hzero, ?_⟩
    rw [hzero, hdisk, if_pos rfl]
  · exact htakes.allocates hd

/-! ## `ext2_free_block` -/

/-- The mark of a block is removed, and the counts go up by one. -/
theorem Described.freeBlock (hd : L.Described v.disk) (hsize : L.blockSize ≠ 1024) (hr : r < L.total)
    (below : L.Below (L.group r)) :
    L.Edited v.disk (freeBlock L.blockSize v r).disk (L.group r)
      (clearByteBit (L.bitmap v.disk (L.group r)) ((r - L.firstData) % L.perGroup))
      ((L.unallocBlocksCount v.disk (L.group r) + 1) % 2 ^ 16)
      ((totalUnallocBlocks v.disk + 1) % 2 ^ 32) := by
  have hfirst : L.firstData = 0 := if_neg hsize
  have hgroup : r / L.perGroup = L.group r := by rw [group, hfirst, Nat.sub_zero]
  have hg : L.group r < L.groups := group_lt (by omega) hr
  have hgdt := below.1
  have hcount : readLE (v.read (gdtStart L.blockSize + L.group r * 32)) 12 2 =
      L.unallocBlocksCount v.disk (L.group r) := readLE_read (by omega) _ _
  have hsb : readLE (v.read 1024) 12 4 = totalUnallocBlocks v.disk := readLE_read (by omega) _ _
  have haddr : readLE (v.read (gdtStart L.blockSize + L.group r * 32)) 0 4 = L.bitmapBlock (L.group r) :=
    (readLE_read (by omega) _ _).trans (hd.bitmapBlock _ hg)
  unfold Ext2.freeBlock
  dsimp only
  rw [hd.read_perGroup, hgroup, haddr, hcount, hsb, below.read_bitmap, hfirst, Nat.sub_zero]
  exact commit_edited _ _ _ (v.useBuffer_disk _ _) hd.sound hg below

/-! ## Runs -/

/-- What holds in every state: the blocks given out may be freed. -/
structure RunInv (L : Layout) (v : Volume) (returned : List Nat) : Prop where
  shaped : L.Shaped v.disk
  returned : ∀ b ∈ returned, L.blockSize ≠ 1024 ∧ b < L.total ∧ ¬ L.metadata b ∧ L.Below (L.group b)

namespace RunInv

variable {returned : List Nat} {block : Nat}

theorem alloc (h : L.RunInv v returned) (careful : L.Careful v.disk) :
    L.RunInv (allocBlock L.blockSize v).2 (if (allocBlock L.blockSize v).1 = 0 then returned
      else (allocBlock L.blockSize v).1 :: returned) := by
  rcases h.shaped.allocBlock careful with ⟨-, hzero, hdisk⟩ | ⟨hsize, htakes⟩
  · rw [if_pos hzero]
    exact ⟨hdisk ▸ h.shaped, h.returned⟩
  · rw [if_neg (h.shaped.ne_zero htakes.free)]
    refine ⟨htakes.shaped h.shaped, fun b hb => ?_⟩
    rcases mem_cons.mp hb with rfl | hb
    · exact ⟨hsize, (mem_freeSet.mp htakes.free).1, h.shaped.not_metadata htakes.free, htakes.below⟩
    · exact h.returned b hb

theorem frees (h : L.RunInv v returned) (hblock : block ∈ returned) :
    L.Frees v.disk block (freeBlock L.blockSize v block).disk := by
  obtain ⟨hsize, hlt, -, below⟩ := h.returned block hblock
  have hfirst : L.firstData = 0 := if_neg hsize
  exact (h.shaped.described.freeBlock hsize hlt below).freeSet_clear h.shaped.sound (by omega) hlt

theorem free (h : L.RunInv v returned) (hblock : block ∈ returned) :
    L.RunInv (freeBlock L.blockSize v block) returned := by
  obtain ⟨hsize, hlt, hdata, below⟩ := h.returned block hblock
  have hfirst : L.firstData = 0 := if_neg hsize
  refine ⟨?_, h.returned⟩
  refine (h.shaped.described.freeBlock hsize hlt below).shaped_of_freeSet h.shaped (group_lt (by omega) hlt)
    fun b hb => ?_
  rw [h.frees hblock] at hb
  rcases Finset.mem_insert.mp hb with rfl | hb
  · exact .inr hdata
  · exact .inl hb

end RunInv

theorem Run.inv {returned : List Nat} (run : L.Run v returned) : L.RunInv v returned := by
  induction run with
  | init h => exact ⟨h.toShaped, nofun⟩
  | alloc _ careful ih => exact ih.alloc careful
  | free _ hblock ih => exact ih.free hblock

/-- In every state that careful calls lead to, a careful call of `ext2_alloc_block` gives 0 or a free block
of the volume and marks it, and `ext2_free_block` removes the mark of its block only. -/
theorem run_serves {returned : List Nat} (run : L.Run v returned) :
    (L.Careful v.disk →
      L.Allocates v.disk (Ext2.allocBlock L.blockSize v).1 (Ext2.allocBlock L.blockSize v).2.disk) ∧
    ∀ block ∈ returned, L.Frees v.disk block (Ext2.freeBlock L.blockSize v block).disk :=
  ⟨run.inv.shaped.allocates, fun _ hblock => run.inv.frees hblock⟩

/-- The format of a volume with one group, whose metadata are the blocks up to `n`. -/
theorem wellFormed_of_one {n : Nat} (hmeta : L.metadata = (· ≤ n))
    (h : L.groups = 1 ∧ L.bitmapBlock 0 < L.total ∧ L.bitmapBlock 0 ≤ n ∧
      L.gdtEnd ≤ L.bitmapBlock 0 * L.blockSize ∧ L.gdtEnd ≤ (n + 1) * L.blockSize ∧
      readLE d (1024 + 4) 4 = L.total ∧ readLE d (1024 + 32) 4 = L.perGroup ∧
      readLE d (gdtStart L.blockSize) 4 = L.bitmapBlock 0 ∧
      readLE d (gdtStart L.blockSize + 8) 4 = L.inodeTable 0 ∧
      (∀ b ≤ n, L.firstData ≤ b → L.used d b) ∧
      totalUnallocBlocks d = (L.freeSet d).card ∧
      L.unallocBlocksCount d 0 = ((L.freeSet d).filter fun b => L.group b = 0).card) :
    L.WellFormed d := by
  obtain ⟨hgroups, hlt, hle, hbitmap, hend, total, perGroup, bitmapBlock, inodeTable, marked,
    totalFree, free⟩ := h
  have head : ∀ b, b * L.blockSize < L.gdtEnd → L.metadata b := by
    intro b hb
    rw [hmeta]
    exact Nat.le_of_lt_succ (Nat.lt_of_mul_lt_mul_right (hb.trans_le hend))
  have hzero : ∀ g < L.groups, g = 0 := fun g hg => by omega
  refine ⟨⟨⟨fun g hg => ?_, fun g hg => ?_, fun g hg g' hg' _ => ?_, fun g hg => ?_, head⟩,
    total, perGroup, fun g hg => ?_, fun g hg => ?_, fun b hb hlo _ => ?_⟩, totalFree, fun g hg => ?_⟩
  · rw [hzero g hg]
    exact hlt
  · rw [hzero g hg]
    exact hbitmap
  · rw [hzero g hg, hzero g' hg']
  · rw [hzero g hg, hmeta]
    exact hle
  · rw [hzero g hg, zero_mul, add_zero]
    exact bitmapBlock
  · rw [hzero g hg, zero_mul, add_zero]
    exact inodeTable
  · rw [hmeta] at hb
    exact marked b hb hlo
  · rw [hzero g hg]
    exact free

/-- A volume of one group with 16 blocks: the superblock, one descriptor and the bitmaps. -/
def smallDisk (blockSize bitmapBlock free : Nat) (bits : BitVec 8) : Mem :=
  let disk := writeLE (writeLE (writeLE (fun _ => 0) (1024 + 4) 4 16) (1024 + 32) 4 8192) (1024 + 12) 4 free
  let disk := writeLE (writeLE disk (gdtStart blockSize) 4 bitmapBlock) (gdtStart blockSize + 12) 2 free
  -- 16 inodes, of which the first 11 are in use; their bitmap is behind that of the blocks
  let disk := writeLE (writeLE (writeLE disk 1024 4 16) (1024 + 16) 4 5) (1024 + 40) 4 16
  let disk := writeLE (writeLE disk (1024 + 84) 4 11) (gdtStart blockSize + 4) 4 (bitmapBlock + 1)
  let disk := writeLE (writeLE disk (gdtStart blockSize + 14) 2 5) ((bitmapBlock + 1) * blockSize) 2 0x07ff
  let disk := writeLE disk (gdtStart blockSize + 8) 4 (bitmapBlock + 2)
  write8 disk (bitmapBlock * blockSize) bits

/-- Blocks of 4 KiB: block 2 is the bitmap, and the blocks up to 5 are metadata. -/
def smallLayout : Layout where
  blockSize := 4096
  total := 16
  perGroup := 8192
  bitmapBlock := fun _ => 2
  inodeTable := fun _ => 4
  metadata := fun b => b ≤ 5
  blockSize_eq := by decide
  perGroup_pos := by decide
  perGroup_le := by decide
  total_pos := by decide
  total_lt := by decide

theorem smallLayout_groups : smallLayout.groups = 1 := by decide

theorem smallLayout_wellFormed : smallLayout.WellFormed (smallDisk 4096 2 10 0x3f) :=
  wellFormed_of_one (n := 5) rfl (by decide +kernel)

theorem run_serves_smallLayout :
    smallLayout.Careful (smallDisk 4096 2 10 0x3f) ∧
    smallLayout.Allocates (smallDisk 4096 2 10 0x3f)
      (Ext2.allocBlock 4096 ⟨smallDisk 4096 2 10 0x3f, fun _ => 0⟩).1
      (Ext2.allocBlock 4096 ⟨smallDisk 4096 2 10 0x3f, fun _ => 0⟩).2.disk := by
  have careful : smallLayout.Careful (smallDisk 4096 2 10 0x3f) := by
    refine .inr (.inr ⟨by decide, fun g hg _ => ?_⟩)
    obtain rfl : g = 0 := by rw [smallLayout_groups] at hg; omega
    exact ⟨by decide, by decide⟩
  have run : smallLayout.Run ⟨smallDisk 4096 2 10 0x3f, fun _ => 0⟩ [] := .init smallLayout_wellFormed
  exact ⟨careful, (run_serves run).1 careful⟩

/-- Blocks of 1 KiB: block 3 is the bitmap, the blocks up to 5 are metadata and block 6 is in use. -/
def kilobyteLayout : Layout where
  blockSize := 1024
  total := 16
  perGroup := 8192
  bitmapBlock := fun _ => 3
  inodeTable := fun _ => 5
  metadata := fun b => b ≤ 5
  blockSize_eq := by decide
  perGroup_pos := by decide
  perGroup_le := by decide
  total_pos := by decide
  total_lt := by decide

theorem kilobyteLayout_wellFormed : kilobyteLayout.WellFormed (smallDisk 1024 3 9 0x3f) :=
  wellFormed_of_one (n := 5) rfl (by decide +kernel)

/-- Bit 6 stands for block 7, but the call gives block 6, which is in use. -/
theorem not_allocates_kilobyteLayout :
    kilobyteLayout.Run ⟨smallDisk 1024 3 9 0x3f, fun _ => 0⟩ [] ∧
    (Ext2.allocBlock 1024 ⟨smallDisk 1024 3 9 0x3f, fun _ => 0⟩).1 = 6 ∧
    kilobyteLayout.used (smallDisk 1024 3 9 0x3f) 6 = true ∧
    ¬ kilobyteLayout.Allocates (smallDisk 1024 3 9 0x3f)
      (Ext2.allocBlock 1024 ⟨smallDisk 1024 3 9 0x3f, fun _ => 0⟩).1
      (Ext2.allocBlock 1024 ⟨smallDisk 1024 3 9 0x3f, fun _ => 0⟩).2.disk := by
  have hresult : (allocBlock 1024 ⟨smallDisk 1024 3 9 0x3f, fun _ => 0⟩).1 = 6 := by decide +kernel
  have hused : kilobyteLayout.used (smallDisk 1024 3 9 0x3f) 6 = true := by decide +kernel
  refine ⟨.init kilobyteLayout_wellFormed, hresult, hused, fun h => ?_⟩
  rw [hresult] at h
  rcases h.1 with hzero | ⟨hfree, -⟩
  · exact absurd hzero (by decide)
  · have := (mem_freeSet.mp hfree).2.2
    exact absurd this (by decide)

end Layout

/-! ## `ext2_alloc_inode` -/

/-- The handle of the device is not writeable, so nothing is written back. -/
theorem inodes_commit (blockSize : Nat) (v : Volume) (bitmapAddr gdtAddr : Nat) (bitmap gdt sb : Mem) :
    inodes.commit blockSize v bitmapAddr gdtAddr bitmap gdt sb = v := by
  have hmode : writeable inodes.mode = false := rfl
  unfold commit
  rw [write_refused hmode, write_refused hmode, write_refused hmode]

/-- The numbers of inodes do not wrap around to 0. -/
theorem inodes_number_ne_zero {sb : Mem} (hg : g < inodes.groupCount sb)
    (hbit : bit < inodes.bitsInGroup sb (inodes.groupCount sb) g) : inodes.number sb g bit ≠ 0 := by
  have htotal : readLE sb inodes.sbTotal 4 < 2 ^ 32 := readLE_lt _ _ _
  have hper : readLE sb inodes.sbPerGroup 4 < 2 ^ 32 := readLE_lt _ _ _
  have hnum : inodes.number sb g bit = (g * readLE sb inodes.sbPerGroup 4 + bit + 1) % 2 ^ 32 := rfl
  unfold bitsInGroup at hbit
  unfold groupCount at hg hbit
  rw [hnum]
  dsimp only at hbit
  generalize readLE sb inodes.sbTotal 4 = total at htotal hg hbit
  generalize readLE sb inodes.sbPerGroup 4 = per at hper hg hbit
  rcases Nat.eq_zero_or_pos per with rfl | hpos
  · omega
  have hin : (g + 1) * per ≤ sub32 (total + per) 1 := (Nat.le_div_iff_mul_le hpos).mp hg
  have hcount : sub32 (total + per) 1 / per < 2 ^ 32 :=
    (Nat.div_le_self _ _).trans_lt (Nat.mod_lt _ (by decide))
  have hsum : sub32 (total + per) 1 = total + per - 1 ∨ sub32 (total + per) 1 < per := by
    unfold sub32
    omega
  rw [Nat.succ_mul] at hin
  rw [sub32_eq (by omega) hcount] at hbit
  split at hbit
  · rw [sub32_eq (by omega) htotal] at hbit
    omega
  · next hlast =>
    have hnext : (g + 2) * per ≤ sub32 (total + per) 1 := (Nat.le_div_iff_mul_le hpos).mp (by omega)
    have hmul : (g + 2) * per = g * per + 2 * per := Nat.add_mul g 2 per
    omega

section

variable {blockSize : Nat} {v w : Volume} {sb : Mem}

theorem NoneInGroup.congr (hdisk : w.disk = v.disk) :
    NoneInGroup blockSize w sb g ↔ NoneInGroup blockSize v sb g := by
  unfold NoneInGroup Volume.read
  rw [hdisk]

theorem NoInodeLeft.congr (hdisk : w.disk = v.disk) :
    NoInodeLeft blockSize w ↔ NoInodeLeft blockSize v := by
  unfold NoInodeLeft NoneInGroup Volume.read
  rw [hdisk]

/-- A group is passed over if it has no inode to give out; the device stays as it is. -/
theorem inodes_allocGroup (v : Volume) (hg : g < inodes.groupCount sb) :
    ∃ result w sb', inodes.allocGroup blockSize (inodes.groupCount sb) g v sb = (result, w, sb') ∧
      w.disk = v.disk ∧ (result = 0 → sb' = sb) ∧ (result = 0 ↔ NoneInGroup blockSize v sb g) := by
  by_cases hcount : readLE (v.read (gdtStart blockSize + g * 32)) inodes.gdtFree 2 = 0
  · exact ⟨_, _, _, allocGroup_skip hcount, rfl, fun _ => rfl, fun _ => .inl hcount,
      fun _ => rfl⟩
  cases hfind : inodes.findBit sb (inodes.groupCount sb) g
      (v.read (readLE (v.read (gdtStart blockSize + g * 32)) inodes.gdtBitmap 4 * blockSize)) with
  | none =>
    exact ⟨_, _, _, allocGroup_none hcount rfl hfind, v.useBuffer_disk _ _, fun _ => rfl,
      fun _ => .inr (findBit_none_iff.mp hfind), fun _ => rfl⟩
  | some bit =>
    obtain ⟨hbit, hclear, husable⟩ := findBit_some hfind
    have hne := inodes_number_ne_zero hg hbit
    refine ⟨_, _, _, allocGroup_some hcount rfl hfind, ?_, fun hzero => absurd hzero hne,
      fun hzero => absurd hzero hne, fun hnone => ?_⟩
    · rw [inodes_commit, useBuffer_disk]
    · rcases (hnone.resolve_left hcount) bit hbit with hset | hsmall
      · rw [hclear] at hset
        exact absurd hset (by decide)
      · omega

theorem inodes_allocLoop (blockSize : Nat) (sb : Mem) (left : Nat) :
    ∀ (g : Nat) (v : Volume), g + left = inodes.groupCount sb →
    (inodes.allocLoop blockSize (inodes.groupCount sb) left g v sb).2.disk = v.disk ∧
    ((inodes.allocLoop blockSize (inodes.groupCount sb) left g v sb).1 = 0 ↔
      ∀ g' < inodes.groupCount sb, g ≤ g' → NoneInGroup blockSize v sb g') := by
  induction left with
  | zero =>
    intro g v hg
    exact ⟨rfl, fun _ g' hlt hge => by omega, fun _ => rfl⟩
  | succ left ih =>
    intro g v hg
    obtain ⟨result, w, sb', hturn, hdisk, hsb, hzero⟩ :=
      inodes_allocGroup v (by omega : g < inodes.groupCount sb)
    unfold allocLoop
    rw [hturn]
    dsimp only
    by_cases hresult : result = 0
    · obtain ⟨hrest, hnone⟩ := ih (g + 1) w (by omega)
      rw [if_pos hresult, hsb hresult]
      refine ⟨hrest.trans hdisk, hnone.trans ⟨fun h g' hlt hge => ?_, fun h g' hlt hge => ?_⟩⟩
      · rcases eq_or_lt_of_le hge with rfl | hgt
        · exact hzero.mp hresult
        · exact (NoneInGroup.congr hdisk).mp (h g' hlt hgt)
      · exact (NoneInGroup.congr hdisk).mpr (h g' hlt (by omega))
    · rw [if_neg hresult]
      exact ⟨hdisk, fun h => absurd h hresult,
        fun h => absurd (hzero.mpr (h g (by omega) le_rfl)) hresult⟩

/-- `ext2_alloc_inode` leaves the device as it is, and gives 0 if no inode is left. -/
theorem allocInode_spec (blockSize : Nat) (v : Volume) :
    (allocInode blockSize v).2.disk = v.disk ∧
      ((allocInode blockSize v).1 = 0 ↔ NoInodeLeft blockSize v) := by
  unfold allocInode allocate
  by_cases hfree : readLE (v.read 1024) inodes.sbFree 4 = 0
  · rw [if_pos hfree]
    exact ⟨rfl, fun _ => .inl hfree, fun _ => rfl⟩
  · rw [if_neg hfree]
    obtain ⟨hdisk, hzero⟩ := inodes_allocLoop blockSize (v.read 1024) _ 0 v (zero_add _)
    refine ⟨hdisk, hzero.trans ⟨fun h => .inr fun g hg => h g hg g.zero_le, fun h g hg _ => ?_⟩⟩
    exact (h.resolve_left hfree) g hg

/-- With no inode left every call gives 0. -/
theorem inodeCalls_zero (n : Nat) : ∀ v : Volume, NoInodeLeft blockSize v →
    ∀ call ∈ inodeCalls blockSize n v, call.2.1 = 0 := by
  induction n with
  | zero => exact nofun
  | succ n ih =>
    intro v hnone call hcall
    obtain ⟨hdisk, hzero⟩ := allocInode_spec blockSize v
    rcases mem_cons.mp hcall with rfl | hcall
    · exact hzero.mpr hnone
    · exact ih _ ((NoInodeLeft.congr hdisk).mpr hnone) call hcall

end

/-- A sequence of calls of `ext2_alloc_inode` gives out fresh inodes and marks them only if there is no call
or no inode to give out. -/
theorem inodesFresh_iff (blockSize n : Nat) (v : Volume) :
    InodesFresh blockSize (inodeCalls blockSize n v) ↔ n = 0 ∨ NoInodeLeft blockSize v := by
  constructor
  · intro fresh
    cases n with
    | zero => exact .inl rfl
    | succ n =>
      obtain ⟨hdisk, hzero⟩ := allocInode_spec blockSize v
      refine .inr (hzero.mp ?_)
      by_contra hresult
      -- the mark of the inode cannot change, since nothing is written
      obtain ⟨hfree, hused⟩ := fresh.1 _ mem_cons_self hresult
      rw [hdisk, hfree] at hused
      exact absurd hused (by decide)
  · rintro (rfl | hnone)
    · exact ⟨nofun, nodup_nil⟩
    · have hzero := inodeCalls_zero n v hnone
      refine ⟨fun call hcall hresult => absurd (hzero call hcall) hresult, ?_⟩
      have hempty : ((inodeCalls blockSize n v).map fun call => call.2.1).filter (· ≠ 0) = [] := by
        rw [filter_eq_nil_iff]
        intro result hresult
        obtain ⟨call, hcall, rfl⟩ := mem_map.mp hresult
        simp [hzero call hcall]
      rw [hempty]
      exact nodup_nil

theorem smallLayout_inodesFormed : smallLayout.InodesFormed (smallDisk 4096 2 10 0x3f) := by
  have hzero : ∀ g < smallLayout.groups, g = 0 := by
    intro g hg
    rw [smallLayout_groups] at hg
    omega
  refine ⟨by decide +kernel, by decide +kernel, by decide +kernel, fun g hg => ?_, fun g hg g' hg' _ => ?_,
    fun g hg g' _ => ?_, by decide +kernel, fun g hg => ?_, fun ino hlo hhi => ?_⟩
  · rw [hzero g hg]
    change inodeBitmapBlock 4096 (smallDisk 4096 2 10 0x3f) 0 ≤ 5
    decide +kernel
  · rw [hzero g hg, hzero g' hg']
  · rw [hzero g hg]
    change inodeBitmapBlock 4096 (smallDisk 4096 2 10 0x3f) 0 ≠ 2
    decide +kernel
  · rw [hzero g hg]
    decide +kernel
  · have hfirst : firstUnreservedInode (smallDisk 4096 2 10 0x3f) = 11 := by decide +kernel
    have hused : ∀ ino < 11, 1 ≤ ino → inodeUsed 4096 (smallDisk 4096 2 10 0x3f) ino := by
      decide +kernel
    exact hused ino (hfirst ▸ hhi) hlo

/-- Two calls give the same inode. -/
theorem not_inodesFresh_smallLayout :
    Layout.smallLayout.WellFormed (Layout.smallDisk 4096 2 10 0x3f) ∧
    Layout.smallLayout.InodesFormed (Layout.smallDisk 4096 2 10 0x3f) ∧
    (inodeCalls 4096 2 ⟨Layout.smallDisk 4096 2 10 0x3f, fun _ => 0⟩).map (fun call => call.2.1) = [12, 12] ∧
    ¬ InodesFresh 4096 (inodeCalls 4096 2 ⟨Layout.smallDisk 4096 2 10 0x3f, fun _ => 0⟩) := by
  have hresults : (inodeCalls 4096 2 ⟨smallDisk 4096 2 10 0x3f, fun _ => 0⟩).map
      (fun call => call.2.1) = [12, 12] := by decide +kernel
  refine ⟨smallLayout_wellFormed, smallLayout_inodesFormed, hresults, fun fresh => ?_⟩
  have hnodup := fresh.2
  exact absurd hnodup (by decide)

end Stos.Kernel.Ext2
