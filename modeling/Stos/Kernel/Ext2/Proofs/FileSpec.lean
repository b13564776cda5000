import Stos.Kernel.Ext2.Proofs.File

/-!
# What `ext2_write`, `ext2_read` and `ext2_truncate` do to a file

A file that is in order has a block map for exactly its length. Each of the three calls is given one
specification over the contents of the file, the blocks that it takes or frees, and what it leaves alone.
-/

namespace Stos.Kernel.Ext2

open PointerTree List Finset Nat

variable {L : Layout} {v v' : Volume} {inode inode' data d : Mem}
  {n size blockSize offset length a k x : Nat} {r : InodeRef} {f : OpenFile}
  {created touched : List Nat}

/-! ## Files in order -/

/-- The block map is that of a file of the length in the inode, which is also the length of the node. -/
structure FileOk (L : Layout) (f : OpenFile) : Prop where
  wellFormed : L.WellFormed f.vol.disk
  map : FileMap L f.vol.disk f.inode (blockCount L.blockSize f.length)
  size : sizeLo f.inode = f.length

/-- The blocks of a file, with its tables. -/
def fileBlocks (L : Layout) (f : OpenFile) : List Nat := forestReach L.blockSize f.vol.disk (roots f.inode)

/-- The first bytes of a buffer. -/
def firstBytes (data : Mem) (size : Nat) : List (BitVec 8) := (List.range size).map data

/-- The bytes of a file. -/
def contents (L : Layout) (f : OpenFile) : List (BitVec 8) :=
  firstBytes (byteAt L.blockSize f.vol.disk f.inode) f.length

theorem FileOk.length_lt (h : FileOk L f) : f.length < 2 ^ 32 := by
  rw [← h.size]
  exact readLE_lt _ _ _

@[simp] theorem length_firstBytes (data : Mem) (size : Nat) : (firstBytes data size).length = size := by
  unfold firstBytes
  rw [length_map, length_range]

theorem getElem?_firstBytes (data : Mem) (size a : Nat) :
    (firstBytes data size)[a]? = if a < size then some (data a) else none := by
  by_cases h : a < size
  · rw [if_pos h, firstBytes, List.getElem?_map, List.getElem?_range h, Option.map_some]
  · rw [if_neg h, List.getElem?_eq_none_iff, length_firstBytes]
    omega

theorem firstBytes_congr {data' : Mem} (same : ∀ a < size, data' a = data a) :
    firstBytes data' size = firstBytes data size :=
  List.map_congr_left fun a ha => same a (List.mem_range.mp ha)

theorem roots_congr (same : ∀ a, 40 ≤ a → a < 100 → inode' a = inode a) : roots inode' = roots inode := by
  refine map_congr_left fun j hj => ?_
  have := List.mem_range.mp hj
  exact congrArg _ (readLE_congr fun a hlo hhi => same a (by omega) (by omega))

theorem byteAt_of_roots (h : roots inode' = roots inode) (a : Nat) :
    byteAt blockSize d inode' a = byteAt blockSize d inode a := by
  unfold byteAt fileBlock
  rw [h]

/-- The `n` blocks of a file have the same numbers and the same bytes in another state. -/
structure SameFile (L : Layout) (n : Nat) (v : Volume) (inode : Mem) (v' : Volume) (inode' : Mem) : Prop where
  map : FileMap L v'.disk inode' n
  reach : forestReach L.blockSize v'.disk (roots inode') = forestReach L.blockSize v.disk (roots inode)
  bytes : ∀ a < n * L.blockSize, byteAt L.blockSize v'.disk inode' a = byteAt L.blockSize v.disk inode a

theorem SameFile.of_roots {inode1 : Mem} (h : SameFile L n v inode v' inode') (hroots : roots inode1 = roots inode') :
    SameFile L n v inode v' inode1 := by
  obtain ⟨⟨hdense, hnodup, hinUse⟩, hreach, hbytes⟩ := h
  rw [← hroots] at hdense hnodup hinUse hreach
  exact ⟨⟨hdense, hnodup, hinUse⟩, hreach, fun a ha => (byteAt_of_roots hroots a).trans (hbytes a ha)⟩

namespace FileMap

/-- Writes to other blocks do not change a file. -/
theorem elsewhere (h : FileMap L v.disk inode n) (hext : L.Extends v v' created touched)
    (hdisjoint : ∀ b ∈ forestReach L.blockSize v.disk (roots inode), b ∉ touched) :
    SameFile L n v inode v' inode := by
  have hagree : ∀ b ∈ forestReach L.blockSize v.disk (roots inode), Agree L.blockSize v.disk v'.disk b :=
    fun b hb => hext.agree (h.inUse b hb).toTaken (hdisjoint b hb)
  obtain ⟨hmap, hleaf, hreach⟩ := h.congr v' (fun b hb => hagree b (forestTables_subset_reach _ _ hb))
    fun b hb => hext.inUse (h.inUse b hb)
  refine ⟨hmap, hreach, fun a ha => ?_⟩
  have hi : a / L.blockSize < n := Nat.div_lt_of_lt_mul (by rwa [Nat.mul_comm] at ha)
  have hmod := mod_lt a L.zero_lt_blockSize
  unfold byteAt
  rw [hleaf _ hi, hagree _ (h.mem_reach hi) _ (by omega) (by omega)]

/-- `ext2_write_inode` does not change a file. -/
theorem writeInode (h : FileMap L v.disk inode n) (hd : L.WellFormed v.disk) (place : InodePlace L r)
    {inode1 : Mem} (hroots : roots inode1 = roots inode) (hv' : Ext2.writeInode v r L.blockSize inode1 = v') :
    SameFile L n v inode v' inode1 ∧ L.Extends v v' [] (inodeBlocks L r) := by
  have hext := writeInode_extends hd place inode1
  rw [hv'] at hext
  have hsame := h.elsewhere hext fun b hb hmem =>
    (h.inUse b hb).not_metadata (place.metadata_of_mem hmem)
  exact ⟨hsame.of_roots hroots, hext⟩

end FileMap

/-! ## `ext2_write` -/

/-- The bytes of a list from an offset on are replaced, and the list grows if it has to. -/
def putBytes (bytes : List (BitVec 8)) (offset : Nat) (data : List (BitVec 8)) : List (BitVec 8) :=
  bytes.take offset ++ data ++ bytes.drop (offset + data.length)

theorem putBytes_nil (bytes : List (BitVec 8)) (offset : Nat) : putBytes bytes offset [] = bytes := by
  rw [putBytes, append_nil, length_nil, add_zero, take_append_drop]

theorem length_putBytes_le (bytes : List (BitVec 8)) (offset : Nat) (data : List (BitVec 8)) :
    (putBytes bytes offset data).length ≤ max bytes.length (offset + data.length) := by
  rw [putBytes, length_append, length_append, length_take, length_drop]
  omega

/-- The contents after a write, byte by byte. -/
theorem contents_eq_putBytes {f' : OpenFile} {written : Nat} (hoffset : offset ≤ f.length)
    (hlength : f'.length = max f.length (offset + written))
    (hold : ∀ a < f.length, a < offset ∨ offset + written ≤ a →
      byteAt L.blockSize f'.vol.disk f'.inode a = byteAt L.blockSize f.vol.disk f.inode a)
    (hnew : ∀ k < written, byteAt L.blockSize f'.vol.disk f'.inode (offset + k) = data k) :
    contents L f' = putBytes (contents L f) offset (firstBytes data written) := by
  have htake : ((contents L f).take offset).length = offset := by
    rw [length_take, contents, length_firstBytes, min_eq_left hoffset]
  apply ext_getElem?
  intro a
  rw [putBytes, append_assoc]
  by_cases hbefore : a < offset
  · rw [getElem?_append_left (by omega), getElem?_take_of_lt hbefore, contents, contents,
      getElem?_firstBytes, getElem?_firstBytes, if_pos (by omega), if_pos (by omega), hold a (by omega) (.inl hbefore)]
  rw [getElem?_append_right (by omega), htake]
  by_cases hin : a < offset + written
  · rw [getElem?_append_left (by rw [length_firstBytes]; omega), contents, getElem?_firstBytes,
      getElem?_firstBytes, if_pos (by omega), if_pos (by omega), ← hnew _ (by omega),
      show offset + (a - offset) = a by omega]
  rw [getElem?_append_right (by rw [length_firstBytes]; omega), getElem?_drop, length_firstBytes,
    show offset + written + (a - offset - written) = a by omega, contents, contents, getElem?_firstBytes,
    getElem?_firstBytes]
  by_cases hlt : a < f.length
  · rw [if_pos (by omega), if_pos hlt, hold a hlt (.inr (by omega))]
  · rw [if_neg (by omega), if_neg hlt]

/-- From one state of a handle to another the blocks in `created` were taken, and only the blocks of the file
and the inode were written. -/
structure Changed (L : Layout) (r : InodeRef) (f f' : OpenFile) (created : List Nat) : Prop where
  ok : FileOk L f'
  blocks : (fileBlocks L f').Perm (created ++ fileBlocks L f)
  extends_ : L.Extends f.vol f'.vol created (fileBlocks L f ++ inodeBlocks L r)
  readable : f'.readable = f.readable
  writeable : f'.writeable = f.writeable

theorem Changed.nothing (h : FileOk L f) : Changed L r f f [] :=
  ⟨h, List.Perm.refl _, .refl h.wellFormed _, rfl, rfl⟩

/-- Before the loop of `ext2_write`. -/
theorem Writes.start (h : FileMap L v.disk inode (blockCount L.blockSize length))
    (hd : L.WellFormed v.disk) (offset : Nat) (data : Mem) :
    Writes L v inode length offset data ⟨v, inode, 0, false⟩ (blockCount L.blockSize length) [] :=
  ⟨h, List.Perm.refl _, .refl hd _, (cost_self _ _).symm, fun _ _ => rfl, fun _ _ _ => rfl,
    fun _ hk => absurd hk (not_lt_zero _)⟩

/-- A change of the inode apart from its block pointers. -/
theorem roots_writeLE (h : a + k ≤ 40 ∨ 100 ≤ a) : roots (writeLE inode a k x) = roots inode :=
  roots_congr fun b _ _ => writeLE_of_outside (by omega)

theorem sizeLo_writeLE (h : a + k ≤ 4 ∨ 8 ≤ a) : sizeLo (writeLE inode a k x) = sizeLo inode :=
  readLE_congr fun b _ _ => writeLE_of_outside (by omega)

/-- The inode is stored with another time, which is apart from its roots and its size. -/
theorem FileOk.stamp {now : Nat} {v1 : Volume} {inode1 : Mem} (h : FileOk L f) (place : InodePlace L r)
    (hinode1 : writeLE f.inode a 4 now = inode1) (ha : 8 ≤ a ∧ a + 4 ≤ 40)
    (hv1 : writeInode f.vol r L.blockSize inode1 = v1) :
    SameFile L (blockCount L.blockSize f.length) f.vol f.inode v1 inode1 ∧
      L.Extends f.vol v1 [] (inodeBlocks L r) ∧ sizeLo inode1 = f.length := by
  have hroots : roots inode1 = roots f.inode := hinode1 ▸ roots_writeLE (.inl ha.2)
  obtain ⟨hsame, hext⟩ := h.map.writeInode h.wellFormed place hroots hv1
  refine ⟨hsame, hext, ?_⟩
  rw [← hinode1, sizeLo_writeLE (.inr ha.1), h.size]

theorem FileOk.touch {now : Nat} {v1 : Volume} {inode1 : Mem} (h : FileOk L f) (place : InodePlace L r)
    (hinode1 : writeLE f.inode a 4 now = inode1) (ha : 8 ≤ a ∧ a + 4 ≤ 40)
    (hv1 : writeInode f.vol r L.blockSize inode1 = v1) :
    Changed L r f { f with vol := v1, inode := inode1 } [] ∧
      ∀ a < f.length, byteAt L.blockSize v1.disk inode1 a = byteAt L.blockSize f.vol.disk f.inode a := by
  obtain ⟨hsame, hext, hsize⟩ := h.stamp place hinode1 ha hv1
  have hlength := le_blockCount_mul f.length L.zero_lt_blockSize
  exact ⟨⟨⟨hext.wellFormed, hsame.map, hsize⟩, .of_eq hsame.reach, hext.mono (subset_append_right _ _), rfl, rfl⟩,
    fun a ha => hsame.bytes a (by omega)⟩

theorem sizeLo_setSizeLo (h : size < 2 ^ 32) : sizeLo (setSizeLo inode size) = size :=
  readLE_writeLE _ _ h

/-- The last part of `ext2_write`: the size is stored if it has grown, and the inode if it was changed. -/
theorem ext2Write_end {count : Nat} {s : WriteState}
    (h : Writes L v inode length offset data s count created) (place : InodePlace L r)
    (hsize : sizeLo inode = length) (hend : offset + s.written < 2 ^ 32)
    (hinode : (if length < offset + s.written then setSizeLo s.inode (offset + s.written) else s.inode) = inode')
    (hvol : (if length < offset + s.written ∨ s.dirty = true then writeInode s.vol r L.blockSize inode' else s.vol) = v') :
    SameFile L count s.vol s.inode v' inode' ∧ L.Extends s.vol v' [] (inodeBlocks L r) ∧
      sizeLo inode' = max length (offset + s.written) := by
  have hroots : roots inode' = roots s.inode := by
    rw [← hinode]
    split
    · exact roots_writeLE (by omega)
    · rfl
  have hsizeOld : sizeLo s.inode = length := by
    rw [← hsize]
    exact readLE_congr fun a _ _ => h.fields a (by omega)
  have hsizeNew : sizeLo inode' = max length (offset + s.written) := by
    rw [← hinode]
    split
    · rw [sizeLo_setSizeLo hend]
      omega
    · omega
  by_cases hwrite : length < offset + s.written ∨ s.dirty = true
  · rw [if_pos hwrite] at hvol
    obtain ⟨hsame, hext⟩ := h.map.writeInode h.extends_.wellFormed place hroots hvol
    exact ⟨hsame, hext, hsizeNew⟩
  · -- the inode was not changed
    rw [if_neg hwrite] at hvol
    rw [if_neg (by omega)] at hinode
    subst hvol hinode
    exact ⟨⟨h.map, rfl, fun _ _ => rfl⟩, .refl h.extends_.wellFormed _, hsizeNew⟩

theorem Layout.Extends.freeSet_nil (h : L.Extends v v' [] touched) :
    L.freeSet v'.disk = L.freeSet v.disk := by
  rw [h.freeSet, toFinset_nil, sdiff_empty]

theorem blockTurns_eq {bs : Nat} (hsum : offset + size < 2 ^ 32) :
    offset / bs + blockTurns bs offset size = (offset + size) / bs + 1 := by
  have : offset / bs ≤ (offset + size) / bs := Nat.div_le_div_right (by omega)
  rw [blockTurns, mod_eq_of_lt hsum]
  omega

/-- A write through a handle without permission, or behind the end. -/
theorem ext2Write_refused (h : f.writeable = false ∨ f.length < offset) (r : InodeRef)
    (now size : Nat) (data : Mem) : ext2Write blockSize r f now offset size data = (0, f) := by
  refine if_pos ?_
  rw [Bool.or_eq_true, Bool.or_eq_true, Bool.not_eq_true', decide_eq_true_eq]
  exact .inl h

/-- A write at an offset up to the end stores its bytes, all of them if there are enough free blocks. -/
theorem ext2Write_spec (h : FileOk L f) (place : InodePlace L r) (now : Nat) (data : Mem)
    (hsum : offset + size < 2 ^ 32)
    (hcan : f.writeable = true → offset ≤ f.length → CanAppend L f.length (offset + size) ∧
      Roomy (width L.blockSize) (L.freeSet f.vol.disk).card (blockCount L.blockSize f.length)
        (blockCount L.blockSize (offset + size)) ∧
      L.LowFree f.vol.disk (cost (width L.blockSize) (blockCount L.blockSize f.length)
        (blockCount L.blockSize (offset + size)))) :
    ∃ written f' created, ext2Write L.blockSize r f now offset size data = (written, f') ∧
      Changed L r f f' created ∧ contents L f' = putBytes (contents L f) offset (firstBytes data written) ∧
      created.length = cost (width L.blockSize) (blockCount L.blockSize f.length) (blockCount L.blockSize f'.length) ∧
      written ≤ size ∧
      (f.writeable = true → offset ≤ f.length → cost (width L.blockSize) (blockCount L.blockSize f.length)
        (blockCount L.blockSize (offset + size)) ≤ (L.freeSet f.vol.disk).card → written = size) ∧
      (f.writeable = false ∨ f.length < offset → written = 0) := by
  unfold ext2Write
  by_cases hrefused : f.writeable = false ∨ f.length < offset ∨ size = 0
  · rw [if_pos (by simpa [or_assoc] using hrefused)]
    refine ⟨0, f, [], rfl, .nothing h, (putBytes_nil _ _).symm, (cost_self _ _).symm, zero_le _,
      fun hw ho _ => ?_, fun _ => rfl⟩
    rcases hrefused with hw' | ho' | hs
    · rw [hw] at hw'
      exact absurd hw' (by decide)
    · omega
    · exact hs.symm
  rw [if_neg (by simpa [or_assoc] using hrefused)]
  push Not at hrefused
  obtain ⟨hw, ho, hs⟩ := hrefused
  obtain ⟨happend, hroomy, hlow⟩ := hcan (by simpa using hw) ho
  dsimp only
  -- the time of modification is stored before the loop
  generalize hinode1 : writeLE f.inode 16 4 now = inode1
  generalize hv1 : writeInode f.vol r L.blockSize inode1 = v1
  obtain ⟨hsame1, hext1, hsize1⟩ := h.stamp place hinode1 (by decide) hv1
  rw [← hext1.freeSet_nil] at hroomy ⊢
  obtain ⟨s, count, created, hloop, hwrites, hcount, hle, hall⟩ := writeLoop_spec data hsum ho hsize1
    happend (blockTurns L.blockSize offset size) (offset / L.blockSize) ⟨v1, inode1, 0, false⟩ _ []
    (.start hsame1.map hext1.wellFormed _ _) (blockTurns_eq hsum) le_rfl
    (by have := div_mul_le_self offset L.blockSize; dsimp only; omega)
    (by dsimp only; rw [add_zero, max_eq_left ho]) hroomy (hlow.congr hext1.freeSet_nil)
  rw [hloop, mod_eq_of_lt (by omega)]
  simp only [Bool.or_eq_true, decide_eq_true_eq]
  generalize hinode' : (if f.length < offset + s.written then setSizeLo s.inode (offset + s.written) else s.inode) =
    inode'
  generalize hv' : (if f.length < offset + s.written ∨ s.dirty = true then writeInode s.vol r L.blockSize inode'
    else s.vol) = v'
  obtain ⟨hsame', hext', hsize'⟩ := ext2Write_end hwrites place hsize1 (by omega) hinode' hv'
  have hlength : (if f.length < offset + s.written then offset + s.written else f.length) =
      max f.length (offset + s.written) := by
    split <;> omega
  rw [hlength]
  have hcountLe := le_blockCount_mul (max f.length (offset + s.written)) L.zero_lt_blockSize
  rw [← hcount] at hcountLe
  have hoffLe := le_blockCount_mul f.length L.zero_lt_blockSize
  refine ⟨s.written, _, created, rfl, ⟨⟨hext'.wellFormed, hcount ▸ hsame'.map, hsize'⟩, ?_, ?_, rfl, rfl⟩,
    ?_, hcount ▸ hwrites.taken, hle, fun _ _ hcost => hall hcost, ?_⟩
  · unfold fileBlocks
    rw [hsame'.reach, ← hsame1.reach]
    exact hwrites.reach
  · have hloopExt := hwrites.extends_
    rw [show forestReach L.blockSize v1.disk (roots inode1) = fileBlocks L f from hsame1.reach] at hloopExt
    have h1 := (hext1.mono (subset_append_right (fileBlocks L f) _)).trans
      (hloopExt.mono (List.Subset.trans (subset_append_left _ (inodeBlocks L r)) (subset_append_left _ [])))
    have h2 := h1.trans (hext'.mono (List.Subset.trans (subset_append_right (fileBlocks L f) _)
      (subset_append_left _ _)))
    rwa [nil_append, append_nil] at h2
  · refine contents_eq_putBytes ho rfl (fun a ha hout => ?_) fun k hk => ?_
    · rw [hsame'.bytes a (by omega), hwrites.old a ha hout, hsame1.bytes a (by omega)]
    · rw [hsame'.bytes _ (by omega), hwrites.new k hk]
  · rintro (hw' | ho')
    · exact absurd hw' hw
    · omega

/-- If the sum of offset and size wraps around to an earlier block, nothing is written. -/
theorem ext2Write_wraps (h : FileOk L f) (place : InodePlace L r) (now : Nat) (data : Mem)
    (hwraps : (offset + size) % 2 ^ 32 / L.blockSize < offset / L.blockSize) :
    ∃ f', ext2Write L.blockSize r f now offset size data = (0, f') ∧ Changed L r f f' [] ∧
      contents L f' = contents L f := by
  unfold ext2Write
  by_cases hrefused : f.writeable = false ∨ f.length < offset ∨ size = 0
  · rw [if_pos (by simpa [or_assoc] using hrefused)]
    exact ⟨f, rfl, .nothing h, rfl⟩
  rw [if_neg (by simpa [or_assoc] using hrefused)]
  have hlt := h.length_lt
  have hturns : blockTurns L.blockSize offset size = 0 := by
    unfold blockTurns
    omega
  dsimp only
  generalize hinode1 : writeLE f.inode 16 4 now = inode1
  generalize hv1 : writeInode f.vol r L.blockSize inode1 = v1
  obtain ⟨hchanged, hsame⟩ := h.touch place hinode1 (by decide) hv1
  rw [hturns, writeLoop, add_zero, mod_eq_of_lt (by omega), decide_eq_false (by omega)]
  exact ⟨_, rfl, hchanged, firstBytes_congr hsame⟩

/-! ## `ext2_read` -/

/-- The loop of `ext2_read` copies the bytes of the range, all of which the file has. -/
theorem readLoop_spec (hmap : FileMap L v.disk inode (blockCount L.blockSize length))
    (sound : L.Sound) (hsizeLo : sizeLo inode = length) (hend : offset + size ≤ length) (left : Nat) :
    ∀ (i count : Nat) (out : Mem), i + left = (offset + size) / L.blockSize + 1 → offset / L.blockSize ≤ i →
      count = min size (i * L.blockSize - offset) →
      (∀ k < count, out k = byteAt L.blockSize v.disk inode (offset + k)) →
      ∃ out', readLoop v inode L.blockSize offset size left i count out = (size, out') ∧
        ∀ k < size, out' k = byteAt L.blockSize v.disk inode (offset + k) := by
  have hbs := L.zero_lt_blockSize
  have hlt : length < 2 ^ 32 := hsizeLo ▸ readLE_lt _ _ _
  have hlast : offset + size < ((offset + size) / L.blockSize + 1) * L.blockSize :=
    lt_mul_of_div_lt (lt_succ_self _) hbs
  induction left with
  | zero =>
    intro i count out hi _ hcount hout
    have hall : count = size := by
      rw [hcount, show i = (offset + size) / L.blockSize + 1 by omega]
      omega
    subst hall
    exact ⟨out, rfl, hout⟩
  | succ left ih =>
    intro i count out hi hstart hcount hout
    have hiLe : i ≤ (offset + size) / L.blockSize := by omega
    have hiEnd : i * L.blockSize ≤ offset + size := (le_div_iff_mul_le hbs).mp hiLe
    have hiStart := lt_blockEnd hbs hstart
    unfold readLoop
    rw [blockRange_eq hbs (by omega) hstart hiLe]
    dsimp only
    by_cases hnone : min (offset + size) (i * L.blockSize + L.blockSize) - max offset (i * L.blockSize) = 0
    · rw [if_pos hnone]
      have hall : count = size := by omega
      subst hall
      exact ⟨out, rfl, hout⟩
    have hin : i < blockCount L.blockSize length := (lt_blockCount_iff hbs).mpr (by omega)
    have huse := hmap.inUse _ (hmap.mem_reach hin)
    have hne : fileBlock L.blockSize v.disk inode i * L.blockSize ≠ 0 :=
      mul_ne_zero (huse.ne_zero sound) (by omega)
    rw [if_neg hnone, sub32_eq (by omega) (by omega), hmap.blockIdToAddr hin (by rw [hsizeLo]; omega), if_neg hne]
    have hfits := huse.low.fits
    have hcopied : ∀ k < count + (min (offset + size) (i * L.blockSize + L.blockSize) - max offset (i * L.blockSize)),
        writeBytes out count (v.read (fileBlock L.blockSize v.disk inode i * L.blockSize +
          (max offset (i * L.blockSize) - i * L.blockSize)))
          (min (offset + size) (i * L.blockSize + L.blockSize) - max offset (i * L.blockSize)) k =
        byteAt L.blockSize v.disk inode (offset + k) := by
      intro k hk
      by_cases hold : k < count
      · rw [writeBytes_of_outside (by omega), hout k hold]
      · have hblock : (offset + k) / L.blockSize = i := Layout.div_blockSize (by omega) (by omega)
        have hmod := div_add_mod (offset + k) L.blockSize
        rw [hblock, mul_comm] at hmod
        rw [writeBytes, if_pos (by omega), Volume.read_apply (by omega), byteAt, hblock]
        congr 1
        omega
    exact ih (i + 1) _ _ (by omega) (by omega) (by rw [succ_mul]; omega) hcopied

/-- A read gives the bytes of the range, cut at the end. -/
theorem ext2Read_spec (h : FileOk L f) (place : InodePlace L r) (now : Nat) (out : Mem)
    (hsum : offset + size < 2 ^ 32) :
    ∃ count out' f', ext2Read L.blockSize r f now offset size out = ((count, out'), f') ∧
      firstBytes out' count = (if f.readable then ((contents L f).drop offset).take size else []) ∧
      Changed L r f f' [] ∧ contents L f' = contents L f := by
  unfold ext2Read
  by_cases hrefused : f.readable = false ∨ f.length ≤ offset
  · rw [if_pos (by simpa using hrefused)]
    refine ⟨0, out, f, rfl, ?_, .nothing h, rfl⟩
    rcases hrefused with hr | ho
    · rw [hr]
      rfl
    · rw [drop_of_length_le (by rwa [contents, length_firstBytes]), take_nil, ite_self]
      rfl
  rw [if_neg (by simpa using hrefused), mod_eq_of_lt hsum]
  push Not at hrefused
  obtain ⟨hr, ho⟩ := hrefused
  have hr : f.readable = true := by simpa using hr
  rw [if_pos hr]
  dsimp only
  generalize hcut : (if f.length < offset + size then f.length - offset else size) = cut
  have hcutEq : cut = min size (f.length - offset) := by
    rw [← hcut]
    split <;> omega
  have hresult : ∀ out' : Mem, (∀ k < cut, out' k = byteAt L.blockSize f.vol.disk f.inode (offset + k)) →
      firstBytes out' cut = ((contents L f).drop offset).take size := by
    intro out' hout'
    apply ext_getElem?
    intro a
    rw [getElem?_firstBytes, List.getElem?_take, List.getElem?_drop, contents, getElem?_firstBytes]
    by_cases ha : a < cut
    · rw [if_pos ha, if_pos (by omega), if_pos (by omega), hout' a ha]
    · rw [if_neg ha]
      split
      · rw [if_neg (by omega)]
      · rfl
  by_cases hzero : cut = 0
  · rw [if_pos hzero]
    refine ⟨0, out, f, rfl, ?_, .nothing h, rfl⟩
    have := hresult out fun k hk => absurd hk (by omega)
    rwa [hzero] at this
  rw [if_neg hzero]
  -- the time of the access is stored before the loop
  generalize hinode1 : writeLE f.inode 8 4 now = inode1
  generalize hv1 : writeInode f.vol r L.blockSize inode1 = v1
  obtain ⟨hchanged, hsame⟩ := h.touch place hinode1 (by decide) hv1
  obtain ⟨out', hloop, hinside⟩ := readLoop_spec hchanged.ok.map h.wellFormed.sound hchanged.ok.size
    (by omega : offset + cut ≤ f.length) (blockTurns L.blockSize offset cut) (offset / L.blockSize) 0 out
    (blockTurns_eq (by omega)) le_rfl (by have := div_mul_le_self offset L.blockSize; omega)
    fun k hk => absurd hk (not_lt_zero k)
  rw [hloop]
  refine ⟨cut, out', { f with vol := v1, inode := inode1 }, rfl, hresult out' fun k hk => ?_, hchanged,
    firstBytes_congr hsame⟩
  rw [hinside k hk, hsame _ (by omega)]

/-! ## `ext2_truncate` -/

/-- What `ext2_truncate` needs to free the blocks: they are numbered from 0, and the buffer for a table is not
used for anything else. -/
def CanTruncate (L : Layout) (length : Nat) : Prop :=
  length = 0 ∨ L.blockSize ≠ 1024 ∧ (L.blockSize ≠ 2048 ∨ blockCount L.blockSize length ≤ 12)

/-- A file without blocks. -/
theorem FileMap.reach_eq_nil (h : FileMap L v.disk inode 0) : forestReach L.blockSize v.disk (roots inode) = [] :=
  forestReach_of_zeros (forestDense_zero_iff.mp h.dense)

/-- An inode without block pointers. -/
theorem FileMap.empty (d : Mem) (hzero : ∀ j < 15, blockPtr inode j = 0) : FileMap L d inode 0 := by
  have hroots : ∀ p ∈ roots inode, p.2 = 0 := by
    intro p hp
    obtain ⟨j, hj, rfl⟩ := mem_map.mp hp
    exact hzero j (List.mem_range.mp hj)
  have hreach : forestReach L.blockSize d (roots inode) = [] := forestReach_of_zeros hroots
  refine ⟨forestDense_zero_iff.mpr hroots, ?_, ?_⟩
  · rw [hreach]
    exact nodup_nil
  · rw [hreach]
    exact nofun

theorem blockCount_zero (L : Layout) : blockCount L.blockSize 0 = 0 := by
  have := L.blockSize_pos
  exact blockCount_eq (by omega) (by omega) fun i hi => absurd hi (not_lt_zero i)

theorem FileOk.fileBlocks_eq_nil (h : FileOk L f) (hlength : f.length = 0) : fileBlocks L f = [] := by
  have hmap := h.map
  rw [hlength, blockCount_zero] at hmap
  exact hmap.reach_eq_nil

/-- `ext2_truncate` frees the blocks of the file and no other. -/
theorem ext2Truncate_spec (h : FileOk L f) (place : InodePlace L r) (now : Nat)
    (hcan : CanTruncate L f.length) :
    ∃ f', ext2Truncate L.blockSize r f now = f' ∧ FileOk L f' ∧ contents L f' = [] ∧ fileBlocks L f' = [] ∧
      L.freeSet f'.vol.disk = L.freeSet f.vol.disk ∪ (fileBlocks L f).toFinset ∧
      L.Keeps (inodeBlocks L r) f.vol.disk f'.vol.disk ∧
      f'.readable = f.readable ∧ f'.writeable = f.writeable := by
  unfold ext2Truncate
  by_cases hlength : f.length = 0
  · have hnone := h.fileBlocks_eq_nil hlength
    rw [if_pos hlength]
    refine ⟨f, rfl, h, ?_, hnone, ?_, .refl _ _, rfl, rfl⟩
    · rw [contents, hlength]
      rfl
    · rw [hnone, toFinset_nil, union_empty]
  rw [if_neg hlength]
  obtain ⟨hsize, hbuffer⟩ := hcan.resolve_left hlength
  obtain ⟨hfrees, hzero, hfields⟩ := h.map.freePointers h.wellFormed hsize hbuffer
  generalize freePointers L.blockSize f.vol f.inode = freed at *
  obtain ⟨v1, inode1⟩ := freed
  dsimp only at *
  generalize hinode' : writeLE (writeLE (setSizeLo inode1 0) 28 4 0) 16 4 now = inode'
  generalize hv' : writeInode v1 r L.blockSize inode' = v'
  have hroots : roots inode' = roots inode1 := by
    rw [← hinode', roots_writeLE (by omega), roots_writeLE (by omega)]
    exact roots_writeLE (by omega)
  have hsize' : sizeLo inode' = 0 := by
    rw [← hinode', sizeLo_writeLE (by omega), sizeLo_writeLE (by omega), sizeLo_setSizeLo (by omega)]
  obtain ⟨hsame, hext'⟩ := (FileMap.empty v1.disk hzero).writeInode hfrees.wellFormed place hroots hv'
  refine ⟨{ f with vol := v', inode := inode', length := 0 }, rfl, ⟨hext'.wellFormed, ?_, hsize'⟩, rfl,
    hsame.map.reach_eq_nil, ?_, ?_, rfl, rfl⟩
  · rw [blockCount_zero]
    exact hsame.map
  · exact hext'.freeSet_nil.trans hfrees.freeSet
  · have hkeeps := hext'.keeps
    exact (hfrees.keeps.mono (nil_subset _)).trans hkeeps

end Stos.Kernel.Ext2
