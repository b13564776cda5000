import Stos.Kernel.Ext2.File
import Stos.Kernel.Ext2.Proofs.Volume

/-!
# Inodes on the device

`ext2_read_inode` and `ext2_write_inode` find an inode with the descriptor of its group. Both end at the
lowest 32 bits of its position, so that on a large volume an inode may share its bytes with another one or
with the descriptors.
-/

namespace Stos.Kernel.Ext2

open Nat Ext2

/-- `ext2_read_inode` (`read_inode.c:50-72`). The structure is the first 128 bytes. -/
def readInode (v : Volume) (r : InodeRef) (blockSize : Nat) : Mem :=
  let gdtSeek := (gdtStart blockSize + (r.number - 1) / r.inodesPerGroup * 32) % 2 ^ 32
  let inodeTableByte := readLE (v.read gdtSeek) 8 4 * blockSize % 2 ^ 32
  v.read ((inodeTableByte + (r.number - 1) % r.inodesPerGroup * r.inodeSize) % 2 ^ 32)

/-- What the position of an inode depends on: `inodeTable` is the `inode_table_start_addr` of the
descriptor at an address. Sizes of blocks and inodes are powers of two, the latter at least 128. -/
structure InodeTables where
  blockSize : Nat
  inodeSize : Nat
  inodesPerGroup : Nat
  groups : Nat
  inodeTable : Nat → Nat
  blockSize_dvd : 1024 ∣ blockSize
  blockSize_pos : 0 < blockSize
  blockSize_lt : blockSize < 2 ^ 32
  inodeSize_dvd : 128 ∣ inodeSize
  inodesPerGroup_pos : 0 < inodesPerGroup
  inodeTable_lt : ∀ a, inodeTable a < 2 ^ 32

namespace InodeTables

variable (L : InodeTables) {v : Volume} {d : Mem} {g m n : Nat}

/-- The numbers of the inodes. -/
def IsInode (n : Nat) : Prop := 1 ≤ n ∧ n ≤ L.groups * L.inodesPerGroup

instance (n : Nat) : Decidable (L.IsInode n) := inferInstanceAs (Decidable (_ ∧ _))

def ref (n : Nat) : InodeRef := ⟨n, L.inodeSize, L.inodesPerGroup⟩

/-- The group of an inode. -/
def group (n : Nat) : Nat := (n - 1) / L.inodesPerGroup

/-- Where the descriptor of a group is read. -/
def descriptor (g : Nat) : Nat := (gdtStart L.blockSize + g * 32) % 2 ^ 32

/-- Where an inode is, if the table of its group starts with block `t`. -/
def place (t n : Nat) : Nat :=
  (t * L.blockSize + (n - 1) % L.inodesPerGroup * L.inodeSize) % 2 ^ 32

/-- Where an inode is. -/
def inodeByte (n : Nat) : Nat := L.place (L.inodeTable (L.descriptor (L.group n))) n

/-- The descriptors on the device name these tables. -/
def Formatted (d : Mem) : Prop :=
  ∀ g < L.groups, readLE d (L.descriptor g + 8) 4 = L.inodeTable (L.descriptor g)

/-- On every such device an inode is read as it was written, and the others as before. -/
def Independent (n : Nat) : Prop :=
  ∀ v : Volume, L.Formatted v.disk → ∀ inode : Mem,
    let v' := writeInode v (L.ref n) L.blockSize inode
    (∀ k < 128, readInode v' (L.ref n) L.blockSize k = inode k) ∧
      ∀ m, L.IsInode m → m ≠ n → ∀ k < 128,
        readInode v' (L.ref m) L.blockSize k = readInode v (L.ref m) L.blockSize k

/-- No descriptor is in the bytes of the inode. -/
def OffDescriptors (n : Nat) : Prop :=
  ∀ g < L.groups, ¬ (L.inodeByte n ≤ L.descriptor g ∧ L.descriptor g < L.inodeByte n + 128)

instance (n : Nat) : Decidable (L.OffDescriptors n) := Nat.decidableBallLT _ _

/-- Neither another inode nor a descriptor is in the bytes of the inode. -/
def Apart (n : Nat) : Prop :=
  (∀ m, L.IsInode m → m ≠ n → L.inodeByte m ≠ L.inodeByte n) ∧ L.OffDescriptors n

variable {L}

theorem descriptor_mod (g : Nat) : L.descriptor g % 32 = 0 := by
  have hstart : 32 ∣ gdtStart L.blockSize := (Dvd.dvd.trans (by decide) L.blockSize_dvd).mul_left _
  rw [descriptor, mod_mod_of_dvd _ (by decide)]
  omega

theorem place_mod (t n : Nat) : L.place t n % 128 = 0 := by
  rw [place, mod_mod_of_dvd _ (by decide)]
  have hblock : 128 ∣ L.blockSize := Dvd.dvd.trans (by decide) L.blockSize_dvd
  exact Nat.mod_eq_zero_of_dvd (Nat.dvd_add (hblock.mul_left _) (L.inodeSize_dvd.mul_left _))

theorem inodeByte_mod (n : Nat) : L.inodeByte n % 128 = 0 := place_mod _ n

theorem group_lt (hn : L.IsInode n) : L.group n < L.groups := by
  obtain ⟨hlo, hhi⟩ := hn
  rw [group, div_lt_iff_lt_mul L.inodesPerGroup_pos]
  omega

/-- The descriptor decides where an inode is read. -/
theorem readInode_apply (v : Volume) (n k : Nat) : readInode v (L.ref n) L.blockSize k =
    v.disk (L.place (readLE v.disk (L.descriptor (L.group n) + 8) 4) n + k) := by
  unfold readInode place Volume.read
  rw [mod_mod, mod_mod, mod_add_mod]
  rfl

/-- It decides where the inode is written, too. -/
theorem writeInode_disk (v : Volume) (n : Nat) (inode : Mem) :
    (writeInode v (L.ref n) L.blockSize inode).disk =
      writeBytes v.disk (L.place (readLE v.disk (L.descriptor (L.group n) + 8) 4) n) inode 128 := by
  rfl

namespace Formatted

variable (h : L.Formatted v.disk)

include h

theorem readInode (hn : L.IsInode n) (k : Nat) :
    readInode v (L.ref n) L.blockSize k = v.disk (L.inodeByte n + k) := by
  rw [readInode_apply, h _ (group_lt hn), inodeByte]

theorem writeInode (hn : L.IsInode n) (inode : Mem) :
    (writeInode v (L.ref n) L.blockSize inode).disk =
      writeBytes v.disk (L.inodeByte n) inode 128 := by
  rw [writeInode_disk, h _ (group_lt hn), inodeByte]

/-- The descriptors are not overwritten. -/
theorem write (hn : L.OffDescriptors n) (inode : Mem) :
    L.Formatted (writeBytes v.disk (L.inodeByte n) inode 128) := by
  intro g hg
  have hoff := hn g hg
  have hg32 := descriptor_mod (L := L) g
  have hn128 := inodeByte_mod (L := L) n
  rw [← h g hg]
  exact readLE_congr fun b hlo hhi => writeBytes_of_outside (by omega)

end Formatted

/-- An inode that is apart is read back, and a write of it is not seen by the others. -/
theorem Apart.independent (h : L.Apart n) (hn : L.IsInode n) : L.Independent n := by
  intro v hv inode
  have hdisk := hv.writeInode hn inode
  have hv' : L.Formatted (writeInode v (L.ref n) L.blockSize inode).disk := by
    rw [hdisk]
    exact hv.write h.2 inode
  refine ⟨fun k hk => ?_, fun m hm hne k hk => ?_⟩
  · rw [hv'.readInode hn, hdisk, writeBytes, if_pos (by omega), Nat.add_sub_cancel_left]
  · have hn128 := inodeByte_mod (L := L) n
    have hm128 := inodeByte_mod (L := L) m
    have hplace := h.1 m hm hne
    rw [hv'.readInode hm, hdisk, hv.readInode hm, writeBytes_of_outside (by omega)]

/-! ## Devices with given tables -/

/-- The device that has the tables in all descriptors and other bytes as given. -/
def device (L : InodeTables) (rest : Mem) : Volume where
  disk a := if 8 ≤ a % 32 ∧ a % 32 < 12 then
    BitVec.ofNat 8 (L.inodeTable (a / 32 * 32) / 256 ^ (a % 32 - 8)) else rest a
  low _ := 0

theorem device_formatted (rest : Mem) : L.Formatted (L.device rest).disk := by
  intro g _
  have hg32 := descriptor_mod (L := L) g
  refine readLE_eq (L.inodeTable_lt _) fun j hj => ?_
  have hdiv : (L.descriptor g + 8 + j) / 32 * 32 = L.descriptor g := by omega
  have hmod : (L.descriptor g + 8 + j) % 32 = 8 + j := by omega
  rw [device]
  dsimp only
  rw [hmod, if_pos (by omega), hdiv, Nat.add_sub_cancel_left]

theorem device_apply {rest : Mem} {a : Nat} (ha : a % 128 = 0) : (L.device rest).disk a = rest a :=
  if_neg (by omega)

/-- An inode that has the bytes of another one is changed with it. -/
theorem changed_of_inodeByte_eq (hm : L.IsInode m) (hn : L.IsInode n) (hoff : L.OffDescriptors n)
    (heq : L.inodeByte m = L.inodeByte n) : ∃ v inode, L.Formatted v.disk ∧
      readInode (writeInode v (L.ref n) L.blockSize inode) (L.ref m) L.blockSize 0 ≠
        readInode v (L.ref m) L.blockSize 0 := by
  have hv := device_formatted (L := L) fun _ => 0
  have hdisk := hv.writeInode hn fun _ => 1
  have hv' := hv.write hoff fun _ => 1
  rw [← hdisk] at hv'
  refine ⟨_, fun _ => 1, hv, ?_⟩
  rw [hv'.readInode hm, hdisk, hv.readInode hm, heq, writeBytes, if_pos (by omega), add_zero,
    device_apply (inodeByte_mod n)]
  decide

/-- A structure that is written over a descriptor can move the table of the group by a block. -/
theorem Independent.offDescriptors (h : L.Independent n) (hn : L.IsInode n) : L.OffDescriptors n := by
  rintro g hg ⟨hlo, hhi⟩
  -- the first inode of the group, its place before and after
  obtain ⟨m, hm⟩ : ∃ m, g * L.inodesPerGroup + 1 = m := ⟨_, rfl⟩
  obtain ⟨t, ht⟩ : ∃ t, L.inodeTable (L.descriptor g) = t := ⟨_, rfl⟩
  obtain ⟨t', ht'⟩ : ∃ t', (t + 1) % 2 ^ 32 = t' := ⟨_, rfl⟩
  have hgroup : L.group m = g := by
    rw [group, ← hm, Nat.add_sub_cancel, Nat.mul_div_cancel _ L.inodesPerGroup_pos]
  have hinode : L.IsInode m := by
    have := mul_le_mul_right L.inodesPerGroup (succ_le_of_lt hg)
    have := L.inodesPerGroup_pos
    rw [succ_mul] at *
    exact ⟨by omega, by omega⟩
  have hplace : ∀ t, L.place t m = t * L.blockSize % 2 ^ 32 := by
    intro t
    rw [place, ← hm, Nat.add_sub_cancel, Nat.mul_mod_left, Nat.zero_mul, Nat.add_zero]
  have hold : L.inodeByte m = L.place t m := by rw [inodeByte, hgroup, ht]
  have hmoved : L.place t' m ≠ L.place t m := by
    have := L.blockSize_pos
    have := L.blockSize_lt
    rw [hplace, hplace, ← ht', mod_mul_mod, succ_mul]
    omega
  have hq128 := place_mod (L := L) t' m
  have hn128 := inodeByte_mod (L := L) n
  have hg32 := descriptor_mod (L := L) g
  -- the new number of the table at its place in the structure
  obtain ⟨inode, hinode'⟩ : ∃ inode, writeLE (fun _ => 1) (L.descriptor g - L.inodeByte n + 8) 4 t' = inode :=
    ⟨_, rfl⟩
  have hfirst : inode 0 = 1 := by
    rw [← hinode']
    exact writeLE_of_outside (by omega)
  have hread : ∀ rest : Mem, readInode (writeInode (L.device rest) (L.ref n) L.blockSize inode)
      (L.ref m) L.blockSize 0 = if L.place t' m = L.inodeByte n then 1 else rest (L.place t' m) := by
    intro rest
    have hdisk := (device_formatted rest).writeInode hn inode
    have htable : readLE (writeInode (L.device rest) (L.ref n) L.blockSize inode).disk
        (L.descriptor g + 8) 4 = t' := by
      refine readLE_eq (by omega) fun j hj => ?_
      rw [hdisk, writeBytes, if_pos (by omega), ← hinode', writeLE, if_pos (by omega)]
      congr 3
      omega
    rw [readInode_apply, hgroup, htable, hdisk, add_zero]
    split
    · next heq => rw [heq, writeBytes, if_pos (by omega), Nat.sub_self, hfirst]
    · rw [writeBytes_of_outside (by omega), device_apply hq128]
  by_cases hmn : m = n
  · have hback := (h _ (device_formatted fun _ => 0) inode).1 0 (by decide)
    rw [← hmn] at hread hback
    rw [hread, hold, if_neg hmoved, hfirst] at hback
    exact absurd hback (by decide)
  · have hv := device_formatted (L := L) fun a => if a = L.place t m then 0 else 1
    have hsame := (h _ hv inode).2 m hinode hmn 0 (by decide)
    rw [hread, if_neg hmoved, ite_self, hv.readInode hinode, hold, add_zero,
      device_apply (place_mod _ _), if_pos rfl] at hsame
    exact absurd hsame (by decide)

theorem Independent.apart (h : L.Independent n) (hn : L.IsInode n) : L.Apart n := by
  have hoff := h.offDescriptors hn
  refine ⟨fun m hm hne heq => ?_, hoff⟩
  obtain ⟨v, inode, hv, hchanged⟩ := changed_of_inodeByte_eq hm hn hoff heq
  exact hchanged ((h v hv inode).2 m hm hne 0 (by decide))

/-- For every volume and every inode: the inode is read as it was written and all others are read as
before exactly if, in the lowest 32 bits of their positions, neither another inode nor a descriptor is at
its place. -/
theorem independent_iff_apart (hn : L.IsInode n) : L.Independent n ↔ L.Apart n :=
  ⟨fun h => h.apart hn, fun h => h.independent hn⟩

/-- A volume of more than 4 GiB: groups of 32768 blocks, each with its table in the blocks from 10 on. -/
def largeVolume : InodeTables where
  blockSize := 4096
  inodeSize := 256
  inodesPerGroup := 8192
  groups := 33
  inodeTable a := ((a / 32 - 128) * 32768 + 10) % 2 ^ 32
  blockSize_dvd := by decide
  blockSize_pos := by decide
  blockSize_lt := by decide
  inodeSize_dvd := by decide
  inodesPerGroup_pos := Nat.two_pow_pos 13
  inodeTable_lt _ := mod_lt _ (by decide)

theorem independent_iff_apart_last : largeVolume.IsInode 270336 ∧
    (largeVolume.Independent 270336 ↔ largeVolume.Apart 270336) :=
  ⟨by decide, independent_iff_apart (by decide)⟩

/-- The table of group 32 is 4 GiB behind that of group 0, so that a write of inode 1 changes inode
262145. -/
theorem writeInode_changesOther : largeVolume.IsInode 1 ∧ largeVolume.IsInode 262145 ∧
    ∃ v inode, largeVolume.Formatted v.disk ∧
      Ext2.readInode (writeInode v (largeVolume.ref 1) 4096 inode) (largeVolume.ref 262145) 4096 0 ≠
        Ext2.readInode v (largeVolume.ref 262145) 4096 0 :=
  ⟨by decide, by decide, changed_of_inodeByte_eq (by decide) (by decide) (by decide +kernel)
    (by decide +kernel)⟩

end InodeTables

end Stos.Kernel.Ext2
