import Stos.Kernel.Ext2.FileRuns

/-!
# Runs on an open file

A file refines an array of bytes: every call keeps the file in order, gives the reply of the array and leaves
the blocks of other files alone, as long as blocks are appended and freed only where the code can.
-/

namespace Stos.Kernel.Ext2

open PointerTree Layout List FileCall

variable {L : Layout} {r : InodeRef} {f f' f0 : OpenFile}

/-! ## Blocks of other files -/

/-- The blocks that another file can have. -/
def Other (L : Layout) (f : OpenFile) (b : Nat) : Prop := L.Taken f.vol.disk b ∧ b ∉ fileBlocks L f

/-- The blocks of other files are still theirs and have the same bytes. -/
def OthersKept (L : Layout) (f f' : OpenFile) : Prop :=
  ∀ b, Other L f b → Other L f' b ∧ Agree L.blockSize f.vol.disk f'.vol.disk b

theorem OthersKept.trans {f'' : OpenFile} (h : OthersKept L f f') (h' : OthersKept L f' f'') : OthersKept L f f'' := by
  intro b hb
  obtain ⟨hother, hagree⟩ := h b hb
  obtain ⟨hother', hagree'⟩ := h' b hother
  exact ⟨hother', fun a hlo hhi => (hagree' a hlo hhi).trans (hagree a hlo hhi)⟩

theorem Changed.othersKept {created : List Nat} (h : Changed L r f f' created) (place : InodePlace L r) :
    OthersKept L f f' := by
  rintro b ⟨huse, hother⟩
  refine ⟨⟨h.extends_.taken huse, fun hmem => ?_⟩, h.extends_.agree huse fun hmem => ?_⟩
  · rcases mem_append.mp (h.blocks.mem_iff.mp hmem) with hnew | hold
    · exact h.extends_.not_mem_created huse hnew
    · exact hother hold
  · rcases mem_append.mp hmem with hold | hinode
    · exact hother hold
    · exact huse.not_metadata (place.metadata_of_mem hinode)

/-! ## One call -/

theorem firstBytes_bufferOf (data : List (BitVec 8)) : firstBytes (bufferOf data) data.length = data := by
  apply ext_getElem?
  intro a
  rw [getElem?_firstBytes]
  by_cases ha : a < data.length
  · rw [if_pos ha, bufferOf, getD_eq_getElem?_getD, getElem?_eq_getElem ha, Option.getD_some]
  · rw [if_neg ha, getElem?_eq_none (by omega)]

/-- A file in order that stands for the array, and whose calls left the blocks of other files alone. -/
structure Represents (L : Layout) (f0 f : OpenFile) (a : ByteFile) : Prop where
  ok : FileOk L f
  array : f.array L = a
  others : OthersKept L f0 f

namespace Represents

variable {a : ByteFile}

section

variable (h : Represents L f0 f a) (place : InodePlace L r)

include h place

theorem write (now offset : Nat) (data : List (BitVec 8))
    (fits : (write now offset data).Fits L f)
    (sane : (write now offset data).Sane L f) :
    (fileCall L.blockSize r (.write now offset data) f).1 = (arrayCall (.write now offset data) a).1 ∧
      Represents L f0 (fileCall L.blockSize r (.write now offset data) f).2
        (arrayCall (.write now offset data) a).2 := by
  obtain ⟨written, f', created, hcall, hchanged, hcontents, -, -, hall, hnone⟩ := ext2Write_spec h.ok place now
    (bufferOf data) fits.1 fun hw ho => ⟨sane hw ho, roomy_of_cost_le (fits.2 hw ho).1, (fits.2 hw ho).2⟩
  have hothers := h.others.trans (hchanged.othersKept place)
  obtain rfl := h.array
  have hlength : (f.array L).bytes.length = f.length := length_firstBytes _ _
  have hwriteable : (f.array L).writeable = f.writeable := rfl
  simp only [fileCall, hcall, arrayCall, hlength, hwriteable]
  by_cases hok : f.writeable = true ∧ offset ≤ f.length
  · obtain rfl := hall hok.1 hok.2 (fits.2 hok.1 hok.2).1
    rw [if_pos hok]
    refine ⟨rfl, hchanged.ok, ?_, hothers⟩
    rw [OpenFile.array, hcontents, firstBytes_bufferOf, hchanged.readable, hchanged.writeable]
    rfl
  · obtain rfl := hnone (by
      rcases hw : f.writeable with _ | _
      · exact .inl rfl
      · exact .inr (not_le.mp fun ho => hok ⟨hw, ho⟩))
    rw [if_neg hok]
    refine ⟨rfl, hchanged.ok, ?_, hothers⟩
    rw [OpenFile.array, hcontents, hchanged.readable, hchanged.writeable]
    exact congrArg (ByteFile.mk · _ _) (putBytes_nil _ _)

theorem read (now offset size : Nat) (fits : (read now offset size).Fits L f) :
    (fileCall L.blockSize r (.read now offset size) f).1 = (arrayCall (.read now offset size) a).1 ∧
      Represents L f0 (fileCall L.blockSize r (.read now offset size) f).2
        (arrayCall (.read now offset size) a).2 := by
  obtain ⟨count, out', f', hcall, hbytes, hchanged, hcontents⟩ :=
    ext2Read_spec h.ok place now (bufferOf []) fits
  have hothers := h.others.trans (hchanged.othersKept place)
  obtain rfl := h.array
  simp only [fileCall, hcall, arrayCall, hbytes]
  refine ⟨rfl, hchanged.ok, ?_, hothers⟩
  rw [OpenFile.array, hcontents, hchanged.readable, hchanged.writeable]
  rfl

theorem truncate (now : Nat) (sane : (truncate now).Sane L f) :
    (fileCall L.blockSize r (.truncate now) f).1 = (arrayCall (.truncate now) a).1 ∧
      Represents L f0 (fileCall L.blockSize r (.truncate now) f).2 (arrayCall (.truncate now) a).2 := by
  obtain ⟨f', hcall, hok, hcontents, hblocks, hfree, hkeeps, hreadable, hwriteable⟩ :=
    ext2Truncate_spec h.ok place now sane
  obtain rfl := h.array
  simp only [fileCall, hcall, arrayCall]
  refine ⟨trivial, hok, ?_, h.others.trans ?_⟩
  · rw [OpenFile.array, hcontents, hreadable, hwriteable]
    rfl
  · rintro b ⟨huse, hother⟩
    refine ⟨⟨⟨huse.lt, fun hmem => ?_, huse.not_metadata⟩, ?_⟩, ?_⟩
    · rw [hfree] at hmem
      rcases Finset.mem_union.mp hmem with hmem | hmem
      · exact huse.not_free hmem
      · exact hother (mem_toFinset.mp hmem)
    · rw [hblocks]
      exact not_mem_nil
    · exact hkeeps.agree hok.wellFormed.sound huse.not_metadata fun hmem =>
        huse.not_metadata (place.metadata_of_mem hmem)

theorem call (c : FileCall) (fits : c.Fits L f) (sane : c.Sane L f) :
    (fileCall L.blockSize r c f).1 = (arrayCall c a).1 ∧
      Represents L f0 (fileCall L.blockSize r c f).2 (arrayCall c a).2 := by
  cases c with
  | write now offset data => exact h.write place now offset data fits sane
  | read now offset size => exact h.read place now offset size fits
  | truncate now => exact h.truncate place now sane

end

end Represents

/-! ## All calls -/

/-- A file acts as an array of bytes as long as its blocks are appended and freed only where the code can. -/
theorem run_actsAsArray (h : FileOk L f) (place : InodePlace L r) {calls : List FileCall}
    (along : Calls.Along (fileCall L.blockSize r) (fun c f => c.Fits L f ∧ c.Sane L f) calls f) :
    ActsAsArray L r f calls := by
  have hstart : Represents L f f (f.array L) := ⟨h, rfl, fun b hb => ⟨hb, fun _ _ _ => rfl⟩⟩
  obtain ⟨hreplies, hend⟩ := Calls.run_refines arrayCall (R := Represents L f)
    (fun c g a hrep hc => hrep.call place c hc.1 hc.2) along hstart
  refine ⟨hreplies, hend.array, fun b huse hother => ?_⟩
  obtain ⟨⟨huse', -⟩, hagree⟩ := hend.others b ⟨huse, hother⟩
  exact ⟨huse', hagree⟩

/-- A new file whose inode is number 12 of 16. -/
def newFile (disk : Mem) : OpenFile := ⟨⟨disk, fun _ => 0⟩, fun _ => 0, 0, true, true⟩

def newInode : InodeRef := ⟨12, 128, 16⟩

theorem newFile_ok {disk : Mem} (hd : L.WellFormed disk) : FileOk L (newFile disk) := by
  refine ⟨hd, ?_, (by decide : sizeLo (fun _ => 0) = 0)⟩
  change FileMap L disk (fun _ => 0) (blockCount L.blockSize 0)
  rw [blockCount_zero]
  exact .empty disk (by decide)

/-- An inode behind the bitmap of the only group. -/
theorem InodePlace.of_one (hgroups : L.groups = 1) (hgroup : (r.number - 1) / r.inodesPerGroup = 0)
    (fits : inodeAddr L r + 128 ≤ 2 ^ 32) (hhead : L.gdtEnd ≤ inodeAddr L r)
    (hbitmap : (L.bitmapBlock 0 + 1) * L.blockSize ≤ inodeAddr L r)
    (metadata : ∀ b, inodeAddr L r / L.blockSize ≤ b → b ≤ (inodeAddr L r + 127) / L.blockSize → L.metadata b) :
    InodePlace L r := by
  refine ⟨by omega, ?_, fits, ?_, fun a hlo hhi => metadata _ (Nat.div_le_div_right hlo) (Nat.div_le_div_right (by omega))⟩
  · rw [gdtEnd, hgroups] at hhead
    omega
  rintro a hlo hhi (⟨-, h⟩ | ⟨-, h⟩ | ⟨g, hg, -, h⟩)
  · have := L.gdtStart_ge
    unfold gdtEnd at hhead
    omega
  · omega
  · obtain rfl : g = 0 := by omega
    rw [Nat.succ_mul] at hbitmap
    omega

theorem newInode_place_smallLayout : InodePlace smallLayout newInode := by
  refine .of_one smallLayout_groups (by decide) (by decide) (by decide) (by decide) fun b _ hb => ?_
  rw [show (inodeAddr smallLayout newInode + 127) / smallLayout.blockSize = 4 by decide] at hb
  exact (by omega : b ≤ 5)

theorem run_actsAsArray_newFile :
    Calls.Along (fileCall 4096 newInode) (fun c f => c.Fits Layout.smallLayout f ∧ c.Sane Layout.smallLayout f)
      [.write 5 0 [1, 2, 3], .read 6 1 9, .truncate 7] (newFile (Layout.smallDisk 4096 2 10 0x3f)) ∧
    ActsAsArray Layout.smallLayout newInode (newFile (Layout.smallDisk 4096 2 10 0x3f))
      [.write 5 0 [1, 2, 3], .read 6 1 9, .truncate 7] := by
  have small : smallLayout.Small := (by decide : 16 * 4096 ≤ 2 ^ 32)
  have along : Calls.Along (fileCall 4096 newInode)
      (fun c f => c.Fits smallLayout f ∧ c.Sane smallLayout f)
      [.write 5 0 [1, 2, 3], .read 6 1 9, .truncate 7] (newFile (smallDisk 4096 2 10 0x3f)) :=
    ⟨⟨⟨by decide, fun _ _ => ⟨by decide +kernel, small.lowFree smallLayout_wellFormed.sound _ _⟩⟩,
      fun _ _ _ => ⟨by decide, .inl rfl⟩⟩,
      ⟨(by decide : 1 + 9 < 2 ^ 32), trivial⟩, ⟨trivial, .inr ⟨by decide, .inl (by decide)⟩⟩, trivial⟩
  exact ⟨along, run_actsAsArray (newFile_ok smallLayout_wellFormed) newInode_place_smallLayout along⟩

/-- Blocks of 1 KiB: the blocks up to 6 are metadata and block 7 is in use. -/
def kilobyteFiles : Layout := { kilobyteLayout with metadata := fun b => b ≤ 6 }

theorem kilobyteFiles_wellFormed : kilobyteFiles.WellFormed (smallDisk 1024 3 8 0x7f) :=
  wellFormed_of_one (n := 6) rfl (by decide +kernel)

theorem newInode_place_kilobyteFiles : InodePlace kilobyteFiles newInode := by
  refine .of_one (by decide) (by decide) (by decide) (by decide) (by decide) fun b _ hb => ?_
  exact hb

/-- One byte is written to a new file: the code takes block 7, which another file has, and writes it. -/
theorem not_actsAsArray_kilobyteFiles :
    FileOk kilobyteFiles (newFile (Layout.smallDisk 1024 3 8 0x7f)) ∧ InodePlace kilobyteFiles newInode ∧
    Calls.Along (fileCall 1024 newInode) (FileCall.Fits kilobyteFiles) [.write 5 0 [1]]
      (newFile (Layout.smallDisk 1024 3 8 0x7f)) ∧
    ¬ ActsAsArray kilobyteFiles newInode (newFile (Layout.smallDisk 1024 3 8 0x7f)) [.write 5 0 [1]] := by
  have small : kilobyteFiles.Small := (by decide : 16 * 1024 ≤ 2 ^ 32)
  refine ⟨newFile_ok kilobyteFiles_wellFormed, newInode_place_kilobyteFiles,
    ⟨⟨by decide, fun _ _ => ⟨by decide +kernel, small.lowFree kilobyteFiles_wellFormed.sound _ _⟩⟩, trivial⟩,
    fun h => ?_⟩
  have huse : kilobyteFiles.Taken (smallDisk 1024 3 8 0x7f) 7 :=
    ⟨by decide, by decide +kernel, (by decide : ¬ 7 ≤ 6)⟩
  have hagree := (h.others 7 huse (by decide +kernel)).2 (7 * 1024) le_rfl (by decide)
  exact absurd hagree (by decide +kernel)

end Stos.Kernel.Ext2
