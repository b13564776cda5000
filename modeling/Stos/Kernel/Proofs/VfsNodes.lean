import Stos.Kernel.VfsNodes

/-!
# Nodes of the file systems: proofs

`vfs_populate_node` clears all pointer fields but `mkfile_node`, so that this is the only one that can
hold what was in memory before.
-/

namespace Stos.Kernel

open List Function VfsNode Mount

variable {old : OldWords} {n : VfsNode} {op : NodeOp} {fss : List FileSystem} {src : NodeSource}
  {mounts : List Mount} {call : VfsCall}

namespace VfsNode

@[simp] theorem set_ops_self (n : VfsNode) (op : NodeOp) (h : Handler) :
    (n.set op h).ops op = .stored h := update_self op _ _

variable {op' : NodeOp} {h : Handler}

theorem set_ops_of_ne (hne : op' ≠ op) (h : Handler) :
    (n.set op h).ops op' = n.ops op' := update_of_ne hne _ _

theorem isDirectory_of_type (h : n.type = vfsTypeDirectory) : n.isDirectory := by
  rw [isDirectory, h]
  decide

theorem not_isDirectory {t : BitVec 8} (h : n.type = t) (ht : t &&& vfsTypeDirectory = 0) :
    ¬ n.isDirectory := fun hdir => hdir (h ▸ ht)

/-- All fields but `mkfile_node` are `NULL` or hold functions of the given file systems. -/
def Clean (n : VfsNode) (fss : List FileSystem) : Prop :=
  ∀ op, op ≠ .mkfileNode →
    n.ops op = .null ∨ ∃ h : Handler, n.ops op = .stored h ∧ h.fileSystem ∈ fss

theorem vfsPopulateNode_clean (fields : NodeOp → Pointer) (type : BitVec 8)
    (fss : List FileSystem) : (vfsPopulateNode fields type).Clean fss := by
  intro op hop
  cases op with
  | mkfileNode => exact absurd rfl hop
  | _ => exact .inl rfl

theorem Clean.set (hn : n.Clean fss) (hfs : h.fileSystem ∈ fss) : (n.set op h).Clean fss := by
  intro op' hop'
  by_cases e : op' = op
  · subst e
    exact .inr ⟨h, set_ops_self n op' h, hfs⟩
  · rw [set_ops_of_ne e]
    exact hn op' hop'

/-- A file system stores a function of its own. -/
theorem Clean.own {fs : FileSystem} (hn : n.Clean [fs]) (hfs : h.fileSystem = fs) :
    (n.set op h).Clean [fs] :=
  hn.set (mem_singleton.mpr hfs)

theorem Clean.mono {fss' : List FileSystem} (hn : n.Clean fss) (hsub : fss ⊆ fss') :
    n.Clean fss' := fun op hop =>
  (hn op hop).imp id fun ⟨h, hstored, hfs⟩ => ⟨h, hstored, hsub hfs⟩

theorem mem_present : op ∈ n.present op' ↔ op = op' ∧ n.ops op' ≠ .null := by
  unfold present
  split
  case isTrue h => simp [h]
  case isFalse h => simp [h]

/-- Every call checks a pointer before it uses it, and only `vfs_mkfile` uses `mkfile_node`. -/
theorem mem_invoked (h : op ∈ n.invoked call) :
    n.ops op ≠ .null ∧ (op = .mkfileNode → call = .mkfile) := by
  have hpresent : ∀ {op' : NodeOp}, op' ≠ .mkfileNode → op ∈ n.present op' →
      n.ops op ≠ .null ∧ (op = .mkfileNode → call = .mkfile) := fun hne hmem => by
    obtain ⟨rfl, hnull⟩ := mem_present.mp hmem
    exact ⟨hnull, fun e => absurd e hne⟩
  have hclosed : ∀ {b : Bool}, op ∈ n.closed b →
      n.ops op ≠ .null ∧ (op = .mkfileNode → call = .mkfile) := fun {b} hmem => by
    rcases mem_append.mp hmem with hmem | hmem
    · exact hpresent (by decide) hmem
    · cases b with
      | false => simp at hmem
      | true => exact hpresent (by decide) hmem
  cases call with
  | mkfile =>
    refine ⟨?_, fun _ => rfl⟩
    rw [invoked, mem_ite_nil_right] at h
    obtain ⟨-, h⟩ := h
    obtain ⟨rfl, hnull⟩ := mem_present.mp h
    exact hnull
  | openFile mode opens truncates onlyHandle =>
    rw [invoked, mem_ite_nil_left] at h
    obtain ⟨-, h⟩ := h
    rcases mem_append.mp h with h | h
    · exact hpresent (by decide) h
    · split at h
      · exact hclosed h
      · rw [mem_ite_nil_right] at h
        obtain ⟨⟨-, hnull⟩, h⟩ := h
        rcases mem_cons.mp h with rfl | h
        · exact ⟨hnull, fun e => by cases e⟩
        · rw [mem_ite_nil_left] at h
          exact hclosed h.2
  | close lastReference onlyHandle =>
    rw [invoked, mem_ite_nil_right] at h
    exact hclosed h.2
  | sync | stat | ioctl => exact hpresent (by decide) h
  | read | write | unref =>
    rw [invoked, mem_ite_nil_left] at h
    exact hpresent (by decide) h.2
  | readdir | finddir | readlink | resolveLink | mkdir =>
    rw [invoked, mem_ite_nil_right] at h
    exact hpresent (by decide) h.2

end VfsNode

namespace NodeSource

open VfsNode

theorem build_clean (old : OldWords) (src : NodeSource) : (src.build old).Clean [src.fileSystem] := by
  have hpop := fun fields type => vfsPopulateNode_clean fields type [src.fileSystem]
  cases src with
  | vfsMkdir | vfsMkfile => exact hpop _ _
  | vfsInit | deviceMount | stdioCreateNode | initrdMount | procSelf | procStat =>
    exact ((hpop _ _).own rfl).own rfl
  | hdAtapi | procPid | procFd =>
    exact (((hpop _ _).own rfl).own rfl).own rfl
  | deviceTtyMount | hdPio | hdPartition =>
    exact ((((hpop _ _).own rfl).own rfl).own rfl).own rfl
  | procFdEntry =>
    exact (((((((hpop _ _).own rfl).own rfl).own rfl).own rfl).own rfl).own rfl).own rfl
  | initrdCreateNewFile isDirectory =>
    have hn (type : BitVec 8) :
        ((vfsPopulateNode (kmallocNode old) type).set .statNode .initrdStat).Clean [.initrd] :=
      (hpop _ _).own rfl
    cases isDirectory with
    | true => exact ((hn _).own rfl).own rfl
    | false => exact (hn _).own rfl
  | isoFinddir isSubdir =>
    cases isSubdir with
    | true => exact ((hpop _ _).own rfl).own rfl
    | false => exact (hpop _ _).own rfl
  | ext2Finddir typeAndPermissions =>
    have hn (type : BitVec 8) : (((vfsPopulateNode (kmallocNode old) type).set .onRelease
        .ext2OnRelease).set .statNode .ext2Stat).Clean [.ext2] := ((hpop _ _).own rfl).own rfl
    unfold build
    dsimp only
    split_ifs
    · exact ((((hn _).own rfl).own rfl).own rfl).own rfl
    · exact (hn _).own rfl
    · exact (((((hn _).own rfl).own rfl).own rfl).own rfl).own rfl

theorem ext2TypeToVfs_directory (t : BitVec 16) :
    ext2TypeToVfs t &&& vfsTypeDirectory ≠ 0 ↔ ext2TypeToVfs t = vfsTypeDirectory := by
  unfold ext2TypeToVfs
  split <;> decide

/-- The directories whose file system leaves `mkfile_node` as it was. -/
theorem build_leaves (old : OldWords) (h : src.LeavesMkfile) :
    (src.build old).isDirectory ∧ (src.build old).ops .mkfileNode = kmallocNode old .mkfileNode := by
  cases src with
  | deviceMount | initrdMount | procPid | procFd => exact ⟨isDirectory_of_type rfl, rfl⟩
  | initrdCreateNewFile isDirectory =>
    obtain rfl : isDirectory = true := h
    exact ⟨isDirectory_of_type rfl, rfl⟩
  | _ => cases h

/-- All others are no directories, or have a cleared field or that of their file system. -/
theorem build_not_leaves (old : OldWords) (h : ¬ src.LeavesMkfile) :
    ¬ (src.build old).isDirectory ∨ (src.build old).ops .mkfileNode = .null ∨
      (src.build old).ops .mkfileNode = .stored .ext2Mkfile ∧ src.fileSystem = .ext2 := by
  cases src with
  | deviceMount | initrdMount | procPid | procFd => exact absurd trivial h
  | vfsInit | vfsMkdir | vfsMkfile | stdioCreateNode | hdAtapi | hdPio | hdPartition =>
    exact .inr (.inl rfl)
  | deviceTtyMount => exact .inl (not_isDirectory (t := vfsTypeCharacterDevice) rfl (by decide))
  | procSelf => exact .inl (not_isDirectory (t := vfsTypeSymlink) rfl (by decide))
  | procStat | procFdEntry => exact .inl (not_isDirectory (t := vfsTypeFile) rfl (by decide))
  | initrdCreateNewFile isDirectory =>
    cases isDirectory with
    | true => exact absurd rfl h
    | false => exact .inl (not_isDirectory (t := vfsTypeFile) rfl (by decide))
  | isoFinddir isSubdir =>
    cases isSubdir with
    | true => exact .inr (.inl rfl)
    | false => exact .inr (.inl rfl)
  | ext2Finddir t =>
    by_cases hdir : ext2TypeToVfs t = vfsTypeDirectory
    · refine .inr (.inr ⟨?_, rfl⟩)
      unfold build
      dsimp only
      rw [if_pos hdir, set_ops_self]
    · refine .inl fun hisdir => hdir ((ext2TypeToVfs_directory t).mp ?_)
      have htype : (build old (ext2Finddir t)).type = ext2TypeToVfs t := by
        unfold build
        dsimp only
        rw [if_neg hdir]
        split <;> rfl
      rw [isDirectory, htype] at hisdir
      exact hisdir

end NodeSource

/-! ## Mounting -/

namespace Mount

open VfsNode

theorem apply_type (n : VfsNode) (m : Mount) : (m.apply n).type = n.type := by
  cases m <;> rfl

theorem apply_clean (hn : n.Clean fss) (m : Mount) : (m.apply n).Clean (fss ++ [m.fileSystem]) := by
  have hold : n.Clean (fss ++ [m.fileSystem]) := hn.mono (subset_append_left _ _)
  have hnew : ∀ h : Handler, h.fileSystem = m.fileSystem → h.fileSystem ∈ fss ++ [m.fileSystem] :=
    fun h e => mem_append_right _ (mem_singleton.mpr e)
  cases m with
  | proc | iso9660 => exact (hold.set (hnew _ rfl)).set (hnew _ rfl)
  | ext2 =>
    exact (((((hold.set (hnew _ rfl)).set (hnew _ rfl)).set (hnew _ rfl)).set (hnew _ rfl)).set
      (hnew _ rfl)).set (hnew _ rfl)

theorem apply_mkfile (n : VfsNode) (m : Mount) :
    (m.apply n).ops .mkfileNode = if m = .ext2 then .stored .ext2Mkfile else n.ops .mkfileNode := by
  cases m <;> rfl

end Mount

/-- The node after all mounts, made from a node with functions of `fss`. -/
theorem foldl_mounts (mounts : List Mount) (hn : n.Clean fss) :
    (mounts.foldl apply n).type = n.type ∧
      (mounts.foldl apply n).Clean (fss ++ mounts.map fileSystem) ∧
      (mounts.foldl apply n).ops .mkfileNode =
        if .ext2 ∈ mounts then .stored .ext2Mkfile else n.ops .mkfileNode := by
  induction mounts generalizing n fss with
  | nil => exact ⟨rfl, by simpa using hn, rfl⟩
  | cons m mounts ih =>
    obtain ⟨htype, hclean, hmkfile⟩ := ih (apply_clean hn m)
    refine ⟨htype.trans (apply_type n m), by simpa using hclean, ?_⟩
    rw [foldl_cons, hmkfile, apply_mkfile]
    by_cases hmem : .ext2 ∈ mounts
    · simp [hmem]
    · by_cases hm : m = .ext2
      · simp [hm]
      · simp [hmem, hm, Ne.symm hm]

end Stos.Kernel
