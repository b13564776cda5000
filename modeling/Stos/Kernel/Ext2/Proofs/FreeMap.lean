import Stos.Kernel.Ext2.Proofs.BlockMap

/-!
# Freeing the block map

`free_indirect1`, `free_indirect2`, `free_indirect3` and the loops of `ext2_truncate` free exactly the
blocks of the trees of an inode. A table is read before anything below it is freed, and freeing writes
only the allocator's data, so the tables that are read later are as they were.
-/

namespace Stos.Kernel.Ext2

open PointerTree List Finset Nat Ext2

variable {L : Layout} {v v' v'' : Volume} {p : Nat}

/-- From one volume to another: the given blocks are freed and nothing else is written. -/
structure FreesAll (L : Layout) (v v' : Volume) (blocks : List Nat) : Prop where
  wellFormed : L.WellFormed v'.disk
  freeSet : L.freeSet v'.disk = L.freeSet v.disk ∪ blocks.toFinset
  keeps : L.Keeps [] v.disk v'.disk

namespace FreesAll

variable {blocks blocks' : List Nat}

theorem refl (hd : L.WellFormed v.disk) : FreesAll L v v [] := ⟨hd, by simp, Layout.Keeps.refl _ _⟩

section

variable (h : FreesAll L v v' blocks) {b : Nat}

include h

theorem trans (h' : FreesAll L v' v'' blocks') : FreesAll L v v'' (blocks ++ blocks') := by
  refine ⟨h'.wellFormed, ?_, h.keeps.trans h'.keeps⟩
  rw [h'.freeSet, h.freeSet, toFinset_append, union_assoc]

theorem perm (hperm : blocks.Perm blocks') : FreesAll L v v' blocks' :=
  ⟨h.wellFormed, by rw [h.freeSet, toFinset_eq_of_perm _ _ hperm], h.keeps⟩

/-- A block that is not freed stays in use. -/
theorem taken (hb : L.Taken v.disk b) (hmem : b ∉ blocks) : L.Taken v'.disk b := by
  refine ⟨hb.lt, fun hfree => ?_, hb.not_metadata⟩
  rw [h.freeSet] at hfree
  rcases mem_union.mp hfree with hfree | hfree
  · exact hb.not_free hfree
  · exact hmem (mem_toFinset.mp hfree)

theorem inUse (hb : L.InUse v.disk b) (hmem : b ∉ blocks) :
    L.InUse v'.disk b := ⟨h.taken hb.toTaken hmem, hb.low⟩

theorem agree (hb : ¬ L.metadata b) :
    Agree L.blockSize v.disk v'.disk b := h.keeps.agree h.wellFormed.sound hb not_mem_nil

end

end FreesAll

/-- Freeing trees one after another. -/
def freeAll (blockSize : Nat) (v : Volume) (rs : List (Nat × Nat)) : Volume :=
  rs.foldl (fun v r => if r.2 ≠ 0 then freeIndirect blockSize r.1 v r.2 else v) v

/-- If each tree is freed as it should be, so are all of them. -/
theorem freeAll_spec (rs0 : List (Nat × Nat))
    (one : ∀ v k p, L.WellFormed v.disk → p ≠ 0 → (k, p) ∈ rs0 → (reach L.blockSize v.disk k p).Nodup →
      (∀ b ∈ reach L.blockSize v.disk k p, L.InUse v.disk b) →
      FreesAll L v (freeIndirect L.blockSize k v p) (reach L.blockSize v.disk k p))
    (rs : List (Nat × Nat)) : ∀ v : Volume, rs ⊆ rs0 → L.WellFormed v.disk →
      (forestReach L.blockSize v.disk rs).Nodup →
      (∀ b ∈ forestReach L.blockSize v.disk rs, L.InUse v.disk b) →
      FreesAll L v (freeAll L.blockSize v rs) (forestReach L.blockSize v.disk rs) := by
  induction rs with
  | nil => exact fun v _ hd _ _ => FreesAll.refl hd
  | cons r rs ih =>
    intro v hsub hd hnodup hinUse
    obtain ⟨k, p⟩ := r
    rw [forestReach, flatMap_cons] at hnodup hinUse ⊢
    rw [freeAll, foldl_cons, ← freeAll]
    have hrest : rs ⊆ rs0 := fun r hr => hsub (mem_cons_of_mem _ hr)
    by_cases hp : p = 0
    · rw [if_neg (fun h => h hp), hp, reach_of_zero, nil_append]
      rw [hp, reach_of_zero, nil_append] at hnodup hinUse
      exact ih v hrest hd hnodup hinUse
    · rw [if_pos hp]
      obtain ⟨hhead, htail, hdisjoint⟩ := nodup_append.mp hnodup
      have hfirst := one v k p hd hp (hsub mem_cons_self) hhead
        fun b hb => hinUse b (mem_append_left _ hb)
      -- the other trees are as they were
      have hsame : forestReach L.blockSize (freeIndirect L.blockSize k v p).disk rs =
          forestReach L.blockSize v.disk rs := forestReach_congr fun b hb =>
        hfirst.agree (hinUse b (mem_append_right _ (forestTables_subset_reach _ _ hb))).not_metadata
      have hothers := ih (freeIndirect L.blockSize k v p) hrest hfirst.wellFormed (hsame ▸ htail) fun b hb => by
        rw [hsame] at hb
        exact hfirst.inUse (hinUse b (mem_append_right _ hb)) fun hmem => hdisjoint b hmem b hb rfl
      rw [hsame] at hothers
      exact hfirst.trans hothers

/-- The pointers of a table in a buffer of its own. -/
theorem tablePtr_eq (h2048 : L.blockSize ≠ 2048) (hp : L.Low p) (w : Volume) (i : Nat) :
    tablePtr w L.blockSize (v.read (p * L.blockSize)) i = slot L.blockSize v.disk p i := by
  have hend := hp.fits
  have hsize := L.blockSize_pos
  rw [tablePtr, if_neg h2048]
  exact readLE_read (by omega) _ _

theorem freeEntries_eq (h2048 : L.blockSize ≠ 2048) (hp : L.Low p) (k : Nat) (w : Volume) :
    freeEntries (freeIndirect L.blockSize k) L.blockSize (v.read (p * L.blockSize)) w =
      freeAll L.blockSize w ((List.range (width L.blockSize)).map fun j => (k, slot L.blockSize v.disk p j)) := by
  unfold freeEntries freeAll
  rw [foldl_map]
  refine foldl_ext _ _ _ fun w i _ => ?_
  rw [tablePtr_eq h2048 hp w i]

/-- A tree is freed, its tables behind what is below them. -/
theorem freeIndirect_spec (hsize : L.blockSize ≠ 1024) (k : Nat) :
    (k = 0 ∨ L.blockSize ≠ 2048) → ∀ (v : Volume) (p : Nat), L.WellFormed v.disk → p ≠ 0 →
      (reach L.blockSize v.disk k p).Nodup → (∀ b ∈ reach L.blockSize v.disk k p, L.InUse v.disk b) →
      FreesAll L v (freeIndirect L.blockSize k v p) (reach L.blockSize v.disk k p) := by
  induction k with
  | zero =>
    intro _ v p hd hp _ hinUse
    rw [reach, if_neg hp] at hinUse ⊢
    obtain ⟨hwell, hset, hkeeps⟩ := hd.freeBlock hsize (hinUse p mem_cons_self)
    refine ⟨hwell, ?_, hkeeps⟩
    rw [freeIndirect, hset, toFinset_cons, toFinset_nil, insert_empty_eq, union_comm]
    exact insert_eq p _
  | succ k ih =>
    intro hbuffer v p hd hp hnodup hinUse
    have h2048 : L.blockSize ≠ 2048 := hbuffer.resolve_left (by omega)
    rw [reach_succ hp] at hnodup hinUse ⊢
    have hroot := hinUse p mem_cons_self
    obtain ⟨hnot, hnodup⟩ := nodup_cons.mp hnodup
    have hbuf : v.useBuffer L.blockSize (v.read (p * L.blockSize)) = v := if_neg h2048
    have hchildren : forestReach L.blockSize v.disk
        ((List.range (width L.blockSize)).map fun j => (k, slot L.blockSize v.disk p j)) =
        (List.range (width L.blockSize)).flatMap fun j => reach L.blockSize v.disk k
          (slot L.blockSize v.disk p j) := by
      rw [forestReach, flatMap_map]
    have hfrees := freeAll_spec ((List.range (width L.blockSize)).map fun j => (k, slot L.blockSize v.disk p j))
      (fun w k' q hw hq hmem => by
        obtain ⟨j, -, hj⟩ := mem_map.mp hmem
        obtain ⟨rfl, -⟩ := Prod.mk.inj hj
        exact ih (.inr h2048) w q hw hq) _ v (List.Subset.refl _) hd
      (hchildren ▸ hnodup) (fun b hb => hinUse b (mem_cons_of_mem _ (hchildren ▸ hb)))
    rw [hchildren] at hfrees
    obtain ⟨hwell, hset, hkeeps⟩ := hfrees.wellFormed.freeBlock hsize (hfrees.inUse hroot hnot)
    have hlast : FreesAll L (freeAll L.blockSize v
        ((List.range (width L.blockSize)).map fun j => (k, slot L.blockSize v.disk p j)))
        (freeBlock L.blockSize (freeAll L.blockSize v
          ((List.range (width L.blockSize)).map fun j => (k, slot L.blockSize v.disk p j))) p) [p] := by
      refine ⟨hwell, ?_, hkeeps⟩
      rw [hset, toFinset_cons, toFinset_nil, insert_empty_eq, union_comm]
      exact insert_eq p _
    unfold freeIndirect
    dsimp only
    rw [hbuf, freeEntries_eq h2048 hroot.low]
    exact (hfrees.trans hlast).perm (perm_append_singleton _ _)

/-! ## The pointers of an inode -/

variable {inode : Mem} {n : Nat}

/-- The pointers before the given one are cleared. -/
def clearPtrs (inode : Mem) (j : Nat) : Mem :=
  (List.range j).foldl (fun inode j => if blockPtr inode j ≠ 0 then setBlockPtr inode j 0 else inode) inode

theorem clearPtrs_succ (inode : Mem) (j : Nat) : clearPtrs inode (j + 1) =
    if blockPtr (clearPtrs inode j) j ≠ 0 then setBlockPtr (clearPtrs inode j) j 0 else clearPtrs inode j := by
  rw [clearPtrs, range_succ, foldl_append]
  rfl

theorem blockPtr_clearPtrs (inode : Mem) (j j' : Nat) :
    blockPtr (clearPtrs inode j) j' = if j' < j then 0 else blockPtr inode j' := by
  induction j with
  | zero => rw [if_neg (not_lt_zero j')]; rfl
  | succ j ih =>
    rw [clearPtrs_succ]
    by_cases hptr : blockPtr (clearPtrs inode j) j ≠ 0
    · rw [if_pos hptr, blockPtr_setBlockPtr (by decide), ih]
      by_cases hj : j' = j
      · rw [if_pos hj, if_pos (by omega)]
      · rw [if_neg hj]
        exact if_congr (by omega) rfl rfl
    · rw [if_neg hptr, ih]
      by_cases hj : j' = j
      · subst hj
        rw [ih, if_neg (lt_irrefl j')] at hptr
        rw [if_neg (lt_irrefl j'), if_pos j'.lt_succ_self]
        exact Decidable.not_not.mp hptr
      · exact if_congr (by omega) rfl rfl

theorem clearPtrs_of_outside {j a : Nat} (hj : j ≤ 15) (ha : a < 40 ∨ 100 ≤ a) :
    clearPtrs inode j a = inode a := by
  induction j with
  | zero => rfl
  | succ j ih =>
    rw [clearPtrs_succ]
    split
    · rw [setBlockPtr_of_outside (by omega) ha]
      exact ih (by omega)
    · exact ih (by omega)

theorem freeAll_rootsBefore_succ (blockSize : Nat) (v : Volume) (inode : Mem) (j : Nat) :
    freeAll blockSize v (rootsBefore inode (j + 1)) =
      if blockPtr inode j ≠ 0 then
        freeIndirect blockSize (j - 11) (freeAll blockSize v (rootsBefore inode j)) (blockPtr inode j)
      else freeAll blockSize v (rootsBefore inode j) := by
  unfold freeAll rootsBefore
  rw [range_succ, map_append, foldl_append]
  rfl

/-- The volume and the inode are changed side by side. -/
theorem freePointers_eq (blockSize : Nat) (v : Volume) (inode : Mem) :
    freePointers blockSize v inode = (freeAll blockSize v (roots inode), clearPtrs inode 15) := by
  have hsteps : ∀ j, (List.range j).foldl (fun (p : Volume × Mem) j =>
      if blockPtr p.2 j ≠ 0 then (freeIndirect blockSize (j - 11) p.1 (blockPtr p.2 j), setBlockPtr p.2 j 0)
      else p) (v, inode) = (freeAll blockSize v (rootsBefore inode j), clearPtrs inode j) := by
    intro j
    induction j with
    | zero => rfl
    | succ j ih =>
      have hptr : blockPtr (clearPtrs inode j) j = blockPtr inode j := by
        rw [blockPtr_clearPtrs, if_neg (lt_irrefl j)]
      rw [range_succ, foldl_append, ih, clearPtrs_succ, freeAll_rootsBefore_succ, foldl_cons,
        foldl_nil]
      rw [hptr]
      split <;> rfl
  exact hsteps 15

/-- All blocks of a file are freed. -/
theorem FileMap.freePointers (h : FileMap L v.disk inode n) (hd : L.WellFormed v.disk)
    (hsize : L.blockSize ≠ 1024) (hbuffer : L.blockSize ≠ 2048 ∨ n ≤ 12) :
    FreesAll L v (freePointers L.blockSize v inode).1 (forestReach L.blockSize v.disk (roots inode)) ∧
      (∀ j < 15, blockPtr (freePointers L.blockSize v inode).2 j = 0) ∧
      ∀ a, a < 40 ∨ 100 ≤ a → (freePointers L.blockSize v inode).2 a = inode a := by
  rw [freePointers_eq]
  dsimp only
  refine ⟨?_, fun j hj => (blockPtr_clearPtrs inode 15 j).trans (if_pos hj),
    fun a ha => clearPtrs_of_outside le_rfl ha⟩
  refine freeAll_spec (roots inode) (fun w k p hw hp hmem => ?_) _ v (List.Subset.refl _) hd h.nodup h.inUse
  obtain ⟨j, hj, hkp⟩ := mem_map.mp hmem
  obtain ⟨rfl, rfl⟩ := Prod.mk.inj hkp
  have hj' := List.mem_range.mp hj
  refine freeIndirect_spec hsize _ ?_ w _ hw hp
  -- with at most 12 blocks there is no pointer to a table
  refine hbuffer.symm.imp_left fun hn => ?_
  by_contra hk
  have hdense := (roots_split inode hj' ▸ h.dense :
    ForestDense L.blockSize v.disk (rootsBefore inode j ++ (j - 11, blockPtr inode j) :: rootsBehind inode j) n).behind
  have hcap : 12 ≤ capacity L.blockSize (rootsBefore inode j) := by
    rcases (by omega : j = 12 ∨ j = 13 ∨ j = 14) with rfl | rfl | rfl
    · rw [capacity_direct _ _ le_rfl]
    · rw [capacity_thirteen]
      omega
    · rw [capacity_fourteen]
      omega
  have hnone : n - capacity L.blockSize (rootsBefore inode j) = 0 := by omega
  rw [hnone, Nat.min_zero] at hdense
  exact hp (hdense.eq_zero_iff.mpr rfl)

end Stos.Kernel.Ext2
