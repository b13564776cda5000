import Stos.Kernel.Proofs.Path

/-!
# The length of paths

A path that is expanded at a link is cut after `VFS_MAX_PATH_LENGTH - 1` bytes, and so is the target
of a link. Where nothing is cut, the resolver finds what the path denotes; otherwise it goes on with
the path that is left.
-/

namespace Stos.Kernel

open List Option WalkEnd

/-- The end of a loop as it is found when no more than `VFS_MAX_PATH_LENGTH - 1` bytes of a link's
target are read. -/
def WalkEnd.cut {D I : Type} : WalkEnd D I → WalkEnd D I
  | .done node missing => .done node missing
  | .link dir target rest => .link dir (target.take (vfsMaxPathLength - 1)) rest

theorem takeWhile_take {α : Type} (p : α → Bool) (n : Nat) (l : List α) :
    (l.take n).takeWhile p = (l.takeWhile p).take n := by
  induction l generalizing n with
  | nil => simp
  | cons a l ih =>
    cases n with
    | zero => rfl
    | succ n =>
      rw [take_succ_cons, takeWhile_cons, takeWhile_cons, ih]
      split
      · rw [take_succ_cons]
      · rfl

namespace Vfs

variable {D I : Type} [DecidableEq D] {v : Vfs D I} {target : I → Option CString} {root : D}
  {node start : Dentry D I} {name rest path : CString}

/-! ## The loop with whole targets -/

omit [DecidableEq D] in
theorem TargetsAre.readTarget_eq (h : v.TargetsAre target) (node : Dentry D I) :
    v.readTarget node = (target (v.inodeOf node)).map fun t =>
      (t.takeWhile (· ≠ 0)).take (vfsMaxPathLength - 1) := by
  have hi := h (v.inodeOf node)
  rw [readTarget]
  cases hread : v.readlinkNode (v.inodeOf node) with
  | none =>
    rw [hread] at hi
    rw [map_eq_none_iff.mp hi.symm, map_none]
  | some readlink =>
    rw [hread] at hi
    dsimp only at hi ⊢
    cases ht : target (v.inodeOf node) with
    | none =>
      rw [ht] at hi
      rw [map_eq_none_iff.mp hi, map_none, map_none]
    | some t =>
      rw [ht] at hi
      obtain ⟨stored, hstored, hval⟩ := map_eq_some_iff.mp hi
      rw [hstored, map_some, map_some, hval, takeWhile_take]

theorem fullWalk_none (followLast allowMissing : Bool) (h : nextComponent path = none) :
    v.fullWalk target root followLast allowMissing node path = .done (some node) none := by
  rw [fullWalk]
  split
  · rfl
  · next heq => cases h.symm.trans heq

theorem fullWalk_some (followLast allowMissing : Bool) (h : nextComponent path = some (name, rest)) :
    v.fullWalk target root followLast allowMissing node path =
      match v.fullComponent target root followLast allowMissing node name rest with
      | .inl next => v.fullWalk target root followLast allowMissing next rest
      | .inr e => e := by
  rw [fullWalk]
  split
  · next heq => cases h.symm.trans heq
  · next heq =>
    cases h.symm.trans heq
    rfl

/-- A round differs only in how much of a target it reads. -/
theorem pathComponent_eq (h : v.TargetsAre target) (followLast allowMissing : Bool)
    (node : Dentry D I) (name rest : CString) :
    v.pathComponent root followLast allowMissing node name rest =
      (v.fullComponent target root followLast allowMissing node name rest).map id cut := by
  rw [pathComponent, fullComponent]
  split
  · rfl
  split
  · rfl
  split
  · split
    · rfl
    · rfl
  · next child _ =>
    split
    · rw [h.readTarget_eq child]
      cases target (v.inodeOf child) with
      | none => rfl
      | some t => rfl
    · rfl

theorem pathWalk_eq (h : v.TargetsAre target) (followLast allowMissing : Bool) (node : Dentry D I)
    (path : CString) :
    v.pathWalk root followLast allowMissing node path =
      (v.fullWalk target root followLast allowMissing node path).cut := by
  fun_induction fullWalk v target root followLast allowMissing node path with
  | case1 node path hnext => exact pathWalk_none hnext
  | case2 node path name rest hnext next hround ih =>
    rw [pathWalk_some hnext, pathComponent_eq h, hround]
    exact ih
  | case3 node path name rest hnext e hround =>
    rw [pathWalk_some hnext, pathComponent_eq h, hround]
    rfl

/-! ## Paths that are cut -/

/-- It does not matter that a long target was cut before. -/
theorem combined_take (target rest : CString) :
    combined (target.take (vfsMaxPathLength - 1)) rest = combined target rest := by
  rw [combined, combined, take_append, take_append, take_take, Nat.min_self,
    length_take]
  congr 2
  omega

/-- A step of the resolver, in terms of the loop with whole targets. -/
theorem pathResolveImpl_succ (h : v.TargetsAre target) (followLast allowMissing : Bool) (left : Nat)
    (start : Dentry D I) (hpath : path ≠ []) :
    v.pathResolveImpl root followLast allowMissing (left + 1) start path =
      match v.fullWalk target root followLast allowMissing (pathBase root start path) path with
      | .done node missing => ⟨node, missing.isSome, missing <|> node.map v.nameOf⟩
      | .link dir t rest => v.pathResolveImpl root followLast allowMissing left
          (pathBase root dir (combined t rest)) (combined t rest) := by
  rw [pathResolveImpl, if_neg hpath, pathWalk_eq h]
  cases v.fullWalk target root followLast allowMissing (pathBase root start path) path with
  | done node missing => rfl
  | link dir t rest =>
    dsimp only [cut]
    rw [combined_take]

/-- Where every path fits, the resolver finds what the path denotes. Otherwise it goes on with the path
as it is cut. -/
theorem pathResolveImpl_eq (h : v.TargetsAre target) (root : D) (followLast allowMissing : Bool)
    (left : Nat) (start : Dentry D I) (path : CString) :
    v.pathResolveImpl root followLast allowMissing left start path =
      match v.firstCut target root followLast allowMissing left start path with
      | none => v.fullResolve target root followLast allowMissing left start path
      | some (k, dir, q) => v.pathResolveImpl root followLast allowMissing k dir q := by
  induction left generalizing start path with
  | zero => rfl
  | succ left ih =>
    by_cases hpath : path = []
    · rw [pathResolveImpl, firstCut, fullResolve, if_pos hpath, if_pos hpath, if_pos hpath]
    · rw [pathResolveImpl_succ h _ _ _ _ hpath, firstCut, fullResolve, if_neg hpath, if_neg hpath]
      cases v.fullWalk target root followLast allowMissing (pathBase root start path) path with
      | done node missing => rfl
      | link dir t rest =>
        dsimp only
        by_cases hlen : (t ++ rest).length < vfsMaxPathLength
        · rw [if_pos hlen, combined_eq (Nat.le_sub_one_of_lt hlen)]
          exact ih _ _
        · rw [if_neg hlen]

/-- `n` slashes and `d`. -/
def slashesTo (n : Nat) : CString := replicate n slash ++ [0x64]

/-- The target of the inode 1. -/
def slashesTarget (n : Nat) (i : Nat) : Option CString := if i = 1 then some (slashesTo n) else none

/-- A root with a directory `d`, inode 2, and a link `l`, inode 1, to `d`. -/
def slashesVfs (n : Nat) : Vfs Unit Nat where
  name _ := []
  parent _ := none
  inode _ := 0
  type i := if i = 1 then vfsTypeSymlink else vfsTypeDirectory
  finddirNode i := some fun name =>
    if i = 0 ∧ name = [0x6C] then some 1 else if i = 0 ∧ name = [0x64] then some 2 else none
  readlinkNode i := some fun size =>
    if i = 1 then some ⟨(slashesTo n).take size, length_take_le ..⟩ else none

theorem slashesVfs_targetsAre (n : Nat) : (slashesVfs n).TargetsAre (slashesTarget n) := by
  intro i
  unfold slashesVfs slashesTarget
  dsimp only
  split
  · rfl
  · rfl

theorem dropWhile_slashes (n : Nat) (q : CString) :
    (replicate n slash ++ q).dropWhile (· = slash) = q.dropWhile (· = slash) := by
  induction n with
  | zero => rfl
  | succ n ih =>
    rw [replicate_succ, cons_append, dropWhile_cons_of_pos (by decide), ih]

theorem slashesVfs_finddir (n : Nat) :
    (slashesVfs n).vfsFinddir (.existing ()) [0x6C] = some (.created [0x6C] (.existing ()) 1) ∧
      (slashesVfs n).vfsFinddir (.existing ()) [0x64] = some (.created [0x64] (.existing ()) 2) := by
  constructor
  · simp [vfsFinddir, inodeOf, slashesVfs, vfsTypeDirectory, vfsMaxFilename]
  · simp [vfsFinddir, inodeOf, slashesVfs, vfsTypeDirectory, vfsMaxFilename]

/-- The loop over the path `l`. -/
theorem slashesVfs_link (n : Nat) :
    (slashesVfs n).fullWalk (slashesTarget n) () true false (.existing ()) [0x6C] =
      .link (.existing ()) (slashesTo n) [] := by
  have hzero : (slashesTo n).takeWhile (· ≠ 0) = slashesTo n := by
    rw [slashesTo, takeWhile_append_of_pos]
    · rfl
    · intro c hc
      rw [(mem_replicate.mp hc).2]
      decide
  have hnext : nextComponent [0x6C] = some ([0x6C], []) := by decide
  have htype : (slashesVfs n).type 1 = vfsTypeSymlink := rfl
  have hround : (slashesVfs n).fullComponent (slashesTarget n) () true false (.existing ()) [0x6C] [] =
      .inr (.link (.existing ()) (slashesTo n) []) := by
    rw [fullComponent, if_neg (by decide), if_neg (by decide), (slashesVfs_finddir n).1]
    simp only [inodeOf, htype, slashesTarget, true_or, and_self, if_true, hzero]
  rw [fullWalk_some true false hnext, hround]

/-- The loop over the target of the link. -/
theorem slashesVfs_target (n : Nat) :
    (slashesVfs n).fullWalk (slashesTarget n) () true false (.existing ()) (slashesTo n) =
      .done (some (.created [0x64] (.existing ()) 2)) none := by
  have hnext : nextComponent (slashesTo n) = some ([0x64], []) := by
    rw [nextComponent, slashesTo, dropWhile_slashes]
    rfl
  have hround : (slashesVfs n).fullComponent (slashesTarget n) () true false (.existing ()) [0x64] [] =
      .inl (.created [0x64] (.existing ()) 2) := by
    have htype : (slashesVfs n).type 2 ≠ vfsTypeSymlink :=
      show vfsTypeDirectory ≠ vfsTypeSymlink by decide
    rw [fullComponent, if_neg (by decide), if_neg (by decide), (slashesVfs_finddir n).2]
    exact if_neg fun h => htype h.1
  rw [fullWalk_some true false hnext, hround]
  exact fullWalk_none true false rfl

theorem slashesVfs_base (q : CString) :
    pathBase () (.existing () : Dentry Unit Nat) q = .existing () := ite_self _

/-- The path `l` denotes `d`. -/
theorem slashesVfs_full (n left : Nat) :
    ((slashesVfs n).fullResolve (slashesTarget n) () true false (left + 2) (.existing ())
      [0x6C]).node = some (.created [0x64] (.existing ()) 2) := by
  have hne : slashesTo n ≠ [] := by simp [slashesTo]
  rw [fullResolve, if_neg (by decide), slashesVfs_base, slashesVfs_link]
  dsimp only
  rw [append_nil, fullResolve, if_neg hne, slashesVfs_base, slashesVfs_base, slashesVfs_target]

/-- With too many slashes the resolver finds the root. -/
theorem slashesVfs_cut {n : Nat} (hn : vfsMaxPathLength - 1 ≤ n) (left : Nat) :
    ((slashesVfs n).pathResolveImpl () true false (left + 2) (.existing ()) [0x6C]).node =
        some (.existing ()) ∧
      (slashesVfs n).firstCut (slashesTarget n) () true false (left + 2) (.existing ()) [0x6C] ≠
        none := by
  have hcombined : combined (slashesTo n) [] = replicate (vfsMaxPathLength - 1) slash := by
    rw [combined, append_nil, slashesTo, take_append_of_le_length, take_replicate,
      Nat.min_eq_left hn]
    rw [length_replicate]
    exact hn
  have hnext : nextComponent (replicate (vfsMaxPathLength - 1) slash) = none := by
    have hdrop := dropWhile_slashes (vfsMaxPathLength - 1) []
    rw [append_nil] at hdrop
    rw [nextComponent, hdrop]
    rfl
  have hne : replicate (vfsMaxPathLength - 1) slash ≠ [] :=
    ne_nil_of_length_pos (by rw [length_replicate]; decide)
  constructor
  · rw [pathResolveImpl_succ (slashesVfs_targetsAre n) _ _ _ _ (by decide), slashesVfs_base,
      slashesVfs_link]
    dsimp only
    rw [hcombined, slashesVfs_base, pathResolveImpl, if_neg hne, slashesVfs_base, pathWalk_none hnext]
  · rw [firstCut, if_neg (by decide), slashesVfs_base, slashesVfs_link]
    dsimp only
    rw [append_nil, if_neg]
    · exact some_ne_none _
    · rw [slashesTo, length_append, length_replicate, length_singleton]
      omega

end Vfs

end Stos.Kernel
