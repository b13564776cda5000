import Stos.Kernel.PathNames
import Stos.Kernel.Proofs.Path

/-!
# Names in nodes and dentries: proofs
-/

namespace Stos.Kernel

open List Option Vfs

namespace NamedVfs

variable {D I : Type} [DecidableEq D] {v : NamedVfs D I} {dentry : Dentry D I} {name path : CString}

omit [DecidableEq D] in
/-- A name for which a node is made from what is stored is short. -/
theorem length_of_stored (hfound : (v.vfsFinddir dentry name).isSome)
    (hlookup : v.lookup (v.inodeOf dentry) name = .stored) : name.length < vfsMaxFilename := by
  rw [vfsFinddir] at hfound
  split at hfound
  · cases hfound
  · split at hfound
    · cases hfound
    · rename_i finddir hfinddir
      rw [isSome_map] at hfound
      obtain ⟨child, hchild⟩ := isSome_iff_exists.mp hfound
      exact v.stored_short _ finddir name child hfinddir hchild hlookup

theorem length_take_le (name : CString) :
    (name.take (vfsMaxFilename - 1)).length ≤ vfsMaxFilename - 1 :=
  List.length_take_le _ _

omit [DecidableEq D] in
/-- `vfs_finddir` copies too long a name only where a node is made for any name. -/
theorem vfsFinddirNames_fit_iff (v : NamedVfs D I) (dentry : Dentry D I) (name : CString) :
    (∀ x ∈ v.vfsFinddirNames dentry name, x.length ≤ vfsMaxFilename - 1) ↔
      ((v.vfsFinddir dentry name).isSome → v.lookup (v.inodeOf dentry) name = .any →
        name.length < vfsMaxFilename) := by
  have htake := length_take_le name
  have hlt : name.length ≤ vfsMaxFilename - 1 ↔ name.length < vfsMaxFilename :=
    Nat.le_sub_one_iff_lt (by decide)
  by_cases hfound : (v.vfsFinddir dentry name).isSome
  · cases hlookup : v.lookup (v.inodeOf dentry) name with
    | existing => simpa [vfsFinddirNames, makesNode, hfound, hlookup] using htake
    | stored =>
      have hshort := hlt.mpr (length_of_stored hfound hlookup)
      simp [vfsFinddirNames, makesNode, hfound, hlookup, hshort]
    | any =>
      have hmem : v.vfsFinddirNames dentry name = [name, name.take (vfsMaxFilename - 1)] := by
        simp [vfsFinddirNames, makesNode, hfound, hlookup]
      rw [hmem, forall_mem_cons, forall_mem_singleton, and_iff_left htake, hlt]
      simp [hfound]
  · simp [vfsFinddirNames, makesNode, hfound]

theorem vfsMknodeNames_fit_iff {vfsRoot : D} (h : v.type (v.inodeOf dentry) &&& vfsTypeDirectory ≠ 0) :
    (∀ x ∈ v.vfsMknodeNames vfsRoot dentry name, x.length ≤ vfsMaxFilename - 1) ↔
      name.length < vfsMaxFilename := by
  have hlt : name.length ≤ vfsMaxFilename - 1 ↔ name.length < vfsMaxFilename :=
    Nat.le_sub_one_iff_lt (by decide)
  rw [vfsMknodeNames, if_neg h, forall_mem_cons, hlt]
  refine and_iff_left_of_imp fun _ => ?_
  split
  · rw [forall_mem_singleton]
    exact length_take_le name
  · simp

theorem createdName_directory {root : D} {base parent : Dentry D I} {call : CreateCall D I}
    (h : v.createdName root base path call = some (parent, name)) :
    v.type (v.inodeOf parent) &&& vfsTypeDirectory ≠ 0 := by
  rw [createdName] at h
  split at h
  · obtain ⟨⟨-, hdir⟩, h⟩ := ite_none_right_eq_some.mp h
    cases h
    exact hdir
  · cases h

/-- An empty root directory. -/
def emptyRoot : NamedVfs Unit Unit where
  name _ := []
  parent _ := some ()
  inode _ := ()
  type _ := vfsTypeDirectory
  finddirNode _ := some fun _ => none
  readlinkNode _ := none
  lookup _ _ := .existing
  stored_short _ _ _ _ _ _ h := by cases h

theorem nextComponent_of_noSlash (hne : path ≠ []) (hslash : slash ∉ path) :
    nextComponent path = some (path, []) := by
  have hall : ∀ c ∈ path, c ≠ slash := fun c hc e => hslash (e ▸ hc)
  have hskip : path.dropWhile (· = slash) = path := by
    cases path with
    | nil => rfl
    | cons c path => simp [hall c mem_cons_self]
  rw [nextComponent, hskip]
  cases path with
  | nil => exact absurd rfl hne
  | cons c path =>
    have htake : (c :: path).takeWhile (· ≠ slash) = c :: path :=
      takeWhile_eq_self_iff.mpr fun x hx => by simpa using hall x hx
    have hdrop : (c :: path).dropWhile (· ≠ slash) = [] :=
      dropWhile_eq_nil_iff.mpr fun x hx => by simpa using hall x hx
    dsimp only
    rw [htake, hdrop]

/-- Any name can be created in an empty directory. -/
theorem emptyRoot_createdName {call : CreateCall Unit Unit} (hne : path ≠ [])
    (hslash : slash ∉ path) (hdot : path ≠ dot) (hdotDot : path ≠ dotDot)
    (hcreates : call.creates = true) :
    emptyRoot.createdName () (.existing ()) path call = some (.existing (), path) := by
  have hbase : pathBase () (.existing () : Dentry Unit Unit) path = .existing () := by
    unfold pathBase
    split <;> rfl
  have hwalk : emptyRoot.pathWalk () true true (.existing ()) path =
      .done (some (.existing ())) (some path) := by
    rw [pathWalk_some (nextComponent_of_noSlash hne hslash), Vfs.pathComponent, if_neg hdot,
      if_neg hdotDot]
    rfl
  have hresolve : emptyRoot.pathResolveOptional () (.existing ()) path =
      (some (.existing ()), some path, false) := by
    have hsteps : vfsSymlinkMaxDepth = 39 + 1 := rfl
    rw [pathResolveOptional, hsteps, pathResolveImpl, if_neg hne, hbase, hwalk]
    rfl
  rw [createdName, hresolve]
  simp only
  rw [if_pos ⟨hcreates, by decide⟩]

end NamedVfs

end Stos.Kernel
