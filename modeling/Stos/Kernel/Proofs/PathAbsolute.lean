import Stos.Kernel.Proofs.Path

/-!
# Absolute paths

`path_build_absolute` goes up from a dentry and writes the names backwards; resolving the string goes
down again.
-/

namespace Stos.Kernel

open List Option

/-- The path with these names. -/
def absolutePath (parts : List CString) : CString :=
  if parts = [] then [slash] else parts.flatMap (slash :: ·)

namespace Vfs

variable {D I : Type} [DecidableEq D] {v : Vfs D I} {root : D} {d node : Dentry D I}
  {parts : List CString} {name rest : CString}

/-! ## Going up -/

omit [DecidableEq D] in
theorem FoundAs.chainOf (h : v.FoundAs root d parts) : v.ChainOf root d parts := by
  induction h with
  | root => exact .root
  | child _ hparent hne _ _ _ _ ih => exact .child ih hparent hne

/-- The loop collects the names, with a round for every name and one more. -/
theorem ChainOf.pathParts (h : v.ChainOf root d parts) {fuel : Nat} (hfuel : parts.length < fuel) :
    v.pathParts root fuel d = some parts.reverse := by
  induction h generalizing fuel with
  | root =>
    obtain ⟨fuel, rfl⟩ : ∃ k, fuel = k + 1 := ⟨fuel - 1, by omega⟩
    rw [Vfs.pathParts, if_pos (Dentry.isRoot_eq_true.mpr rfl)]
    rfl
  | @child d p parts _ hparent hne ih =>
    rw [length_append, length_singleton] at hfuel
    obtain ⟨fuel, rfl⟩ : ∃ k, fuel = k + 1 := ⟨fuel - 1, by omega⟩
    rw [Vfs.pathParts, if_neg fun hroot => hne (Dentry.isRoot_eq_true.mp hroot), hparent,
      bind_some, ih (by omega), map_some, reverse_append]
    rfl

/-! ## Writing the names -/

theorem length_flatMap_slash (parts : List CString) :
    (parts.flatMap (slash :: ·)).length = parts.length + (parts.map length).sum := by
  induction parts with
  | nil => rfl
  | cons part parts ih =>
    rw [flatMap_cons, length_append, ih, length_cons, length_cons, map_cons,
      sum_cons]
    omega

theorem foldl_slash (parts : List CString) (buff : CString) :
    parts.foldl (fun buff part => buff ++ slash :: part) buff =
      buff ++ parts.flatMap (slash :: ·) := by
  induction parts generalizing buff with
  | nil => simp
  | cons part parts ih => rw [foldl_cons, ih, flatMap_cons, append_assoc]

/-- The string is the path, if that fits with its terminator. -/
theorem buildAbsolute_eq (parts : List CString) (size : Nat) :
    buildAbsolute parts.reverse size =
      if (absolutePath parts).length + 1 ≤ size then some (absolutePath parts) else none := by
  unfold buildAbsolute
  rw [length_reverse, map_reverse, sum_reverse, reverse_reverse, foldl_slash,
    nil_append]
  by_cases hnil : parts = []
  · rw [hnil]
    show (if 1 + 0 + 1 > size then none else some [slash]) = if 1 + 1 ≤ size then some [slash] else none
    split
    · rw [if_neg (by omega)]
    · rw [if_pos (by omega)]
  · have hlen : parts.length ≠ 0 := fun h => hnil (length_eq_zero_iff.mp h)
    rw [absolutePath, if_neg hnil, length_flatMap_slash, if_neg hlen, if_neg hlen]
    split
    · rw [if_neg (by omega)]
    · rw [if_pos (by omega)]

/-! ## Going down -/

theorem takeWhile_name (hname : slash ∉ name) (hrest : rest = [] ∨ rest.head? = some slash) :
    (name ++ rest).takeWhile (· ≠ slash) = name ∧ (name ++ rest).dropWhile (· ≠ slash) = rest := by
  have hall : ∀ c ∈ name, decide (c ≠ slash) = true := by
    intro c hc
    rw [decide_eq_true_eq]
    rintro rfl
    exact hname hc
  rw [takeWhile_append_of_pos hall, dropWhile_append_of_pos hall]
  rcases hrest with rfl | hslash
  · simp
  · obtain ⟨t, rfl⟩ := List.head?_eq_some_iff.mp hslash
    rw [takeWhile_cons_of_neg (by decide), dropWhile_cons_of_neg (by decide),
      append_nil]
    exact ⟨rfl, rfl⟩

/-- A good name after a slash is a component. -/
theorem GoodName.nextComponent (h : GoodName name) (hrest : rest = [] ∨ rest.head? = some slash) :
    nextComponent (slash :: (name ++ rest)) = some (name, rest) := by
  obtain ⟨hname, hrest⟩ := takeWhile_name h.noSlash hrest
  cases name with
  | nil => exact absurd rfl h.nonempty
  | cons c name =>
    have hc : c ≠ slash := fun hc => h.noSlash (hc ▸ mem_cons_self)
    rw [Stos.Kernel.nextComponent, dropWhile_cons_of_pos (by decide), cons_append,
      dropWhile_cons_of_neg (by simpa using hc)]
    dsimp only
    rw [← cons_append, hname, hrest]

omit [DecidableEq D] in
/-- Which entry is found does not depend on the dentry of the directory. -/
theorem vfsFinddir_congr {p child : Dentry D I} (hnode : v.inodeOf node = v.inodeOf p)
    (h : v.vfsFinddir p name = some child) :
    v.vfsFinddir node name = some (.created (name.take (vfsMaxFilename - 1)) node (v.inodeOf child)) := by
  unfold vfsFinddir at h ⊢
  dsimp only at h ⊢
  rw [hnode]
  split at h
  · cases h
  next hdir =>
    rw [if_neg hdir]
    split at h
    · cases h
    next finddir hfind =>
      obtain ⟨inode, hinode, rfl⟩ := map_eq_some_iff.mp h
      rw [hinode]
      rfl

/-- The loop comes to a dentry with the same names and the same inode. -/
theorem FoundAs.pathWalk (h : v.FoundAs root d parts) (followLast allowMissing : Bool) :
    ∃ x, v.inodeOf x = v.inodeOf d ∧ v.ChainOf root x parts ∧
      ∀ rest : CString, rest = [] ∨ rest.head? = some slash →
        v.pathWalk root followLast allowMissing (.existing root) (parts.flatMap (slash :: ·) ++ rest) =
          v.pathWalk root followLast allowMissing x rest := by
  induction h with
  | root => exact ⟨.existing root, rfl, .root, fun rest _ => rfl⟩
  | @child d p child parts _ hparent hne hname hfind hinode htype ih =>
    obtain ⟨x, hx, hchain, hwalk⟩ := ih
    have hchild := vfsFinddir_congr hx hfind
    have hshort := hname.short
    rw [take_of_length_le (by omega), hinode] at hchild
    refine ⟨.created (v.nameOf d) x (v.inodeOf d), rfl, .child hchain rfl (by simp), fun rest hrest => ?_⟩
    have hround : v.pathComponent root followLast allowMissing x (v.nameOf d) rest =
        .inl (.created (v.nameOf d) x (v.inodeOf d)) := by
      rw [pathComponent, if_neg hname.notDot, if_neg hname.notDotDot, hchild]
      exact if_neg fun hlink => htype hlink.1
    have hsplit : (parts ++ [v.nameOf d]).flatMap (slash :: ·) ++ rest =
        parts.flatMap (slash :: ·) ++ slash :: (v.nameOf d ++ rest) := by
      simp
    rw [hsplit, hwalk _ (.inr rfl), pathWalk_some (hname.nextComponent hrest), hround]

/-- Resolving the path of a dentry leads to a dentry with the same names and the same inode. -/
theorem FoundAs.pathResolveImpl (h : v.FoundAs root d parts) (followLast allowMissing : Bool)
    (left : Nat) (start : Dentry D I) :
    ∃ x, v.pathResolveImpl root followLast allowMissing (left + 1) start (absolutePath parts) =
        ⟨some x, false, some (v.nameOf x)⟩ ∧
      v.inodeOf x = v.inodeOf d ∧ v.ChainOf root x parts := by
  obtain ⟨x, hx, hchain, hwalk⟩ := h.pathWalk followLast allowMissing
  obtain ⟨q, hq⟩ : ∃ q, absolutePath parts = slash :: q := by
    cases parts with
    | nil => exact ⟨[], rfl⟩
    | cons part parts => exact ⟨part ++ parts.flatMap (slash :: ·), rfl⟩
  have hend : v.pathWalk root followLast allowMissing (.existing root) (absolutePath parts) =
      .done (some x) none := by
    by_cases hnil : parts = []
    · have hslash := hwalk [slash] (.inr rfl)
      rw [hnil] at hslash
      rw [absolutePath, if_pos hnil]
      exact hslash.trans (pathWalk_none rfl)
    · have hrest := hwalk [] (.inl rfl)
      rw [append_nil] at hrest
      rw [absolutePath, if_neg hnil, hrest]
      exact pathWalk_none rfl
  refine ⟨x, ?_, hx, hchain⟩
  rw [Vfs.pathResolveImpl, hq, if_neg (cons_ne_nil slash q), pathBase_slash, ← hq, hend]
  rfl

/-! ## The round trip -/

end Vfs

end Stos.Kernel
