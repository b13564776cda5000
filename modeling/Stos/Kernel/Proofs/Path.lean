import Stos.Kernel.Path

/-!
# Path resolution

The resolver does not leave the root, and when it can be split at a slash.
-/

namespace Stos.Kernel

open List Option WalkEnd Dentry

/-- A property of the dentry at which the loop ends. -/
def WalkEnd.Holds {D I : Type} (P : Dentry D I → Prop) : WalkEnd D I → Prop
  | .done node _ => ∀ x, node = some x → P x
  | .link dir _ _ => P dir

/-- The end of a loop that has `t` after its path, and goes on as `k` says. -/
def WalkEnd.andThen {D I : Type} (k : Dentry D I → WalkEnd D I) (t : CString) :
    WalkEnd D I → WalkEnd D I
  | .done (some node) _ => k node
  | .done none missing => .done none missing
  | .link dir target rest => .link dir target (rest ++ t)

theorem Dentry.isRoot_eq_true {D I : Type} [DecidableEq D] {root : D} {d : Dentry D I} :
    d.isRoot root = true ↔ d = .existing root := by
  cases d with
  | existing d => simp [isRoot]
  | created name parent inode => simp [isRoot]

namespace Vfs

variable {D I : Type} [DecidableEq D] {v : Vfs D I} {root : D} {followLast allowMissing : Bool}
  {node start x : Dentry D I} {name rest path p q : CString} {left : Nat}

/-! ## The rounds of the loop -/

theorem pathWalk_none (h : nextComponent path = none) :
    v.pathWalk root followLast allowMissing node path = .done (some node) none := by
  rw [pathWalk]
  split
  · rfl
  · next heq => cases h.symm.trans heq

theorem pathWalk_some (h : nextComponent path = some (name, rest)) :
    v.pathWalk root followLast allowMissing node path =
      match v.pathComponent root followLast allowMissing node name rest with
      | .inl next => v.pathWalk root followLast allowMissing next rest
      | .inr e => e := by
  rw [pathWalk]
  split
  · next heq => cases h.symm.trans heq
  · next heq =>
    cases h.symm.trans heq
    rfl

/-! ## Containment -/

omit [DecidableEq D] in
theorem vfsFinddir_parent {child : Dentry D I} (h : v.vfsFinddir node name = some child) :
    v.parentOf child = some node := by
  rw [vfsFinddir] at h
  split at h
  · cases h
  · split at h
    · cases h
    · obtain ⟨inode, -, rfl⟩ := map_eq_some_iff.mp h
      rfl

/-- A `..` stays below the root. -/
theorem Reaches.dotDot (h : v.Reaches root node) :
    v.Reaches root (if node.isRoot root then node else (v.parentOf node).getD (.existing root)) := by
  split
  case isTrue => exact h
  case isFalse hroot =>
    cases h with
    | root => exact absurd (isRoot_eq_true.mpr rfl) hroot
    | step hp hreach => rwa [hp]

omit [DecidableEq D] in
theorem Reaches.pathBase (h : v.Reaches root start) (path : CString) :
    v.Reaches root (pathBase root start path) := by
  rw [Vfs.pathBase]
  split
  · exact .root
  · exact h

/-- What one round preserves. -/
theorem pathComponent_reaches (followLast allowMissing : Bool) (h : v.Reaches root node)
    (name rest : CString) :
    (v.pathComponent root followLast allowMissing node name rest).elim (v.Reaches root)
      (WalkEnd.Holds (v.Reaches root)) := by
  rw [pathComponent]
  split
  · exact h
  split
  · exact h.dotDot
  split
  case h_1 =>
    split
    · rintro x ⟨⟩
      exact h
    · rintro x ⟨⟩
  case h_2 child hchild =>
    have hreach : v.Reaches root child := .step (vfsFinddir_parent hchild) h
    split
    · split
      · rintro x ⟨⟩
      · exact h
    · exact hreach

/-- The loop stays below the root. -/
theorem pathWalk_reaches (followLast allowMissing : Bool) (h : v.Reaches root node)
    (path : CString) :
    (v.pathWalk root followLast allowMissing node path).Holds (v.Reaches root) := by
  fun_induction pathWalk v root followLast allowMissing node path with
  | case1 node path hnext =>
    rintro x ⟨⟩
    exact h
  | case2 node path name rest hnext next hround ih =>
    have hstep := pathComponent_reaches followLast allowMissing h name rest
    rw [hround] at hstep
    exact ih hstep
  | case3 node path name rest hnext e hround =>
    have hstep := pathComponent_reaches followLast allowMissing h name rest
    rwa [hround] at hstep

/-- Whatever links are followed, the resolver stays below the root. -/
theorem pathResolveImpl_reaches (h : v.Reaches root start) (left : Nat) (path : CString)
    (hx : (v.pathResolveImpl root followLast allowMissing left start path).node = some x) :
    v.Reaches root x := by
  fun_induction pathResolveImpl v root followLast allowMissing left start path with
  | case1 => cases hx
  | case2 left start =>
    cases hx
    exact h
  | case3 left start path _ node missing hend =>
    have hwalk := pathWalk_reaches followLast allowMissing (h.pathBase path) path
    rw [hend] at hwalk
    exact hwalk x hx
  | case4 left start path _ dir target rest hend ih =>
    have hwalk := pathWalk_reaches followLast allowMissing (h.pathBase path) path
    rw [hend] at hwalk
    exact ih (Reaches.pathBase hwalk _) hx

/-- Resolution, which always ends, ends at no dentry or at one below the root. -/
theorem pathResolve_contained (h : v.Reaches root start) (path : CString) (x : Dentry D I) :
    (v.pathResolveRelative root start path = some x → v.Reaches root x) ∧
      (v.pathResolveRelativeNoFollow root start path = some x → v.Reaches root x) ∧
        ((v.pathResolveOptional root start path).1 = some x → v.Reaches root x) ∧
          (v.pathResolveAbsolute root path = some x → v.Reaches root x) := by
  refine ⟨fun hx => ?_, fun hx => ?_, fun hx => pathResolveImpl_reaches h _ _ hx,
    fun hx => pathResolveImpl_reaches .root _ _ hx⟩
  · rw [pathResolveRelative] at hx
    split at hx
    · cases hx
      exact h
    · exact pathResolveImpl_reaches h _ _ hx
  · rw [pathResolveRelativeNoFollow] at hx
    split at hx
    · cases hx
      exact h
    · exact pathResolveImpl_reaches h _ _ hx

/-- A directory `d` in the root, with two symbolic links in it: `u` to `../..`, and `l` with an empty
target. The dentry `false` is the root and `true` is `d`; the links are the inodes 2 and 3. -/
def linkedVfs : Vfs Bool Nat where
  name d := if d then [0x64] else []
  parent _ := some false
  inode d := if d then 1 else 0
  type i := if i ≤ 1 then vfsTypeDirectory else vfsTypeSymlink
  finddirNode i := some fun name =>
    if i = 0 ∧ name = [0x64] then some 1
    else if i = 1 ∧ name = [0x75] then some 2
    else if i = 1 ∧ name = [0x6C] then some 3
    else none
  readlinkNode i := some fun size =>
    if i = 2 ∧ 5 ≤ size then some ⟨([0x2E, 0x2E, 0x2F, 0x2E, 0x2E].take size), length_take_le ..⟩
    else some ⟨[], Nat.zero_le size⟩

/-- The link `u` leads to the root and not above it. -/
theorem pathResolve_contained_up :
    linkedVfs.Reaches false (.existing true) ∧
      linkedVfs.pathResolveRelative false (.existing true) [0x75] = some (.existing false) ∧
        linkedVfs.Reaches false (.existing false) := by
  have hstart : linkedVfs.Reaches false (.existing true) := .step rfl .root
  have hroot : linkedVfs.pathResolveRelative false (.existing true) [0x75] =
      some (.existing false) := by decide +kernel
  exact ⟨hstart, hroot, (pathResolve_contained hstart [0x75] (.existing false)).1 hroot⟩

/-! ## Splitting at a slash -/

/-- Only slashes are before the path. -/
theorem nextComponent_append_none (h : nextComponent p = none) (q : CString) :
    nextComponent (p ++ slash :: q) = nextComponent q := by
  have hskip : p.dropWhile (· = slash) = [] := by
    rw [nextComponent] at h
    split at h
    case h_1 hnil => exact hnil
    case h_2 => cases h
  have happend : (p ++ slash :: q).dropWhile (· = slash) = q.dropWhile (· = slash) := by
    rw [dropWhile_append, hskip, isEmpty_nil, if_pos rfl,
      dropWhile_cons_of_pos (by decide)]
  rw [nextComponent, happend, nextComponent]

/-- A component ends at the slash at the latest. -/
theorem nextComponent_append_some (h : nextComponent p = some (name, rest)) (q : CString) :
    nextComponent (p ++ slash :: q) = some (name, rest ++ slash :: q) := by
  rw [nextComponent] at h
  split at h
  case h_1 => cases h
  case h_2 c ptr hptr =>
    cases h
    have hskip : (p ++ slash :: q).dropWhile (· = slash) = c :: (ptr ++ slash :: q) := by
      rw [dropWhile_append, hptr, isEmpty_cons, if_neg (by decide), cons_append]
    have hname : (c :: (ptr ++ slash :: q)).takeWhile (· ≠ slash) =
        (c :: ptr).takeWhile (· ≠ slash) := by
      rw [← cons_append, takeWhile_append]
      split
      case isTrue hall =>
        rw [takeWhile_cons_of_neg (by decide), append_nil]
        exact (( takeWhile_prefix _).eq_of_length hall).symm
      case isFalse => rfl
    have hrest : (c :: (ptr ++ slash :: q)).dropWhile (· ≠ slash) =
        (c :: ptr).dropWhile (· ≠ slash) ++ slash :: q := by
      rw [← cons_append, dropWhile_append]
      split
      case isTrue hnil =>
        rw [isEmpty_iff.mp hnil, dropWhile_cons_of_neg (by decide), nil_append]
      case isFalse => rfl
    rw [nextComponent, hskip]
    dsimp only
    rw [hname, hrest]

/-- Where no entry may be missing, what a round does is a matter of the component alone. -/
theorem pathComponent_append (k : Dentry D I → WalkEnd D I) (name rest t : CString) :
    v.pathComponent root true false node name (rest ++ t) =
      (v.pathComponent root true false node name rest).map id (andThen k t) := by
  simp only [pathComponent, Bool.false_eq_true, false_and, if_false, true_or, and_true]
  split
  · rfl
  split
  · rfl
  split
  · rfl
  split
  · split <;> rfl
  · rfl

/-- The loop over `p/q` is the loop over `p` and then the loop over `q`. -/
theorem pathWalk_append (v : Vfs D I) (root : D) (node : Dentry D I) (p q : CString) :
    v.pathWalk root true false node (p ++ slash :: q) =
      (v.pathWalk root true false node p).andThen
        (fun d => v.pathWalk root true false d q) (slash :: q) := by
  fun_induction pathWalk v root true false node p with
  | case1 node p hnext =>
    have hq := nextComponent_append_none hnext q
    rw [andThen]
    cases hcut : nextComponent q with
    | none => rw [pathWalk_none (hq.trans hcut), pathWalk_none hcut]
    | some cut => rw [pathWalk_some (hq.trans hcut), pathWalk_some hcut]
  | case2 node p name rest hnext next hround ih =>
    rw [pathWalk_some (nextComponent_append_some hnext q), pathComponent_append fun d => .done d none,
      hround]
    exact ih
  | case3 node p name rest hnext e hround =>
    rw [pathWalk_some (nextComponent_append_some hnext q), pathComponent_append, hround]
    rfl

/-- The node that is found with `left` links left to follow. -/
def nodeAt (v : Vfs D I) (root : D) (left : Nat) (start : Dentry D I) (path : CString) :
    Option (Dentry D I) := (v.pathResolveImpl root true false left start path).node

theorem nodeAt_nil (left : Nat) (start : Dentry D I) :
    v.nodeAt root (left + 1) start [] = some start := by
  rw [nodeAt, pathResolveImpl, if_pos rfl]

/-- The node at the end of a loop, where `resolve` follows links. -/
def endNode (root : D) (resolve : Dentry D I → CString → Option (Dentry D I)) :
    WalkEnd D I → Option (Dentry D I)
  | .done node _ => node
  | .link dir target rest => resolve (pathBase root dir (combined target rest)) (combined target rest)

theorem nodeAt_succ (left : Nat) (start : Dentry D I) (hpath : path ≠ []) :
    v.nodeAt root (left + 1) start path =
      endNode root (v.nodeAt root left)
        (v.pathWalk root true false (pathBase root start path) path) := by
  rw [nodeAt, pathResolveImpl, if_neg hpath]
  cases v.pathWalk root true false (pathBase root start path) path with
  | done node missing => rfl
  | link dir target rest => rfl

theorem pathResolveRelative_eq (start : Dentry D I) (path : CString) :
    v.pathResolveRelative root start path = v.nodeAt root vfsSymlinkMaxDepth start path := by
  rw [pathResolveRelative]
  split
  case isTrue h =>
    rw [h]
    exact (nodeAt_nil 39 start).symm
  case isFalse => rfl

/-- More links to follow do no harm. -/
theorem nodeAt_mono {more : Nat} (h : v.nodeAt root left start path = some x) (hle : left ≤ more) :
    v.nodeAt root more start path = some x := by
  induction left generalizing start path more with
  | zero => cases h
  | succ left ih =>
    obtain ⟨more, rfl⟩ : ∃ k, more = k + 1 := ⟨more - 1, by omega⟩
    by_cases hpath : path = []
    · rw [hpath] at h ⊢
      exact h
    · rw [nodeAt_succ _ _ hpath] at h ⊢
      generalize v.pathWalk root true false (pathBase root start path) path = e at h
      cases e with
      | done node missing => exact h
      | link dir target rest => exact ih h (by omega)

theorem combined_eq {target : CString} (h : (target ++ rest).length ≤ vfsMaxPathLength - 1) :
    combined target rest = target ++ rest := take_of_length_le h

omit [DecidableEq D] in
theorem pathBase_nil (start : Dentry D I) : pathBase root start [] = start :=
  if_neg (by simp)

omit [DecidableEq D] in
theorem pathBase_relative (start : Dentry D I) (hq : q.head? ≠ some slash) :
    pathBase root start q = start := if_neg hq

omit [DecidableEq D] in
theorem pathBase_slash (start : Dentry D I) (q : CString) :
    pathBase root start (slash :: q) = .existing root := if_pos rfl

omit [DecidableEq D] in
theorem pathBase_append (start : Dentry D I) (hp : p ≠ []) (t : CString) :
    pathBase root start (p ++ t) = pathBase root start p := by
  cases p with
  | nil => exact absurd rfl hp
  | cons c p => rfl

/-- Slashes before a path are skipped. -/
theorem pathWalk_slash (node : Dentry D I) (q : CString) :
    v.pathWalk root true false node (slash :: q) = v.pathWalk root true false node q := by
  have hnil : v.pathWalk root true false node [] = .done (some node) none := pathWalk_none rfl
  have happend := v.pathWalk_append root node [] q
  rwa [hnil] at happend

/-- The part of a path after the loop over the part before. -/
theorem nodeAt_relative (left : Nat) (node : Dentry D I) (hq : q.head? ≠ some slash) :
    v.nodeAt root (left + 1) node q =
      endNode root (v.nodeAt root left) (v.pathWalk root true false node q) := by
  by_cases hnil : q = []
  · rw [hnil, nodeAt_nil, pathWalk_none rfl, endNode]
  · rw [nodeAt_succ _ _ hnil, pathBase_relative node hq]

theorem nodeAt_slash (left : Nat) (start : Dentry D I) (hq : q.head? ≠ some slash) :
    v.nodeAt root (left + 1) start (slash :: q) = v.nodeAt root (left + 1) (.existing root) q := by
  rw [nodeAt_succ _ _ (cons_ne_nil slash q), pathBase_slash, pathWalk_slash,
    nodeAt_relative left _ hq]

/-- If `p/q` leads somewhere, then `p` does, and `q` from there leads to the same node. -/
theorem nodeAt_append (hp : p ≠ []) (hq : q.head? ≠ some slash)
    (hfit : v.expansionsFit root left start (p ++ slash :: q))
    (hempty : v.endsAtEmptyLink root left start p = false)
    (hx : v.nodeAt root left start (p ++ slash :: q) = some x) :
    ∃ d, v.nodeAt root left start p = some d ∧ v.nodeAt root left d q = some x := by
  induction left generalizing start p with
  | zero => cases hx
  | succ left ih =>
    have hpq : p ++ slash :: q ≠ [] := append_ne_nil_of_left_ne_nil hp _
    rw [expansionsFit, pathBase_append start hp, pathWalk_append] at hfit
    rw [endsAtEmptyLink, if_neg hp] at hempty
    rw [nodeAt_succ _ _ hpq, pathBase_append start hp, pathWalk_append] at hx
    rw [nodeAt_succ _ _ hp]
    generalize v.pathWalk root true false (pathBase root start p) p = e at hfit hempty hx
    cases e with
    | done node missing =>
      cases node with
      | none => cases hx
      | some d =>
        refine ⟨d, rfl, ?_⟩
        rw [nodeAt_relative left d hq]
        exact hx
    | link dir target rest =>
      dsimp only [andThen, endNode] at hfit hempty hx ⊢
      rw [← append_assoc, Bool.and_eq_true, decide_eq_true_eq] at hfit
      obtain ⟨hlen, hfit⟩ := hfit
      have hshort : (target ++ rest).length ≤ vfsMaxPathLength - 1 := by
        rw [length_append] at hlen
        omega
      have hlong : combined target (rest ++ slash :: q) = target ++ rest ++ slash :: q := by
        rw [combined_eq (by rwa [← append_assoc]), append_assoc]
      rw [combined_eq hshort] at hempty ⊢
      rw [hlong] at hx
      by_cases hnil : target ++ rest = []
      · -- The path goes on at the root, so the directory of the link has to be the root.
        rw [hnil, nil_append] at hx
        rw [hnil, pathBase_nil] at hempty
        rw [hnil, pathBase_nil]
        obtain ⟨left, rfl⟩ : ∃ k, left = k + 1 := by
          cases left with
          | zero => cases hx
          | succ k => exact ⟨k, rfl⟩
        rw [endsAtEmptyLink, if_pos rfl, Bool.not_eq_false', isRoot_eq_true] at hempty
        rw [nodeAt_slash left _ hq] at hx
        rw [hempty]
        exact ⟨.existing root, nodeAt_nil left _, nodeAt_mono hx (by omega)⟩
      · rw [pathBase_append dir hnil] at hfit hx
        obtain ⟨d, hd, hx⟩ := ih hnil hfit hempty hx
        exact ⟨d, hd, nodeAt_mono hx (by omega)⟩

/-- What fits with `q` after a slash fits with the slash. -/
theorem expansionsFit_slash (hfit : v.expansionsFit root left start (p ++ slash :: q)) :
    v.expansionsFit root left start (p ++ [slash]) := by
  induction left generalizing start p with
  | zero => rfl
  | succ left ih =>
    have hbase : pathBase root start (p ++ [slash]) = pathBase root start (p ++ slash :: q) := by
      cases p with
      | nil => rfl
      | cons c p => rfl
    rw [expansionsFit, pathWalk_append] at hfit
    rw [expansionsFit, hbase, pathWalk_append]
    generalize v.pathWalk root true false (pathBase root start (p ++ slash :: q)) p = e at hfit
    cases e with
    | done node missing =>
      cases node with
      | none => rfl
      | some d =>
        have hnil : v.pathWalk root true false d [] = .done (some d) none := pathWalk_none rfl
        rw [andThen, hnil]
    | link dir target rest =>
      dsimp only [andThen] at hfit ⊢
      rw [← append_assoc, Bool.and_eq_true, decide_eq_true_eq] at hfit ⊢
      obtain ⟨hlen, hfit⟩ := hfit
      refine ⟨?_, ?_⟩
      · rw [length_append, length_cons] at hlen
        rw [length_append, length_singleton]
        omega
      · have hbase' : pathBase root dir (target ++ rest ++ [slash]) =
            pathBase root dir (target ++ rest ++ slash :: q) := by
          cases target ++ rest with
          | nil => rfl
          | cons c t => rfl
        rw [hbase']
        exact ih hfit

/-- With a slash after it, a path that ends at an empty link leads to the root. -/
theorem nodeAt_emptyLink (hp : p ≠ []) (hfit : v.expansionsFit root left start (p ++ [slash]))
    (hempty : v.endsAtEmptyLink root left start p) :
    v.nodeAt root left start (p ++ [slash]) = some (.existing root) ∧
      ∃ d, v.nodeAt root left start p = some d ∧ d ≠ .existing root := by
  induction left generalizing start p with
  | zero => cases hempty
  | succ left ih =>
    have hps : p ++ [slash] ≠ [] := append_ne_nil_of_left_ne_nil hp _
    rw [expansionsFit, pathBase_append start hp, pathWalk_append] at hfit
    rw [endsAtEmptyLink, if_neg hp] at hempty
    rw [nodeAt_succ _ _ hps, pathBase_append start hp, pathWalk_append, nodeAt_succ _ _ hp]
    generalize v.pathWalk root true false (pathBase root start p) p = e at hfit hempty
    cases e with
    | done node missing => cases hempty
    | link dir target rest =>
      dsimp only [andThen, endNode] at hfit hempty ⊢
      rw [Bool.and_eq_true, decide_eq_true_eq] at hfit
      obtain ⟨hlen, hfit⟩ := hfit
      rw [combined_eq hlen]
      rw [← append_assoc] at hlen hfit ⊢
      have hshort : (target ++ rest).length ≤ vfsMaxPathLength - 1 := by
        rw [length_append] at hlen
        omega
      rw [combined_eq hshort] at hempty ⊢
      by_cases hnil : target ++ rest = []
      · rw [hnil, pathBase_nil] at hempty ⊢
        cases left with
        | zero => cases hempty
        | succ left =>
          rw [endsAtEmptyLink, if_pos rfl, Bool.not_eq_true', ← Bool.not_eq_true,
            isRoot_eq_true] at hempty
          rw [nil_append, pathBase_slash, nodeAt_slash left _ (by simp), nodeAt_nil]
          exact ⟨rfl, dir, nodeAt_nil left dir, hempty⟩
      · rw [pathBase_append dir hnil] at hfit ⊢
        exact ih hnil hfit hempty

end Vfs

end Stos.Kernel
