import Stos.Misc.Bytes

/-!
# Path resolution

Dentries, `vfs_finddir` (`kernel/vfs/vfs.c`), the resolver of paths and `path_build_absolute`
(`kernel/vfs/path.c`).

Dentries are not changed while a path is resolved, and `vfs_finddir` allocates a new one each time, so
a dentry that it returns is a value. The only pointer that is compared with others is the root, which
existed before. A path `NULL` is treated as the empty path everywhere and is not modelled apart from
it. Failures of `kmalloc` are left out.
-/

namespace Stos.Kernel

open List

/-- `VFS_MAX_PATH_LENGTH`. -/
def vfsMaxPathLength : Nat := 4096

/-- `VFS_MAX_FILENAME`. -/
def vfsMaxFilename : Nat := 256

/-- `VFS_TYPE_DIRECTORY`. -/
def vfsTypeDirectory : BitVec 8 := 0x02

/-- `VFS_TYPE_SYMLINK`. -/
def vfsTypeSymlink : BitVec 8 := 0x04

/-- `VFS_SYMLINK_MAX_DEPTH`. -/
def vfsSymlinkMaxDepth : Nat := 40

/-- The character `/`. -/
def slash : BitVec 8 := 0x2F

/-- The path `.`. -/
def dot : CString := [0x2E]

/-- The path `..`. -/
def dotDot : CString := [0x2E, 0x2E]

/-- The dentries `D` that exist before a resolution, and the inodes `I` with their callbacks, which may
be `NULL`. `readlink_node` stores at most as many bytes as it is asked for. -/
structure Vfs (D I : Type) where
  name : D → CString
  parent : D → Option D
  inode : D → I
  type : I → BitVec 8
  finddirNode : I → Option (CString → Option I)
  readlinkNode : I → Option ((size : Nat) → Option { target : List (BitVec 8) // target.length ≤ size })

/-- `dentry_t`: one that existed, or one that `vfs_finddir` has created. -/
inductive Dentry (D I : Type) where
  | existing (d : D)
  | created (name : CString) (parent : Dentry D I) (inode : I)
  deriving DecidableEq

/-- How a round of the resolver ends, and with it the loop: `node` at the end of the path, with the
name of the last entry where that does not exist, or a symbolic link in `dir` that has to be followed
with the `rest` of the path after it. -/
inductive WalkEnd (D I : Type) where
  | done (node : Option (Dentry D I)) (missing : Option CString)
  | link (dir : Dentry D I) (target rest : CString)

/-- The result of the resolver, `*last_entry_not_exists` and `*basename` where these are stored. -/
structure Resolved (D I : Type) where
  node : Option (Dentry D I)
  lastEntryNotExists : Bool
  basename : Option CString

/-- `node == root`: a block that was allocated later is not the root. -/
def Dentry.isRoot {D I : Type} [DecidableEq D] (root : D) : Dentry D I → Bool
  | .existing d => d = root
  | .created .. => false

/-- The next component and the path after it (`path.c:60-68`), unless only slashes are left. -/
def nextComponent (path : CString) : Option (CString × CString) :=
  match path.dropWhile (· = slash) with
  | [] => none
  | c :: ptr => some ((c :: ptr).takeWhile (· ≠ slash), (c :: ptr).dropWhile (· ≠ slash))

/-- The path gets shorter. -/
theorem nextComponent_length {path name rest : CString}
    (h : nextComponent path = some (name, rest)) : rest.length < path.length := by
  rw [nextComponent] at h
  split at h
  case h_1 => cases h
  case h_2 c ptr hptr =>
    cases h
    have hskip := (dropWhile_suffix (· = slash) (l := path)).length_le
    have hcut := (dropWhile_suffix (· ≠ slash) (l := ptr)).length_le
    have hc : c ≠ slash := by
      intro hslash
      have := head?_dropWhile_not (· = slash) path
      rw [hptr] at this
      simp [hslash] at this
    rw [hptr, length_cons] at hskip
    rw [dropWhile_cons_of_pos (by simpa using hc)]
    omega

namespace Vfs

variable {D I : Type} [DecidableEq D]

variable (v : Vfs D I)

/-- `dentry->name`. -/
def nameOf : Dentry D I → CString
  | .existing d => v.name d
  | .created name _ _ => name

/-- `dentry->parent`. -/
def parentOf : Dentry D I → Option (Dentry D I)
  | .existing d => (v.parent d).map .existing
  | .created _ parent _ => some parent

/-- `dentry->inode`. -/
def inodeOf : Dentry D I → I
  | .existing d => v.inode d
  | .created _ _ inode => inode

/-- `vfs_finddir` (`vfs.c:305-328`). -/
def vfsFinddir (dentry : Dentry D I) (name : CString) : Option (Dentry D I) :=
  let inode := v.inodeOf dentry
  if v.type inode &&& vfsTypeDirectory = 0 then none
  else
    match v.finddirNode inode with
    | none => none
    | some finddir => (finddir name).map (.created (name.take (vfsMaxFilename - 1)) dentry)

/-- The target of a link as `path_resolve_impl` reads it (`path.c:103-117`), up to its first zero. -/
def readTarget (node : Dentry D I) : Option CString :=
  match v.readlinkNode (v.inodeOf node) with
  | none => none
  | some readlink => (readlink (vfsMaxPathLength - 1)).map (·.val.takeWhile (· ≠ 0))

/-- One round of the loop (`path.c:70-155`) for the component `name` with `rest` after it: the next
node, or the end. -/
def pathComponent (root : D) (followLast allowMissing : Bool) (node : Dentry D I)
    (name rest : CString) : Dentry D I ⊕ WalkEnd D I :=
  if name = dot then .inl node
  else if name = dotDot then
    .inl (if node.isRoot root then node else (v.parentOf node).getD (.existing root))
  else
    match v.vfsFinddir node name with
    | none =>
      -- The last entry may be followed by slashes.
      if allowMissing ∧ rest.dropWhile (· = slash) = [] then .inr (.done (some node) (some name))
      else .inr (.done none none)
    | some child =>
      if v.type (v.inodeOf child) = vfsTypeSymlink ∧ (followLast ∨ rest ≠ []) then
        match v.readTarget child with
        | none => .inr (.done none none)
        | some target => .inr (.link node target rest)
      else .inl child

/-- The loop over the components (`path.c:58-159`). -/
def pathWalk (v : Vfs D I) (root : D) (followLast allowMissing : Bool) (node : Dentry D I)
    (path : CString) : WalkEnd D I :=
  match _h : nextComponent path with
  | none => .done (some node) none
  | some (name, rest) =>
    match v.pathComponent root followLast allowMissing node name rest with
    | .inl next => pathWalk v root followLast allowMissing next rest
    | .inr e => e
termination_by path.length
decreasing_by exact nextComponent_length ‹_›

/-- What `path_resolve_impl` goes on with after a link in `dir` (`path.c:123-137`). -/
def combined (target rest : CString) : CString := (target ++ rest).take (vfsMaxPathLength - 1)

/-- Where the resolution of a path starts (`path.c:51`, `path.c:139`). -/
def pathBase (root : D) (start : Dentry D I) (path : CString) : Dentry D I :=
  if path.head? = some slash then .existing root else start

/-- `path_resolve_impl` (`path.c:27-173`). The first argument is
`VFS_SYMLINK_MAX_DEPTH - symlink_depth`. -/
def pathResolveImpl (v : Vfs D I) (root : D) (followLast allowMissing : Bool) :
    Nat → Dentry D I → CString → Resolved D I
  | 0, _, _ => ⟨none, false, none⟩
  | left + 1, start, path =>
    if path = [] then ⟨some start, false, some (v.nameOf start)⟩
    else
      match v.pathWalk root followLast allowMissing (pathBase root start path) path with
      | .done node missing => ⟨node, missing.isSome, missing <|> node.map v.nameOf⟩
      | .link dir target rest =>
        pathResolveImpl v root followLast allowMissing left
          (pathBase root dir (combined target rest)) (combined target rest)

/-- `path_resolve_relative` (`path.c:189-198`). -/
def pathResolveRelative (root : D) (current : Dentry D I) (path : CString) : Option (Dentry D I) :=
  if path = [] then some current
  else (v.pathResolveImpl root true false vfsSymlinkMaxDepth current path).node

/-- `path_resolve_relative_no_follow` (`path.c:200-209`). -/
def pathResolveRelativeNoFollow (root : D) (current : Dentry D I) (path : CString) :
    Option (Dentry D I) :=
  if path = [] then some current
  else (v.pathResolveImpl root false false vfsSymlinkMaxDepth current path).node

/-- `path_resolve_optional` (`path.c:211-234`): the dentry, `*basename` and `*path_exists`. -/
def pathResolveOptional (root : D) (current : Dentry D I) (path : CString) :
    Option (Dentry D I) × Option CString × Bool :=
  let r := v.pathResolveImpl root true true vfsSymlinkMaxDepth current path
  (r.node, r.basename, !r.lastEntryNotExists)

/-- `path_resolve_absolute` (`path.c:175-187`), with `vfs_root`. -/
def pathResolveAbsolute (vfsRoot : D) (path : CString) : Option (Dentry D I) :=
  (v.pathResolveImpl vfsRoot true false vfsSymlinkMaxDepth (.existing vfsRoot) path).node

/-! ## What resolution is for -/

/-- The parent chain of a dentry reaches the root. -/
inductive Reaches (v : Vfs D I) (root : D) : Dentry D I → Prop where
  | root : Reaches v root (.existing root)
  | step {d p : Dentry D I} : v.parentOf d = some p → Reaches v root p → Reaches v root d

/-- No link that is expanded on the way makes a path of more than `VFS_MAX_PATH_LENGTH - 1` bytes. -/
def expansionsFit (v : Vfs D I) (root : D) : Nat → Dentry D I → CString → Bool
  | 0, _, _ => true
  | left + 1, start, path =>
    match v.pathWalk root true false (pathBase root start path) path with
    | .done .. => true
    | .link dir target rest =>
      (target ++ rest).length ≤ vfsMaxPathLength - 1 &&
        expansionsFit v root left (pathBase root dir (target ++ rest)) (target ++ rest)

/-- The last component of the path, as expanded, is a link with an empty target in a directory other
than the root. -/
def endsAtEmptyLink (v : Vfs D I) (root : D) : Nat → Dentry D I → CString → Bool
  | 0, _, _ => false
  | left + 1, start, path =>
    if path = [] then !start.isRoot root
    else
      match v.pathWalk root true false (pathBase root start path) path with
      | .done .. => false
      | .link dir target rest =>
        endsAtEmptyLink v root left (pathBase root dir (combined target rest)) (combined target rest)

/-- Resolving `p/q` is resolving `p` and then `q` from there, for every relative `q`. -/
def Composes (root : D) (start : Dentry D I) (p : CString) : Prop :=
  ∀ q : CString, q.head? ≠ some slash →
    v.expansionsFit root vfsSymlinkMaxDepth start (p ++ slash :: q) →
      ∀ x, v.pathResolveRelative root start (p ++ slash :: q) = some x →
        ∃ d, v.pathResolveRelative root start p = some d ∧ v.pathResolveRelative root d q = some x

/-! ## Resolution without a limit on the length of paths

`target` gives the whole target of every link, of any length. -/

/-- `readlink_node` stores as much of the target as it is asked for. -/
def TargetsAre (target : I → Option CString) : Prop :=
  ∀ i, (match v.readlinkNode i with
    | none => none
    | some readlink => (readlink (vfsMaxPathLength - 1)).map (·.val)) =
      (target i).map (·.take (vfsMaxPathLength - 1))

/-- `pathComponent`, with the whole target of a link. -/
def fullComponent (target : I → Option CString) (root : D)
    (followLast allowMissing : Bool) (node : Dentry D I) (name rest : CString) :
    Dentry D I ⊕ WalkEnd D I :=
  if name = dot then .inl node
  else if name = dotDot then
    .inl (if node.isRoot root then node else (v.parentOf node).getD (.existing root))
  else
    match v.vfsFinddir node name with
    | none =>
      if allowMissing ∧ rest.dropWhile (· = slash) = [] then .inr (.done (some node) (some name))
      else .inr (.done none none)
    | some child =>
      if v.type (v.inodeOf child) = vfsTypeSymlink ∧ (followLast ∨ rest ≠ []) then
        match target (v.inodeOf child) with
        | none => .inr (.done none none)
        | some t => .inr (.link node (t.takeWhile (· ≠ 0)) rest)
      else .inl child

/-- `pathWalk`, with the whole target of a link. -/
def fullWalk (v : Vfs D I) (target : I → Option CString) (root : D) (followLast allowMissing : Bool)
    (node : Dentry D I) (path : CString) : WalkEnd D I :=
  match _h : nextComponent path with
  | none => .done (some node) none
  | some (name, rest) =>
    match v.fullComponent target root followLast allowMissing node name rest with
    | .inl next => fullWalk v target root followLast allowMissing next rest
    | .inr e => e
termination_by path.length
decreasing_by exact nextComponent_length ‹_›

/-- What the path denotes: `pathResolveImpl` where no path is ever cut. -/
def fullResolve (v : Vfs D I) (target : I → Option CString) (root : D)
    (followLast allowMissing : Bool) : Nat → Dentry D I → CString → Resolved D I
  | 0, _, _ => ⟨none, false, none⟩
  | left + 1, start, path =>
    if path = [] then ⟨some start, false, some (v.nameOf start)⟩
    else
      match v.fullWalk target root followLast allowMissing (pathBase root start path) path with
      | .done node missing => ⟨node, missing.isSome, missing <|> node.map v.nameOf⟩
      | .link dir t rest =>
        fullResolve v target root followLast allowMissing left (pathBase root dir (t ++ rest))
          (t ++ rest)

/-- The first path on the way, a link's target with the rest of the path, that does not fit in
`VFS_MAX_PATH_LENGTH` bytes: the number of links left, the directory and the path as it is cut. -/
def firstCut (v : Vfs D I) (target : I → Option CString) (root : D)
    (followLast allowMissing : Bool) :
    Nat → Dentry D I → CString → Option (Nat × Dentry D I × CString)
  | 0, _, _ => none
  | left + 1, start, path =>
    if path = [] then none
    else
      match v.fullWalk target root followLast allowMissing (pathBase root start path) path with
      | .done .. => none
      | .link dir t rest =>
        if (t ++ rest).length < vfsMaxPathLength then
          firstCut v target root followLast allowMissing left (pathBase root dir (t ++ rest))
            (t ++ rest)
        else some (left, pathBase root dir (combined t rest), combined t rest)

/-- The resolver fails where a path does not fit, and finds what the path denotes otherwise. -/
structure NeverShortened (v : Vfs D I) (target : I → Option CString) (root : D)
    (followLast allowMissing : Bool) (left : Nat) (start : Dentry D I) (path : CString) : Prop where
  fails : v.firstCut target root followLast allowMissing left start path ≠ none →
    (v.pathResolveImpl root followLast allowMissing left start path).node = none
  full : v.firstCut target root followLast allowMissing left start path = none →
    v.pathResolveImpl root followLast allowMissing left start path =
      v.fullResolve target root followLast allowMissing left start path

/-! ## Building a path -/

/-- The loop of `path_build_absolute` that collects the names (`path.c:242-252`), the last one first;
`none` if it needs more than `fuel` rounds or comes to a dentry without a parent that is not the
root. -/
def pathParts (v : Vfs D I) (root : D) : Nat → Dentry D I → Option (List CString)
  | 0, _ => none
  | fuel + 1, current =>
    if current.isRoot root then some []
    else (v.parentOf current).bind fun parent =>
      (pathParts v root fuel parent).map (v.nameOf current :: ·)

/-- `path_build_absolute` after the loop (`path.c:253-274`): the string in `buff`. All the names are in
memory at the same time, so that the sum of their lengths does not wrap around. -/
def buildAbsolute (parts : List CString) (size : Nat) : Option CString :=
  let sepCount := if parts.length = 0 then 1 else parts.length
  let totalLength := (parts.map length).sum
  if sepCount + totalLength + 1 > size then none
  else if parts.length = 0 then some [slash]
  else some (parts.reverse.foldl (fun buff part => buff ++ slash :: part) [])

/-- `path_build_absolute` (`path.c:236-274`): `none` where the loop has not ended, `some none` for
`NULL`. -/
def pathBuildAbsolute (root : D) (fuel : Nat) (current : Dentry D I) (size : Nat) :
    Option (Option CString) :=
  (v.pathParts root fuel current).map (buildAbsolute · size)

/-- A name that a component of a path can be, and that fits in a dentry. -/
structure GoodName (name : CString) : Prop where
  nonempty : name ≠ []
  noSlash : slash ∉ name
  notDot : name ≠ dot
  notDotDot : name ≠ dotDot
  short : name.length < vfsMaxFilename

/-- A dentry that is found from the root under the names `parts`, the first one first: each is found
in its parent under its own name, and none is a link. -/
inductive FoundAs (v : Vfs D I) (root : D) : Dentry D I → List CString → Prop where
  | root : FoundAs v root (.existing root) []
  | child {d p child : Dentry D I} {parts : List CString} : FoundAs v root p parts →
      v.parentOf d = some p → d ≠ .existing root → GoodName (v.nameOf d) →
      v.vfsFinddir p (v.nameOf d) = some child → v.inodeOf child = v.inodeOf d →
      v.type (v.inodeOf d) ≠ vfsTypeSymlink → FoundAs v root d (parts ++ [v.nameOf d])

/-- The names from the root to a dentry, the first one first. -/
inductive ChainOf (v : Vfs D I) (root : D) : Dentry D I → List CString → Prop where
  | root : ChainOf v root (.existing root) []
  | child {d p : Dentry D I} {parts : List CString} : ChainOf v root p parts →
      v.parentOf d = some p → d ≠ .existing root → ChainOf v root d (parts ++ [v.nameOf d])

end Vfs

end Stos.Kernel
