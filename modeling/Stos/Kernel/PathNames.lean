import Stos.Kernel.Path

/-!
# Names in nodes and dentries

The names that `sys_open` with `O_CREAT` and `sys_mkdir` copy into the fields `filename` of nodes and
`name` of dentries, which have `VFS_MAX_FILENAME` bytes (`kernel/vfs/path.c`, `kernel/vfs/vfs.c`,
`kernel/task/syscall/open.c`, `kernel/task/syscall/mkdir.c`).
-/

namespace Stos.Kernel

open Vfs

/-- How `finddir_node` of a directory comes to the node of a name. -/
inductive NodeLookup where
  /-- it has the node: root directory, initrd, and the device files that are made at start -/
  | existing
  /-- it makes a node for a name that is stored somewhere: `ext2_finddir` and `iso_finddir`, where the
  length of a stored name is a byte, partitions of disks, and `proc_pid_finddir` -/
  | stored
  /-- it makes a node for any name that it can read a number from: `proc_root_finddir`, since `strtol`
  reports no errors for the base 10, and `proc_fd_finddir` -/
  | any
  deriving DecidableEq

/-- A file system, with the way in which names are looked up. -/
structure NamedVfs (D I : Type) extends Vfs D I where
  lookup : I → CString → NodeLookup
  stored_short : ∀ i finddir name child, finddirNode i = some finddir → finddir name = some child →
    lookup i name = .stored → name.length < vfsMaxFilename

/-- `O_CREAT`. -/
def oCreat : BitVec 32 := 0x10

namespace NamedVfs

variable {D I : Type} [DecidableEq D]

/-- `vfs_finddir` has a node made for `name`: the `strcpy` of `vfs_populate_node` copies all of it. -/
def makesNode (v : NamedVfs D I) (dentry : Dentry D I) (name : CString) : Bool :=
  (v.vfsFinddir dentry name).isSome && v.lookup (v.inodeOf dentry) name ≠ .existing

/-- The names that `vfs_finddir` copies: all of it into the node, if one is made, and the beginning
into the dentry (`vfs.c:317-323`). -/
def vfsFinddirNames (v : NamedVfs D I) (dentry : Dentry D I) (name : CString) : List CString :=
  (if v.makesNode dentry name then [name] else []) ++
    if (v.vfsFinddir dentry name).isSome then [name.take (vfsMaxFilename - 1)] else []

/-- The calls of `vfs_finddir` in the loop of the resolver. -/
def walkLookups (v : NamedVfs D I) (root : D) (node : Dentry D I) (path : CString) :
    List (Dentry D I × CString) :=
  match _h : nextComponent path with
  | none => []
  | some (name, rest) =>
    (if name = dot ∨ name = dotDot then [] else [(node, name)]) ++
      match v.pathComponent root true true node name rest with
      | .inl next => walkLookups v root next rest
      | .inr _ => []
termination_by path.length
decreasing_by exact nextComponent_length ‹_›

/-- The calls of `vfs_finddir` in `path_resolve_optional`, with links followed. -/
def resolveLookups (v : NamedVfs D I) (root : D) : Nat → Dentry D I → CString →
    List (Dentry D I × CString)
  | 0, _, _ => []
  | left + 1, start, path =>
    if path = [] then []
    else
      v.walkLookups root (pathBase root start path) path ++
        match v.pathWalk root true true (pathBase root start path) path with
        | .done .. => []
        | .link dir target rest =>
          resolveLookups v root left (pathBase root dir (combined target rest))
            (combined target rest)

/-- The names that `vfs_mkfile` and `vfs_mkdir` copy (`vfs.c:425-450`, `vfs.c:398-423`): all of it into
a new node, and the beginning into a dentry in the root directory. -/
def vfsMknodeNames (v : NamedVfs D I) (vfsRoot : D) (parent : Dentry D I) (name : CString) :
    List CString :=
  if v.type (v.inodeOf parent) &&& vfsTypeDirectory = 0 then []
  else name :: if parent.isRoot vfsRoot then [name.take (vfsMaxFilename - 1)] else []

end NamedVfs

/-- A system call that may create: `sys_open` with its flags and the file system after `vfs_mkfile`
has succeeded, or `sys_mkdir`. -/
inductive CreateCall (D I : Type) where
  | openFile (flags : BitVec 32) (after : Option (NamedVfs D I))
  | mkdir

namespace CreateCall

variable {D I : Type} [DecidableEq D]

/-- Whether a missing entry is created (`open.c:30-34`, `mkdir.c:54-58`). -/
def creates : CreateCall D I → Bool
  | openFile flags _ => flags &&& oCreat ≠ 0
  | mkdir => true

/-- Whether the call looks at the path at all (`mkdir.c:35-37`). -/
def starts (v : NamedVfs D I) (base : Dentry D I) : CreateCall D I → Bool
  | openFile .. => true
  | mkdir => v.type (v.inodeOf base) &&& vfsTypeDirectory ≠ 0

/-- The names that are copied after the creation (`open.c:43`). -/
def namesAfter (parent : Dentry D I) (name : CString) : CreateCall D I → List CString
  | openFile _ (some v) => v.vfsFinddirNames parent name
  | _ => []

end CreateCall

namespace NamedVfs

variable {D I : Type} [DecidableEq D]

/-- The name that the call creates in a directory, if it comes to that. -/
def createdName (v : NamedVfs D I) (root : D) (base : Dentry D I) (path : CString)
    (call : CreateCall D I) : Option (Dentry D I × CString) :=
  match v.pathResolveOptional root base path with
  | (some parent, some basename, false) =>
    if call.creates ∧ v.type (v.inodeOf parent) &&& vfsTypeDirectory ≠ 0 then
      some (parent, basename)
    else none
  | _ => none

/-- All names that the call copies into nodes and dentries (`open.c:19-47`, `mkdir.c:32-58`). -/
def copiedNames (v : NamedVfs D I) (vfsRoot root : D) (base : Dentry D I) (path : CString)
    (call : CreateCall D I) : List CString :=
  if call.starts v base then
    (v.resolveLookups root vfsSymlinkMaxDepth base path).flatMap
        (fun x => v.vfsFinddirNames x.1 x.2) ++
      match v.createdName root base path call with
      | none => []
      | some (parent, name) => v.vfsMknodeNames vfsRoot parent name ++ call.namesAfter parent name
  else []

/-- Every name that is copied fits into its field. -/
def NamesFit (v : NamedVfs D I) (vfsRoot root : D) (base : Dentry D I) (path : CString)
    (call : CreateCall D I) : Prop :=
  ∀ name ∈ v.copiedNames vfsRoot root base path call, name.length ≤ vfsMaxFilename - 1

end NamedVfs

end Stos.Kernel
