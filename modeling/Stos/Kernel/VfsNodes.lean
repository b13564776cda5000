import Stos.Kernel.Path

/-!
# Nodes of the file systems

How every file system makes its `vfs_node_t`s and which of their operation pointers the VFS calls
(`kernel/vfs/vfs.c`, `kernel/vfs/device*`, `kernel/vfs/initrd.c`, `kernel/vfs/mount`,
`kernel/task/syscall`). A node is made in a block of memory that `kmalloc` returns as it was or
`kmalloc_flags` has cleared. Numbers, sizes, permissions, counts and metadata of nodes are left out,
and so is the time after a node has been released.
-/

namespace Stos.Kernel

/-- The pointer fields of `vfs_node_t`. -/
inductive NodeOp where
  | onRelease | openNode | closeNode | readNode | writeNode | readdirNode | finddirNode
  | mkdirNode | mkfileNode | ioctlNode | syncNode | statNode | readlinkNode | truncateNode
  deriving DecidableEq

inductive FileSystem where
  | root | dev | proc | initrd | iso9660 | ext2
  deriving DecidableEq

/-- The functions that file systems store in nodes. -/
inductive Handler where
  | rootReaddir | rootFinddir
  | deviceReaddir | deviceFinddir
  | ttyRead | ttyWrite | ttyOpen | ttyIoctl
  | stdioOnRelease | stdioReadlink
  | hdRead | hdWrite | hdSync | hdStat | partitionNodeRelease
  | procOnRelease | procRootReaddir | procRootFinddir | procSelfReadlink
  | procPidReaddir | procPidFinddir | procPidReadStat | procFdReaddir | procFdFinddir
  | procFdOpen | procFdClose | procFdRead | procFdWrite | procFdIoctl | procFdStat
  | initrdStat | initrdReaddir | initrdFinddir | initrdRead
  | isoReaddir | isoFinddir | isoRead
  | ext2OnRelease | ext2Stat | ext2Readdir | ext2Finddir | ext2Mkdir | ext2Mkfile | ext2Readlink
  | ext2Open | ext2Close | ext2Read | ext2Write | ext2Truncate
  deriving DecidableEq

/-- The file system that a function belongs to. -/
def Handler.fileSystem : Handler → FileSystem
  | rootReaddir | rootFinddir => .root
  | deviceReaddir | deviceFinddir | ttyRead | ttyWrite | ttyOpen | ttyIoctl | stdioOnRelease
  | stdioReadlink | hdRead | hdWrite | hdSync | hdStat | partitionNodeRelease => .dev
  | procOnRelease | procRootReaddir | procRootFinddir | procSelfReadlink | procPidReaddir
  | procPidFinddir | procPidReadStat | procFdReaddir | procFdFinddir | procFdOpen | procFdClose
  | procFdRead | procFdWrite | procFdIoctl | procFdStat => .proc
  | initrdStat | initrdReaddir | initrdFinddir | initrdRead => .initrd
  | isoReaddir | isoFinddir | isoRead => .iso9660
  | ext2OnRelease | ext2Stat | ext2Readdir | ext2Finddir | ext2Mkdir | ext2Mkfile | ext2Readlink
  | ext2Open | ext2Close | ext2Read | ext2Write | ext2Truncate => .ext2

/-- What a pointer field holds: `NULL`, a function that was stored, or a word other than zero that
was in the memory before. -/
inductive Pointer where
  | null
  | stored (h : Handler)
  | stale (word : BitVec 32)
  deriving DecidableEq

/-- The type and the operations of a `vfs_node_t`. -/
structure VfsNode where
  type : BitVec 8
  ops : NodeOp → Pointer

/-- `VFS_TYPE_FILE`. -/
def vfsTypeFile : BitVec 8 := 0x01

/-- `VFS_TYPE_CHARACTER_DEVICE`. -/
def vfsTypeCharacterDevice : BitVec 8 := 0x08

/-- `VFS_TYPE_BLOCK_DEVICE`. -/
def vfsTypeBlockDevice : BitVec 8 := 0x10

/-- `VFS_TYPE_FIFO`. -/
def vfsTypeFifo : BitVec 8 := 0x20

/-- `ext2_type_to_vfs` (`ext2.h:249-260`). -/
def ext2TypeToVfs (typeAndPermissions : BitVec 16) : BitVec 8 :=
  match typeAndPermissions &&& 0xF000 with
  | 0x1000 => vfsTypeFifo
  | 0x4000 => vfsTypeDirectory
  | 0x8000 => vfsTypeFile
  | 0xA000 => vfsTypeSymlink
  | 0x6000 => vfsTypeBlockDevice
  | 0x2000 => vfsTypeCharacterDevice
  | _ => vfsTypeFile

/-- The words that the block of a node held before, at its pointer fields. -/
abbrev OldWords := NodeOp → BitVec 32

variable (n : VfsNode)

namespace VfsNode

/-- The fields of a block from `kmalloc`. -/
def kmallocNode (old : OldWords) (op : NodeOp) : Pointer :=
  if old op = 0 then .null else .stale (old op)

/-- The fields of a block from `kmalloc_flags` with `KMALLOC_ZERO`. -/
def kmallocNodeZero (_ : NodeOp) : Pointer := .null

/-- `vfs_populate_node` (`vfs.c:374-396`). -/
def vfsPopulateNode (fields : NodeOp → Pointer) (type : BitVec 8) : VfsNode where
  type := type
  ops
    | .mkfileNode => fields .mkfileNode
    | _ => .null

/-- Storing a function in a field. -/
def set (op : NodeOp) (h : Handler) : VfsNode :=
  { n with ops := Function.update n.ops op (.stored h) }

def isDirectory : Prop := n.type &&& vfsTypeDirectory ≠ 0

instance : Decidable n.isDirectory := inferInstanceAs (Decidable (_ ≠ _))

end VfsNode

/-- The places at which nodes are made. -/
inductive NodeSource where
  /-- `vfs_init` (`vfs.c:133-136`) -/
  | vfsInit
  /-- `vfs_mkdir` (`vfs.c:407-408`) -/
  | vfsMkdir
  /-- `vfs_mkfile` (`vfs.c:434-435`) -/
  | vfsMkfile
  /-- `device_mount` (`device.c:64-67`) -/
  | deviceMount
  /-- `device_tty_mount` (`tty.c:271-276`) -/
  | deviceTtyMount
  /-- `stdio_create_node` (`stdio.c:29-33`) -/
  | stdioCreateNode
  /-- `device_hd_mount`, a CD drive (`hd.c:164-168`) -/
  | hdAtapi
  /-- `device_hd_mount`, a hard disk (`hd.c:200-205`) -/
  | hdPio
  /-- `device_hd_finddir_partition` (`finddir_part.c:70-76`) -/
  | hdPartition
  /-- `initrd_mount` (`initrd.c:242-245`) -/
  | initrdMount
  /-- `create_new_file` (`initrd.c:101-114`), which is called for files and for directories -/
  | initrdCreateNewFile (isDirectory : Bool)
  /-- `proc_root_finddir`, `self` (`root/finddir.c:32-35`) -/
  | procSelf
  /-- `proc_root_finddir`, other names (`root/finddir.c:43-47`) -/
  | procPid
  /-- `proc_pid_finddir`, `stat` (`pid/finddir.c:19-27`) -/
  | procStat
  /-- `proc_pid_finddir`, `fd` (`pid/finddir.c:32-41`) -/
  | procFd
  /-- `proc_fd_finddir` (`fd/finddir.c:27-40`) -/
  | procFdEntry
  /-- `iso_finddir` (`iso9660.c:286-308`) -/
  | isoFinddir (isSubdir : Bool)
  /-- `ext2_finddir` (`ext2/finddir.c:64-98`) -/
  | ext2Finddir (typeAndPermissions : BitVec 16)
  deriving DecidableEq

namespace NodeSource

open VfsNode

/-- The node as it is made. -/
def build (old : OldWords) : NodeSource → VfsNode
  | vfsInit =>
    ((vfsPopulateNode kmallocNodeZero vfsTypeDirectory).set .readdirNode .rootReaddir).set .finddirNode
      .rootFinddir
  | vfsMkdir => vfsPopulateNode kmallocNodeZero vfsTypeDirectory
  | vfsMkfile => vfsPopulateNode kmallocNodeZero vfsTypeFile
  | deviceMount =>
    ((vfsPopulateNode (kmallocNode old) vfsTypeDirectory).set .readdirNode .deviceReaddir).set
      .finddirNode .deviceFinddir
  | deviceTtyMount =>
    ((((vfsPopulateNode (kmallocNode old) vfsTypeCharacterDevice).set .readNode .ttyRead).set .writeNode
      .ttyWrite).set .openNode .ttyOpen).set .ioctlNode .ttyIoctl
  | stdioCreateNode =>
    ((vfsPopulateNode kmallocNodeZero vfsTypeSymlink).set .onRelease .stdioOnRelease).set .readlinkNode
      .stdioReadlink
  | hdAtapi =>
    (((vfsPopulateNode kmallocNodeZero vfsTypeBlockDevice).set .readNode .hdRead).set .syncNode
      .hdSync).set .statNode .hdStat
  | hdPio =>
    ((((vfsPopulateNode kmallocNodeZero vfsTypeBlockDevice).set .readNode .hdRead).set .writeNode
      .hdWrite).set .syncNode .hdSync).set .statNode .hdStat
  | hdPartition =>
    ((((vfsPopulateNode kmallocNodeZero vfsTypeBlockDevice).set .readNode .hdRead).set .writeNode
      .hdWrite).set .statNode .hdStat).set .onRelease .partitionNodeRelease
  | initrdMount =>
    ((vfsPopulateNode (kmallocNode old) vfsTypeDirectory).set .readdirNode .initrdReaddir).set
      .finddirNode .initrdFinddir
  | initrdCreateNewFile isDirectory =>
    let type := if isDirectory then vfsTypeDirectory else vfsTypeFile
    let n := (vfsPopulateNode (kmallocNode old) type).set .statNode .initrdStat
    if type &&& vfsTypeDirectory ≠ 0 then
      (n.set .readdirNode .initrdReaddir).set .finddirNode .initrdFinddir
    else if type &&& vfsTypeFile ≠ 0 then n.set .readNode .initrdRead
    else n
  | procSelf =>
    ((vfsPopulateNode (kmallocNode old) vfsTypeSymlink).set .readlinkNode .procSelfReadlink).set
      .onRelease .procOnRelease
  | procPid =>
    (((vfsPopulateNode (kmallocNode old) vfsTypeDirectory).set .onRelease .procOnRelease).set
      .readdirNode .procPidReaddir).set .finddirNode .procPidFinddir
  | procStat =>
    ((vfsPopulateNode (kmallocNode old) vfsTypeFile).set .onRelease .procOnRelease).set .readNode
      .procPidReadStat
  | procFd =>
    (((vfsPopulateNode (kmallocNode old) vfsTypeDirectory).set .onRelease .procOnRelease).set
      .readdirNode .procFdReaddir).set .finddirNode .procFdFinddir
  | procFdEntry =>
    (((((((vfsPopulateNode (kmallocNode old) vfsTypeFile).set .onRelease .procOnRelease).set .openNode
      .procFdOpen).set .closeNode .procFdClose).set .readNode .procFdRead).set .writeNode
      .procFdWrite).set .ioctlNode .procFdIoctl).set .statNode .procFdStat
  | isoFinddir isSubdir =>
    let n := vfsPopulateNode kmallocNodeZero (if isSubdir then vfsTypeDirectory else vfsTypeFile)
    if isSubdir then (n.set .readdirNode .isoReaddir).set .finddirNode .isoFinddir
    else n.set .readNode .isoRead
  | ext2Finddir typeAndPermissions =>
    let vfsType := ext2TypeToVfs typeAndPermissions
    let n := ((vfsPopulateNode (kmallocNode old) vfsType).set .onRelease .ext2OnRelease).set
      .statNode .ext2Stat
    if vfsType = vfsTypeDirectory then
      (((n.set .readdirNode .ext2Readdir).set .finddirNode .ext2Finddir).set .mkdirNode
        .ext2Mkdir).set .mkfileNode .ext2Mkfile
    else if vfsType = vfsTypeSymlink then n.set .readlinkNode .ext2Readlink
    else
      ((((n.set .openNode .ext2Open).set .closeNode .ext2Close).set .readNode .ext2Read).set
        .writeNode .ext2Write).set .truncateNode .ext2Truncate

/-- The file system that makes the node. -/
def fileSystem : NodeSource → FileSystem
  | vfsInit | vfsMkdir | vfsMkfile => .root
  | deviceMount | deviceTtyMount | stdioCreateNode | hdAtapi | hdPio | hdPartition => .dev
  | initrdMount | initrdCreateNewFile _ => .initrd
  | procSelf | procPid | procStat | procFd | procFdEntry => .proc
  | isoFinddir _ => .iso9660
  | ext2Finddir _ => .ext2

end NodeSource

/-- The file systems that can be mounted on a directory. -/
inductive Mount where
  | proc | iso9660 | ext2
  deriving DecidableEq

namespace Mount

/-- What mounting stores in the node of the directory (`proc.c:19-25`, `iso9660.c:358-360`,
`ext2.c:140-146`). -/
def apply : Mount → VfsNode
  | proc => (n.set .readdirNode .procRootReaddir).set .finddirNode .procRootFinddir
  | iso9660 => (n.set .readdirNode .isoReaddir).set .finddirNode .isoFinddir
  | ext2 =>
    (((((n.set .onRelease .ext2OnRelease).set .readdirNode .ext2Readdir).set .finddirNode
      .ext2Finddir).set .mkdirNode .ext2Mkdir).set .mkfileNode .ext2Mkfile).set .statNode .ext2Stat

def fileSystem : Mount → FileSystem
  | proc => .proc
  | iso9660 => .iso9660
  | ext2 => .ext2

end Mount

/-- A node that path lookup can find: made by a file system and mounted on. -/
def madeNode (old : OldWords) (src : NodeSource) (mounts : List Mount) : VfsNode :=
  mounts.foldl Mount.apply (src.build old)

/-- The file systems that have stored functions in the node. -/
def madeBy (src : NodeSource) (mounts : List Mount) : List FileSystem :=
  src.fileSystem :: mounts.map Mount.fileSystem

/-! ## Calls of the operations -/

/-- The calls of operations on one node. What an operation returns is an argument where that decides
about the next call, and so are the counts. -/
inductive VfsCall where
  /-- `vfs_read` (`vfs.c:187-201`) -/
  | read
  /-- `vfs_write` (`vfs.c:208-222`) -/
  | write
  /-- `vfs_open` (`vfs.c:224-266`) -/
  | openFile (mode : BitVec 8) (opens truncates onlyHandle : Bool)
  /-- `vfs_close` (`vfs.c:268-288`) -/
  | close (lastReference onlyHandle : Bool)
  /-- `vfs_readdir` (`vfs.c:290-303`) -/
  | readdir
  /-- `vfs_finddir` (`vfs.c:305-317`) -/
  | finddir
  /-- `vfs_sync` (`vfs.c:330-340`) -/
  | sync
  /-- `vfs_readlink` (`vfs.c:342-357`) -/
  | readlink (len : Nat)
  /-- the reading of links in `path_resolve_impl` (`path.c:100-111`) -/
  | resolveLink
  /-- `vfs_stat` (`vfs.c:359-372`), also `proc_fd_stat` on the file behind it -/
  | stat
  /-- `vfs_mkdir` (`vfs.c:398-415`) -/
  | mkdir
  /-- `vfs_mkfile` (`vfs.c:425-442`) -/
  | mkfile
  /-- `sys_ioctl` (`ioctl.c:17-21`), also `proc_fd_ioctl` on the file behind it -/
  | ioctl
  /-- `vfs_dentry_unref` (`vfs.c:457-468`) -/
  | unref (isOpen : Bool)

/-- `O_TRUNC`. -/
def oTrunc : BitVec 8 := 0x08

/-- `O_DIRECTORY`. -/
def oDirectory : BitVec 8 := 0x40

/-- The modes in which directories are not opened:
`O_WRONLY | O_RDWR | O_APPEND | O_CREAT | O_TRUNC`. -/
def oNotDirectory : BitVec 8 := 0x02 ||| 0x04 ||| 0x20 ||| 0x10 ||| 0x08

namespace VfsNode

/-- The operation, if its pointer is not `NULL`. -/
def present (op : NodeOp) : List NodeOp := if n.ops op = .null then [] else [op]

/-- The operations that the end of `vfs_close` calls. -/
def closed (onlyHandle : Bool) : List NodeOp :=
  n.present .closeNode ++ if onlyHandle then n.present .onRelease else []

/-- The operations that a call invokes, in this order. -/
def invoked : VfsCall → List NodeOp
  | .read => if n.isDirectory then [] else n.present .readNode
  | .write => if n.isDirectory then [] else n.present .writeNode
  | .openFile mode opens truncates onlyHandle =>
    if (n.isDirectory ∧ mode &&& oNotDirectory ≠ 0) ∨ (¬ n.isDirectory ∧ mode &&& oDirectory ≠ 0)
    then []
    else
      n.present .openNode ++
        if n.ops .openNode ≠ .null ∧ !opens then n.closed onlyHandle
        else if mode &&& oTrunc ≠ 0 ∧ n.ops .truncateNode ≠ .null then
          .truncateNode :: if truncates then [] else n.closed onlyHandle
        else []
  | .close lastReference onlyHandle => if lastReference then n.closed onlyHandle else []
  | .readdir => if n.isDirectory then n.present .readdirNode else []
  | .finddir => if n.isDirectory then n.present .finddirNode else []
  | .sync => n.present .syncNode
  | .readlink len => if n.type = vfsTypeSymlink ∧ len ≠ 0 then n.present .readlinkNode else []
  | .resolveLink => if n.type = vfsTypeSymlink then n.present .readlinkNode else []
  | .stat => n.present .statNode
  | .mkdir => if n.isDirectory then n.present .mkdirNode else []
  | .mkfile => if n.isDirectory then n.present .mkfileNode else []
  | .ioctl => n.present .ioctlNode
  | .unref isOpen => if isOpen then [] else n.present .onRelease

end VfsNode

/-! ## What the pointers should be -/

/-- Every operation that the call invokes was stored by a file system of the node. -/
def CallsStored (old : OldWords) (src : NodeSource) (mounts : List Mount) (call : VfsCall) : Prop :=
  ∀ op ∈ (madeNode old src mounts).invoked call,
    ∃ h : Handler, (madeNode old src mounts).ops op = .stored h ∧
      h.fileSystem ∈ madeBy src mounts

/-- The node is a directory in a block that was not cleared, and its file system stores no operation
for creating files: the root of `dev`, directories of `initrd`, and those of processes and their
descriptors in `proc`. -/
def NodeSource.LeavesMkfile : NodeSource → Prop
  | deviceMount | initrdMount | procPid | procFd => True
  | initrdCreateNewFile isDirectory => isDirectory = true
  | _ => False

end Stos.Kernel
