import Stos.Kernel.Memory.Proofs.PmmBoot
import Stos.Kernel.Memory.Proofs.Slab
import Stos.Kernel.Proofs.ElfImage
import Stos.Kernel.Proofs.KernelHalf
import Stos.Libc.Proofs.Sbrk
import Stos.Kernel.Iso9660
import Stos.Libc.Strtol
import Stos.Kernel.Proofs.Process
import Stos.Kernel.Proofs.SysWait
import Stos.Kernel.Proofs.Turns
import Stos.Kernel.Proofs.Signal
import Stos.Kernel.Proofs.TaskArgs
import Stos.Kernel.Proofs.PathLength
import Stos.Kernel.Proofs.PathAbsolute
import Stos.Kernel.Proofs.Pipe
import Stos.Kernel.Proofs.FileDescriptors
import Stos.Kernel.Proofs.VfsNodes
import Stos.Kernel.RwQueue
import Stos.Kernel.Proofs.PathNames
import Stos.Kernel.Hd.Proofs.SectorLoc
import Stos.Kernel.Ext2.Proofs.Directory
import Stos.Libc.Proofs.HeapRuns
import Stos.Kernel.Ata.Proofs.Queue
import Stos.Kernel.Ext2.Proofs.FileLeaks
import Stos.Kernel.Ext2.Inode
import Stos.Libc.Proofs.Memmove
import Stos.Libc.Proofs.FormatInts
