import Xv6.Lib.ByteField
import Xv6.Lib.Writes
import Xv6.Lib.Exec
import Xv6.Lib.BitMap
import Xv6.Lib.Holding
import Xv6.Lib.CString
import Xv6.Lib.Radix
import Xv6.Lib.Ring
import Xv6.Log.Store
import Xv6.Log.Header
import Xv6.Log.Crash
import Xv6.Log.Recovery
import Xv6.Log.Group
import Xv6.Log.GroupInvariant
import Xv6.Log.GroupSafety
import Xv6.Log.Admission
import Xv6.Fs.Layout
import Xv6.Fs.Alloc
import Xv6.Fs.Inode
import Xv6.Fs.Volume
import Xv6.Fs.Bmap
import Xv6.Fs.Content
import Xv6.Fs.Truncate
import Xv6.Fs.Transaction
import Xv6.Fs.FileSpec
import Xv6.Fs.ShortWrite
import Xv6.Fs.Node
import Xv6.Fs.Itable
import Xv6.Fs.ItableSpec
import Xv6.Fs.Dir
import Xv6.Fs.DirSpec
import Xv6.Fs.Ownership
import Xv6.Fs.Handle
import Xv6.Fs.DirMap
import Xv6.Fs.Allocator
import Xv6.Fs.Path
import Xv6.Fs.PathSpec
import Xv6.Vm.Memory
import Xv6.Vm.PageTable
import Xv6.Vm.Isolation
import Xv6.Vm.CopySpec
import Xv6.Bio.Cache
import Xv6.Bio.Refcount
import Xv6.Bio.Replacement
import Xv6.Console.LineDiscipline
import Xv6.Bio.BlockStoreRefinement
import Xv6.Proc.Pipe
import Xv6.Proc.PipeFifo
import Xv6.Proc.PipeRead
import Xv6.Sh.Parsecmd
import Xv6.Proc.Machine
import Xv6.Proc.Steps
import Xv6.Proc.Situation
import Xv6.Proc.Scheduling
import Xv6.Proc.Kill
import Xv6.Proc.Family
import Xv6.Proc.Wait
import Xv6.Proc.Pid
import Xv6.Proc.Interrupts
import Xv6.Proc.Wakeup
import Xv6.Itable.Coherence
import Xv6.Virtio.Protocol
import Xv6.File.SharedWrite
import Xv6.File.ChunkedWrite
import Xv6.Mkfs.ReadBack
import Xv6.User.Break
import Xv6.User.HeapRun
import Xv6.User.Memmove
import Xv6.User.Grep
import Xv6.Sysfile.Failure
import Xv6.Sysfile.PathResolution
import Xv6.Process.Sbrk
import Xv6.Process.ForkSpec
