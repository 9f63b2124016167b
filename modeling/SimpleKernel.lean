import SimpleKernel.Buffer.Transparency
import SimpleKernel.Handle.Lifetime
import SimpleKernel.Syscall.References
import SimpleKernel.Sched.Tree
import SimpleKernel.Sched.Fpu
import SimpleKernel.Sched.Tasks
import SimpleKernel.Handle.Words
import SimpleKernel.Mem.Kmalloc
import SimpleKernel.Object.MessageQueue
import SimpleKernel.Dfs.DirectIo
import SimpleKernel.Dfs.DirRuns
import SimpleKernel.Dfs.Open
import SimpleKernel.Vfs.Files
import SimpleKernel.Object.IomuxWakeups
import SimpleKernel.Pipefs.Stream
import SimpleKernel.Pthread.NormalMutex
import SimpleKernel.Pthread.OwnedMutex
import SimpleKernel.Pthread.RwExclusion
import SimpleKernel.Tcp.SocketSend
import SimpleKernel.Net.PoolConservation
import SimpleKernel.Tcp.SocketStream
import SimpleKernel.Net.SocketRequest
import SimpleKernel.Tcp.PcbListAxioms
import SimpleKernel.Tcp.Congestion
import SimpleKernel.Tcp.SendOrder
import SimpleKernel.Pthread.Barrier
import SimpleKernel.Os.CriticalSection
import SimpleKernel.Pthread.CondvarWakeups
import SimpleKernel.Timers.Delivery
import SimpleKernel.Virtio.Exchange
import SimpleKernel.Edit.UndoRuns
import SimpleKernel.Mem.FileLocks
import SimpleKernel.Mem.Vmalloc
import SimpleKernel.Stdio.Equivalence
import SimpleKernel.Mem.RmapStatus
import SimpleKernel.Handle.FreeList
import SimpleKernel.Object.Pulse
import SimpleKernel.Vfs.Chdir
import SimpleKernel.Mem.PageFrames
import SimpleKernel.Dfs.Renaming
import SimpleKernel.Dfs.Holes
import SimpleKernel.Mkdfs.Blank
import SimpleKernel.Net.Forward
import SimpleKernel.Tcp.Options
import SimpleKernel.Tcp.EnqueueFailure
import SimpleKernel.Vfs.TextWrite
import SimpleKernel.Select.Counts
import SimpleKernel.Select.Sets
import SimpleKernel.Net.Arp
import SimpleKernel.Net.Headers
import SimpleKernel.Dfs.Bitops
import SimpleKernel.Os.Iovec
import SimpleKernel.Os.Options
import SimpleKernel.Os.ModulePath
import SimpleKernel.Os.Inifile
