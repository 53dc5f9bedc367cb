import LinuxEvocation.Fs.Locks.Failure
import LinuxEvocation.Fs.Locks.Getlk
import LinuxEvocation.Fs.Locks.Wakeup
import LinuxEvocation.Mm.Munmap
import LinuxEvocation.Mm.Paging.WriteCallers
import LinuxEvocation.Mm.Paging.Tasks
import LinuxEvocation.Mm.PageAlloc.Invariant
import LinuxEvocation.Malloc.Free
import LinuxEvocation.Ipc.Keys
import LinuxEvocation.Ipc.Ids
import LinuxEvocation.Ipc.Sem.Wakeup
import LinuxEvocation.Ipc.Sem.Exact
import LinuxEvocation.Mm.Mmap
import LinuxEvocation.Ipc.Shm.Attach
import LinuxEvocation.Ipc.Shm.Swap
import LinuxEvocation.Ipc.Shm.Map
import LinuxEvocation.Fs.Pipe.Stream
import LinuxEvocation.Ipc.Msg.Quota
import LinuxEvocation.Fs.Ext2.Getblk
import LinuxEvocation.Fs.Ext2.Namei.Tree
import LinuxEvocation.Fs.Buffer.Invariant
import LinuxEvocation.Fs.Buffer.Unique
import LinuxEvocation.Fs.Buffer.Shared
import LinuxEvocation.Kernel.Printk
import LinuxEvocation.Kernel.Timer
import LinuxEvocation.Kernel.Exit.Zombie
import LinuxEvocation.Kernel.Exit.Audit
import LinuxEvocation.Kernel.Block.Plug
import LinuxEvocation.Fs.Msdos.Runs
import LinuxEvocation.Kernel.Block.Elevator
import LinuxEvocation.Kernel.Block.Contiguous
import LinuxEvocation.Kernel.Fork.Pid
import LinuxEvocation.Kernel.Ptrace.Words
import LinuxEvocation.Kernel.Signal.Frames
import LinuxEvocation.Fs.Ext2.InodeTable
import LinuxEvocation.Fs.Ext2.NewInode
import LinuxEvocation.Kernel.Vsprintf.Stars
import LinuxEvocation.Fs.Ext2.Dir.Map
import LinuxEvocation.Fs.Ext2.ReadSuper
import LinuxEvocation.Fs.Ext2.ReadRing
import LinuxEvocation.Net.Tcp.SortSend
import LinuxEvocation.Net.Packets
import LinuxEvocation.Kernel.Ioport
import LinuxEvocation.Fs.Msdos.Dates
import LinuxEvocation.Net.Route
import LinuxEvocation.Net.Slip.Receive
import LinuxEvocation.Fs.Msdos.Walks
import LinuxEvocation.Kernel.WaitQueue
import LinuxEvocation.Mm.Swapon
import LinuxEvocation.Fs.Ext2.BitmapLru
import LinuxEvocation.Kernel.Sched
