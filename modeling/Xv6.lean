import Xv6.Kalloc.Release
import Xv6.Log.CrashAtomic
import Xv6.System.Size
import Xv6.System.Leaves
import Xv6.System.Isolation
import Xv6.Sched.Wakeup
import Xv6.Family.Reaping
import Xv6.Ops.Space
import Xv6.System.Pids
import Xv6.Txn.Transparent
import Xv6.Smp.OneCpu
import Xv6.Pipe.Fifo
import Xv6.Vm.Translation
import Xv6.Pipe.Sleepers
import Xv6.Umalloc.Theorems
import Xv6.Virtio.Theorems
import Xv6.Sh.Theorems
import Xv6.Files.Theorems
import Xv6.Sem.Range
import Xv6.Fetch.Exact
import Xv6.Proc.Rollback
import Xv6.Kalloc.DoubleFree
import Xv6.Exec.Args
import Xv6.Grep
import Xv6.Loops.Consume
import Xv6.Disk.Reserved
import Xv6.Dir.Path
import Xv6.Memmove
import Xv6.Disk.Bitmap
import Xv6.Printf
import Xv6.Sleeplock
import Xv6.Uart
