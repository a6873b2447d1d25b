import Xv6Cow.Log.Reserve
import Xv6Cow.Kernel.Fresh
import Xv6Cow.Kernel.Sbrk
import Xv6Cow.Kernel.PipeIo
import Xv6Cow.Proc.Reap
import Xv6Cow.Proc.Pids
import Xv6Cow.Pipe.Fifo
import Xv6Cow.Pipe.Sleepers
import Xv6Cow.Fd.Calls
import Xv6Cow.Itable.Freed
import Xv6Cow.Exec.Atomic
import Xv6Cow.Intr.Nesting
import Xv6Cow.Virtio.Matched
import Xv6Cow.Console.Discipline
import Xv6Cow.Sh.Parse
import Xv6Cow.Kernel.Strings
import Xv6Cow.Vm.PageMap
import Xv6Cow.Ulib.Memmove
import Xv6Cow.Proc.LockOrder
import Xv6Cow.Kernel.Isolation
import Xv6Cow.Grep.Lines
import Xv6Cow.Printf.Integers
