import Xv6.Mem.PageMap
import Xv6.Kernel.ExecImage
import Xv6.Sched.Interrupts
import Xv6.Sched.SleepLock
import Xv6.Block.BlockMap
import Xv6.Block.CommitBuffers
import Xv6.Block.Crash
import Xv6.Block.Lru
import Xv6.Fs.FileRead
import Xv6.Fs.Bitmap
import Xv6.Fs.Paths
import Xv6.Sched.Kill
import Xv6.Pipes.Sleepers
import Xv6.Console.Discipline
import Xv6.Console.FaultingReads
import Xv6.Sched.Ticks
import Xv6.User.Sbrk
import Xv6.User.Pipeline
import Xv6.User.Grep
import Xv6.User.Printf
import Xv6.Console.Uart
import Xv6.Fs.InodeSlots
