import GuideOS.Lib.Chain
import GuideOS.Lib.DChain
import GuideOS.Lib.Dyadic
import GuideOS.Lib.Word
import GuideOS.Lib.Bytes
import GuideOS.Lib.Trace
import GuideOS.Lib.Intervals
import GuideOS.Lib.Result
import GuideOS.Lib.X86
import GuideOS.Lib.Interrupt
import GuideOS.Lib.RealMode
import GuideOS.Lib.Paging
import GuideOS.Lib.Editing
import GuideOS.Lib.CStr
import GuideOS.Lib.FirstDiff
import GuideOS.Lib.Tokens
import GuideOS.Lib.Numeral
import GuideOS.Mem.Layout
import GuideOS.Mem.BootAlloc
import GuideOS.Util.Str
import GuideOS.Util.Str.Compare
import GuideOS.Util.Str.Strtok
import GuideOS.Util.Kprintf
import GuideOS.Util.Kprintf.Ntoa
import GuideOS.Util.Kprintf.Grammar
import GuideOS.Util.Kprintf.Run
import GuideOS.Util.Kprintf.Call
import GuideOS.Mem.Vmm
import GuideOS.Mem.PageAlloc
import GuideOS.Mem.PageAlloc.Inv
import GuideOS.Mem.PageAlloc.Spec
import GuideOS.Mem.PageAlloc.Run
import GuideOS.Mem.PageAlloc.Ownership
import GuideOS.Mem.PageAlloc.Canonical
import GuideOS.Mem.PageAlloc.Init
import GuideOS.Mem.PageAlloc.Range
import GuideOS.Mem.PageAlloc.Bitmap
import GuideOS.Mem.PageAlloc.Memory
import GuideOS.Mem.PageAlloc.MemoryRun
import GuideOS.Mem.PageAlloc.Clean
import GuideOS.Mem.Kmalloc
import GuideOS.Mem.Kmalloc.FreeList
import GuideOS.Mem.Kmalloc.Refine
import GuideOS.Mem.Kmalloc.Run
import GuideOS.Mem.Kmalloc.Conserve
import GuideOS.Mem.Kmalloc.Align
import GuideOS.Mem.Kmalloc.Fit
import GuideOS.Mem.Kmalloc.Undo
import GuideOS.Mem.Kmalloc.Realloc
import GuideOS.Mem.Kmain
import GuideOS.Mem.Machine
import GuideOS.Proc.Cpu
import GuideOS.Proc.IntLayer
import GuideOS.Proc.Sched
import GuideOS.Proc.Sched.Typing
import GuideOS.Proc.Sched.Inv
import GuideOS.Proc.Sched.Preserve
import GuideOS.Proc.Sched.Moves
import GuideOS.Proc.Sched.Run
import GuideOS.Proc.Sched.Effect
import GuideOS.Proc.Sched.IntState
import GuideOS.Proc.Sched.Console
import GuideOS.Proc.Sched.Replay
import GuideOS.Proc.Sched.LockOrder
import GuideOS.Proc.Sched.State
import GuideOS.Proc.Sched.RoundRobin
import GuideOS.Proc.Sched.Wakeup
import GuideOS.Proc.Spinlock
import GuideOS.Proc.Ctxsw
import GuideOS.Proc.Ctxsw.Frame
import GuideOS.Proc.Ctxsw.Run
import GuideOS.Proc.Trap
import GuideOS.Proc.Trap.Frame
import GuideOS.Proc.Trap.Run
import GuideOS.Proc.Table
import GuideOS.Util.Fifo
import GuideOS.Util.Queue
import GuideOS.Util.Queue.Refine
import GuideOS.Util.Queue.Leak
import GuideOS.Util.Queue.Front
import GuideOS.Console.Cga
import GuideOS.Kshell.ReadLine
import GuideOS.Kshell.SplitLine
import GuideOS.Boot.LoadSector
import GuideOS.Kshell.Session
