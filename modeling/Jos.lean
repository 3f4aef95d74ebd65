import Jos.Lib.Chain
import Jos.Lib.Circle
import Jos.Lib.Count
import Jos.Lib.Ledger
import Jos.Lib.Loop
import Jos.Lib.Ring
import Jos.Lib.Sharing
import Jos.Lib.Sieve
import Jos.Lib.Simulation
import Jos.Lib.X86
import Jos.Lib.Stack
import Jos.Lib.Privilege
import Jos.Lib.Movs
import Jos.Inc.Mmu
import Jos.Boot.Main
import Jos.Libc.Printfmt
import Jos.Libc.PrintfmtSpec
import Jos.Kern.Pmap
import Jos.Kern.Own
import Jos.Kern.Store
import Jos.Kern.PmapSpec
import Jos.Kern.Insert
import Jos.Kern.AddrSpace
import Jos.Kern.Env
import Jos.Kern.EnvId
import Jos.Kern.EnvSpec
import Jos.Kern.Syscall
import Jos.Kern.KernInv
import Jos.Kern.SyscallSpec
import Jos.Kern.LifeSpec
import Jos.Kern.Trap
import Jos.Kern.UserMem
import Jos.Kern.BootAlloc
import Jos.Kern.Boot
import Jos.Kern.BootSpec
import Jos.Kern.Booted
import Jos.Kern.Run
import Jos.Kern.Ownership
import Jos.Kern.Refcount
import Jos.Kern.Cputs
import Jos.Kern.Sched
import Jos.Kern.Effect
import Jos.Kern.Change
import Jos.Kern.Exec
import Jos.Kern.Apart
import Jos.Kern.Life
import Jos.Kern.Resume
import Jos.Kern.Ipc
import Jos.Kern.Transfer
import Jos.Kern.Atomic
import Jos.Kern.Authority
import Jos.Kern.Content
import Jos.Kern.UserCheck
import Jos.Kern.PageCalls
import Jos.Kern.PageInit
import Jos.Kern.DoubleFree
import Jos.Kern.EnvFree
import Jos.Kern.PageOps
import Jos.Kern.UserAccess
import Jos.Kern.PageMapErrors
import Jos.Kern.RoundRobin
import Jos.Kern.Upcall
import Jos.Libc.Pfentry
import Jos.Libc.Fork
import Jos.Libc.ForkImage
import Jos.Libc.Cow
import Jos.Libc.CowSpec
import Jos.Libc.CowPgfault
import Jos.Libc.CowFork
import Jos.Libc.CowRefine
import Jos.Kern.Generations
import Jos.Kern.Interrupts
import Jos.Kern.Console
import Jos.Kern.BigLock
import Jos.Kern.FailedSend
import Jos.Lib.Tlb
import Jos.Kern.Tlb
import Jos.Kern.TlbSpec
import Jos.Kern.TlbSafe
import Jos.Kern.TlbCalls
import Jos.Kern.TlbRun
import Jos.Kern.TlbWrap
import Jos.Kern.TlbStale
import Jos.User.Primes
import Jos.User.PrimesSieve
import Jos.User.PrimesOrder
import Jos.Kern.Kdebug
import Jos.Kern.Debuginfo
import Jos.Kern.StabCheck
import Jos.Kern.Window
import Jos.Kern.Detect
import Jos.Kern.KernMap
import Jos.Kern.MemInit
import Jos.Kern.Mmio
import Jos.Kern.ExceptionStack
import Jos.Kern.SelfTest
import Jos.Kern.FreeListCheck
import Jos.Kern.Bench
import Jos.Kern.MemoryMap
import Jos.Kern.KernStack
import Jos.Kern.TrapEntry
import Jos.Kern.TrapReturn
import Jos.Kern.Frames
import Jos.Kern.Preempt
import Jos.Kern.Cover
import Jos.Kern.Secrecy
import Jos.Kern.Isolation
import Jos.Kern.Separation
import Jos.Libc.Syscall
import Jos.Kern.RegionAlloc
import Jos.Libc.String
import Jos.Libc.Memmove
import Jos.Kern.MapRegion
import Jos.Kern.LoadIcode
import Jos.Kern.IntSearch
import Jos.Kern.ConsBuf
import Jos.Kern.Cga
import Jos.Kern.Monitor
import Jos.Libc.Readline
import Jos.Kern.Mpconfig
import Jos.Kern.CpuId
import Jos.Libc.Padding
import Jos.Libc.PrintStrtol
import Jos.Libc.Printf
import Jos.Libc.FormatScan
import Jos.Kern.Typing
import Jos.Boot.Bootmain
import Jos.Kern.Backtrace
import Jos.Libc.StringCopy
