import Leg.Lib.Runs
import Leg.Process.Scheduler
import Leg.Process.SchedulerTable
import Leg.Memory.PageAllocator
import Leg.Memory.PageAllocatorInvariant
import Leg.Memory.PageCalls
import Leg.Memory.PageRun
import Leg.Memory.PageSearch
import Leg.Memory.PageContracts
import Leg.Memory.PageFreeRange
import Leg.Memory.Boot
import Leg.Process.LostWakeup
import Leg.Process.Traps
import Leg.Process.Identity
import Leg.Process.ForkContext
import Leg.Memory.KernelHeap
import Leg.Memory.KernelHeapLayout
import Leg.Memory.KernelHeapAlloc
import Leg.Memory.KernelHeapFree
import Leg.Memory.KernelHeapRun
import Leg.Memory.HeapHolds
import Leg.Memory.HeapRealloc
import Leg.Memory.HeapCalls
import Leg.Memory.HeapContracts
import Leg.Memory.HeapAlignment
import Leg.Memory.HeapExhaustion
import Leg.Memory.DoubleFree
import Leg.Lib.Tiling
import Leg.Lib.Slots
import Leg.Process.AddressSpace
import Leg.Process.Holdings
import Leg.Process.SpaceTables
import Leg.Process.Lifecycle
import Leg.Process.LifecycleMemory
import Leg.Process.Ownership
import Leg.Process.PowerOff
import Leg.Lib.Arm
import Leg.Process.ExecAtomic
import Leg.Process.JoinSleep
import Leg.Process.JoinSleepLaw
import Leg.Process.KernelMemory
import Leg.Process.TrampolineRefinement
import Leg.Process.StackBalance
import Leg.Process.StackGrowth
import Leg.Process.StartUnblocked
import Leg.Device.TtyQueue
import Leg.Device.TtyLines
import Leg.Device.TtyBounds
import Leg.Storage.MountFails
import Leg.Process.ForkReach
import Leg.Device.Blk
import Leg.Process.ForkApart
import Leg.Process.RecycledPages
import Leg.Device.KbdQueue
import Leg.Libc.Uldivmod
import Leg.Device.Gic
import Leg.Device.VirtqueueLayout
import Leg.Device.Framebuffer
import Leg.Dtb.Find
import Leg.Dtb.MemoryMap
import Leg.Usr.Hash
import Leg.Storage.RoundTrip
import Leg.Dtb.ParseTree
import Leg.Device.Rng
import Leg.Libc.Memmove
import Leg.Memory.Bump
import Leg.Libc.Number
import Leg.Libc.Words
import Leg.Dtb.Search
import Leg.Dtb.Pools
import Leg.Dtb.Progress
import Leg.Libc.PrintfReads
import Leg.Process.UserIsolation
import Leg.Process.InstalledProgram
import Leg.Process.RoundRobin
import Leg.Device.Drawing
import Leg.Libc.PrintfText
import Leg.Device.BlkDisk
import Leg.Device.Typing
import Leg.Device.Echo
import Leg.Device.UartRx
import Leg.Process.Deadlines
import Leg.Usr.Matrix
