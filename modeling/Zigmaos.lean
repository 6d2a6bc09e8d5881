import Zigmaos.AtomicWrites
import Zigmaos.DiskBlock
import Zigmaos.Log
import Zigmaos.LogCrash
import Zigmaos.Transition
import Zigmaos.LogGroup
import Zigmaos.LogGroupInvariant
import Zigmaos.SuperBlock
import Zigmaos.LogReservation
import Zigmaos.Program
import Zigmaos.Typestate
import Zigmaos.DirectoryEntry
import Zigmaos.DirectoryContent
import Zigmaos.FileSystem
import Zigmaos.SysFile
import Zigmaos.Ownership
import Zigmaos.CallSafety
import Zigmaos.CreateSafety
import Zigmaos.SysFileSafety
import Zigmaos.Pipe
import Zigmaos.PipeInvariant
import Zigmaos.DirectoryMap
import Zigmaos.InodeTable
import Zigmaos.InodeTableInvariant
import Zigmaos.RingList
import Zigmaos.BufferCache
import Zigmaos.BufferCacheInvariant
import Zigmaos.ProcessTable
import Zigmaos.ProcessFamily
import Zigmaos.ProcessInvariant
import Zigmaos.WaitExit
import Zigmaos.PageTable
import Zigmaos.UserMemory
import Zigmaos.ProcessMemory
import Zigmaos.ProcessMemoryInvariant
import Zigmaos.Boundary
import Zigmaos.Ringbuf
import Zigmaos.RingbufOpen
import Zigmaos.ProcessRingbufs
import Zigmaos.RingTransfer
import Zigmaos.RingTransferInvariant
import Zigmaos.InodeBlocks
import Zigmaos.InodeBlocksInvariant
import Zigmaos.ProcessRingbufsInvariant
import Zigmaos.DiskDriver
import Zigmaos.DiskDriverInvariant
import Zigmaos.Scheduler
import Zigmaos.SchedulerInvariant
import Zigmaos.SchedulerSafety
import Zigmaos.SleepLock
import Zigmaos.SleepLockInvariant
import Zigmaos.LeafEntries
import Zigmaos.LoggedCache
import Zigmaos.LoggedCacheInvariant
import Zigmaos.LoggedCacheSafety
import Zigmaos.RadixTree
import Zigmaos.VirtualMemory
import Zigmaos.VirtualMemoryInvariant
import Zigmaos.VirtualMemoryRefinement
import Zigmaos.RingbufTable
import Zigmaos.RingbufTableOpen
import Zigmaos.RingbufTableSafety
import Zigmaos.ExecFile
import Zigmaos.ExecFileSafety
import Zigmaos.ExecStack
import Zigmaos.ConsoleInvariant
import Zigmaos.ProcessIds
import Zigmaos.LoggedCachePins
import Zigmaos.PathResolution
import Zigmaos.MakeFilesystemInvariant
import Zigmaos.MakeFilesystemContents
import Zigmaos.DirectoryLookup
import Zigmaos.MakeFilesystemKernel
import Zigmaos.FileWrites
import Zigmaos.BadSource
import Zigmaos.UndefinedMemory
import Zigmaos.OpenFilesSafety
import Zigmaos.ConsoleWedge
import Zigmaos.PageContents
import Zigmaos.PipeCall
import Zigmaos.PipeCounters
import Zigmaos.PipeWakeups
import Zigmaos.KillableLoops
import Zigmaos.SizeChange
import Zigmaos.UserCopies
import Zigmaos.FileReads
import Zigmaos.ExecContents
import Zigmaos.InodeArrays
import Zigmaos.CallsAlone
import Zigmaos.FailedCalls
import Zigmaos.Queue
import Zigmaos.UserRingbufs
import Zigmaos.SyscallArguments
import Zigmaos.InterruptNesting
import Zigmaos.SlotLocks
import Zigmaos.BufferShortage
import Zigmaos.InodeShortage
import Zigmaos.ForkContents
import Zigmaos.CircularList
import Zigmaos.UserMallocSafety
import Zigmaos.RingbufSites
import Zigmaos.RingbufViews
import Zigmaos.Assembly
import Zigmaos.UserContexts
import Zigmaos.KernelThreads
import Zigmaos.ShellLexer
import Zigmaos.ShellParser
import Zigmaos.ShellRun
import Zigmaos.UartInvariant
import Zigmaos.KernelMemoryBoot
import Zigmaos.Grep
