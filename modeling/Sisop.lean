import Sisop.Mmu
import Sisop.ByteMem
import Sisop.Routine
import Sisop.RefTable
import Sisop.Chain
import Sisop.Pmap
import Sisop.PageSlots
import Sisop.MemInvariant
import Sisop.PageMaps
import Sisop.PageInsert
import Sisop.Env
import Sisop.UserMem
import Sisop.Sched
import Sisop.Syscall
import Sisop.Trap
import Sisop.AddressSpace
import Sisop.PageSupply
import Sisop.PageSafety
import Sisop.EnvIds
import Sisop.SyscallFailure
import Sisop.Boot
import Sisop.BootInvariant
import Sisop.PageAllocator
import Sisop.PageGrant
import Sisop.TableWrites
import Sisop.CpuInvariant
import Sisop.CpuSteps
import Sisop.CpuSystem
import Sisop.KernelRuns
import Sisop.CpuSafety
import Sisop.KernelSpace
import Sisop.KernelEntry
import Sisop.KernelPair
import Sisop.IpcBlocked
import Sisop.IpcDelivery
import Sisop.FsRpc
import Sisop.PrimeLines
import Sisop.BootLoader
import Sisop.Isolation
import Sisop.KernelMemory
import Sisop.PageRange
import Sisop.KernelLock
import Sisop.ForkPages
import Sisop.CopyOnWrite
import Sisop.PageFault
import Sisop.Trace
import Sisop.Ring
import Sisop.Pipe
import Sisop.FdTable
import Sisop.PipeRefs
import Sisop.PipeClosed
import Sisop.BlockCache
import Sisop.CacheCoherence
import Sisop.FsBlocks
import Sisop.BlockAlloc
import Sisop.AllocDurable
import Sisop.FsFiles
import Sisop.FsTree
import Sisop.FsCalls
import Sisop.Bytes
import Sisop.Spans
import Sisop.Fsformat
import Sisop.FsformatRun
import Sisop.FsformatImage
import Sisop.FsformatSlots
import Sisop.FsformatClean
import Sisop.Pipeline
import Sisop.PipelineTables
import Sisop.PipelineRun
import Sisop.PipelineProgress
import Sisop.PipelinePlumbing
import Sisop.SchedChoice
import Sisop.SchedTurns
import Sisop.DoubleFree
import Sisop.StabSearch
import Sisop.Translate
import Sisop.InsertEffect
import Sisop.MapRegion
import Sisop.Mmio
import Sisop.EnvReclaim
import Sisop.EnvCycle
import Sisop.PageAccounts
import Sisop.BootHeap
import Sisop.UserBytes
import Sisop.LoadIcode
import Sisop.LoadImage
import Sisop.MpConfig
import Sisop.MpBoot
import Sisop.OpenTab
import Sisop.OpenIds
import Sisop.OpenRuns
import Sisop.OpenSafety
import Sisop.FileData
import Sisop.FileArray
import Sisop.PathWalk
import Sisop.PathResolve
import Sisop.FileBlocks
import Sisop.FsformatServe
import Sisop.CreateFailure
import Sisop.DirNames
import Sisop.CreateFrame
import Sisop.CacheFiles
import Sisop.FileDurable
import Sisop.CreateFile
import Sisop.CreateExact
import Sisop.FileSizes
import Sisop.WriteRange
import Sisop.WriteSizes
import Sisop.DebugInfo
import Sisop.DebugReads
import Sisop.DebugExact
import Sisop.PipePositions
import Sisop.PipeCounts
import Sisop.DupExact
import Sisop.Tokens
import Sisop.ShTokens
import Sisop.Runcmd
import Sisop.ArgParse
import Sisop.UserPages
import Sisop.ForkV0
import Sisop.MapSegment
import Sisop.InitStack
import Sisop.Readline
import Sisop.MemMove
import Sisop.PrintfmtTotal
import Sisop.Fprintf
import Sisop.Cprintf
import Sisop.Shell
import Sisop.ShellWords
import Sisop.ShellPlaces
import Sisop.ShellBack
import Sisop.ShellBounds
import Sisop.ShellPipes
import Sisop.Thread
import Sisop.FreeListPass
import Sisop.ConsoleInput
import Sisop.Keyboard
import Sisop.Sprintf
import Sisop.Strtol
import Sisop.PrintfmtRender
import Sisop.Find
import Sisop.Terminal
import Sisop.Cga
import Sisop.Xargs
import Sisop.PrimesProgress
import Sisop.UserMemCheck
import Sisop.CputsReads
import Sisop.Spawn
