import OsWork.Verified.Transition
import OsWork.Verified.Counting
import OsWork.Verified.RedoLog
import OsWork.Verified.LockCode
import OsWork.Verified.LockOrder
import OsWork.Verified.ArrayProg
import OsWork.Verified.Segment
import OsWork.Verified.Procedure
import OsWork.Verified.Monitor
import OsWork.Verified.LinkedRing
import OsWork.Verified.Interleaving
import OsWork.Verified.Ownership
import OsWork.Ports.CabRides
import OsWork.Ports.CabRidesOccupancy
import OsWork.Ports.BiryaniService
import OsWork.Ports.BiryaniKitchen
import OsWork.Ports.BiryaniMeals
import OsWork.Ports.BiryaniPortions
import OsWork.Ports.BiryaniVessels
import OsWork.Ports.ProcTable
import OsWork.Ports.ProcMachine
import OsWork.Ports.ProcMoves
import OsWork.Ports.ProcLocking
import OsWork.Ports.ProcFamily
import OsWork.Ports.ProcKill
import OsWork.Ports.ProcReports
import OsWork.Ports.ProcTicks
import OsWork.Ports.ProcBypass
import OsWork.Ports.ProcSwitch
import OsWork.Ports.ProcOnCpu
import OsWork.Ports.ProcOnCpuPages
import OsWork.Ports.ProcOnCpuSwitch
import OsWork.Ports.PageTables
import OsWork.Ports.ProcReaping
import OsWork.Ports.FsLog
import OsWork.Ports.FsLogAtomic
import OsWork.Ports.FsLogSpace
import OsWork.Ports.KernelLocks
import OsWork.Ports.KernelLockOrder
import OsWork.Ports.CabPayments
import OsWork.Ports.CabPaymentCounts
import OsWork.Ports.CabPaymentTotals
import OsWork.Ports.CabPaymentData
import OsWork.Ports.CabPaymentOnce
import OsWork.Ports.QuickSort
import OsWork.Ports.QuickSortTree
import OsWork.Ports.QuickSortThreads
import OsWork.Ports.QuickSortProcesses
import OsWork.Ports.FsDirectories
import OsWork.Ports.FsReferences
import OsWork.Ports.FsCallEffects
import OsWork.Ports.FsEntries
import OsWork.Ports.FsDangling
import OsWork.Ports.FsLinkCounts
import OsWork.Ports.SleepLocks
import OsWork.Ports.Pipes
import OsWork.Ports.IdeServed
import OsWork.Ports.BufferCache
import OsWork.Ports.FileTableBalance
import OsWork.Ports.FsThreads
import OsWork.Ports.FsBlockOwners
import OsWork.Ports.FsBlockSteps
import OsWork.Ports.FsBlockPrograms
import OsWork.Ports.FsBlockInodes
import OsWork.Ports.FsBlockCalls
import OsWork.Ports.PageOwners
import OsWork.Ports.ProcSizes
import OsWork.Ports.CopyOut
import OsWork.Ports.AddressSpaces
import OsWork.Ports.Exec
import OsWork.Ports.ConsoleLine
import OsWork.Ports.ProcPids
import OsWork.Ports.Mkfs
import OsWork.Ports.MkfsImage
import OsWork.Ports.MkfsLayout
import OsWork.Ports.MkfsReadBack
import OsWork.Ports.MkfsWellFormed
import OsWork.Ports.CopyUvm
import OsWork.Ports.ExecArgs
import OsWork.Ports.Fork
import OsWork.Ports.FsCallFailures
import OsWork.Ports.FsFullDirectory
import OsWork.Ports.FsNamei
import OsWork.Ports.FsTransaction
import OsWork.Ports.BiryaniBatches
import OsWork.Ports.BiryaniMutexes
import OsWork.Ports.CabSearch
import OsWork.Ports.Grep
import OsWork.Ports.ShellGrammar
import OsWork.Ports.ShellParser
import OsWork.Ports.ShellRun
import OsWork.Ports.ShellPipes
import OsWork.Ports.ShellWords
import OsWork.Ports.Umalloc
import OsWork.Ports.UmallocHeap
import OsWork.Ports.UmallocSizes
import OsWork.Ports.GrepMatch
import OsWork.Ports.MapPages
import OsWork.Ports.Memmove
import OsWork.Ports.MpTable
import OsWork.Ports.ProcInfo
import OsWork.Ports.SysSleep
import OsWork.Ports.SpinLocksExclusive
import OsWork.Ports.PageBoot
import OsWork.Ports.PageMachine
import OsWork.Ports.PageRuns
import OsWork.Ports.PageUses
import OsWork.Ports.TrapReturns
