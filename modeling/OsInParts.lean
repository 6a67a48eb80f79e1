import OsInParts.Lib.Machine
import OsInParts.Paging.PageTable
import OsInParts.Paging.FlatMemory
import OsInParts.Paging.Segmentation
import OsInParts.Paging.FrameAllocation
import OsInParts.Paging.Statistics
import OsInParts.Paging.Tlb
import OsInParts.Lib.RecentRing
import OsInParts.Paging.TlbHistory
import OsInParts.Paging.TlbCompetitive
import OsInParts.Paging.TlbSession
import OsInParts.Lib.Loop
import OsInParts.Lib.SecondChance
import OsInParts.Paging.Clock
import OsInParts.Paging.ClockRefinement
import OsInParts.Paging.ClockVictim
import OsInParts.Paging.ClockResidency
import OsInParts.Lib.ClockWindow
import OsInParts.Paging.FaultBound
import OsInParts.Lib.Caching
import OsInParts.Lib.FifoCache
import OsInParts.Paging.ClockCompetitive
import OsInParts.Lib.Threads
import OsInParts.Threads.Servers
import OsInParts.Threads.ServersExclusion
import OsInParts.Threads.ServersMain
import OsInParts.Threads.TryLock
import OsInParts.Threads.TryLockLog
import OsInParts.Lib.Ring
import OsInParts.Threads.Warehouse
import OsInParts.Threads.WarehouseSafety
import OsInParts.Threads.WarehouseTokens
import OsInParts.Threads.WarehouseShutdown
import OsInParts.Threads.WarehouseCounters
import OsInParts.Threads.ThreadPool
import OsInParts.Threads.ThreadPoolSafety
import OsInParts.Threads.ThreadPoolOnce
import OsInParts.Threads.ThreadPoolTeardown
import OsInParts.Threads.MatrixProduct
import OsInParts.Threads.MatrixWorkers
import OsInParts.Lib.Schedule
import OsInParts.Lib.BubbleSort
import OsInParts.Scheduling.Process
import OsInParts.Scheduling.Schedulers
import OsInParts.Scheduling.Progress
import OsInParts.Scheduling.Loops
import OsInParts.Scheduling.SrtfOptimal
import OsInParts.Scheduling.RoundRobin
import OsInParts.Scheduling.BusyTime
import OsInParts.Lib.Dispatch
import OsInParts.Scheduling.EntryOrder
import OsInParts.Lib.Timeline
import OsInParts.Scheduling.Trace
import OsInParts.Scheduling.SjfSchedule
import OsInParts.Scheduling.SrtfSchedule
import OsInParts.Lib.ShortestFirst
import OsInParts.Scheduling.SameArrival
import OsInParts.Scheduling.SrtfTurns
import OsInParts.Scheduling.Selection
import OsInParts.Scheduling.FifoSchedule
import OsInParts.Scheduling.RrFairness
import OsInParts.Scheduling.FifoTurnaround
import OsInParts.Scheduling.RrAsFifo
import OsInParts.Lib.Slice
import OsInParts.Lib.Words
import OsInParts.MergeSort.Merge
import OsInParts.Lib.Interleave
import OsInParts.MergeSort.Interleaving
import OsInParts.MergeSort.ProcessTree
import OsInParts.MergeSort.Sorting
import OsInParts.MergeSort.Termination
import OsInParts.MergeSort.Failures
import OsInParts.MergeSort.Deadlock
import OsInParts.Lib.Stdio
import OsInParts.Forking.BinarySearch
import OsInParts.Forking.SearchChain
import OsInParts.Forking.SearchOutput
import OsInParts.MergeSort.Output
import OsInParts.Lib.CString
import OsInParts.FileIO.Stations
import OsInParts.FileIO.StationTable
import OsInParts.FileIO.Readers
import OsInParts.FileIO.LineRecords
import OsInParts.Lib.GroupBy
import OsInParts.FileIO.RecordGroups
import OsInParts.FileIO.StationKeys
import OsInParts.Lib.Sweep
import OsInParts.FileIO.Sstf
import OsInParts.FileIO.SstfInput
import OsInParts.Lib.Runs
import OsInParts.FileIO.CountWords
import OsInParts.Lib.Directories
import OsInParts.FileIO.FileSystem
import OsInParts.FileIO.Move
import OsInParts.FileIO.Copy
import OsInParts.FileIO.MoveOutcome
import OsInParts.FileIO.MoveSafety
import OsInParts.FileIO.MoveCount
import OsInParts.FileIO.MoveDepth
import OsInParts.FileIO.MoveRetry
import OsInParts.FileIO.MoveBack
import OsInParts.FileIO.MoveHere
import OsInParts.Lib.Descriptors
import OsInParts.FileIO.Redirect
import OsInParts.FileIO.RedirectCommand
import OsInParts.FileIO.RunProgram
import OsInParts.Forking.Averages
import OsInParts.Forking.AveragesOutput
import OsInParts.Lib.LinkedList
import OsInParts.Paging.NodeHeap
import OsInParts.Lib.Scan
import OsInParts.Paging.Commands
import OsInParts.Lib.Prompt
import OsInParts.Paging.TypedAddresses
import OsInParts.Paging.Requests
import OsInParts.Scheduling.Input
import OsInParts.Threads.MatrixInput
import OsInParts.FileIO.Students
