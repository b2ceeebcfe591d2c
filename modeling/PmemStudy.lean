import PmemStudy.Lib.AlignedBlocks
import PmemStudy.Lib.FirstFit
import PmemStudy.Lib.Loop
import PmemStudy.Lib.While
import PmemStudy.Lib.Ring
import PmemStudy.Lib.Trace
import PmemStudy.Lib.Threads
import PmemStudy.Lib.SuspendLock
import PmemStudy.Cceh.Segment
import PmemStudy.Cceh.Copy
import PmemStudy.Cceh.Table
import PmemStudy.Cceh.Stores
import PmemStudy.Cceh.Pass
import PmemStudy.Cceh.Runs
import PmemStudy.Cceh.DirectoryInvariant
import PmemStudy.Cceh.Contents
import PmemStudy.Cceh.Insertions
import PmemStudy.Cceh.Updates
import PmemStudy.Cceh.StoredPairs
import PmemStudy.Cceh.Occupancy
import PmemStudy.Cceh.Shifts
import PmemStudy.Cceh.RepeatedKeys
import PmemStudy.Lib.Displacement
import PmemStudy.Cceh.Cuckoo
import PmemStudy.Cceh.Recovery
import PmemStudy.Cceh.CrashedSplit
import PmemStudy.Cceh.CrashRecovery
import PmemStudy.Cceh.CrashedLocks
import PmemStudy.Cceh.Semaphore
import PmemStudy.Lib.Slots
import PmemStudy.FastFair.Page
import PmemStudy.FastFair.Records
import PmemStudy.FastFair.InsertKey
import PmemStudy.FastFair.RapInsertKey
import PmemStudy.FastFair.RapEquivalence
import PmemStudy.FastFair.RemoveKey
import PmemStudy.FastFair.Visibility
import PmemStudy.Lib.Chain
import PmemStudy.FastFair.Btree
import PmemStudy.FastFair.Outline
import PmemStudy.FastFair.Search
import PmemStudy.FastFair.Lookup
import PmemStudy.FastFair.OutlineSteps
import PmemStudy.FastFair.Split
import PmemStudy.FastFair.AtRest
import PmemStudy.FastFair.SplitTree
import PmemStudy.FastFair.NewRoot
import PmemStudy.FastFair.Store
import PmemStudy.FastFair.Operations
import PmemStudy.FastFair.SingleLeaf
import PmemStudy.FastFair.Runs
import PmemStudy.FastFair.Structure
import PmemStudy.FastFair.RangeSearch
import PmemStudy.Harness.Worker
import PmemStudy.Harness.Schedule
import PmemStudy.Harness.Average
import PmemStudy.Harness.Preread
import PmemStudy.FastFair.Filled
import PmemStudy.Lib.RightLinks
import PmemStudy.FastFair.Links
import PmemStudy.FastFair.LinkedTree
import PmemStudy.FastFair.LinkedSections
import PmemStudy.FastFair.Walks
import PmemStudy.FastFair.Sections
import PmemStudy.FastFair.Writers
import PmemStudy.FastFair.BufferSlots
import PmemStudy.FastFair.ConcurrentInserts
import PmemStudy.FastFair.SerialInserts
import PmemStudy.FastFair.AnyValues
import PmemStudy.FastFair.Wrap
import PmemStudy.FastFair.StrayRecords
import PmemStudy.FastFair.Updates
import PmemStudy.Micro.NtBzero
import PmemStudy.Micro.ReadBufAmp
import PmemStudy.Micro.Units
import PmemStudy.Micro.Lat
import PmemStudy.Micro.Prefetching
import PmemStudy.Micro.LockContention
import PmemStudy.Lib.Dict
import PmemStudy.Lib.Text
import PmemStudy.Tools.LogParser
import PmemStudy.Tools.PrintedLogs
import PmemStudy.Tools.Workload
import PmemStudy.Lib.Grouped
import PmemStudy.Tools.MergeDf
import PmemStudy.Cceh.Interleaving
import PmemStudy.Cceh.HeldLocks
import PmemStudy.Cceh.SharedTable
import PmemStudy.Cceh.SharedSteps
import PmemStudy.Cceh.SharedUpdates
import PmemStudy.Cceh.SharedRuns
import PmemStudy.Cceh.LockAccounts
import PmemStudy.Cceh.SharedAccesses
import PmemStudy.Cceh.PendingStores
import PmemStudy.Cceh.SharedBlocks
import PmemStudy.Cceh.SharedRoutes
import PmemStudy.Cceh.SharedValues
import PmemStudy.Cceh.SharedPairs
import PmemStudy.Cceh.SharedContents
import PmemStudy.Cceh.SoloCalls
import PmemStudy.Cceh.SerialRuns
import PmemStudy.Cceh.InterleavedCalls
