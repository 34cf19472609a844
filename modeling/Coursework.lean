import Coursework.Nachos.VirtualMemory
import Coursework.Nachos.Spec.PagingView
import Coursework.Nachos.Spec.FrameTable
import Coursework.Nachos.Spec.PagingChain
import Coursework.ForStd.Except
import Coursework.Monitor.Mesa
import Coursework.Nachos.Communicator
import Coursework.Nachos.Interleaving
import Coursework.Nachos.Processes
import Coursework.Nachos.Spec.Communicator
import Coursework.Nachos.Spec.ExitNotification
import Coursework.Nachos.Spec.FaultPath
import Coursework.Nachos.Spec.FrameExclusion
import Coursework.Nachos.Spec.Join
import Coursework.Nachos.Spec.PageBytes
import Coursework.Nachos.Spec.Pristine
import Coursework.Nachos.Spec.SwapSlots
import Coursework.Nachos.Spec.Transparency
import Coursework.CacheSim.Cache
import Coursework.Lru.Recency
import Coursework.CacheSim.MemQueue
import Coursework.CacheSim.Simulator
import Coursework.CacheSim.Spec.CacheLru
import Coursework.CacheSim.Spec.Completion
import Coursework.Nachos.Spec.FreshPages
import Coursework.Nachos.Spec.LiveProcesses
import Coursework.Nachos.Spec.SwapLeak
import Coursework.Monitor.ConditionVariable
import Coursework.Nachos.Conditions
import Coursework.Nachos.Spec.ConditionRefinement
import Coursework.Nachos.Spec.ProcessCount
import Coursework.Nachos.KThread
import Coursework.Nachos.Spec.ThreadStates
import Coursework.Nachos.Spec.PageConservation
import Coursework.CacheSim.Prefetcher
import Coursework.CacheSim.Spec.PrefetcherBits
import Coursework.ForStd.List
import Coursework.Nachos.Spec.Arguments
import Coursework.Zoobar.Spec.Conservation
import Coursework.Runs.Terminal
import Coursework.Shell.Parser
import Coursework.Shell.Pipeline
import Coursework.Shell.Spec.Grammar
import Coursework.Shell.Spec.Pipeline
import Coursework.CacheSim.Spec.HitCounts
import Coursework.Heap.Memory
import Coursework.Heap.Tiling
import Coursework.Tmalloc.Arena
import Coursework.Tmalloc.Spec.HeapInvariant
import Coursework.Nachos.Spec.EmptyTlb
import Coursework.Nachos.Spec.ReadOnlyPages
import Coursework.Nachos.Spec.Strings
import Coursework.Nachos.Exec
import Coursework.Nachos.Spec.Clock
import Coursework.Nachos.Spec.FailedExec
import Coursework.Nachos.Spec.FileTransfers
import Coursework.Nachos.Spec.Pins
import Coursework.CacheSim.Spec.PrefetchBursts
import Coursework.Nachos.Returns
import Coursework.Nachos.Spec.Alarm
import Coursework.Nachos.Spec.Descriptors
import Coursework.Nachos.Spec.InterruptStatus
import Coursework.Nachos.Spec.ThreadJoin
import Coursework.CacheSim.Spec.StrideTable
import Coursework.CacheSim.Spec.PrefetchTags
import Coursework.CacheSim.Spec.BoundedFifo
import Coursework.CacheSim.Spec.Indexing
import Coursework.Tmalloc.Spec.FreeOrder
import Coursework.Tmalloc.Spec.Wraparound
import Coursework.Nim.Monster
import Coursework.Nim.Spec.Turn
import Coursework.CStd.Stdio
import Coursework.Level.Loader
import Coursework.Level.Spec.Reading
import Coursework.Level.Spec.Grammar
import Coursework.Level.Spec.Files
import Coursework.Level.Spec.Descriptions
import Coursework.Level.Spec.Connections
import Coursework.CacheSim.TaggedPrefetcher
import Coursework.CacheSim.Spec.ReadBack
import Coursework.Nim.FlatSolver
import Coursework.Nim.Spec.Bouton
import Coursework.Profiler.StopwatchStack
import Coursework.Profiler.Spec.NestedIntervals
import Coursework.ForStd.Ranking
import Coursework.Profiler.Mathx
import Coursework.Profiler.Spec.Percentiles
import Coursework.ForStd.Option
import Coursework.KinectTrack.Skeleton
import Coursework.KinectTrack.Stride
import Coursework.KinectTrack.Spec.StridePositions
import Coursework.KinectTrack.StrideFiles
import Coursework.KinectTrack.Spec.StrideFiles
import Coursework.KinectTrack.SkelListStats
import Coursework.KinectTrack.Spec.Training
import Coursework.ForStd.EStateM
import Coursework.ForStd.BitVec
import Coursework.Nachos.Mips
import Coursework.Nachos.Processor
import Coursework.Nachos.Spec.AddressTranslation
import Coursework.Nachos.Spec.PreciseExceptions
import Coursework.Nachos.Spec.Arithmetic
import Coursework.Nachos.Spec.UnalignedAccess
import Coursework.Nachos.Spec.TransparentFaults
import Coursework.Nachos.Spec.PageContents
import Coursework.Nachos.UserProgram
import Coursework.Nachos.Spec.SilentFaults
import Coursework.Nachos.Spec.UserProgram
import Coursework.Nachos.Interrupt
import Coursework.Nachos.Spec.InterruptOrder
import Coursework.Nachos.Mail
import Coursework.Nachos.Spec.MailFormat
import Coursework.Nachos.SynchList
import Coursework.Nachos.Spec.SynchList
import Coursework.Nachos.PostOffice
import Coursework.Nachos.Spec.PostOffice
import Coursework.Nachos.Spec.MailDelivery
import Coursework.Nachos.Spec.SynchConsole
import Coursework.Nachos.Coff
import Coursework.Nachos.Spec.CoffFormat
