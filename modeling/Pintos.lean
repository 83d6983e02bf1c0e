import Pintos.Lib.Results
import Pintos.Lib.Transition
import Pintos.Lib.Simulation
import Pintos.Lib.Coherence
import Pintos.Lib.OrderedList
import Pintos.Lib.LinkedList
import Pintos.Lib.Words
import Pintos.Lib.CStrings
import Pintos.Lib.NameTree
import Pintos.Threads.Semaphore
import Pintos.Threads.Condition
import Pintos.Threads.Scheduler
import Pintos.Threads.Donation
import Pintos.Threads.Lock
import Pintos.Threads.ExitLocks
import Pintos.Threads.TryAcquire
import Pintos.Threads.Signals
import Pintos.Threads.Kernel
import Pintos.Threads.ReadyOrder
import Pintos.Threads.Sleepers
import Pintos.Filesys.ReadWrite
import Pintos.Filesys.Cache
import Pintos.Filesys.CacheSharing
import Pintos.Filesys.SecondChance
import Pintos.Filesys.CacheAccounting
import Pintos.Filesys.FreeMap
import Pintos.Filesys.Inode
import Pintos.Filesys.BlockMap
import Pintos.Filesys.Growth
import Pintos.Filesys.GrowthSound
import Pintos.Filesys.TableCrossing
import Pintos.Filesys.GrowthCalls
import Pintos.Filesys.GrowthBounds
import Pintos.Filesys.GrowthExact
import Pintos.Filesys.Deletion
import Pintos.Filesys.OutOfSpace
import Pintos.Filesys.FileSlices
import Pintos.Filesys.NewFile
import Pintos.Filesys.FreeMapRuns
import Pintos.Filesys.Files
import Pintos.Filesys.NoAlias
import Pintos.Filesys.HeldEntry
import Pintos.Filesys.FileRuns
import Pintos.Filesys.OpenInodes
import Pintos.Filesys.Contents
import Pintos.Filesys.Removal
import Pintos.Filesys.WriteDenial
import Pintos.Filesys.Directory
import Pintos.Filesys.Readdir
import Pintos.Filesys.Tree
import Pintos.Filesys.TreeRuns
import Pintos.Filesys.OpenCounts
import Pintos.Filesys.RemovedDirs
import Pintos.Filesys.Paths
import Pintos.Filesys.PathOpens
import Pintos.Filesys.Resolution
import Pintos.Filesys.FileBytes
import Pintos.Filesys.Shutdown
import Pintos.Filesys.Persistence
import Pintos.Filesys.GrowthKeeps
import Pintos.Filesys.Creation
import Pintos.Filesys.Mounted
import Pintos.Filesys.FailedCreation
import Pintos.Filesys.Archive
import Pintos.Filesys.Extraction
import Pintos.Filesys.RoundTrip
import Pintos.Filesys.NamedFiles
import Pintos.Filesys.FileNames
import Pintos.Filesys.NameCalls
import Pintos.Filesys.NamedRefinement
import Pintos.Vm.Swap
import Pintos.Vm.Eviction
import Pintos.Vm.Paging
import Pintos.Vm.Slots
import Pintos.Userprog.Process
import Pintos.Userprog.ChildRecords
import Pintos.Userprog.Wait
import Pintos.Userprog.AddressSpace
import Pintos.Userprog.Load
import Pintos.Userprog.OpenBalance
import Pintos.Userprog.Overlap
import Pintos.Userprog.Stack
import Pintos.Userprog.Segments
import Pintos.Userprog.MunmapRuns
import Pintos.Userprog.LockBalance
import Pintos.Userprog.FailedInstall
import Pintos.Userprog.StackGrowth
import Pintos.Userprog.Exec
import Pintos.Userprog.ExecRuns
import Pintos.Userprog.Descriptors
import Pintos.Userprog.Pagedir
import Pintos.Userprog.PageTables
import Pintos.Userprog.Ia32
import Pintos.Userprog.Directories
import Pintos.Userprog.Spaces
import Pintos.Userprog.Translation
import Pintos.Userprog.KernelMap
import Pintos.Userprog.PageAccounting
import Pintos.Userprog.Activation
