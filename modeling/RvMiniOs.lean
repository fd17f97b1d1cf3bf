import RvMiniOs.Err
import RvMiniOs.Lib.Words
import RvMiniOs.Lib.Runs
import RvMiniOs.Fs.FileArray
import RvMiniOs.Fs.OwnedRuns
import RvMiniOs.Fs.DiskFormat
import RvMiniOs.Memory.Vpages
import RvMiniOs.Memory.UserCopy
import RvMiniOs.Memory.PageMap
import RvMiniOs.Memory.ElfContent
import RvMiniOs.Tasks.Table
import RvMiniOs.Tasks.Parents
import RvMiniOs.Sched.RoundRobin
import RvMiniOs.Tasks.Resources
import RvMiniOs.Sync.Mutex
import RvMiniOs.Sync.Semaphore
import RvMiniOs.Tasks.Pids
import RvMiniOs.Tasks.Descriptors
import RvMiniOs.Bcache.Transparent
import RvMiniOs.Bcache.Exclusive
import RvMiniOs.Drivers.VirtioQueue
import RvMiniOs.Sched.Membership
import RvMiniOs.Fs.OpenFiles
import RvMiniOs.Tasks.WaitPid
import RvMiniOs.Fs.PathCursor
import RvMiniOs.Fs.Lookups
import RvMiniOs.Fs.Files
import RvMiniOs.Fs.Creators
import RvMiniOs.Fs.BallocRuns
import RvMiniOs.Fs.FileOffsets
import RvMiniOs.Fs.TreeWalk
import RvMiniOs.Fs.Counts
import RvMiniOs.Fs.Making
import RvMiniOs.Fs.PathSteps
import RvMiniOs.Fs.FailedPaths
import RvMiniOs.Sched.Reaping
import RvMiniOs.Sched.Sleeping
import RvMiniOs.Sched.WakeWaiting
import RvMiniOs.Memory.Elf
import RvMiniOs.Memory.Fork
import RvMiniOs.Memory.OldTree
import RvMiniOs.Memory.Argv
import RvMiniOs.Memory.MapFailure
import RvMiniOs.Memory.TreeRelease
import RvMiniOs.Memory.UserStrings
import RvMiniOs.Drivers.Pci
import RvMiniOs.Drivers.Uart
import RvMiniOs.Drivers.Console
import RvMiniOs.Fs.CloneFiles
import RvMiniOs.Fs.Truncate
import RvMiniOs.Drivers.PciCaps
import RvMiniOs.Clist
import RvMiniOs.Tinyalloc
