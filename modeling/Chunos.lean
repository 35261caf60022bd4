import Chunos.Basic
import Chunos.Lib.Runs
import Chunos.Lib.Cover
import Chunos.Lib.Rings
import Chunos.Lib.Listwise
import Chunos.Lib.Chains
import Chunos.Lib.Cyclic
import Chunos.Lib.WordStack
import Chunos.Lib.Writes
import Chunos.Bitops
import Chunos.BitopsScan
import Chunos.List
import Chunos.String
import Chunos.Mm.Section
import Chunos.Mm.SectionRuns
import Chunos.Mm.SectionRestore
import Chunos.Mm.Slab
import Chunos.Mm.SlabInv
import Chunos.Mm.SlabCaches
import Chunos.Mm.SlabCalls
import Chunos.Mm.SlabRuns
import Chunos.Mm.SlabTiling
import Chunos.Mm.SlabSizes
import Chunos.Mm.SlabExhausted
import Chunos.Mm.Pgt
import Chunos.Mm.PgtMap
import Chunos.Mm.PgtRange
import Chunos.Mm.PgtCache
import Chunos.Mm.PgtPool
import Chunos.Mm.Bank
import Chunos.Mm.BankRegions
import Chunos.Mm.BankWindows
import Chunos.Mm.BankTables
import Chunos.Mm.BankPartition
import Chunos.Mm.BankBitmaps
import Chunos.Mm.BankDirectory
import Chunos.Mm.BankPages
import Chunos.Mm.BankMoves
import Chunos.Mm.BankGrants
import Chunos.Mm.BankCursors
import Chunos.Mm.BankAligned
import Chunos.Mm.BankCarving
import Chunos.Mm.BankCredit
import Chunos.Mm.PgtTask
import Chunos.Mm.PgtMmap
import Chunos.Mm.PgtRuns
import Chunos.Mm.TaskMm
import Chunos.Mm.TaskFork
import Chunos.Mm.TaskSections
import Chunos.Mm.TaskCopy
import Chunos.Mm.TaskMmap
import Chunos.Mm.MmapFrames
import Chunos.Mm.TaskInit
import Chunos.Mm.TaskRuns
import Chunos.Fs.Vfs
import Chunos.Fs.VfsRead
import Chunos.Fs.VfsSeek
import Chunos.Fs.SeekPosition
import Chunos.Fs.VfsErrors
import Chunos.Fs.VfsWrite
import Chunos.Fs.Lmfs
import Chunos.Fs.LmfsPool
import Chunos.Fs.LmfsFnodes
import Chunos.Fs.LmfsDrain
import Chunos.Fs.LmfsAppend
import Chunos.Fs.Fat
import Chunos.Fs.FatCache
import Chunos.Fs.FatSuper
import Chunos.Fs.Mount
import Chunos.Fs.Devfs
import Chunos.Fs.File
import Chunos.Mm.MmapFile
import Chunos.Fs.Lookup
import Chunos.Fs.FileNames
import Chunos.Fs.LmfsTree
import Chunos.Fs.NameBuffers
import Chunos.Fs.GetFnode
import Chunos.Fs.Getdents
import Chunos.Sched.Basic
import Chunos.Sched.Queues
import Chunos.Sched.Inv
import Chunos.Sched.Tick
import Chunos.Sched.Runs
import Chunos.Sched.Moves
import Chunos.Sched.Prio
import Chunos.Sched.Choice
import Chunos.Sched.Switch
import Chunos.Sched.Slice
import Chunos.Sched.Sleepers
import Chunos.Sched.SetPrio
import Chunos.Sched.Pid
import Chunos.Mutex.Basic
import Chunos.Mutex.Exclusion
import Chunos.Mutex.Waiting
import Chunos.Mutex.Wakeup
import Chunos.Mutex.Kill
import Chunos.Syscall.Signal
import Chunos.Syscall.Delivery
import Chunos.Kernel.Format
import Chunos.Kernel.Printk
import Chunos.Kernel.Elf
import Chunos.Kernel.ArgvEnvp
import Chunos.Kernel.KillTask
import Chunos.Kernel.Fork
import Chunos.Kernel.Disk
import Chunos.Arch.Memcpy
import Chunos.Arch.TaskStack
