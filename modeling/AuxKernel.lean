import AuxKernel.Sweep
import AuxKernel.System
import AuxKernel.Signal.Basic
import AuxKernel.Signal.Post
import AuxKernel.Signal.PostBSD
import AuxKernel.Signal.Taken
import AuxKernel.Basic
import AuxKernel.RecordLock.Basic
import AuxKernel.RecordLock.Adjust
import AuxKernel.RecordLock.Bytes
import AuxKernel.RecordLock.Calls
import AuxKernel.RecordLock.Exclusion
import AuxKernel.RecordLock.Overwrite
import AuxKernel.RecordLock.Deadlock
import AuxKernel.RecordLock.Ranges
import AuxKernel.RecordLock.Query
import AuxKernel.RecordLock.Headers
import AuxKernel.RecordLock.HeaderLists
import AuxKernel.RecordLock.References
import AuxKernel.Heap.Tree
import AuxKernel.Heap.Calls
import AuxKernel.Heap.Safety
import AuxKernel.Heap.Order
import AuxKernel.Heap.Complete
import AuxKernel.Heap.Intr
import AuxKernel.Heap.Deferred
import AuxKernel.Svfs.Alloc
import AuxKernel.Svfs.FreeList
import AuxKernel.Radix
import AuxKernel.Svfs.Params
import AuxKernel.Svfs.Ialloc
import AuxKernel.Svfs.InodeList
import AuxKernel.Svfs.Dirlook
import AuxKernel.Svfs.Disksort
import AuxKernel.Svfs.Bmap
import AuxKernel.Svfs.BlockMap
import AuxKernel.Svfs.Itrunc
import AuxKernel.Svfs.Truncate
import AuxKernel.Svfs.Iget
import AuxKernel.Svfs.Direnter
import AuxKernel.Svfs.DirFailed
import AuxKernel.Svfs.DiskInode
import AuxKernel.Svfs.CheckPath
import AuxKernel.Records
import AuxKernel.Svfs.Readdir
import AuxKernel.Svfs.Listing
import AuxKernel.Svfs.SharedListing
import AuxKernel.Tcp.InOrder
import AuxKernel.Inpcb.Basic
import AuxKernel.Inpcb.Unique
import AuxKernel.Ip.Datagram
import AuxKernel.Tcp.SendSeq
import AuxKernel.Net.ClusterCounts
import AuxKernel.Net.Sockbuf
import AuxKernel.Net.SockbufStream
import AuxKernel.Net.Listen
import AuxKernel.Net.ListenQueues
import AuxKernel.Net.Sosend
import AuxKernel.Net.SendWhole
import AuxKernel.LinkedList
import AuxKernel.ClassQueue
import AuxKernel.Stream.Basic
import AuxKernel.Stream.Links
import AuxKernel.Stream.Order
import AuxKernel.Stream.Blocks
import AuxKernel.Stream.Conserve
import AuxKernel.Stream.Sched
import AuxKernel.Stream.RunList
import AuxKernel.Stream.Strread
import AuxKernel.Stream.ReadExact
import AuxKernel.Semaphores.Basic
import AuxKernel.Semaphores.Adjust
import AuxKernel.Semaphores.Tables
import AuxKernel.Semaphores.UndoArray
import AuxKernel.Semaphores.UndoChain
import AuxKernel.Semaphores.UndoOps
import AuxKernel.Semaphores.UndoTable
import AuxKernel.Semaphores.Atomic
import AuxKernel.Semaphores.Shared
import AuxKernel.Semaphores.Provenance
import AuxKernel.UseCounts
import AuxKernel.Swap.Basic
import AuxKernel.Swap.Accounting
import AuxKernel.Swap.Search
import AuxKernel.Callout.Basic
import AuxKernel.Callout.Due
import AuxKernel.Tty.Clist
import AuxKernel.Tty.Fifo
import AuxKernel.Tty.Output
import AuxKernel.Tty.Cuts
import AuxKernel.MsgQueue.Basic
import AuxKernel.MsgQueue.Search
import AuxKernel.MsgQueue.Delivery
import AuxKernel.MsgQueue.Select
import AuxKernel.MsgQueue.Text
import AuxKernel.MsgQueue.TextUnits
import AuxKernel.Tiling
import AuxKernel.Region.Basic
import AuxKernel.Region.Table
import AuxKernel.Region.PageTables
import AuxKernel.Region.Segments
import AuxKernel.Region.Pages
import AuxKernel.Region.Grow
import AuxKernel.Region.Resize
import AuxKernel.Upt.Basic
import AuxKernel.Upt.Exact
import AuxKernel.Icache.Basic
import AuxKernel.Icache.Unique
import AuxKernel.FileTable.Basic
import AuxKernel.FileTable.Counts
import AuxKernel.FileTable.Calls
import AuxKernel.Flock.Basic
import AuxKernel.Flock.Exclusion
import AuxKernel.Locking.Basic
import AuxKernel.Locking.Exclusion
import AuxKernel.Locking.Bytes
import AuxKernel.Rpc.XdrMbuf
import AuxKernel.Rpc.XdrMbufFlat
import AuxKernel.Route.Basic
import AuxKernel.Route.Counts
import AuxKernel.Rpc.ProtPaths
import AuxKernel.Rpc.XdrAlloc
import AuxKernel.Rpc.XdrBalance
import AuxKernel.Rmap.Units
import AuxKernel.Rmap.Account
import AuxKernel.Rmap.Owners
import AuxKernel.Ring
import AuxKernel.Pipe.Basic
import AuxKernel.Pipe.Fifo
import AuxKernel.Pipe.Failed
import AuxKernel.Lookup.Basic
import AuxKernel.Lookup.Resolve
import AuxKernel.Lookup.Walk
import AuxKernel.Mount.Basic
import AuxKernel.Mount.Runs
import AuxKernel.Ip.Output
import AuxKernel.Ip.Fragments
import AuxKernel.Ip.Optcopy
import AuxKernel.Bio.Basic
import AuxKernel.Bio.Flush
import AuxKernel.Loop
import AuxKernel.Itimer.Basic
import AuxKernel.Itimer.Drift
import AuxKernel.Itimer.Real
import AuxKernel.Tcp.Call
import AuxKernel.Tcp.Kept
import AuxKernel.Tcp.FinPlace
import AuxKernel.Tcp.OwedAck
import AuxKernel.Tcp.SendLoop
import AuxKernel.Tcp.Timer
import AuxKernel.Tcp.TimerRound
import AuxKernel.Tcp.Slowtimo
import AuxKernel.Rpc.DupCache
import AuxKernel.Rpc.Fastsend
import AuxKernel.Rpc.FastsendExact
import AuxKernel.OnesComplement
import AuxKernel.Net.InCksum
import AuxKernel.Net.Udp
import AuxKernel.Rpc.AuthUnix
import AuxKernel.Net.Chain
import AuxKernel.Ip.Input
import AuxKernel.Ip.Options
import AuxKernel.Ipc
import AuxKernel.Acct
