import Lupin.Lib.Transition
import Lupin.Lib.Ring
import Lupin.Lock.Word
import Lupin.Lock.Ttas
import Lupin.Lock.Wport
import Lupin.Queue.WakeQueue
import Lupin.Meta.Layout
import Lupin.Lib.Memory
import Lupin.Lib.StoreTrace
import Lupin.Buddy.Bitset
import Lupin.Buddy.Tree
import Lupin.Lib.LevelTree
import Lupin.Buddy.Field
import Lupin.Buddy.TreeSpec
import Lupin.Buddy.Arena
import Lupin.Buddy.Allocator
import Lupin.Lib.LeafCount
import Lupin.Lib.TakenNodes
import Lupin.Buddy.Walk
import Lupin.Log.Checksum
import Lupin.Log.Entry
import Lupin.Log.Execute
import Lupin.Log.Recover
import Lupin.Log.Torn
import Lupin.Lib.Linked
import Lupin.Alloc.ListQueue
import Lupin.Cgroup.Groups
import Lupin.Ivshmem.Server
import Lupin.Ivshmem.View
import Lupin.Queue.WakeKind
import Lupin.Cgroup.Failure
import Lupin.Lock.WportFair
import Lupin.Lib.Handover
import Lupin.Lock.MinArrayOps
import Lupin.Lock.MinArray
import Lupin.Lock.MinArrayTree
import Lupin.Lock.MinArrayOwner
import Lupin.Alloc.Ops
import Lupin.Alloc.Shape
import Lupin.Alloc.Steps
import Lupin.Lib.TopBit
import Lupin.Persist.PersistCas
import Lupin.Queue.CircularOps
import Lupin.Queue.CircularQueue
import Lupin.Lib.DoubleRefresh
import Lupin.Lock.MinArrayUpdate
import Lupin.Lib.FlushTrace
import Lupin.Log.Flush
import Lupin.Alloc.Record
import Lupin.Alloc.SlotPage
import Lupin.Alloc.Allocate
import Lupin.Alloc.Free
import Lupin.Lib.Replay
import Lupin.Alloc.Setup
import Lupin.Alloc.Recovery
import Lupin.Alloc.Outcome
import Lupin.Alloc.Directory
import Lupin.Alloc.Serve
import Lupin.Alloc.System
import Lupin.Alloc.Filling
import Lupin.Alloc.Regions
import Lupin.Alloc.Capacity
import Lupin.Alloc.Names
import Lupin.Alloc.Stuck
import Lupin.Alloc.Calls
import Lupin.Alloc.NameMap
import Lupin.Alloc.Check
import Lupin.Cgroup.Members
import Lupin.Cgroup.ProcDeath
import Lupin.Ivshmem.Cmsg
import Lupin.Cgroup.Detector
import Lupin.Ivshmem.Poll
import Lupin.Lib.Holders
import Lupin.Queue.Futex
import Lupin.Queue.FutexSteps
import Lupin.Queue.FutexWake
import Lupin.Queue.Mpsc
import Lupin.Lib.LaggingQueue
import Lupin.Lib.TicketRing
import Lupin.Lock.Rmcs
