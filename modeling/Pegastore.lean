import Pegastore.Lib.ByteMemory
import Pegastore.Lib.Outcome
import Pegastore.Lib.Ranges
import Pegastore.Lib.SortedMap
import Pegastore.Lib.Transition
import Pegastore.Core.Types
import Pegastore.Core.Ops
import Pegastore.Memory.State
import Pegastore.Memory.Access
import Pegastore.Memory.View
import Pegastore.Memory.MakeRoom
import Pegastore.Memory.Place
import Pegastore.Memory.Queue
import Pegastore.Memory.Put
import Pegastore.Memory.Effects
import Pegastore.Memory.Read
import Pegastore.Memory.System
import Pegastore.Memory.Accounting
import Pegastore.Memory.Content
import Pegastore.Memory.Coverage
import Pegastore.Memory.Eviction
import Pegastore.Memory.NoPanic
import Pegastore.Memory.Placement
import Pegastore.Memory.Regions
import Pegastore.Rdma.Session
import Pegastore.Rdma.Attribution
import Pegastore.Cuda.Pinned
import Pegastore.Cuda.Local
import Pegastore.Cuda.Sections
import Pegastore.Cuda.Threads
import Pegastore.Cuda.Ownership
import Pegastore.Cuda.Steps
import Pegastore.Cuda.Backend
import Pegastore.Cuda.Flags
import Pegastore.Cuda.Provenance
import Pegastore.Cuda.Incarnation
import Pegastore.Cuda.WriteOnce
import Pegastore.Cuda.Pools
import Pegastore.Cuda.Retirement
import Pegastore.Cuda.Alone
import Pegastore.Cuda.Contiguous
import Pegastore.Memory.Bystanders
import Pegastore.Cuda.Landing
import Pegastore.Cuda.ZipCopy
import Pegastore.Cuda.Get
import Pegastore.Memory.Plenty
import Pegastore.Oracle.Get
import Pegastore.Oracle.Put
import Pegastore.Cuda.AllocOrEvict
import Pegastore.Cuda.Lockstep
import Pegastore.Cuda.Streams
import Pegastore.Memory.OwnKey
import Pegastore.Memory.PrefixRemoval
import Pegastore.Cuda.Evictable
import Pegastore.Cuda.EvictionLoop
import Pegastore.Memory.GetMany
import Pegastore.Memory.Reclamation
import Pegastore.Cuda.FirstTouch
import Pegastore.Lib.Buckets
import Pegastore.Rdma.Backend
import Pegastore.Rdma.Routing
import Pegastore.Rdma.Window
import Pegastore.Lib.Text
import Pegastore.Rdma.CpuList
import Pegastore.Rdma.Agreement
import Pegastore.Rdma.TransferEngine
import Pegastore.Rdma.Wire
import Pegastore.Memory.Refinement
import Pegastore.Cuda.NoPanic
import Pegastore.Cuda.Progress
import Pegastore.Cuda.Refinement
