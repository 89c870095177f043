import OpenShmem.Outcome
import OpenShmem.Prog
import OpenShmem.Error
import OpenShmem.Ext
import OpenShmem.Span
import OpenShmem.SymHeap
import OpenShmem.HeapInv
import OpenShmem.HeapRuns
import OpenShmem.Machine
import OpenShmem.Symmetry
import OpenShmem.Bytes
import OpenShmem.Pod
import OpenShmem.Bootstrap
import OpenShmem.Runtime
import OpenShmem.State
import OpenShmem.Rma
import OpenShmem.Memory
import OpenShmem.RmaCorrect
import OpenShmem.RmaRange
import OpenShmem.Coll
import OpenShmem.CollAgree
import OpenShmem.CollRequest
import OpenShmem.CollPolling
import OpenShmem.Init
import OpenShmem.Record
import OpenShmem.Plain
import OpenShmem.Lifecycle
import OpenShmem.Interleave
import OpenShmem.Store
import OpenShmem.BootstrapAgree
import OpenShmem.OobRounds
import OpenShmem.HeapSpec
import OpenShmem.HeapHistory
import OpenShmem.PeerTable
import OpenShmem.ReduceAgree
import OpenShmem.InPlace
import OpenShmem.Delivery
import OpenShmem.Outstanding
import OpenShmem.Poison
import OpenShmem.Codec
import OpenShmem.Gathered
import OpenShmem.Alu
import OpenShmem.HeapArith
import OpenShmem.Translate
import OpenShmem.Closing
import OpenShmem.AtomicCell
import OpenShmem.AtomicRuns
import OpenShmem.Completion
import OpenShmem.Monitor
import OpenShmem.Threads
import OpenShmem.SymAlloc
import OpenShmem.ObjectStore
import OpenShmem.Pgas
import OpenShmem.InitAgree
import OpenShmem.Progress
import OpenShmem.InitCompletes
import OpenShmem.Raii
import OpenShmem.Owned
import OpenShmem.Lifetimes
import OpenShmem.Segments
import OpenShmem.Puts
import OpenShmem.Phases
import OpenShmem.SpanCount
import OpenShmem.Tiling
import OpenShmem.HeapReach
import OpenShmem.HeapRoom
import OpenShmem.Fences
import OpenShmem.Handover
