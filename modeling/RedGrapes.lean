import RedGrapes.Access
import RedGrapes.ResourceUser
import RedGrapes.Lib.Prune
import RedGrapes.Lib.Machine
import RedGrapes.DependencyGraph
import RedGrapes.Runtime.Model
import RedGrapes.Runtime.Moves
import RedGrapes.Runtime.Ledger
import RedGrapes.Runtime.Events
import RedGrapes.Runtime.Followers
import RedGrapes.Runtime.Lists
import RedGrapes.Runtime.Handshake
import RedGrapes.Runtime.Order
import RedGrapes.Runtime.Nesting
import RedGrapes.Runtime.Removal
import RedGrapes.Runtime.Barrier
import RedGrapes.Lib.Store
import RedGrapes.Runtime.Serial
import RedGrapes.Patch
import RedGrapes.Runtime.UpdateGraph
import RedGrapes.ChunkedList.Item
import RedGrapes.ChunkedList.Model
import RedGrapes.ChunkedList.Sequential
import RedGrapes.Memory.BumpAllocator
import RedGrapes.Memory.ChunkedBumpAlloc
import RedGrapes.Memory.Reclaim
import RedGrapes.ChunkedList.Refinement
import RedGrapes.ChunkedList.Concurrent
import RedGrapes.ChunkedList.Invariant
import RedGrapes.ChunkedList.Threads
import RedGrapes.ChunkedList.Append
import RedGrapes.ChunkedList.Walk
import RedGrapes.ChunkedList.Pushes
import RedGrapes.Lib.LowBit
import RedGrapes.Lib.HighBit
import RedGrapes.Memory.EmptyChunks
import RedGrapes.Memory.Retry
import RedGrapes.Bitfield
import RedGrapes.Runtime.Counters
import RedGrapes.Lib.Drain
import RedGrapes.Runtime.Cascade
import RedGrapes.Runtime.Spaces
import RedGrapes.Runtime.Waiter
import RedGrapes.Cuda.Model
import RedGrapes.Cuda.DeviceOrder
import RedGrapes.Runtime.Pause
import RedGrapes.Runtime.PauseHolder
import RedGrapes.Runtime.PauseOnce
import RedGrapes.Runtime.PauseEdges
import RedGrapes.PoolScheduler
import RedGrapes.FieldResource
import RedGrapes.CondVar
import RedGrapes.Lib.Links
import RedGrapes.Memory.AtomicList
import RedGrapes.RequestPool
import RedGrapes.Wake
import RedGrapes.Lib.Offer
import RedGrapes.ProbeOrder
import RedGrapes.FreeWorker
import RedGrapes.ChunkedList.Destructor
import RedGrapes.Lib.Layers
import RedGrapes.Runtime.Progress
import RedGrapes.Runtime.Termination
import RedGrapes.Runtime.Completion
import RedGrapes.Lib.Schedule
import RedGrapes.Lib.Simulation
import RedGrapes.Runtime.Refinement
import RedGrapes.Lib.Replay
import RedGrapes.AccessEffect
import RedGrapes.Runtime.Trees
import RedGrapes.Memory.Bytes
import RedGrapes.Memory.Search
import RedGrapes.Cuda.Completion
import RedGrapes.GetStatus
import RedGrapes.Runtime.Backtrace
