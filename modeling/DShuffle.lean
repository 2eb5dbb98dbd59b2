import DShuffle.Base.ByteMemory
import DShuffle.Base.Chains
import DShuffle.Base.Codec
import DShuffle.Base.Cut
import DShuffle.Base.Extents
import DShuffle.Base.File
import DShuffle.Base.Handles
import DShuffle.Base.Joined
import DShuffle.Base.Pool
import DShuffle.Base.Slots
import DShuffle.Base.SortedList
import DShuffle.Base.Tokens
import DShuffle.Base.Transition
import DShuffle.Base.Unicode
import DShuffle.Dpa.Batch
import DShuffle.Dpa.Routing
import DShuffle.Dpa.Threads
import DShuffle.Kernel.ClassInfos
import DShuffle.Kernel.DeviceLookup
import DShuffle.Kernel.DeviceMap
import DShuffle.Kernel.Mem
import DShuffle.Kernel.Pointers
import DShuffle.Kernel.Refinement
import DShuffle.Kernel.Serialize
import DShuffle.Serde.ArenaBlocks
import DShuffle.Serde.ArenaResolver
import DShuffle.Serde.ArenaWalk
import DShuffle.Serde.ClassInfo
import DShuffle.Serde.ClassResolver
import DShuffle.Serde.Contents
import DShuffle.Serde.EnumTable
import DShuffle.Serde.Exchange
import DShuffle.Serde.FieldsCount
import DShuffle.Serde.FileStream
import DShuffle.Serde.Footprint
import DShuffle.Serde.Framing
import DShuffle.Serde.Heap
import DShuffle.Serde.HeapGraph
import DShuffle.Serde.Lifecycle
import DShuffle.Serde.Limited
import DShuffle.Serde.ObjectReviver
import DShuffle.Serde.ObjectWalker
import DShuffle.Serde.Peers
import DShuffle.Serde.PrimitiveArrays
import DShuffle.Serde.RWBuffer
import DShuffle.Serde.Register
import DShuffle.Serde.RegisterWalk
import DShuffle.Serde.Registry
import DShuffle.Serde.RegistryLayout
import DShuffle.Serde.RelatedClasses
import DShuffle.Serde.Relocation
import DShuffle.Serde.Root
import DShuffle.Serde.RoundTrip
import DShuffle.Serde.Stream
import DShuffle.Serde.TwoProcess
import DShuffle.Serde.Utf
import DShuffle.Serde.VisitedMap
import DShuffle.Serde.WalkLayout
import DShuffle.Shuffle.Delivery
import DShuffle.Shuffle.Dispatch
import DShuffle.Shuffle.Ending
import DShuffle.Shuffle.Frames
import DShuffle.Shuffle.JavaStream
import DShuffle.Shuffle.Partition
import DShuffle.Shuffle.Pipeline
import DShuffle.Shuffle.ReadBack
import DShuffle.Shuffle.Replies
import DShuffle.Shuffle.Route
import DShuffle.Shuffle.Servers
import DShuffle.Shuffle.Shutdown
import DShuffle.Spill.Agent
import DShuffle.Spill.AgentBuffers
import DShuffle.Spill.Append
import DShuffle.Spill.Completion
import DShuffle.Spill.Direct
import DShuffle.Spill.Drain
import DShuffle.Spill.Durable
import DShuffle.Spill.Files
import DShuffle.Spill.Fragments
import DShuffle.Spill.Mount
import DShuffle.Spill.MountErrors
import DShuffle.Spill.Overrun
import DShuffle.Spill.Producers
import DShuffle.Spill.Quiesce
import DShuffle.Trans.Bulk
import DShuffle.Trans.Calls
import DShuffle.Trans.Chunks
import DShuffle.Trans.Failure
import DShuffle.Trans.Serve
import DShuffle.Trans.Socket
import DShuffle.Trans.Tcp
import DShuffle.Trans.Transport
