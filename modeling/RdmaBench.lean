import RdmaBench.Lib.Asserts
import RdmaBench.Lib.ByteMem
import RdmaBench.Lib.Bits
import RdmaBench.Lib.Links
import RdmaBench.Lib.Runs
import RdmaBench.Lib.Circular
import RdmaBench.Lib.Signaling
import RdmaBench.Lib.Window
import RdmaBench.Lib.SlotRing
import RdmaBench.Lib.Elision
import RdmaBench.Lib.Buffers
import RdmaBench.Lib.Fifo
import RdmaBench.Lib.CounterSlot
import RdmaBench.Lib.Names
import RdmaBench.Lib.Chain
import RdmaBench.Lib.Sampling
import RdmaBench.Lib.Threads
import RdmaBench.Lib.Rank
import RdmaBench.Lib.PhaseRing
import RdmaBench.Lib.Simulation
import RdmaBench.Lib.Spans
import RdmaBench.Lib.Paged
import RdmaBench.Lib.Bitmap
import RdmaBench.Lib.Admission
import RdmaBench.Libhrd.PollCq
import RdmaBench.Libhrd.Registry
import RdmaBench.Libhrd.Fastrand
import RdmaBench.Libhrd.Ports
import RdmaBench.LibhrdCpp.Conn
import RdmaBench.Alloc.Model
import RdmaBench.Alloc.Heap
import RdmaBench.Alloc.FreeLists
import RdmaBench.Alloc.Ops
import RdmaBench.Alloc.Sessions
import RdmaBench.Alloc.Recovery
import RdmaBench.Alloc.Allocate
import RdmaBench.Alloc.DoubleFree
import RdmaBench.Alloc.BestFit
import RdmaBench.Alloc.RoundTrip
import RdmaBench.Mica.Model
import RdmaBench.Mica.Log
import RdmaBench.Mica.Bucket
import RdmaBench.Mica.Store
import RdmaBench.Mica.Retention
import RdmaBench.Mica.Offsets
import RdmaBench.Mica.Entries
import RdmaBench.Mica.Batch
import RdmaBench.Mica.Answers
import RdmaBench.Mica.Stats
import RdmaBench.Mica.Linear
import RdmaBench.Mica.Populate
import RdmaBench.Postlist.Sender
import RdmaBench.Postlist.Worker
import RdmaBench.Postlist.Chains
import RdmaBench.Requests.Model
import RdmaBench.Requests.Delivery
import RdmaBench.Requests.Recvs
import RdmaBench.Requests.Progress
import RdmaBench.Requests.Turns
import RdmaBench.Herd.Protocol
import RdmaBench.Herd.Handshake
import RdmaBench.Herd.Cache
import RdmaBench.Herd.Service
import RdmaBench.Herd.FirstLap
import RdmaBench.WsSequencer.Model
import RdmaBench.WsSequencer.Counter
import RdmaBench.WsSequencer.Answers
import RdmaBench.Sequencer.Model
import RdmaBench.Sequencer.Reconstruct
import RdmaBench.Sequencer.Queues
import RdmaBench.Sequencer.Recvs
import RdmaBench.Sequencer.Refinement
import RdmaBench.Sequencer.Buffers
import RdmaBench.Sequencer.Server
import RdmaBench.Scalability.Server
import RdmaBench.Scalability.Connect
import RdmaBench.Swarm.Model
import RdmaBench.Swarm.Window
import RdmaBench.Swarm.Queues
import RdmaBench.Swarm.Slots
import RdmaBench.Swarm.Names
import RdmaBench.Swarm.Choices
import RdmaBench.RwTput.Offsets
import RdmaBench.Echo.Model
import RdmaBench.Echo.Answers
import RdmaBench.WriteFlush.Histogram
import RdmaBench.WriteFlush.Percentiles
import RdmaBench.Mlx5.Pcie
import RdmaBench.Mlx5.PollOne
import RdmaBench.Mlx5.PostSend
import RdmaBench.Mlx5.CreateQp
import RdmaBench.Mlx5.CqRing
import RdmaBench.Mlx5.CqQueue
import RdmaBench.Mlx5.CqClean
import RdmaBench.Mlx5.CqFifo
import RdmaBench.Mlx5.CqResize
import RdmaBench.Mlx5.SendQueue
import RdmaBench.Mlx5.SendRuns
import RdmaBench.Mlx5.Unsignaled
import RdmaBench.Mlx5.SharedRecv
import RdmaBench.Mlx5.SharedRecvRuns
import RdmaBench.Mlx5.Tables
import RdmaBench.Mlx5.Dbrec
