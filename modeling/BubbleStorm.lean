import BubbleStorm.Lib.BinHeap
import BubbleStorm.Lib.WrapOrder
import BubbleStorm.Lib.Span
import BubbleStorm.Lib.Chain
import BubbleStorm.Lib.Newest
import BubbleStorm.Lib.Outcome
import BubbleStorm.Cusp.Stream.PacketFormat
import BubbleStorm.Cusp.Stream.Offset
import BubbleStorm.Cusp.Stream.OutStreamQueue
import BubbleStorm.Cusp.Stream.InStreamQueue
import BubbleStorm.Cusp.Stream.InStreamProofs
import BubbleStorm.Cusp.Stream.OutStreamProofs
import BubbleStorm.Cusp.Stream.Pair
import BubbleStorm.Cusp.Stream.Delivery
import BubbleStorm.Cusp.Stream.Window
import BubbleStorm.Cusp.Stream.InStreamInvariant
import BubbleStorm.Cusp.Stream.ReceiveLimit
import BubbleStorm.Cusp.Stream.OutStreamReset
import BubbleStorm.Cusp.Stream.BarrierOrder
import BubbleStorm.Cusp.Stream.SendLimit
import BubbleStorm.Cusp.Stream.FlowControl
import BubbleStorm.Cusp.Stream.Progress
import BubbleStorm.Cusp.Stream.HostDispatch
import BubbleStorm.Cusp.Stream.HostEvents
import BubbleStorm.Cusp.Stream.HostSound
import BubbleStorm.Cusp.Stream.HostTotality
import BubbleStorm.Cusp.Stream.HostCalm
import BubbleStorm.Cusp.Stream.HostIds
import BubbleStorm.Cusp.Stream.HostFails
import BubbleStorm.Cusp.Stream.HostRuns
import BubbleStorm.Cusp.Stream.QueueBooks
import BubbleStorm.Cusp.Stream.HostTurns
import BubbleStorm.Cusp.Stream.HostAccounts
import BubbleStorm.Cusp.Stream.OutStreamRecovery
import BubbleStorm.Cusp.Stream.HostRecovery
import BubbleStorm.Cusp.Stream.Refusal
import BubbleStorm.Cusp.Stream.SegmentFormat
import BubbleStorm.Cusp.Stream.OutStreamPieces
import BubbleStorm.Cusp.Stream.OutStreamCallbacks
import BubbleStorm.Cusp.Stream.OutStreamRanges
import BubbleStorm.Cusp.Stream.BufferedOutStream
import BubbleStorm.Cusp.Stream.BufferedDiscipline
import BubbleStorm.Cusp.Conversation.Conversation
import BubbleStorm.Cusp.Conversation.Quota
import BubbleStorm.Cusp.Channel.PacketFormat
import BubbleStorm.Cusp.Channel.DelayedAck
import BubbleStorm.Cusp.Channel.AckSoundness
import BubbleStorm.Cusp.Channel.FastRetransmit
import BubbleStorm.Cusp.Channel.AckOnce
import BubbleStorm.Cusp.Channel.Reno
import BubbleStorm.Cusp.Channel.Negotiation
import BubbleStorm.Cusp.Channel.Suite
import BubbleStorm.Cusp.Channel.Handshake
import BubbleStorm.Cusp.Channel.Agreement
import BubbleStorm.Cusp.Channel.NegotiationRuns
import BubbleStorm.Util.Crypto.Counter
import BubbleStorm.Util.Crypto.Hmqv
import BubbleStorm.Cusp.Crypto.Symmetric
import BubbleStorm.Cusp.Crypto.PublicKey
import BubbleStorm.Cusp.Crypto.Session
import BubbleStorm.Cusp.Channel.Keystream
import BubbleStorm.Cusp.Channel.Datagram
import BubbleStorm.Cusp.Channel.DatagramProofs
import BubbleStorm.Cusp.Channel.Packet
import BubbleStorm.Cusp.Channel.PacketRoundTrip
import BubbleStorm.Kademlia.NodeLookup
import BubbleStorm.Kademlia.Buckets
import BubbleStorm.Kademlia.BucketsProofs
import BubbleStorm.Kademlia.Receive
import BubbleStorm.Kademlia.ReceiveProofs
import BubbleStorm.Topology.Bubblecast
import BubbleStorm.Topology.BubblecastCoverage
import BubbleStorm.Topology.Gossip
import BubbleStorm.Topology.GossipMass
import BubbleStorm.Topology.GossipHandler
import BubbleStorm.Topology.BubblecastHandler
import BubbleStorm.Topology.BubblecastReception
import BubbleStorm.Topology.Locations
import BubbleStorm.Topology.JoinLeave
import BubbleStorm.Util.Container.Tree
import BubbleStorm.Util.Container.TreeProofs
import BubbleStorm.Util.Hash.HashTable
import BubbleStorm.Util.Hash.HashTableProofs
import BubbleStorm.Util.Hash.HashTableMap
import BubbleStorm.Util.Serial.Serial
import BubbleStorm.Util.Serial.Layout
import BubbleStorm.Util.Serial.RoundTrip
import BubbleStorm.Util.Serial.Parse
import BubbleStorm.Util.Serial.Forms
import BubbleStorm.Durable.HashStore
import BubbleStorm.Managed.StoragePool
import BubbleStorm.Managed.StoragePoolProofs
import BubbleStorm.Managed.Frontend
import BubbleStorm.Managed.Held
import BubbleStorm.Managed.Replication
import BubbleStorm.Managed.StorageStream
import BubbleStorm.Util.Heap.Heap
import BubbleStorm.Util.Heap.HeapSort
import BubbleStorm.Util.Container.Stack
import BubbleStorm.Util.Heap.ManagedHeap
import BubbleStorm.Util.Heap.ManagedHeapProofs
import BubbleStorm.Util.Heap.ManagedHeapQueue
import BubbleStorm.System.Event
import BubbleStorm.System.EventProofs
import BubbleStorm.Topology.Permute
import BubbleStorm.Util.Matrix.CuthillMcKee
import BubbleStorm.Util.Matrix.CuthillMcKeeProofs
import BubbleStorm.Topology.Create
import BubbleStorm.Notification.Sender
import BubbleStorm.Topology.Clients
import BubbleStorm.Topology.Neighbour
import BubbleStorm.Topology.NeighbourProofs
import BubbleStorm.Topology.Degrees
import BubbleStorm.Durable.Responsibility
import BubbleStorm.Durable.Router
import BubbleStorm.Durable.RoutingTable
import BubbleStorm.Durable.Lookup
import BubbleStorm.Managed.Completion
import BubbleStorm.Managed.PhaseProgress
import BubbleStorm.Topology.BubblecastUnknown
import BubbleStorm.System.Udp.BufferUdp
import BubbleStorm.System.Udp.PeerUdp
import BubbleStorm.Cusp.Conversation.TailData
import BubbleStorm.Cusp.EndPoint.Contact
import BubbleStorm.Cusp.Conversation.Reset
import BubbleStorm.Cusp.Conversation.ResetStreams
import BubbleStorm.Cusp.Conversation.ResetProofs
import BubbleStorm.Util.Id
import BubbleStorm.Kademlia.CloseNodes
import BubbleStorm.Kademlia.Closeness
import BubbleStorm.Kademlia.ValueLookup
import BubbleStorm.Kademlia.Requests
import BubbleStorm.Kademlia.BucketRing
import BubbleStorm.Kademlia.ValueStore
import BubbleStorm.Topology.RoundHash
import BubbleStorm.Util.Crypto.Compressor
import BubbleStorm.Util.Crypto.Field25519ML
import BubbleStorm.System.TimeProofs
import BubbleStorm.Util.Container.IdBucket
import BubbleStorm.Managed.StoragePoolRuns
import BubbleStorm.Util.Optimizer.Interior
import BubbleStorm.Util.Crypto.Curve25519
import BubbleStorm.Util.Crypto.Whirlpool
import BubbleStorm.Util.Container.RingProofs
import BubbleStorm.Util.Matrix.Newton
import BubbleStorm.Util.Matrix.Dense
import BubbleStorm.HostCache.Restore
import BubbleStorm.Util.Optimizer.Derivatives
import BubbleStorm.Managed.StorageWire
import BubbleStorm.Util.Random.MersenneTwister
import BubbleStorm.Util.Random.WordCut
import BubbleStorm.Lib.Horner
import BubbleStorm.Util.Crypto.Poly1305ML
import BubbleStorm.Simulator.Udp.InQueue
import BubbleStorm.Simulator.Udp.Link
