import Yamb.Buffer.Writer
import Yamb.Callbacks
import Yamb.CircularBuffer.Queue
import Yamb.CircularBuffer.Recent
import Yamb.Client.Reconnect
import Yamb.Client.Rooms
import Yamb.Client.Roster
import Yamb.Console.Sessions
import Yamb.Http.FrameBounds
import Yamb.Http.RoundTrip
import Yamb.Ice.Delivery
import Yamb.Incoming.Gossip
import Yamb.Lib.Flood.Addressed
import Yamb.Lib.Flood.Delivery
import Yamb.Lib.Flood.Storm
import Yamb.Lib.Flood.Windows
import Yamb.Lib.Glare
import Yamb.Lib.RoseTree
import Yamb.Node.Messaging
import Yamb.Node.Sender
import Yamb.Overlay.Addressed
import Yamb.Overlay.Causal
import Yamb.Overlay.Termination
import Yamb.Registry
import Yamb.Relay
import Yamb.Sender.Rooms
import Yamb.Sender.Shutdown
import Yamb.Sender.Tasks
import Yamb.Signal.Candidates
import Yamb.Signal.Offer
import Yamb.Signal.Pending
import Yamb.Slots
import Yamb.SocketIo.PacketBounds
import Yamb.SocketIo.PacketRoundTrip
import Yamb.SocketIo.Transaction
import Yamb.Symple.Cleanup
import Yamb.Symple.Connected
import Yamb.Symple.Counters
import Yamb.Symple.Degree
import Yamb.Symple.Failure
import Yamb.Symple.Ghost
import Yamb.Symple.Mirror
import Yamb.Symple.Routing
import Yamb.Symple.Slots
import Yamb.Symple.Symmetry
import Yamb.SyncQueue
import Yamb.Topology.Collect
import Yamb.Topology.Counter
import Yamb.Topology.Disconnect
import Yamb.Topology.Exclusion
import Yamb.Topology.InMemory
import Yamb.Topology.Levels
import Yamb.Topology.Nearer
import Yamb.Topology.Reported
import Yamb.Topology.Substract
import Yamb.Topology.Total
