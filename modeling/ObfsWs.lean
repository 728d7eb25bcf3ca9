import ObfsWs.Pipe.Invariant
import ObfsWs.Pipe.ReadSide
import ObfsWs.Pipe.WriteSide
import ObfsWs.Pipe.Lifecycle
import ObfsWs.Pipe.FlushClose
import ObfsWs.Lib.LossyStream
import ObfsWs.Pipe.Transit
import ObfsWs.Pipe.Wakeup
import ObfsWs.Duplex
import ObfsWs.Listener
import ObfsWs.Lib.Codec
import ObfsWs.Lib.Framing
import ObfsWs.Lib.Link
import ObfsWs.Pipe.ReadBuffer
import ObfsWs.Wsocks.Frame
import ObfsWs.Wsocks.Forward
import ObfsWs.Wsocks.Relay
import ObfsWs.Wsocks.RelayCorrect
import ObfsWs.Wsocks.UpLoop
import ObfsWs.Handshake
import ObfsWs.Wsocks.Deadline
import ObfsWs.Wsocks.Etag
import ObfsWs.Lib.WeakMap
import ObfsWs.Wsocks.MuxSessions
import ObfsWs.Wsocks.Served
import ObfsWs.Lib.NetParser
import ObfsWs.Lib.IpText
import ObfsWs.Wsocks.Destination
import ObfsWs.Lib.Exposed
import ObfsWs.Wsocks.RemoteBytes
import ObfsWs.Wsocks.CatchUp
import ObfsWs.Lib.Sync
import ObfsWs.Wsocks.FrontDoor
import ObfsWs.Wsocks.FrontDrain
import ObfsWs.Wsocks.Accepted
import ObfsWs.Wsocks.Keys
import ObfsWs.Wsocks.Outlives
import ObfsWs.Packets
import ObfsWs.Wsocks.Requests
import ObfsWs.Lib.Clock
import ObfsWs.Wsocks.Manager
import ObfsWs.Wsocks.Refill
import ObfsWs.Wsocks.KeyFile
import ObfsWs.Connect
import ObfsWs.Wsocks.Expiry
