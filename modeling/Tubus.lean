import Tubus.Laws.Istreamer
import Tubus.Laws.Source
import Tubus.Lib.Reassembly
import Tubus.Udp.Transport
import Tubus.Laws.Sink
import Tubus.Laws.Flow
import Tubus.Laws.Session
import Tubus.Laws.Delivery
import Tubus.Laws.Acknowledgement
import Tubus.Laws.Progress
import Tubus.Laws.Handlers
import Tubus.Laws.Connector
import Tubus.Laws.Isolation
import Tubus.Udp.Network
import Tubus.Laws.Handshake
import Tubus.Lib.Keystream
import Tubus.Tcp.Proto
import Tubus.Laws.Obfuscation
import Tubus.Laws.Feed
import Tubus.Laws.Lifecycle
import Tubus.Laws.Callbacks
import Tubus.Laws.Room
import Tubus.Laws.Socket
import Tubus.Laws.WriteSome
import Tubus.Laws.Endianness
import Tubus.Laws.Shutdown
import Tubus.Laws.Round
import Tubus.Laws.Emission
import Tubus.Laws.Stream
import Tubus.Laws.Quota
import Tubus.Laws.Discipline
import Tubus.Laws.Release
import Tubus.Laws.Readable
import Tubus.Laws.Reception
import Tubus.Laws.Resend
import Tubus.Laws.Retransmission
import Tubus.Laws.Attempts
import Tubus.Laws.Sender
import Tubus.Lib.Mutex
import Tubus.Udp.Receive
import Tubus.Laws.Receive
import Tubus.Laws.Capture
import Tubus.Laws.Mistake
import Tubus.Lib.Loop
import Tubus.Laws.Transmit
import Tubus.Lib.Memory
import Tubus.Laws.View
import Tubus.Laws.Buffer
import Tubus.Udp.Produce
import Tubus.Laws.Produce
import Tubus.Udp.Wire
import Tubus.Laws.Wire
import Tubus.Tcp.Connection
import Tubus.Laws.Connection
import Tubus.Tcp.Dialer
import Tubus.Laws.Dialer
import Tubus.Laws.RoundTrip
import Tubus.Laws.ReadSome
import Tubus.Laws.Flush
import Tubus.Udp.Acceptor
import Tubus.Laws.Acceptor
import Tubus.Lib.Account
import Tubus.Laws.Drain
