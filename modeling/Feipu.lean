import Feipu.Lib.Trace
import Feipu.Lib.CStr
import Feipu.Lib.Lines
import Feipu.Lib.Consume
import Feipu.Lib.SortedMap
import Feipu.Base.Buffer
import Feipu.Base.Logging
import Feipu.Http.HttpMsg
import Feipu.Http.Router
import Feipu.Http.HttpHandler
import Feipu.Http.Parse
import Feipu.Http.Grammar
import Feipu.Base.Channel
import Feipu.Base.TcpConnection
import Feipu.Base.Output
import Feipu.Http.HttpServer
import Feipu.Http.Dispatch
import Feipu.Base.EventLoop
import Feipu.Base.Poller
import Feipu.Base.TcpServer
import Feipu.Base.Lifecycle
import Feipu.Base.SharedConn
import Feipu.Base.Tasks
import Feipu.Base.Close
import Feipu.Base.Owners
import Feipu.Http.Fields
import Feipu.Http.Framing
import Feipu.Http.Serialize
import Feipu.Lib.Search
import Feipu.Lib.Segments
import Feipu.Http.Routing
import Feipu.Http.Captures
import Feipu.Http.Response
import Feipu.Base.ByteQueue
import Feipu.Base.TimerQueue
import Feipu.Base.Timers
import Feipu.Base.UdpServer
import Feipu.Http.Wildcards
import Feipu.Http.Content
import Feipu.Http.Consumed
import Feipu.Http.Truncation
import Feipu.Base.Polled
import Feipu.Base.Storage
import Feipu.Base.EventLoopPool
import Feipu.Base.InetAddress
import Feipu.Base.Datagrams
import Feipu.Base.EventLoopThread
import Feipu.Http.Bounds
import Feipu.Http.Answer
import Feipu.Http.Exchange
import Feipu.Http.Scanning
import Feipu.Base.Reactor
import Feipu.Base.Startup
import Feipu.Base.Serving
import Feipu.Http.Clients
import Feipu.Http.Served
import Feipu.Http.Counted
import Feipu.Http.Received
import Feipu.Base.Stamps
