import MuServer.AsyncLogger
import MuServer.AsyncLoggerStop
import MuServer.Basic
import MuServer.Buffer
import MuServer.BufferQueue
import MuServer.BufferWords
import MuServer.CachedFiles
import MuServer.CallbackShutdown
import MuServer.ConnectDestroyed
import MuServer.ConnectionCallbacks
import MuServer.ConnectionCalls
import MuServer.ConnectionClose
import MuServer.ConnectionContext
import MuServer.ConnectionFrames
import MuServer.ConnectionHalfClose
import MuServer.ConnectionLife
import MuServer.ConnectionMirror
import MuServer.ConnectionNames
import MuServer.ConnectionQueue
import MuServer.ConnectionShutdown
import MuServer.ConnectionStart
import MuServer.ConnectionWrites
import MuServer.ContentLength
import MuServer.Convert
import MuServer.EchoServer
import MuServer.EpollPoller
import MuServer.EpollPollerRuns
import MuServer.EventLoop
import MuServer.EventLoopThread
import MuServer.EventLoopThreadPool
import MuServer.FixedBuffer
import MuServer.HashLFUCache
import MuServer.HashLFUPolicy
import MuServer.HeaderFields
import MuServer.HeaderSection
import MuServer.HighWater
import MuServer.HttpChunks
import MuServer.HttpContext
import MuServer.HttpConversation
import MuServer.HttpHost
import MuServer.HttpProgress
import MuServer.HttpRefusal
import MuServer.HttpRequest
import MuServer.HttpResponse
import MuServer.HttpRoundTrip
import MuServer.HttpRuns
import MuServer.HttpServer
import MuServer.HttpSession
import MuServer.HttpStream
import MuServer.IntegerTypes
import MuServer.LFU
import MuServer.LFUCapacity
import MuServer.LFUEviction
import MuServer.LFUInvariant
import MuServer.LFULinks
import MuServer.LFUOperations
import MuServer.LFUPolicy
import MuServer.LFUTally
import MuServer.Lib.Binary64
import MuServer.Lib.Census
import MuServer.Lib.Fallible
import MuServer.Lib.Fifo
import MuServer.Lib.Filing
import MuServer.Lib.Machine
import MuServer.Lib.OrderedSet
import MuServer.Lib.RoundRobin
import MuServer.Lib.Search
import MuServer.Lib.Tickets
import MuServer.LogFile
import MuServer.LogLines
import MuServer.LogPeriod
import MuServer.LogPipeline
import MuServer.LogStream
import MuServer.Logger
import MuServer.LoginForm
import MuServer.LoginServer
import MuServer.LoopServer
import MuServer.LoopServerPlaced
import MuServer.LoopServerRuns
import MuServer.LoopServerView
import MuServer.MessageCallback
import MuServer.MySQLConnectionPool
import MuServer.MySQLConnectionPoolInit
import MuServer.OnRequest
import MuServer.Pipelining
import MuServer.ReadFailure
import MuServer.ReadSmallFile
import MuServer.RequestLine
import MuServer.RequestLineGrammar
import MuServer.ResponseFraming
import MuServer.ResponseReader
import MuServer.ResponseStream
import MuServer.Router
import MuServer.ServerCallbacks
import MuServer.ServerDescriptors
import MuServer.ServerIsolation
import MuServer.StaleBytes
import MuServer.TcpConnection
import MuServer.TcpServer
import MuServer.TcpServerInvariant
import MuServer.TcpServerRuns
import MuServer.TimeStamp
import MuServer.TimerQueue
import MuServer.TimerQueueArmed
import MuServer.TimerQueueKeys
import MuServer.TimerQueueLedger
import MuServer.TimerQueueRuns
import MuServer.WriteCallbacks
import MuServer.WriteLoop
