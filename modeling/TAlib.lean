import TAlib.Foundation.Runs
import TAlib.Foundation.MachineInt
import TAlib.Foundation.ByteSearch
import TAlib.Common.Outcome
import TAlib.Common.Buffer
import TAlib.Common.BufferRefinement
import TAlib.Foundation.OrderedMap
import TAlib.Http.HttpRequest
import TAlib.Http.HttpContext
import TAlib.Http.ParseBytes
import TAlib.Http.Incremental
import TAlib.Http.Chunks
import TAlib.Http.RequestText
import TAlib.Http.HttpServer
import TAlib.Http.Session
import TAlib.Http.Pipelining
import TAlib.Http.RefusedLine
import TAlib.Http.MethodAssert
import TAlib.Reactor.Channel
import TAlib.Socket.Epoll
import TAlib.Tcp.OutputStream
import TAlib.Tcp.Established
import TAlib.Tcp.InterestSet
import TAlib.Tcp.PendingOutput
import TAlib.Reactor.EventLoop
import TAlib.Tcp.TcpServer
import TAlib.Tcp.TeardownSteps
import TAlib.Tcp.Teardown
import TAlib.Cache.LFUCache
import TAlib.Cache.KeyLists
import TAlib.Cache.Buckets
import TAlib.Cache.Promotion
import TAlib.Cache.CacheState
import TAlib.Cache.OneEntry
import TAlib.Foundation.LeastFrequent
import TAlib.Cache.Refinement
import TAlib.Redis.Command
import TAlib.Redis.Reply
import TAlib.Redis.SplitReply
import TAlib.Logger.AsyncLogging
import TAlib.Logger.Conservation
import TAlib.Logger.Shutdown
import TAlib.Reactor.TaskQueue
import TAlib.Reactor.Wakeup
import TAlib.Foundation.OrderedSet
import TAlib.Reactor.TimerQueue
import TAlib.Reactor.TimerRuns
import TAlib.Reactor.TimerSets
import TAlib.Reactor.TimerExpiry
import TAlib.Reactor.TimerCancel
import TAlib.Redis.Cursor
import TAlib.Redis.ParseBounds
import TAlib.Redis.RoundTrip
import TAlib.Redis.NilElements
import TAlib.Tcp.HalfClose
import TAlib.Tcp.CrossThread
import TAlib.Http.Framing
import TAlib.Reactor.LoopThread
import TAlib.Redis.Lending
import TAlib.Redis.PoolLimit
import TAlib.Redis.ConnectPool
import TAlib.Redis.GraspReturns
import TAlib.Reactor.Poll
import TAlib.Reactor.PollerAgreement
import TAlib.Reactor.TimerFiring
import TAlib.Reactor.TimerArming
import TAlib.Redis.BufferTail
import TAlib.Redis.Pairing
import TAlib.Reactor.EventDispatch
import TAlib.Reactor.PollIndices
import TAlib.Http.HeaderBlock
import TAlib.Http.RequestLineGrammar
import TAlib.Http.ParseLoop
import TAlib.Cache.Freshness
import TAlib.Cache.Structure
import TAlib.Foundation.Disk
import TAlib.Logger.LogFile
import TAlib.Logger.LogRolling
import TAlib.Redis.SlotIndex
import TAlib.Logger.LogStream
import TAlib.Logger.LogRecord
import TAlib.Foundation.Calendar
import TAlib.Logger.LogTime
import TAlib.Foundation.Ownership
import TAlib.MySQL.Exclusivity
import TAlib.MySQL.Query
import TAlib.Common.BufferGrowth
import TAlib.Foundation.IntegerType
import TAlib.Foundation.Numeral
import TAlib.Logger.NumberText
import TAlib.Http.HttpConnection
import TAlib.Http.Conversation
import TAlib.Foundation.Descriptors
import TAlib.Reactor.Acceptor
import TAlib.Foundation.SelfDelimiting
import TAlib.Redis.Transport
import TAlib.Redis.RedisCache
import TAlib.Tcp.Quiescence
import TAlib.Http.StaticServer
import TAlib.Cache.NodeLifetime
import TAlib.Reactor.PollDispatch
import TAlib.Logger.LogOnDisk
import TAlib.Reactor.ThreadPool
import TAlib.Reactor.LoopQuit
import TAlib.MySQL.Queries
