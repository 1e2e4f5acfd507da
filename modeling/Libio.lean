import Libio.Foundation.Numerals
import Libio.Foundation.Transition
import Libio.Foundation.Incremental
import Libio.Foundation.Block
import Libio.Foundation.Loops
import Libio.Foundation.Families
import Libio.Foundation.Monitor
import Libio.Foundation.Dealing
import Libio.Foundation.Pacing
import Libio.Core.Lock
import Libio.Core.LockQueue
import Libio.Core.ThreadPool
import Libio.Core.PoolStop
import Libio.Core.PoolRest
import Libio.Core.PoolTasks
import Libio.Core.PoolResize
import Libio.Core.Text
import Libio.Core.Numbers
import Libio.Core.PercentCode
import Libio.Core.HtmlEscape
import Libio.Core.Buffer
import Libio.Core.ByteQueue
import Libio.Core.BufferRefinement
import Libio.Core.BufferSystem
import Libio.Core.BufferGrowth
import Libio.Core.BufferRoom
import Libio.Core.BufferFind
import Libio.Core.BufferLines
import Libio.Core.Time
import Libio.Core.Timers
import Libio.Core.TimerProcess
import Libio.Core.TimerSchedule
import Libio.Core.TimerSteps
import Libio.Core.TimerTables
import Libio.Core.TimerDeadline
import Libio.Core.TimerWalk
import Libio.Core.TimerIds
import Libio.Core.TimerPeriod
import Libio.Http.Request
import Libio.Http.Parse
import Libio.Http.ParseFrame
import Libio.Http.NumericFields
import Libio.Http.Numeric
import Libio.Http.ParserLoops
import Libio.Http.BodyRoom
import Libio.Http.Field
import Libio.Http.Folding
import Libio.Http.Steps
import Libio.Core.Signals
import Libio.Core.Epoll
import Libio.Foundation.Component
import Libio.Foundation.Entries
import Libio.Core.IoMultiplex
import Libio.Core.Select
import Libio.Core.SelectGrowth
import Libio.Core.Poll
import Libio.Core.EpollWait
import Libio.Core.Multiplexers
import Libio.Model.Reactor
import Libio.Model.ReactorLoop
import Libio.Model.Proactor
import Libio.Model.ProactorWait
import Libio.Model.ProactorRest
import Libio.Model.ProactorHold
import Libio.Model.ProcessLoop
import Libio.Model.WorkerExits
import Libio.Model.Shutdown
import Libio.Model.LoopWait
import Libio.Model.Punctual
import Libio.Model.ThreadLoop
import Libio.Sample.Bench
import Libio.Sample.Webserver
import Libio.Http.Connection
import Libio.Http.ChunkedTransfer
import Libio.Http.Replies
import Libio.Http.Routing
import Libio.Http.Effects
import Libio.Http.WakeUp
import Libio.Http.RoundRobin
import Libio.Http.Thread
import Libio.Http.Wiring
import Libio.Http.ObjectPool
import Libio.Http.Isolation
import Libio.Http.Delivery
import Libio.Http.MultithreadServer
import Libio.Http.Interest
import Libio.Http.Message
import Libio.Http.Framing
import Libio.Http.Fragmentation
import Libio.Http.HeaderCase
import Libio.Http.Pipeline
import Libio.Http.Responses
import Libio.Http.Exchange
import Libio.Http.Paths
import Libio.Http.Closing
import Libio.Http.Serving
import Libio.Http.Termination
import Libio.Http.Returning
import Libio.Http.SelfClosing
