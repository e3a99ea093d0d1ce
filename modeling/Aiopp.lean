import Aiopp.Foundations.ProbeTable
import Aiopp.Foundations.Transition
import Aiopp.Foundations.PartialChain
import Aiopp.Foundations.DirectStyle
import Aiopp.Foundations.RawStorage
import Aiopp.CompleterMap
import Aiopp.MapHistory
import Aiopp.IoURing
import Aiopp.IoQueue
import Aiopp.Registration
import Aiopp.Conservation
import Aiopp.Dispatch
import Aiopp.Cancellation
import Aiopp.Capacity
import Aiopp.LateAwait
import Aiopp.MpscQueue
import Aiopp.MpscChain
import Aiopp.MpscConsumer
import Aiopp.MpscProducer
import Aiopp.MpscOrder
import Aiopp.Wait
import Aiopp.WaitAll
import Aiopp.WaitAny
import Aiopp.Future
import Aiopp.Coroutine
import Aiopp.CoroutineFrames
import Aiopp.CoroutineHistory
import Aiopp.CoroutineStanding
import Aiopp.CoroutineRuns
import Aiopp.DirectExecution
import Aiopp.ThreadPool
import Aiopp.ThreadPoolQueue
import Aiopp.ThreadPoolWakeup
import Aiopp.Submit
import Aiopp.SubmitHistory
import Aiopp.SubmitFuture
import Aiopp.Channel
import Aiopp.ChannelTokens
import Aiopp.LinkedTimeout
import Aiopp.Handles
import Aiopp.TaskAwaits
import Aiopp.Fd
import Aiopp.FutureWait
import Aiopp.MpscQuiet
import Aiopp.MpscLifetime
import Aiopp.MpscEarlyExit
import Aiopp.FullRing
import Aiopp.WaitRounds
import Aiopp.VectorMap
import Aiopp.VectorMapLifetime
import Aiopp.VectorMapContent
import Aiopp.SlotMap
import Aiopp.SlotReserve
import Aiopp.OperationIds
import Aiopp.ProbeReach
import Aiopp.Foundations.Decimal
import Aiopp.Socket
import Aiopp.SocketText
import Aiopp.Timespec
import Aiopp.Encoders
import Aiopp.Foundations.ByteLayout
import Aiopp.SqRing
import Aiopp.Transfer
import Aiopp.Foundations.CircularBuffer
import Aiopp.MappedQueue
import Aiopp.Drain
import Aiopp.Foundations.UniquePointer
import Aiopp.Function
import Aiopp.TaskOwnership
import Aiopp.CoroutineDestruction
import Aiopp.CompleterLifetime
import Aiopp.CoroutineMemory
import Aiopp.CoroutineTasks
import Aiopp.CoroutineTermination
import Aiopp.ThreadPoolShutdown
import Aiopp.ThreadPoolProgress
import Aiopp.SubmitShutdown
import Aiopp.MpscHeap
import Aiopp.SubmitCounter
import Aiopp.SubmitWakeup
import Aiopp.SubmitProgress
import Aiopp.WrapAsTask
import Aiopp.WrapAsTaskReturns
import Aiopp.WrapAsTaskProgress
