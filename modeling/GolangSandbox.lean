import GolangSandbox.Analysis.DecodeEncode
import GolangSandbox.Analysis.LineIndependence
import GolangSandbox.Analysis.BroadcastOnce
import GolangSandbox.Analysis.DisturbedBroadcast
import GolangSandbox.Program.ChatRoom
import GolangSandbox.Analysis.RoomInvariant
import GolangSandbox.Analysis.NoInjection
import GolangSandbox.Analysis.FanOut
import GolangSandbox.Analysis.Delivery
import GolangSandbox.Analysis.Attribution
import GolangSandbox.Analysis.JobConservation
import GolangSandbox.Analysis.HandOff
import GolangSandbox.Analysis.Stopping
import GolangSandbox.Analysis.MessageOrder
import GolangSandbox.Model.Condition
import GolangSandbox.Analysis.LostWakeUp
import GolangSandbox.Program.SharedCond
import GolangSandbox.Analysis.DeadlockFreedom
import GolangSandbox.Analysis.LeftOver
import GolangSandbox.Analysis.QueueShutdown
import GolangSandbox.Program.CtxQueue
import GolangSandbox.Analysis.GracefulExit
import GolangSandbox.Program.SelectPool
import GolangSandbox.Analysis.PoolInvariant
import GolangSandbox.Analysis.ReadyClients
import GolangSandbox.Analysis.UnreadBytes
import GolangSandbox.Model.Blocks
import GolangSandbox.Analysis.ParallelSum
import GolangSandbox.Model.Path
import GolangSandbox.Program.TinyWeb
import GolangSandbox.Interface.Pieces
import GolangSandbox.Analysis.ServedTree
import GolangSandbox.Analysis.HeaderLoop
import GolangSandbox.Analysis.RequestLine
import GolangSandbox.Analysis.ErrorResponses
import GolangSandbox.Analysis.PartialRequests
import GolangSandbox.Analysis.ReceiveLoops
import GolangSandbox.Analysis.RejectedRequests
import GolangSandbox.Analysis.Backlog
import GolangSandbox.Analysis.DescriptorLimit
import GolangSandbox.Analysis.SumArguments
import GolangSandbox.Model.Mutex
import GolangSandbox.Program.EchoCount
import GolangSandbox.Analysis.EchoCount
import GolangSandbox.Model.Heap
import GolangSandbox.Program.EchoThreads
import GolangSandbox.Analysis.EchoThreads
import GolangSandbox.Program.ForkServer
import GolangSandbox.Analysis.SharedBuffer
import GolangSandbox.Analysis.ZombieChildren
import GolangSandbox.Analysis.FileType
import GolangSandbox.Analysis.Draining
import GolangSandbox.Analysis.Completion
import GolangSandbox.Analysis.Cancellation
import GolangSandbox.Analysis.QueueMain
import GolangSandbox.Analysis.FooOrder
import GolangSandbox.Analysis.Pipeline
import GolangSandbox.Analysis.Responses
import GolangSandbox.Model.Ring
import GolangSandbox.Program.PreServer
import GolangSandbox.Analysis.Connections
import GolangSandbox.Analysis.AllServed
import GolangSandbox.Analysis.History
import GolangSandbox.Analysis.EveryScreen
import GolangSandbox.Analysis.AllReaped
import GolangSandbox.Analysis.EpollEvents
import GolangSandbox.Program.Ticker
import GolangSandbox.Analysis.Commands
import GolangSandbox.Analysis.Interrupt
import GolangSandbox.Analysis.DirectMessage
import GolangSandbox.Analysis.SumsComplete
