import DdsAuto.Lib.CInt
import DdsAuto.Lib.Memory
import DdsAuto.Lib.Framing
import DdsAuto.Asio.MsgNode
import DdsAuto.Asio.Reader
import DdsAuto.Asio.ReaderSound
import DdsAuto.Asio.Serve
import DdsAuto.Asio.IdHeader
import DdsAuto.Asio.HelloWorld
import DdsAuto.LogicServer.HandleRead
import DdsAuto.Lib.JsonCpp
import DdsAuto.Lib.Lts
import DdsAuto.Lib.Mutex
import DdsAuto.LogicSystem.Dispatch
import DdsAuto.LogicServer.DealMsg
import DdsAuto.LogicServer.Send
import DdsAuto.LogicSystem.DispatchSound
import DdsAuto.LogicSystem.Shutdown
import DdsAuto.CoroutineServer.Start
import DdsAuto.CoroutineServer.SendQueue
import DdsAuto.CoroutineServer.Lifetime
import DdsAuto.MsgJsonIDServer.HandleRead
import DdsAuto.MsgJsonIDServer.Encode
import DdsAuto.ThreadPoolServer.HandleRead
import DdsAuto.Lib.Words
import DdsAuto.Lib.Threads
import DdsAuto.Lib.Ring
import DdsAuto.Lib.Outgoing
import DdsAuto.IoContextPoolServer.Registry
import DdsAuto.AsyncServer03.Echo
import DdsAuto.Mutex.Prodcons6
import DdsAuto.MyPxsemMmap.Semaphore
import DdsAuto.MyPxsemMmap.Debris
import DdsAuto.MyPxsemMmap.Open
import DdsAuto.MyPxsemSvsem.Open
import DdsAuto.Pxshm.Ring
import DdsAuto.Pxsem.Mycat2
import DdsAuto.Pxsem.Prodcons4
import DdsAuto.Pipemesg.Mesg
import DdsAuto.Lib.Varint
import DdsAuto.Asio.Answer
import DdsAuto.AsyncServer02.Echo
import DdsAuto.Iooperation.Session
import DdsAuto.Iooperation.Pending
import DdsAuto.ProtobufServer.Message
import DdsAuto.ProtobufServer.Reply
import DdsAuto.ProtobufServer.HandleRead
import DdsAuto.Lib.LockOrder
import DdsAuto.Concurrent.HierarchicalMutex
import DdsAuto.Pxmsgque.Mqnotifysig3
import DdsAuto.Concurrent.ThreadPool
import DdsAuto.Concurrent.ThreadPoolTasks
import DdsAuto.Lib.MsgQueue
import DdsAuto.Lib.CString
import DdsAuto.Svmsg.Request
import DdsAuto.Svmsg.Server
import DdsAuto.Svmsg.Termination
import DdsAuto.Svmsgmpxnq.Server
import DdsAuto.Svmsgmpxnq.Delivery
import DdsAuto.Svmsgmpx1q.Processes
import DdsAuto.Svmsgmpx1q.SingleQueue
import DdsAuto.Svmsgmpx1q.Deadlock
import DdsAuto.Svmsgmpx1q.Mains
import DdsAuto.Lib.History
import DdsAuto.Concurrent.ThreadsafeQueue
import DdsAuto.Concurrent.ThreadsafeStack
import DdsAuto.UnixLib.Readline
import DdsAuto.Svmsgmpxnq.Fidelity
import DdsAuto.Lib.Blocks
import DdsAuto.Concurrent.ParallelAccumulate
import DdsAuto.Lib.Descent
import DdsAuto.Coroutine2.RecursiveDescent
import DdsAuto.Lib.Refinement
import DdsAuto.Pxmsgque.Notified
import DdsAuto.Pxmsgque.Mqnotifysig5
import DdsAuto.Pxmsgque.Mqnotifysig4
import DdsAuto.Pxmsgque.Mqnotifythread1
import DdsAuto.Pxmsgque.Mqnotifysig2
import DdsAuto.MyPxsemFifo.Semaphore
import DdsAuto.FifoCliServ.Answers
import DdsAuto.FifoCliServ.Printed
import DdsAuto.Concurrent.Swap
import DdsAuto.Concurrent.SwapDeadlock
import DdsAuto.AsyncServer04.Echo
import DdsAuto.Lib.Tickets
import DdsAuto.Lock.Lockmain
import DdsAuto.Interprocess.CondOnce
import DdsAuto.AsyncServer01.Sessions
import DdsAuto.Concurrent.PingPong
import DdsAuto.Fastdds.Publisher
