import BackendTasks.Sched.Lts
import BackendTasks.Sched.Monitor
import BackendTasks.Sched.Potential
import BackendTasks.Sched.Fifo
import BackendTasks.Spec.LockFreeQueue
import BackendTasks.Proof.LockFreeStep
import BackendTasks.Proof.LockFreeNodes
import BackendTasks.Proof.LockFreeReclaim
import BackendTasks.Proof.LockFreeTail
import BackendTasks.Proof.LockFreeAba
import BackendTasks.Proof.LockFreeFifo
import BackendTasks.Proof.BlockingStep
import BackendTasks.Proof.BlockingFifo
import BackendTasks.Proof.BlockingStop
import BackendTasks.Proof.BlockingNotify
import BackendTasks.Spec.ThreadPool
import BackendTasks.Proof.PoolStep
import BackendTasks.Proof.PoolDrain
import BackendTasks.Proof.PoolTasks
import BackendTasks.Proof.PoolNotify
import BackendTasks.Cache.Recency
import BackendTasks.Proof.LruStripe
import BackendTasks.Proof.LruHistory
import BackendTasks.Proof.LruSize
import BackendTasks.Net.Bytes
import BackendTasks.Net.Frame
import BackendTasks.Net.Text
import BackendTasks.Spec.WebSocketServer
import BackendTasks.Proof.WsDecode
import BackendTasks.Proof.WsStream
import BackendTasks.Proof.WsBroadcast
import BackendTasks.Proof.WsMembers
import BackendTasks.Net.Http
import BackendTasks.Spec.HttpServer
import BackendTasks.Proof.HttpParse
import BackendTasks.Proof.HttpStream
import BackendTasks.Spec.AsyncKafkaConsumer
import BackendTasks.Spec.AsyncKafkaProducer
import BackendTasks.Proof.KafkaConsumer
import BackendTasks.Proof.KafkaProducer
import BackendTasks.Proof.HttpCut
import BackendTasks.Sched.Serial
import BackendTasks.Sched.SharedMutex
import BackendTasks.Spec.StripedUm
import BackendTasks.Proof.StripedMap
import BackendTasks.Proof.StripedOwned
import BackendTasks.Net.Message
import BackendTasks.Proof.WsBounds
import BackendTasks.Proof.WsMessages
import BackendTasks.Net.Head
import BackendTasks.Proof.HttpBody
import BackendTasks.Proof.WsHandshake
import BackendTasks.Proof.RedisRoundTrip
import BackendTasks.Spec.UserManager
import BackendTasks.Proof.UsersTable
import BackendTasks.Proof.RegisterRace
import BackendTasks.Net.Response
import BackendTasks.Proof.HttpResponse
import BackendTasks.Proof.HttpClose
import BackendTasks.Net.Recase
import BackendTasks.Proof.HttpCase
import BackendTasks.Proof.HttpBlank
import BackendTasks.Proof.RedisAck
import BackendTasks.Proof.RedisSessions
import BackendTasks.Sql.Like
import BackendTasks.Proof.UsersSearch
import BackendTasks.Proof.UsersPages
import BackendTasks.Proof.UsersAges
import BackendTasks.Proof.LockFreeAlone
import BackendTasks.Sched.Trace
import BackendTasks.Proof.LockFreeWork
import BackendTasks.Proof.BlockingProgress
import BackendTasks.Proof.PoolProgress
import BackendTasks.Cache.Inclusion
import BackendTasks.Proof.LruInclusion
import BackendTasks.Proof.LoggerStep
import BackendTasks.Proof.LoggerOutput
import BackendTasks.Proof.UsersDirectory
import BackendTasks.Spec.HttpExchange
import BackendTasks.Proof.HttpThreads
import BackendTasks.Proof.HttpConns
import BackendTasks.Proof.HttpExchange
import BackendTasks.Proof.HttpProgress
import BackendTasks.Net.Delimited
import BackendTasks.Proof.WsClients
import BackendTasks.Proof.HttpReplies
import BackendTasks.Proof.ProducerProgress
import BackendTasks.Proof.ConsumerProgress
import BackendTasks.Proof.RedisHistory
import BackendTasks.Proof.EchoServer
import BackendTasks.Proof.EchoProgress
import BackendTasks.Proof.LruLocks
import BackendTasks.Proof.LruProgress
