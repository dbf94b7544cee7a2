import QjsNet.AsyncIterator
import QjsNet.AsyncIteratorProtocol
import QjsNet.BodyReader
import QjsNet.Broker
import QjsNet.Buffer
import QjsNet.BufferAlloc
import QjsNet.BufferPrintf
import QjsNet.ByteBuffer
import QjsNet.ClientClose
import QjsNet.ClientIterator
import QjsNet.ClientLines
import QjsNet.ClientMessages
import QjsNet.ClientReceive
import QjsNet.ClientUpload
import QjsNet.CloseFrame
import QjsNet.Deferred
import QjsNet.EventEmitter
import QjsNet.FormParser
import QjsNet.FunctionBind
import QjsNet.Generator
import QjsNet.GeneratorApi
import QjsNet.GeneratorBuffering
import QjsNet.GeneratorBytes
import QjsNet.GeneratorCallbacks
import QjsNet.GeneratorChunks
import QjsNet.GeneratorClose
import QjsNet.GeneratorContinuous
import QjsNet.GeneratorEndings
import QjsNet.GeneratorFifo
import QjsNet.GeneratorLedger
import QjsNet.GeneratorMoves
import QjsNet.GeneratorPush
import QjsNet.GeneratorReentry
import QjsNet.GeneratorRun
import QjsNet.GeneratorSafety
import QjsNet.GeneratorSizes
import QjsNet.GeneratorThrow
import QjsNet.GeneratorTiming
import QjsNet.HashPrint
import QjsNet.HeaderAppend
import QjsNet.HeaderBlock
import QjsNet.HeaderIndex
import QjsNet.HeaderLookup
import QjsNet.HeaderMap
import QjsNet.HeaderParse
import QjsNet.Headers
import QjsNet.HeadersObject
import QjsNet.HeadersWrite
import QjsNet.HttpEvent
import QjsNet.HttpExchange
import QjsNet.HttpSends
import QjsNet.HttpSession
import QjsNet.HttpStall
import QjsNet.HttpWire
import QjsNet.InputBytes
import QjsNet.JSObject
import QjsNet.JSValue
import QjsNet.Lib.Entries
import QjsNet.Lib.Framing
import QjsNet.Lib.Ledger
import QjsNet.Lib.Lines
import QjsNet.Lib.Marks
import QjsNet.Lib.Matching
import QjsNet.Lib.MaximalRuns
import QjsNet.Lib.Memory
import QjsNet.Lib.PartialRun
import QjsNet.Lib.Pieces
import QjsNet.Lib.SharedLog
import QjsNet.Lib.Strides
import QjsNet.Lib.Transfer
import QjsNet.LwsRing
import QjsNet.Mounts
import QjsNet.PollBridge
import QjsNet.PollSet
import QjsNet.Query
import QjsNet.Queue
import QjsNet.QueueLines
import QjsNet.QueueRead
import QjsNet.QueueStream
import QjsNet.RequestBody
import QjsNet.ResponseBody
import QjsNet.Rpc
import QjsNet.RpcSerialize
import QjsNet.RpcServer
import QjsNet.RpcSocket
import QjsNet.RpcSystem
import QjsNet.SendWakeup
import QjsNet.ServerMatch
import QjsNet.Session
import QjsNet.SocketLink
import QjsNet.Url
import QjsNet.UrlBounds
import QjsNet.UrlObject
import QjsNet.UrlPath
import QjsNet.UrlPrint
import QjsNet.Utils
import QjsNet.WebSocket
