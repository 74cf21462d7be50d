import Libuo.CMemory
import Libuo.SextetCodec
import Libuo.Base64
import Libuo.Base64RoundTrip
import Libuo.Buffers
import Libuo.Json
import Libuo.JsonGrammar
import Libuo.JsonMembers
import Libuo.TcpConn
import Libuo.TcpFraming
import Libuo.Base64Url
import Libuo.BlockingQueue
import Libuo.CText
import Libuo.ConnChains
import Libuo.FileServer
import Libuo.FileServerLocks
import Libuo.HashTable
import Libuo.HashTableInvariant
import Libuo.HashTableMap
import Libuo.HttpChunks
import Libuo.HttpReqHandler
import Libuo.HttpReqMatch
import Libuo.HttpReqMissed
import Libuo.HttpRoundTrip
import Libuo.Jwt
import Libuo.JwtRoundTrip
import Libuo.QueueConservation
import Libuo.TcpServer
import Libuo.TcpServerCloses
import Libuo.CallbackComposition
import Libuo.FileServerPaths
import Libuo.HashTableRuns
import Libuo.HttpKeepAlive
import Libuo.HttpKeepAliveServes
import Libuo.Lifecycle
import Libuo.LinkPoolRuns
import Libuo.RefCount
import Libuo.RefCountRuns
import Libuo.StackRuns
import Libuo.BufferRuns
import Libuo.HttpBodyBytes
import Libuo.HttpContent
import Libuo.HttpRejected
import Libuo.HttpReqProcess
import Libuo.JsonPlaces
import Libuo.JsonScanSafety
import Libuo.ConnCallbacks
import Libuo.ConnIndex
import Libuo.ConnPrograms
import Libuo.ConnRefinement
import Libuo.HashTableCapacity
import Libuo.HashTableMemory
import Libuo.HttpReqData
import Libuo.JsonDecodeRejects
import Libuo.LinkPoolGrowth
import Libuo.LinkPoolQuits
import Libuo.ThreadPool
import Libuo.ThreadPoolBounds
import Libuo.ThreadPoolPause
import Libuo.ThreadPoolSupply
import Libuo.Base64InPlace
import Libuo.Base64Standard
import Libuo.JwtBounds
import Libuo.UriDecodeMemory
import Libuo.FileServerNames
import Libuo.Conf
import Libuo.BufferGrowth
import Libuo.JsonStrEnds
import Libuo.HttpReceive
import Libuo.HttpReceiveChunks
import Libuo.HttpDelivery
import Libuo.ByteStreams
import Libuo.ByteStreamRefinement
import Libuo.HttpConns
import Libuo.HttpAnswers
import Libuo.HttpExchange
import Libuo.HttpSession
import Libuo.FileServerContents
import Libuo.FileServerCoherence
import Libuo.HttpNoContent
import Libuo.HttpDownload
import Libuo.TcpMessages
import Libuo.TcpConversation
import Libuo.ConversationCallbacks
import Libuo.Prog
import Libuo.JsonLookup
import Libuo.JsonLookupMisses
