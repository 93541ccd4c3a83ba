import CModel.Foundation.Bytes
import CModel.Foundation.Outcome
import CModel.Foundation.Overwrite
import CModel.Foundation.Search
import CModel.Foundation.CString
import CModel.Foundation.Numerals
import CModel.Foundation.Lines
import CModel.Foundation.Feed
import CModel.Foundation.Heap
import CModel.HttpCodec.Func
import CModel.HttpCodec.Head
import CModel.HttpCodec.Req
import CModel.HttpCodec.ReqMemory
import CModel.HttpCodec.HeadLines
import CModel.HttpCodec.ReqSteps
import CModel.HttpCodec.ReqRun
import CModel.HttpCodec.RequestLine
import CModel.HttpCodec.Request
import CModel.HttpCodec.LineRest
import CModel.HttpCodec.LineSettled
import CModel.HttpCodec.UriParts
import CModel.HttpCodec.LineAccepted
import CModel.HttpCodec.EscapeErrors
import CModel.HttpCodec.UrlDecode
import CModel.HttpCodec.HeadStops
import CModel.HttpCodec.HeadChunks
import CModel.HttpCodec.Chunks
import CModel.HttpCodec.BodyPointer
import CModel.HttpCodec.HeadOutput
import CModel.HttpCodec.OutputBounds
import CModel.HttpCodec.Rsp
import CModel.HttpCodec.ServerCodec
import CModel.HttpCodec.HeadValues
import CModel.HttpCodec.Complete
import CModel.HttpCodec.CompleteRange
import CModel.HttpCodec.Messages
import CModel.HttpCodec.Pipelining
import CModel.HttpCodec.FramingAgree
import CModel.HttpCodec.BackProto
import CModel.HttpCodec.BufferCount
import CModel.Foundation.Segments
import CModel.HttpCodec.ArgPairs
import CModel.HttpCodec.QueryArgs
import CModel.HttpCodec.QueryRoundTrip
import CModel.HttpCodec.Util
import CModel.HttpCodec.UtilParams
import CModel.HttpCodec.ParamPairs
import CModel.HttpCodec.UtilHead
import CModel.HttpCodec.FirstLine
import CModel.HttpCodec.LengthRange
import CModel.HttpCodec.MakerParser
import CModel.HttpCodec.MakerBounds
import CModel.HttpCodec.ResponseMaker
import CModel.HttpCodec.FieldWalk
import CModel.HttpCodec.MatchReads
import CModel.HttpCodec.TempZeros
import CModel.Foundation.Store
import CModel.Foundation.Links
import CModel.Foundation.BinaryHeap
import CModel.Foundation.Checked
import CModel.RadixTree.Tree
import CModel.RadixTree.Insert
import CModel.RadixTree.Delete
import CModel.RadixTree.GangLookup
import CModel.RadixTree.Capacity
import CModel.RadixTree.Counts
import CModel.Timers.TimeWheel
import CModel.Timers.Handles
import CModel.Timers.WheelLists
import CModel.Timers.WheelCountdown
import CModel.Timers.WheelCallbacks
import CModel.Timers.WheelReentry
import CModel.Timers.WheelFacade
import CModel.Timers.WheelTables
import CModel.Timers.TimeHeap
import CModel.Timers.HeapOrder
import CModel.Timers.HeapBuild
import CModel.Timers.HeapRuns
import CModel.Timers.HeapCallbacks
import CModel.Timers.HeapFacade
import CModel.Timers.HeapRoom
import CModel.Foundation.Chain
import CModel.Foundation.System
import CModel.Foundation.Ring
import CModel.Foundation.Rotation
import CModel.Foundation.Refill
import CModel.ThreadPool.Pool
import CModel.ThreadPool.Queue
import CModel.ThreadPool.Delivery
import CModel.ThreadPool.Steps
import CModel.ThreadPool.WakeUps
import CModel.ThreadPool.TearDown
import CModel.RingPool.Pool
import CModel.RingPool.Fifo
import CModel.RingPool.Limit
import CModel.RingPool.Threads
import CModel.RingPool.Stopping
import CModel.RingPool.Create
import CModel.SemaphorePool.Pool
import CModel.SemaphorePool.Counting
import CModel.SemaphorePool.Bound
import CModel.SemaphorePV.SemOpt
import CModel.ProcessTask.Process
import CModel.ProcessPool.Pool
import CModel.ProcessPool.HandOver
import CModel.ProcessPool.RoundRobin
import CModel.ProcessPool.CgiConn
import CModel.MultProcess.Context
import CModel.MultProcess.FreeList
import CModel.MultProcess.Handlers
import CModel.MultProcess.HandlerSteps
import CModel.MultProcess.Relay
import CModel.MultProcess.Worker
import CModel.MultProcess.Ledger
import CModel.MultProcess.Sound
import CModel.MultProcess.ProxyStates
import CModel.MultProcess.WebPool
import CModel.MultProcess.Settings
import CModel.MultProcess.Options
import CModel.MultProcess.BackEnds
import CModel.MultProcess.Statistics
import CModel.Foundation.RedBlack
import CModel.Foundation.Pieces
import CModel.RbTree.Rbtree
import CModel.RbTree.Shape
import CModel.RbTree.InsertColor
import CModel.RbTree.EraseColor
import CModel.RbTree.Erase
import CModel.RbTree.Walk
import CModel.RbTree.ExRbtree
import CModel.RbTree.Locate
import CModel.RbTree.IdSet
import CModel.Foundation.Assoc
import CModel.Foundation.CStr
import CModel.Json.Value
import CModel.Json.Reader
import CModel.Json.Writer
import CModel.Json.Grammar
import CModel.Json.Placed
import CModel.Json.Complete
import CModel.Json.Written
import CModel.Json.Styled
import CModel.Json.RoundTrip
import CModel.Json.Arrays
import CModel.HttpCodec.FileAnswers
