import Balancer.Theory.BlockStream
import Balancer.Theory.Interaction
import Balancer.Theory.HttpMessage
import Balancer.Theory.ChunkedCoding
import Balancer.Theory.Runs
import Balancer.Theory.Objects
import Balancer.Theory.Paths
import Balancer.Theory.LowestFirst
import Balancer.Theory.Rounding
import Balancer.Theory.Ring
import Balancer.Theory.WindowMean
import Balancer.Theory.HighestCredit
import Balancer.Theory.Walk
import Balancer.Theory.Framing
import Balancer.Theory.LengthPrefix
import Balancer.Theory.Transducer
import Balancer.Theory.Fallible
import Balancer.Theory.FirstHighest
import Balancer.Theory.RepeatedSquaring
import Balancer.Theory.LinkedRing
import Balancer.Theory.LinkedTree
import Balancer.Util.Green
import Balancer.Util.Listen
import Balancer.Util.Wait
import Balancer.Util.Stream
import Balancer.Util.AvlTree
import Balancer.Util.AvlTreeLinks
import Balancer.Util.Poller
import Balancer.Util.RbTree
import Balancer.Util.RbTreeLinks
import Balancer.Util.Duration
import Balancer.Util.Cast
import Balancer.Util.Codecs
import Balancer.Util.IntrusiveList
import Balancer.Kernel.Chunks
import Balancer.Kernel.IoBase
import Balancer.Kernel.Iterator
import Balancer.Kernel.HttpFsm
import Balancer.Kernel.Http
import Balancer.Kernel.Headers
import Balancer.Kernel.Queue
import Balancer.Kernel.Socket
import Balancer.Kernel.Main
import Balancer.Kernel.Alloc
import Balancer.Kernel.Regexp
import Balancer.Kernel.ChunkString
import Balancer.Modules.Balancer.Module
import Balancer.Modules.Balancer.Iterator
import Balancer.Modules.Balancer.Servers
import Balancer.Modules.Balancer.RRobin
import Balancer.Modules.Balancer.SmartRR
import Balancer.Modules.Balancer.Average
import Balancer.Modules.Balancer.Weighted2
import Balancer.Modules.Balancer.Draw
import Balancer.Modules.Balancer.Fair
import Balancer.Modules.Balancer.PidGroup
import Balancer.Modules.Balancer.Robust
import Balancer.Modules.Http.Encoder
import Balancer.Modules.Http.Module
import Balancer.Modules.Proxy.Module
import Balancer.Modules.Proxy.Proxy
import Balancer.Modules.Spdy.Frames
import Balancer.Modules.Spdy.Module
import Balancer.Modules.Spdy.Reply
import Balancer.Modules.Spdy.Output
import Balancer.Modules.Static.Module
import Balancer.Modules.Spdy.Inflate
import Balancer.Modules.Headers.Module
import Balancer.Modules.Balancer.Arbiter
import Balancer.Modules.Pinger.Module
import Balancer.Modules.Regexp.Module
import Balancer.Verify.RequestParser
import Balancer.Verify.Retry
import Balancer.Verify.SocketOut
import Balancer.Verify.Senders
import Balancer.Verify.Heads
import Balancer.Verify.Inputs
import Balancer.Verify.Requests
import Balancer.Verify.Encoder
import Balancer.Verify.Relay
import Balancer.Verify.Pipeline
import Balancer.Verify.Responses
import Balancer.Verify.Join
import Balancer.Verify.Streams
import Balancer.Verify.HeadersBlock
import Balancer.Verify.Connections
import Balancer.Verify.Descriptors
import Balancer.Verify.Limit
import Balancer.Verify.Rebuild
import Balancer.Verify.Frames
import Balancer.Verify.Replies
import Balancer.Verify.Queue
import Balancer.Verify.Static
import Balancer.Verify.Listen
import Balancer.Verify.Deadlines
import Balancer.Verify.Sends
import Balancer.Verify.Iterator
import Balancer.Verify.PollEvents
import Balancer.Verify.Properties
import Balancer.Verify.SizeLines
import Balancer.Verify.Attempts
import Balancer.Verify.RoundRobin
import Balancer.Verify.SmartRoundRobin
import Balancer.Verify.Trackers
import Balancer.Verify.Weighted
import Balancer.Verify.Draws
import Balancer.Verify.FrameWords
import Balancer.Verify.Multiplex
import Balancer.Verify.SavedHeaders
import Balancer.Verify.Inflate
import Balancer.Verify.Pollers
import Balancer.Verify.WaitQueue
import Balancer.Verify.RequestId
import Balancer.Verify.HeaderBuffer
import Balancer.Verify.Pinger
import Balancer.Verify.StaticFile
import Balancer.Verify.Regexp
import Balancer.Verify.Duration
import Balancer.Verify.Cast
import Balancer.Verify.ChunkString
import Balancer.Verify.IntrusiveList
import Balancer.Verify.RbTreeLinks
import Balancer.Verify.RbTreeState
import Balancer.Verify.RbTreeRuns
import Balancer.Verify.AvlTreeLinks
import Balancer.Verify.AvlTreeState
import Balancer.Verify.AvlTreeRuns
import Balancer.Verify.Codecs
import Balancer.Verify.Availability
import Balancer.Verify.Scheduler
import Balancer.Verify.WeightedRuns
