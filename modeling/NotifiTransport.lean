import NotifiTransport.Lib.Mealy
import NotifiTransport.Lib.Past
import NotifiTransport.Lib.Padding
import NotifiTransport.Lib.Credits
import NotifiTransport.Lib.Turns
import NotifiTransport.Lib.Trim
import NotifiTransport.Lib.Channel
import NotifiTransport.Lib.Merge
import NotifiTransport.Lib.Watchdog
import NotifiTransport.Lib.Duplex
import NotifiTransport.Lib.Visits
import NotifiTransport.Lib.Socket
import NotifiTransport.Lib.Rounding
import NotifiTransport.Lib.Bytes
import NotifiTransport.Lib.Varint
import NotifiTransport.Lib.Utf8
import NotifiTransport.Lib.Lines
import NotifiTransport.Lib.Utf8Cuts
import NotifiTransport.Core.Duration
import NotifiTransport.Core.Error
import NotifiTransport.Core.State
import NotifiTransport.Frame.Basic
import NotifiTransport.Frame.Postcard
import NotifiTransport.Frame.Accumulator
import NotifiTransport.Frame.Reassembly
import NotifiTransport.Frame.Recovery
import NotifiTransport.Frame.Prefix
import NotifiTransport.Crypto.Session
import NotifiTransport.Crypto.Channel
import NotifiTransport.Crypto.Pattern
import NotifiTransport.Crypto.Ideal
import NotifiTransport.Crypto.RoundTrip
import NotifiTransport.Crypto.FailStop
import NotifiTransport.Crypto.Exchange
import NotifiTransport.Frame.Transfer
import NotifiTransport.Frame.Delivery
import NotifiTransport.Frame.Receiver
import NotifiTransport.Scheduler.Wfq
import NotifiTransport.Frame.Sealed
import NotifiTransport.Scheduler.Fairness
import NotifiTransport.Scheduler.Order
import NotifiTransport.Scheduler.Starvation
import NotifiTransport.Client.Backoff
import NotifiTransport.Client.Config
import NotifiTransport.Client.Events
import NotifiTransport.Client.MessageLoop
import NotifiTransport.Client.Handshake
import NotifiTransport.Client.Connection
import NotifiTransport.Client.Drained
import NotifiTransport.Client.Disconnects
import NotifiTransport.Client.Steps
import NotifiTransport.Client.Attempts
import NotifiTransport.Client.PinnedKey
import NotifiTransport.Client.Inbound
import NotifiTransport.Client.Online
import NotifiTransport.Client.NewPayload
import NotifiTransport.Client.Outage
import NotifiTransport.Client.WsClient
import NotifiTransport.Client.Shared
import NotifiTransport.Client.Requests
import NotifiTransport.Client.RequestIds
import NotifiTransport.Client.LoopRun
import NotifiTransport.Client.Endpoint
import NotifiTransport.Client.StaleCommands
import NotifiTransport.Client.EndedRequests
import NotifiTransport.Client.TakenRequests
import NotifiTransport.Client.AutoReconnect
import NotifiTransport.Client.Leftovers
import NotifiTransport.Client.FailedRequests
import NotifiTransport.Client.BackoffWait
import NotifiTransport.Client.Reconnect
import NotifiTransport.Client.OwnCommands
import NotifiTransport.Client.Rejected
import NotifiTransport.Client.Shutdown
import NotifiTransport.Client.Outstanding
import NotifiTransport.Client.Returns
import NotifiTransport.Client.ShownState
import NotifiTransport.Client.AuthReply
import NotifiTransport.Client.Transcript
import NotifiTransport.Client.Conversation
import NotifiTransport.Client.Flow
import NotifiTransport.Client.Calls
import NotifiTransport.Client.Connections
import NotifiTransport.Client.Heartbeat
import NotifiTransport.Client.Lifecycle
import NotifiTransport.Server.Session
import NotifiTransport.Server.Heartbeat
import NotifiTransport.Server.Inbound
import NotifiTransport.Server.Conversation
import NotifiTransport.System.Link
import NotifiTransport.Server.Drain
import NotifiTransport.Server.Accept
import NotifiTransport.Server.ControlFrames
import NotifiTransport.Server.Handle
import NotifiTransport.Server.Orphans
import NotifiTransport.Server.Priorities
import NotifiTransport.Server.Backlog
import NotifiTransport.Server.Calls
import NotifiTransport.System.Calls
import NotifiTransport.System.Lifetime
import NotifiTransport.Server.Versions
import NotifiTransport.System.Handshake
import NotifiTransport.System.Speaker
import NotifiTransport.System.Sides
import NotifiTransport.System.Reliable
import NotifiTransport.Server.Hello
import NotifiTransport.Http.Sse
import NotifiTransport.Http.SseRoundTrip
import NotifiTransport.Http.SseLine
import NotifiTransport.Http.SseBlocks
import NotifiTransport.Http.SseCuts
import NotifiTransport.Http.Emitter
import NotifiTransport.Http.Transport
import NotifiTransport.Http.Subscription
