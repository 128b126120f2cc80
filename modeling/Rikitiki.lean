import Rikitiki.Incoming.Message
import Rikitiki.Parsing.Loop
import Rikitiki.Incoming.Transition
import Rikitiki.Incoming.Run
import Rikitiki.Incoming.Completion
import Rikitiki.Incoming.Framing
import Rikitiki.Incoming.BodyCalls
import Rikitiki.Incoming.Stream
import Rikitiki.Incoming.HandOver
import Rikitiki.Incoming.Fragments
import Rikitiki.Incoming.Head
import Rikitiki.Incoming.KnownSize
import Rikitiki.Incoming.Chunked
import Rikitiki.Library.Machine
import Rikitiki.Outgoing.Message
import Rikitiki.Outgoing.Draft
import Rikitiki.Outgoing.Done
import Rikitiki.RoundTrip
import Rikitiki.Outgoing.Backends
import Rikitiki.Server.ConnContext
import Rikitiki.Server.Exceptions
import Rikitiki.Incoming.CloseDelimited
import Rikitiki.Library.Endian
import Rikitiki.Library.WebsocketFrames
import Rikitiki.Websocket.Write
import Rikitiki.Websocket.Receive
import Rikitiki.Websocket.Registry
import Rikitiki.Routing.Scan
import Rikitiki.Library.Paths
import Rikitiki.Server.Dispatch
import Rikitiki.Server.StaticContent
import Rikitiki.Server.Declined
import Rikitiki.Incoming.OnePiece
import Rikitiki.Incoming.HeaderCase
import Rikitiki.Incoming.HeadLines
import Rikitiki.HeaderInjection
import Rikitiki.Library.ChunkedCoding
import Rikitiki.Outgoing.Framed
import Rikitiki.Outgoing.Atomic
import Rikitiki.Server.Outputs
import Rikitiki.Routing.Arguments
import Rikitiki.Library.Params
import Rikitiki.Query.Scan
import Rikitiki.Query.Laws
import Rikitiki.Query.Provenance
import Rikitiki.Query.Form
import Rikitiki.TextForm
import Rikitiki.Library.Separated
import Rikitiki.Http.HeaderList
import Rikitiki.Outgoing.Cookies
import Rikitiki.Library.Multimap
import Rikitiki.Query.Post
import Rikitiki.Base.Numbers
import Rikitiki.Http.StatusLine
import Rikitiki.Http.Accessors
import Rikitiki.Http.ContentLength
import Rikitiki.Http.RequestLine
import Rikitiki.Http.TypeTable
import Rikitiki.Server.MimeTypes
import Rikitiki.Websocket.Closing
import Rikitiki.Websocket.FrameBuffer
import Rikitiki.Websocket.Messages
import Rikitiki.Websocket.Accounting
import Rikitiki.Websocket.RawWrite
import Rikitiki.Parsing.Memory
import Rikitiki.Incoming.Termination
import Rikitiki.Parsing.Conservation
import Rikitiki.Library.Templates
import Rikitiki.Configuration
import Rikitiki.Library.Shared
import Rikitiki.Server.Iis7
import Rikitiki.Server.Cef
import Rikitiki.Server.CefSteps
import Rikitiki.Server.CefHead
import Rikitiki.Server.CefBody
import Rikitiki.Server.CefCallback
import Rikitiki.Configuration.Document
import Rikitiki.Library.Search
import Rikitiki.Server.Mongoose
import Rikitiki.Server.CefRequest
import Rikitiki.Websocket.Delivery
import Rikitiki.Client.EventLoop
import Rikitiki.Http.Buffered
import Rikitiki.Routing.Typed
import Rikitiki.Client.Sockets
import Rikitiki.Json.Reflected
