import SfRs.Lib.Machine
import SfRs.Lib.Outcome
import SfRs.Lib.RefCell
import SfRs.Lib.Async
import SfRs.Lib.Mpsc
import SfRs.Lib.Net
import SfRs.Lib.Ledger
import SfRs.Lib.Search
import SfRs.Lib.Sort
import SfRs.Lib.Text
import SfRs.Lib.Json
import SfRs.Lib.Serde
import SfRs.Lib.NetText
import SfRs.Lib.Url
import SfRs.PeerId.FromStr
import SfRs.PeerId.Random
import SfRs.PeerId.Display
import SfRs.PeerId.Binary
import SfRs.PeerId.Serde
import SfRs.PeerId.Text
import SfRs.PeerId.Truncation
import SfRs.PeerId.Entropy
import SfRs.PeerId.Canonical
import SfRs.PeerId.Capacity
import SfRs.PeerId.Order
import SfRs.WtTransport.ReadSide
import SfRs.WtTransport.WriteSide
import SfRs.WtTransport.Transfer
import SfRs.WtTransport.Listener
import SfRs.WtTransport.Listening
import SfRs.WtTransport.Grammar
import SfRs.WtTransport.Announced
import SfRs.Node.Dial
import SfRs.Node.Events
import SfRs.Node.DialUrl
import SfRs.Metrics.Values
import SfRs.Metrics.Export
import SfRs.Metrics.ReadBack
import SfRs.Metrics.Exported
import SfRs.Metrics.Labels
import SfRs.Metrics.Buckets
import SfRs.Metrics.Observations
import SfRs.Protocol
import SfRs.Protocol.Serde
import SfRs.Protocol.Codec
import SfRs.Server.AppState
import SfRs.Server.Routing
import SfRs.Server.Calls
import SfRs.Server.Connection
import SfRs.Server.Registration
import SfRs.Server.Authenticity
import SfRs.Server.Ordering
import SfRs.Server.PeerCount
import SfRs.Server.Forwarding
import SfRs.Server.Discovery
import SfRs.Server.ProcessWs
import SfRs.Server.Loop
import SfRs.Server.Origins
import SfRs.Server.Serving
import SfRs.Server.Wire
import SfRs.Server.ExtractPeerId
import SfRs.Server.PercentDecode
import SfRs.Wasm.PeerConnection
import SfRs.Wasm.Client
import SfRs.Wasm.Candidates
import SfRs.Wasm.Descriptions
import SfRs.Wasm.Negotiation
import SfRs.Wasm.Signaling
import SfRs.Wasm.Network
import SfRs.Wasm.Agreement
import SfRs.Wasm.PeerManager
import SfRs.Wasm.Callbacks
import SfRs.Wasm.Peers
import SfRs.Wasm.JsBoundary
import SfRs.EndToEnd.World
import SfRs.EndToEnd.Links
import SfRs.EndToEnd.Progress
import SfRs.EndToEnd.Provenance
import SfRs.EndToEnd.Acquaintance
import SfRs.EndToEnd.Handshake
import SfRs.WebRtc.DataChannel
import SfRs.Wasm.Channels
import SfRs.Wasm.ChannelLife
import SfRs.Wasm.ChannelEvents
import SfRs.EndToEnd.Chat
import SfRs.Lib.Pending
import SfRs.Metrics.Threads
import SfRs.Metrics.Scrape
import SfRs.WtTransport.Connections
import SfRs.EndToEnd.Dialling
import SfRs.EndToEnd.Agreement
