import RnsIcn.Lib.Ascent
import RnsIcn.Lib.BoundedDict
import RnsIcn.Lib.Bytes
import RnsIcn.Lib.Dict
import RnsIcn.Lib.Fallible
import RnsIcn.Lib.FirstSuccess
import RnsIcn.Lib.FloorWalk
import RnsIcn.Lib.Framing
import RnsIcn.Lib.Grouping
import RnsIcn.Lib.Futures
import RnsIcn.Lib.LongestMatch
import RnsIcn.Lib.Recency
import RnsIcn.Lib.SharedQueue
import RnsIcn.Lib.SingleFlight
import RnsIcn.Lib.Transaction
import RnsIcn.Lib.Transition
import RnsIcn.Lib.Truncation
import RnsIcn.Lib.Flood
import RnsIcn.Lib.Effect
import RnsIcn.Wire.Name
import RnsIcn.Wire.Packet
import RnsIcn.Wire.Envelope
import RnsIcn.Wire.Discovery
import RnsIcn.Wire.Parse
import RnsIcn.Wire.Display
import RnsIcn.Wire.RoundTrip
import RnsIcn.Wire.Pointer
import RnsIcn.Wire.Widths
import RnsIcn.Wire.Relay
import RnsIcn.Wire.Truncated
import RnsIcn.Client.Capability
import RnsIcn.Client.Signable
import RnsIcn.Server.Access
import RnsIcn.Server.Outflow
import RnsIcn.Server.Confidential
import RnsIcn.Server.Offline
import RnsIcn.Server.OfflineDelivery
import RnsIcn.Server.Drain
import RnsIcn.Wire.Extension
import RnsIcn.Store.Content
import RnsIcn.Store.Run
import RnsIcn.Store.Serve
import RnsIcn.Store.Names
import RnsIcn.Store.Purge
import RnsIcn.Store.Represented
import RnsIcn.Store.Transaction
import RnsIcn.Store.Recency
import RnsIcn.Store.Selection
import RnsIcn.Store.Salvage
import RnsIcn.Forwarder.Tables
import RnsIcn.Forwarder.Capacity
import RnsIcn.Forwarder.Fib
import RnsIcn.Forwarder.Strategy
import RnsIcn.Forwarder.Core
import RnsIcn.Forwarder.Steps
import RnsIcn.Forwarder.Waiting
import RnsIcn.Forwarder.Delivery
import RnsIcn.Forwarder.Parsed
import RnsIcn.Forwarder.Receive
import RnsIcn.Forwarder.Failover
import RnsIcn.Forwarder.Answer
import RnsIcn.Forwarder.Attribution
import RnsIcn.Forwarder.Suppression
import RnsIcn.Forwarder.Hops
import RnsIcn.Forwarder.Attempts
import RnsIcn.Forwarder.Revalidation
import RnsIcn.Network.Hops
import RnsIcn.Client.Verify
import RnsIcn.Client.Fetch
import RnsIcn.Client.Watermark
import RnsIcn.Client.Pump
import RnsIcn.Client.Rejected
import RnsIcn.Client.Feed
import RnsIcn.Client.Accepted
import RnsIcn.Server.Core
import RnsIcn.Server.Links
import RnsIcn.Server.Routes
import RnsIcn.Server.Lifecycle
import RnsIcn.Server.Pointer
import RnsIcn.Server.Stable
import RnsIcn.Server.Signing
import RnsIcn.Server.Injection
import RnsIcn.Server.Resource
import RnsIcn.Server.Propagation
import RnsIcn.Server.Invalidation
import RnsIcn.Server.Keys
import RnsIcn.Server.Origination
import RnsIcn.Network.Peering
import RnsIcn.Network.Versions
import RnsIcn.Client.Access
import RnsIcn.Client.Latest
import RnsIcn.Network.Latest
import RnsIcn.Server.OfflineCopies
import RnsIcn.Server.Calm
import RnsIcn.Server.Reader
import RnsIcn.Server.Stale
import RnsIcn.Server.Floor
import RnsIcn.Server.Replica
import RnsIcn.Server.Editions
import RnsIcn.Server.Directory
import RnsIcn.Server.Entries
import RnsIcn.Server.Listing
import RnsIcn.Server.Welcome
import RnsIcn.Server.Peers
import RnsIcn.Link.Pool
import RnsIcn.Link.Idle
import RnsIcn.Link.Sole
import RnsIcn.Link.Face
import RnsIcn.Link.Handshake
import RnsIcn.Client.Range
import RnsIcn.Client.Stream
import RnsIcn.Forwarder.Bookkeeping
import RnsIcn.Network.Range
import RnsIcn.Network.Relayed
import RnsIcn.Network.Freshness
import RnsIcn.Content.Manifest
import RnsIcn.Content.RoundTrip
import RnsIcn.Content.Text
import RnsIcn.Content.Chunker
import RnsIcn.Content.Names
import RnsIcn.Content.Assembler
import RnsIcn.Content.Chunked
import RnsIcn.Content.Lookup
import RnsIcn.Content.Reports
import RnsIcn.Store.Ttl
import RnsIcn.Content.Spelling
import RnsIcn.Lib.Simulation
import RnsIcn.Forwarder.Pending
import RnsIcn.Forwarder.Progress
import RnsIcn.Forwarder.Backoff
import RnsIcn.Store.Archive
import RnsIcn.Store.Refinement
import RnsIcn.Server.Solicited
import RnsIcn.Network.Provenance
import RnsIcn.Network.Confidential
import RnsIcn.Server.Reconnect
import RnsIcn.Server.Balance
import RnsIcn.Server.Ledger
import RnsIcn.Network.Retrieval
import RnsIcn.Lib.Gossip
import RnsIcn.Server.Silent
import RnsIcn.Network.Epochs
