import NetworkLabs.Transition
import NetworkLabs.CountAck
import NetworkLabs.Custody
import NetworkLabs.Retry
import NetworkLabs.Flood
import NetworkLabs.Pipe
import NetworkLabs.BigEndian
import NetworkLabs.Json
import NetworkLabs.Charset
import NetworkLabs.ParseInt
import NetworkLabs.UdpChat.Datagram
import NetworkLabs.UdpChat.Delivery
import NetworkLabs.UdpChat.Recovery
import NetworkLabs.UdpChat.Restart
import NetworkLabs.UdpChat.Flooding
import NetworkLabs.UdpChat.Copies
import NetworkLabs.UdpChat.Draining
import NetworkLabs.UdpChat.Shutdown
import NetworkLabs.UdpChat.Handshake
import NetworkLabs.UdpChat.Robustness
import NetworkLabs.UdpChat.Removal
import NetworkLabs.Proxy.Relay
import NetworkLabs.Proxy.Closing
import NetworkLabs.Proxy.Bounds
import NetworkLabs.Proxy.Indices
import NetworkLabs.Proxy.Isolation
import NetworkLabs.Proxy.Destination
import NetworkLabs.Proxy.Replies
import NetworkLabs.Proxy.Readiness
import NetworkLabs.Proxy.Ownership
import NetworkLabs.Proxy.FallThrough
import NetworkLabs.Proxy.Negotiation
import NetworkLabs.Upload.Exactness
import NetworkLabs.Chat.Sessions
import NetworkLabs.Chat.Updater
import NetworkLabs.Chat.Client
import NetworkLabs.Chat.Paging
import NetworkLabs.Chat.Activity
import NetworkLabs.Chat.Logout
import NetworkLabs.Chat.UserList
import NetworkLabs.Chat.Announcements
import NetworkLabs.Chat.TextRoundTrip
import NetworkLabs.Chat.Gate
import NetworkLabs.Upload.Reporting
import NetworkLabs.Upload.AllOrNothing
import NetworkLabs.PosixPath
import NetworkLabs.OrderedMap
import NetworkLabs.Feistel
import NetworkLabs.Chain
import NetworkLabs.Selection
import NetworkLabs.Orbit
import NetworkLabs.Dns.Permutor
import NetworkLabs.Dns.Retrieval
import NetworkLabs.Dns.Shuffle
import NetworkLabs.Dns.Sending
import NetworkLabs.Dns.Hanging
import NetworkLabs.Finder.App
import NetworkLabs.Finder.Presence
import NetworkLabs.Finder.Tracking
import NetworkLabs.Finder.Recognition
import NetworkLabs.Upload.Confinement
import NetworkLabs.Upload.Inactivity
import NetworkLabs.Upload.Concurrent
