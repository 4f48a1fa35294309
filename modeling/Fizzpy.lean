import Fizzpy.Foundation.Search
import Fizzpy.Foundation.Loop
import Fizzpy.Foundation.Sequence
import Fizzpy.Foundation.Incremental
import Fizzpy.Foundation.Transition
import Fizzpy.Foundation.Cells
import Fizzpy.Text
import Fizzpy.Numerals
import Fizzpy.Http.Headers
import Fizzpy.Http.ResponseParser
import Fizzpy.Http.Chunking
import Fizzpy.Http.Completion
import Fizzpy.Http.Lines
import Fizzpy.Http.Message
import Fizzpy.Http.Decode
import Fizzpy.Http.Request
import Fizzpy.Http.Server
import Fizzpy.Http.Waiting
import Fizzpy.Http.Truncation
import Fizzpy.Core.TlsConnection
import Fizzpy.Core.ReadState
import Fizzpy.Core.Closing
import Fizzpy.Core.Delivery
import Fizzpy.Tls.TlsSocket
import Fizzpy.Tls.ByteStream
import Fizzpy.Tls.EndOfStream
import Fizzpy.Tls.Makefile
import Fizzpy.Client.Pool
import Fizzpy.Client.Client
import Fizzpy.Client.Ownership
import Fizzpy.Client.Resend
import Fizzpy.Client.Network
import Fizzpy.Client.Pairing
import Fizzpy.Client.Replies
import Fizzpy.Client.Pooling
import Fizzpy.Client.Begun
import Fizzpy.Client.Head
import Fizzpy.Client.Redirect
import Fizzpy.Client.Credentials
import Fizzpy.Contrib.Context
import Fizzpy.Contrib.Sharing
import Fizzpy.Probe.Attempt
import Fizzpy.Probe.Probe
import Fizzpy.Probe.Soundness
import Fizzpy.Probe.Preference
import Fizzpy.Foundation.Order
import Fizzpy.Probe.Scan
import Fizzpy.Probe.Cli
import Fizzpy.Http.Folding
import Fizzpy.Http.Bodyless
import Fizzpy.Http.Raising
import Fizzpy.Http.Lengths
import Fizzpy.Client.RedirectChain
import Fizzpy.Http.Injection
import Fizzpy.Client.Host
import Fizzpy.Foundation.Rounding
import Fizzpy.Tls.Config
import Fizzpy.Tls.Wrapping
import Fizzpy.Foundation.Custody
import Fizzpy.Probe.Cancellation
import Fizzpy.Core.Alerts
import Fizzpy.Foundation.Journal
import Fizzpy.Contrib.Fallback
import Fizzpy.Tls.Extensions
import Fizzpy.Tls.Deadline
import Fizzpy.Foundation.Regroup
import Fizzpy.Http.Multimap
import Fizzpy.Http.Conservation
import Fizzpy.Probe.IpAddress
import Fizzpy.Probe.Target
import Fizzpy.Core.Callbacks
import Fizzpy.Http.Acceptance
import Fizzpy.Http.Ending
import Fizzpy.Client.AsyncClient
import Fizzpy.Client.Exchange
import Fizzpy.Client.Conversation
import Fizzpy.Tls.Sending
import Fizzpy.Client.Trust
import Fizzpy.Probe.Sweep
import Fizzpy.Probe.Refinement
import Fizzpy.Client.Segment
import Fizzpy.Client.Traffic
import Fizzpy.Client.AsyncRefinement
