import ImapWire.Proofs.Reader.Sound
import ImapWire.Proofs.Value.RoundTrip
import ImapWire.Reader.Collector
import ImapWire.Response.Read
import ImapWire.Proofs.Reader.Exact
import ImapWire.Proofs.Fetch.Items
import ImapWire.Proofs.Token.Announced
import ImapWire.Proofs.Token.Literals
import ImapWire.Proofs.Tree.Grammar
import ImapWire.Proofs.Fetch.Messages
import ImapWire.Proofs.Fetch.Dates
import ImapWire.Proofs.Reader.Limit
import ImapWire.Proofs.Token.Joined
import ImapWire.Proofs.Response.Words
import ImapWire.Proofs.Response.Fetched
import ImapWire.Proofs.Fetch.Groups
import ImapWire.Proofs.Reader.Collected
import ImapWire.Proofs.Text.Encoded
import ImapWire.Proofs.Response.Code
import ImapWire.Proofs.Response.Status
import ImapWire.Proofs.Guarded.Index
import ImapWire.Proofs.Guarded.Line
import ImapWire.Proofs.Guarded.Token
import ImapWire.Proofs.Guarded.Date
import ImapWire.Proofs.Guarded.Response
import ImapWire.Proofs.Guarded.Value
import ImapWire.Proofs.Guarded.Fetch
import ImapWire.Proofs.Body.Undated
import ImapWire.Proofs.Fetch.Undated
import ImapWire.Proofs.Fetch.Flattened
import ImapWire.Proofs.Stamp.Shown
import ImapWire.Proofs.Stamp.Written
import ImapWire.Proofs.Envelope.RoundTrip
import ImapWire.Proofs.Body.RoundTrip
import ImapWire.Proofs.Response.CodeEnd
import ImapWire.Proofs.Response.StatusParts
import ImapWire.Proofs.Response.CodeTree
import ImapWire.Proofs.Response.LineAlone
import ImapWire.Proofs.Response.Leftover
import ImapWire.Proofs.Fetch.Lookup
import ImapWire.Proofs.Stamp.ShortYears
import ImapWire.Proofs.Response.Indented
import ImapWire.Proofs.Response.Tagged
import ImapWire.Proofs.Mailbox.Listed
import ImapWire.Proofs.Mailbox.RoundTrip
import ImapWire.Proofs.Fetch.Arrival
import ImapWire.Proofs.Stamp.Tolerated
import ImapWire.Proofs.Tree.Viable
import ImapWire.Proofs.Token.Lines
import ImapWire.Proofs.Response.Numbers
