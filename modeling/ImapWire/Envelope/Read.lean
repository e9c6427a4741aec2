/-
  Reading envelopes and address lists.

  An envelope is a list of ten fields.  A date that cannot be read is no failure: the envelope has
  no date then.  Every other field must be of its kind.
-/
import ImapWire.Stamp.Read
import ImapWire.Value.Field

namespace ImapWire

/-- An address: a list of four fields. -/
def Address.read (v : Value) : Result Address :=
  match v with
  | .group .round [name, route, mailbox, host] => do
    let name ← name.nstring "address name"
    let route ← route.nstring "address route"
    let mailbox ← mailbox.nstring "address mailbox"
    let host ← host.nstring "address host"
    .ok ⟨name, route, mailbox, host⟩
  | other => .error (other.wrong "address")

/-- An address list: `NIL`, or a list whose items are addresses or `NIL`, which are skipped. -/
def Address.readList (v : Value) : Result (List Address) :=
  match v with
  | .nil => .ok []
  | .group .round items => (items.filter fun item => !item.isNil).mapM Address.read
  | other => .error (other.wrong "address list")

namespace Envelope

/-- The date field: anything that is no readable date is none. -/
def readDate (toUtc : Bool) : Value → Option Stamp
  | .bytes text => Stamp.read? text toUtc
  | _ => none

/-- An envelope. -/
def read (toUtc : Bool) (v : Value) : Result Envelope :=
  match v with
  | .group .round
      [date, subject, author, sender, replyTo, recipients, cc, bcc, inReplyTo, messageId] => do
    let subject ← subject.nstring "envelope subject"
    let author ← Address.readList author
    let sender ← Address.readList sender
    let replyTo ← Address.readList replyTo
    let recipients ← Address.readList recipients
    let cc ← Address.readList cc
    let bcc ← Address.readList bcc
    let inReplyTo ← inReplyTo.nstring "envelope in-reply-to"
    let messageId ← messageId.nstring "envelope message-id"
    .ok
      { date := readDate toUtc date
        subject, author, sender, replyTo, recipients, cc, bcc, inReplyTo, messageId }
  | .group .round fields => .error (.near (.envelopeFields fields.length) [.group .round fields])
  | other => .error (.near (.envelopeKind other.kind) [other])

end Envelope
end ImapWire
