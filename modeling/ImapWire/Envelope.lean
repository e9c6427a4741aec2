/-
  Envelopes and addresses.

  An envelope is a message's header in ten fields.  An address list is empty both where the server
  sends `NIL` and where it sends an empty list, and both are written as `NIL`.

  Groups of addresses are flat in the list: an address without a host opens a group, its mailbox
  being the group's name, and one without mailbox and host closes it.

  `tree?` is the shape on the wire.  It fails only for a date that has no form in message headers.
-/
import ImapWire.Stamp
import ImapWire.Text.Utf8
import ImapWire.Tree

namespace ImapWire

/-- A byte string, or `NIL` if there is none. -/
def Tree.ofOption : Option Bytes → Tree
  | none => nil
  | some bs => bytes bs

/-! ## Addresses -/

/-- An address of an envelope. -/
structure Address where
  /-- The name that is shown. -/
  name : Option Bytes
  /-- The route that the message is to take, an obsolete field. -/
  route : Option Bytes
  /-- The part before the at sign. -/
  mailbox : Option Bytes
  /-- The part behind the at sign. -/
  host : Option Bytes
  deriving DecidableEq, Repr

namespace Address

/-- The address proper, if both its parts are there. -/
def email? (a : Address) : Option String :=
  match a.mailbox, a.host with
  | some mailbox, some host => some (mailbox.text ++ "@" ++ host.text)
  | _, _ => none

/-- Opens a group. -/
def opensGroup (a : Address) : Bool := a.host.isNone && a.mailbox.isSome

/-- Closes a group. -/
def closesGroup (a : Address) : Bool := a.host.isNone && a.mailbox.isNone

/-- The address as a reader of mail shows it: the name, if it is not empty, and the address proper
    or the part of it that is there. -/
def display (a : Address) : String :=
  let place := (a.email?).getD (((a.mailbox <|> a.host).map Bytes.text).getD "")
  match a.name.filter fun name => !name.isEmpty with
  | some name => name.text ++ " <" ++ place ++ ">"
  | none => place

/-- The four fields of an address. -/
def tree (a : Address) : Tree :=
  .group .round
    [.ofOption a.name, .ofOption a.route, .ofOption a.mailbox, .ofOption a.host]

/-- A list of addresses. -/
def listTree (as : List Address) : Tree :=
  if as.isEmpty then .nil else .group .round (as.map tree)

end Address

/-! ## Envelopes -/

/-- A message's header. -/
structure Envelope where
  /-- The date of the message, if it is there and can be read. -/
  date : Option Stamp
  subject : Option Bytes
  /-- The field `From`. -/
  author : List Address
  sender : List Address
  replyTo : List Address
  /-- The field `To`. -/
  recipients : List Address
  cc : List Address
  bcc : List Address
  inReplyTo : Option Bytes
  messageId : Option Bytes
  deriving DecidableEq, Repr

namespace Envelope

/-- The date field: `NIL` if there is no date. -/
def dateTree? : Option Stamp → Option Tree
  | none => some .nil
  | some s => s.messageDate?.map .bytes

/-- The ten fields of an envelope. -/
def tree? (e : Envelope) : Option Tree :=
  (dateTree? e.date).map fun date =>
    .group .round
      [date, .ofOption e.subject, Address.listTree e.author, Address.listTree e.sender,
        Address.listTree e.replyTo, Address.listTree e.recipients, Address.listTree e.cc,
        Address.listTree e.bcc, .ofOption e.inReplyTo, .ofOption e.messageId]

end Envelope
end ImapWire
