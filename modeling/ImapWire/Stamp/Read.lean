/-
  Reading dates.

  A date text may come from a message header, from the server itself or from a careless mail
  program, so it is read as the first of three forms that it fits: a date of message headers, a date
  in wire form, a loosely written date.  White space around the text and a comment behind it (from
  the first opening bracket on) are no part of it.
-/
import ImapWire.Stamp.InternalDate
import ImapWire.Stamp.LooseDate
import ImapWire.Stamp.MessageDate
import ImapWire.Text.Utf8

namespace ImapWire.Stamp

/-- The part of a text that is the date. -/
def dateText (bs : Bytes) : List Char := Text.trim ((Utf8.decode bs).takeWhile (· != '('))

/-- Reads a date, with the offset that it is written with. -/
def readAs? (cs : List Char) : Option Stamp :=
  MessageDate.read? cs <|> InternalDate.read? cs <|> LooseDate.read? cs

/-- Reads a date; with `toUtc` it is moved to the local clock, which is assumed to stand at UTC. -/
def read? (bs : Bytes) (toUtc : Bool) : Option Stamp :=
  (readAs? (dateText bs)).map fun s => if toUtc then s.toUtc else s

end ImapWire.Stamp
