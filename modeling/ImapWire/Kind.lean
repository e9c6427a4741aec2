/-
  The kinds of value, as messages name them.

  A record that finds a value of the wrong shape says which kind it found.
-/
import ImapWire.Bracket

namespace ImapWire

inductive Kind
  | integer
  | string
  | nil
  | group (bracket : Bracket)
  | flags
  | stamp
  | envelope
  | address
  | body
  deriving DecidableEq, Repr

/-- The word for a kind of value. -/
def Kind.name : Kind → String
  | integer => "integer"
  | string => "string"
  | nil => "NIL"
  | group bracket => bracket.name
  | flags => "flags"
  | stamp => "datetime"
  | envelope => "envelope"
  | address => "address"
  | body => "body structure"

end ImapWire
