/-
  Status words: how a command ended, or what the server says of itself.
-/
import ImapWire.Bytes

namespace ImapWire

/-- How a command ended, or what the server says of itself. -/
inductive Status
  | ok
  | no
  | bad
  | preauth
  | bye
  deriving DecidableEq, Repr

namespace Status

/-- The word for a status. -/
def name : Status → String
  | ok => "OK"
  | no => "NO"
  | bad => "BAD"
  | preauth => "PREAUTH"
  | bye => "BYE"

def all : List Status := [ok, no, bad, preauth, bye]

/-- The status that a word names, in any case. -/
def ofWord? (word : Bytes) : Option Status :=
  all.find? fun s => Bytes.sameName word (Bytes.ofString s.name)

/-- Is good news. -/
def isOk : Status → Bool
  | ok | preauth => true
  | no | bad | bye => false

end Status
end ImapWire
