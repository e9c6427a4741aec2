/-
  Tokens.

  A response is a sequence of brackets, atoms, quoted strings and literals.  The end of the input is
  not a token; where a token may be missing it is an `Option Token`.
-/
import ImapWire.Bracket

namespace ImapWire

inductive Token
  | opening (bracket : Bracket)
  | closing (bracket : Bracket)
  | atom (bytes : Bytes)
  | quoted (bytes : Bytes)
  | literal (bytes : Bytes)
  deriving DecidableEq, Repr

namespace Token

/-- What a token is called. -/
def describe : Token → String
  | opening b => "'" ++ b.openText ++ "'"
  | closing b => "'" ++ b.closeText ++ "'"
  | atom _ => "atom"
  | quoted _ => "quoted string"
  | literal _ => "literal"

/-- The bytes that a token carries; a bracket carries none. -/
def bytes? : Token → Option Bytes
  | opening _ | closing _ => none
  | atom bytes | quoted bytes | literal bytes => some bytes

end Token
end ImapWire
