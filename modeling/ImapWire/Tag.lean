/-
  Tags: what ties the completion of a command to the command.

  A tag comes off the wire as bytes and is kept as text, so that it can be compared with the one
  that was sent; `Tag.starts` looks at the bytes of a line.
-/
import ImapWire.Text.Utf8

namespace ImapWire

/-- What ties a completion to its command. -/
structure Tag where
  text : String
  deriving DecidableEq, Repr

namespace Tag

/-- The tag that the first word of a line is. -/
def ofWord (word : Bytes) : Tag := ⟨word.text⟩

/-- The line starts with the tag and a space. -/
def starts (t : Tag) (line : Bytes) : Bool := (Bytes.ofString t.text ++ [Bytes.space]).isPrefixOf line

end Tag
end ImapWire
