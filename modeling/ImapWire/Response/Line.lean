/-
  The words of a response line.

  The start of a response is cut at spaces, before any token is read: its tag, its status, its name.
  A `Place` is a byte of the line with the bytes ahead of it; tokens are read from its position on.

  The text behind a status may start with a code in square brackets.  `splitCode` finds the bracket
  that closes it: brackets inside quotes do not count, and brackets nest.
-/
import ImapWire.Text.Utf8

namespace ImapWire

/-- A byte of a line. -/
structure Place where
  /-- How many bytes are behind. -/
  pos : Nat
  /-- The bytes ahead. -/
  rest : Bytes
  deriving DecidableEq, Repr

namespace Place

/-- At a byte of a line. -/
def ofLine (line : Bytes) (pos : Nat) : Place := ⟨pos, line.drop pos⟩

/-- Behind all bytes in front that are of a class. -/
def skip (p : Place) (skipped : UInt8 → Bool) : Place :=
  ⟨p.pos + (p.rest.takeWhile skipped).length, p.rest.dropWhile skipped⟩

/-- Behind the spaces. -/
def skipSpaces (p : Place) : Place := p.skip (· == Bytes.space)

/-- The next word, and the place behind it. -/
def word (p : Place) : Bytes × Place :=
  let start := p.skipSpaces
  (start.rest.takeWhile (· != Bytes.space), start.skip (· != Bytes.space))

/-- The rest of the line as text, without the spaces in front. -/
def text (p : Place) : String := p.skipSpaces.rest.text

end Place

/-- Where a reader of a code stands: outside quotes, inside them, or behind a backslash there. -/
inductive Quoting
  | outside
  | inside
  | escaped
  deriving DecidableEq, Repr

namespace Quoting

/-- One byte further. -/
def next (b : UInt8) : Quoting → Quoting
  | outside => if b = Bytes.quote then inside else outside
  | inside =>
    if b = Bytes.backslash then escaped else if b = Bytes.quote then outside else inside
  | escaped => inside

end Quoting

/-- Reads on inside `depth` open square brackets: the bytes up to the bracket that closes the
    outermost one, and those behind it.  None if it is never closed. -/
def splitCode (depth : Nat) (quoting : Quoting) : Bytes → Option (Bytes × Bytes)
  | [] => none
  | b :: rest =>
    let deeper := quoting = .outside ∧ b = Bytes.openSquare
    let higher := quoting = .outside ∧ b = Bytes.closeSquare
    if higher ∧ depth ≤ 1 then some ([], rest)
    else
      let depth := if deeper then depth + 1 else if higher then depth - 1 else depth
      (splitCode depth (quoting.next b) rest).map fun (code, behind) => (b :: code, behind)

/-- The code that starts with the bracket in front, and the bytes behind it. -/
def codeOf? (bs : Bytes) : Option (Bytes × Bytes) := splitCode 1 .outside bs.tail

end ImapWire
