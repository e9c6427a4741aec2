/-
  Chunks: the lines of a response with their literals.

  A line that ends in a marker such as `{5}` announces a literal: that many bytes follow its line
  end, of any content, and the response goes on in the next line.  A `Chunk` is one line without its
  line end, with the literal that came after it.

  Two readers meet a marker from opposite sides.  The stream reader sees a whole line and asks what
  it announces (`announced?`, from the back of the line); the tokeniser has cut an atom and asks
  whether it is a marker (`Marker.inner?`).  Both read the length with `Marker.length?`.

  `Chunk.wire` says how a chunk travels: the line, a line end, the literal.
-/
import ImapWire.Decimal

namespace ImapWire

open Bytes (isBlank isDelimiter)

/-- A line without its line end, and the literal that followed it. -/
structure Chunk where
  line : Bytes
  literal : Option Bytes
  deriving DecidableEq, Repr

/-- A chunk without a literal. -/
abbrev Chunk.plain (line : Bytes) : Chunk := ⟨line, none⟩

/-! ## Markers -/

namespace Marker

/-- What stands between the braces of a marker: a tilde may stand before the opening brace, and one
    plus sign before the closing brace does not count. -/
def inner? (atom : Bytes) : Option Bytes :=
  let braced := if atom.head? = some Bytes.tilde then atom.tail else atom
  if braced.head? = some Bytes.openBrace ∧ braced.tail.getLast? = some Bytes.closeBrace then
    let inner := braced.tail.dropLast
    some (if inner.getLast? = some Bytes.plus then inner.dropLast else inner)
  else none

/-- The length written between the braces, which must fit in 64 bits. -/
def length? (inner : Bytes) : Option Nat := Decimal.natBelow? UInt64.size inner

/-- The marker for a literal of a length. -/
def ofLength (n : Nat) : Bytes := Bytes.openBrace :: Decimal.digits n ++ [Bytes.closeBrace]

end Marker

/-- The length that a line announces for the literal after it.  Blanks at the end of the line do not
    count; the marker starts at the last opening brace, or at the tilde before it, and must stand
    alone: at the start of the line or after a delimiter. -/
def announced? (line : Bytes) : Option Nat :=
  let back := line.reverse.dropWhile isBlank
  match back.dropWhile (· != Bytes.openBrace) with
  | [] => none
  | _ :: before =>
    let before := if before.head? = some Bytes.tilde then before.tail else before
    if before.head?.all isDelimiter then
      (Marker.inner? (Bytes.openBrace :: (back.takeWhile (· != Bytes.openBrace)).reverse)).bind
        Marker.length?
    else none

/-! ## The wire -/

/-- The bytes that end a line. -/
def lineEnd : Bytes := [Bytes.cr, Bytes.lf]

/-- How a chunk travels. -/
def Chunk.wire (c : Chunk) : Bytes := c.line ++ lineEnd ++ c.literal.getD []

/-- How a response travels. -/
def wire (chunks : List Chunk) : Bytes := chunks.flatMap Chunk.wire

@[simp] theorem wire_nil : wire [] = [] := rfl

@[simp] theorem wire_cons (c : Chunk) (cs : List Chunk) : wire (c :: cs) = c.wire ++ wire cs := rfl

theorem wire_append (a b : List Chunk) : wire (a ++ b) = wire a ++ wire b := by simp [wire]

end ImapWire
