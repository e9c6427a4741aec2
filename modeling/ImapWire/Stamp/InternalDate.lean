/-
  Dates in their wire form: `17-Jul-1996 02:44:25 -0700`.

  The rules are those by which the date library chrono (0.4) reads a text with the layout
  `%d-%b-%Y %H:%M:%S %z`:

    * `%d`, `%H`, `%M` and `%S` take one or two digits, `%Y` takes up to four digits or a sign and any
      number of them; white space may stand in front of each;
    * `%b` is the English name of a month in three letters, in any case;
    * a blank of the layout stands for white space of any length, also none;
    * `%z` is a sign, two digits of hours and two of minutes, with colons and white space between
      them skipped; the typographic minus sign is a sign, too;
    * any other character stands for itself.

  So white space may stand before each number and before the offset, and nowhere else.  What the
  fields have to be for a date is said by `Clock.stamp?`.
-/
import ImapWire.Stamp.Field

namespace ImapWire.InternalDate

open Text (isBlank skipBlanks)
open DateField

/-- The minus sign of typography. -/
def minusSign : Char := Char.ofNat 0x2212

/-- One or two digits behind white space. -/
def pair? : FieldReader Nat := fun cs => number? 1 2 (skipBlanks cs)

/-- A year behind white space. -/
def year? : FieldReader Int := fun cs =>
  let cs := skipBlanks cs
  if cs.head? = some '-' then (digits? 1 cs.tail).map fun ((n, _), cs) => (-(n : Int), cs)
  else if cs.head? = some '+' then (digits? 1 cs.tail).map fun ((n, _), cs) => ((n : Int), cs)
  else (number? 1 4 cs).map fun (n, cs) => ((n : Int), cs)

/-- Skips what may stand between the hours and the minutes of the offset. -/
def skipGap (cs : List Char) : List Char := cs.dropWhile fun c => c == ':' || isBlank c

/-- Reads a whole text as a date in wire form. -/
def read? (cs : List Char) : Option Stamp := do
  let (day, cs) ← pair? cs
  let (_, cs) ← mark? '-' cs
  let (month, cs) ← month? cs
  let (_, cs) ← mark? '-' cs
  let (year, cs) ← year? cs
  let (hour, cs) ← pair? cs
  let (_, cs) ← mark? ':' cs
  let (minute, cs) ← pair? cs
  let (_, cs) ← mark? ':' cs
  let (second, cs) ← pair? cs
  let (offset, cs) ← offset? ['-', minusSign] skipGap (skipBlanks cs)
  let stamp ← (Clock.mk ⟨year, month, day⟩ hour minute second).stamp? offset
  if cs.isEmpty then some stamp else none

end ImapWire.InternalDate
