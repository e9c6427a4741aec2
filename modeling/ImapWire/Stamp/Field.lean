/-
  The fields of date texts.

  The readers of dates share a handful of fields: runs of digits, names of months, offsets written
  in digits.  Each reader here takes the characters ahead and gives what it read with those behind
  it, or nothing if the field does not stand there.

  The two stricter forms leave their fields to the date library, which reads a number as a signed one
  of 64 bits and knows names by three letters in any case.  The loose form reads whole fields as
  unsigned numbers of 32 bits (`wholeNumber?`).
-/
import ImapWire.Stamp
import ImapWire.Text.Blank

namespace ImapWire.DateField

open Text (isBlank skipBlanks)

/-- A reader of one field. -/
abbrev FieldReader (α : Type) := List Char → Option (α × List Char)

/-! ## Digits -/

/-- A decimal digit. -/
def isDigit (c : Char) : Bool := '0' ≤ c && c ≤ '9'

/-- The number that digits stand for. -/
def value (ds : List Char) : Nat := ds.foldl (fun n d => n * 10 + (d.toNat - 0x30)) 0

/-- The number that digits stand for, if it is below a limit. -/
def valueBelow? (limit : Nat) (ds : List Char) : Option Nat :=
  Decimal.below? (fun d => d.toNat - 0x30) limit 0 ds

theorem valueBelow?_eq (limit : Nat) (ds : List Char) :
    valueBelow? limit ds = if value ds < limit then some (value ds) else none :=
  Decimal.below?_eq _ limit 0 ds

/-- At least `least` digits, of which at most `most` are read; the number must fit in 63 bits. -/
def number? (least most : Nat) : FieldReader Nat := fun cs =>
  let ds := (cs.takeWhile isDigit).take most
  if least ≤ ds.length then
    (valueBelow? Decimal.signedSize ds).map fun n => (n, cs.drop ds.length)
  else none

/-- All digits that stand there, at least `least`, with how many they are. -/
def digits? (least : Nat) : FieldReader (Nat × Nat) := fun cs =>
  let ds := cs.takeWhile isDigit
  if least ≤ ds.length then
    (valueBelow? Decimal.signedSize ds).map fun n => ((n, ds.length), cs.drop ds.length)
  else none

/-- A whole text of digits with at most one plus sign in front, of a number that fits in 32 bits. -/
def wholeNumber? (cs : List Char) : Option Nat :=
  let ds := if cs.head? = some '+' then cs.tail else cs
  if !ds.isEmpty && ds.all isDigit then valueBelow? UInt32.size ds else none

/-! ## Names -/

/-- Is a letter from A to Z, small or capital. -/
def isLetter (c : Char) : Bool := ('a' ≤ c && c ≤ 'z') || ('A' ≤ c && c ≤ 'Z')

/-- The position among names of the one that the first three characters spell, in any case. -/
def nameIndex? (names : List String) (cs : List Char) : Option Nat :=
  let word := (cs.take 3).map Char.toLower
  names.findIdx? fun name => name.toList.map Char.toLower == word

/-- The month that the first three characters name, from 1. -/
def monthOf? (cs : List Char) : Option Nat := (nameIndex? Stamp.monthNames cs).map (· + 1)

/-- A month of three letters. -/
def month? : FieldReader Nat := fun cs => (monthOf? cs).map fun m => (m, cs.drop 3)

/-- A day of the week of three letters, counted from Sunday as 0. -/
def weekday? : FieldReader Nat := fun cs =>
  (nameIndex? Stamp.weekdayNames cs).map fun d => (d, cs.drop 3)

/-- The offset that one of the named zones has, in hours. -/
def zoneHours? (name : List Char) : Option Int :=
  match String.ofList (name.map Char.toUpper) with
  | "UT" | "GMT" | "Z" => some 0
  | "EDT" => some (-4)
  | "EST" | "CDT" => some (-5)
  | "CST" | "MDT" => some (-6)
  | "MST" | "PDT" => some (-7)
  | "PST" => some (-8)
  | _ => none

/-! ## Marks -/

/-- One given character. -/
def mark? (c : Char) : FieldReader Unit := fun cs =>
  if cs.head? = some c then some ((), cs.tail) else none

/-- White space, at least one character of it. -/
def blanks? : FieldReader Unit := fun cs =>
  if (cs.head?.map isBlank).getD false then some ((), skipBlanks cs) else none

/-! ## Offsets -/

/-- An offset in digits: the sign, two digits of hours, what `skip` skips, two digits of minutes
    below 60.  `minuses` are the characters that stand for a minus sign. -/
def offset? (minuses : List Char) (skip : List Char → List Char) : FieldReader Int := fun cs => do
  let sign ← cs.head?
  let negative ← if sign = '+' then some false else if minuses.contains sign then some true else none
  let (hours, cs) ← number? 2 2 cs.tail
  let (minutes, cs) ← number? 2 2 (skip cs)
  if minutes < 60 then
    let seconds : Int := (hours * 3600 + minutes * 60 : Nat)
    some (if negative then -seconds else seconds, cs)
  else none

end ImapWire.DateField
