/-
  Dates of message headers: `Sun, 24 Mar 2013 22:06:10 +0200`.

  The rules are those of RFC 2822, section 3.3, and of the obsolete forms in its section 4.3, as far
  as the date library chrono (0.4) takes them:

    * the day of the week may be missing; a wrong one is refused, and so is one without a comma
      directly behind it (3.3);
    * the day has one or two digits, the hour, the minute and the second have two, and the month is
      a name of three letters in any case (3.3);
    * the seconds may be missing, and the second 60 is a leap second (3.3);
    * a year has at least two digits; of two digits it counts from 1900 or 2000, of three digits from
      1900 (4.3, `fullYear`);
    * white space separates the fields, and may stand around the colon in front of the minutes and
      before the one in front of the seconds (4.3); the library takes all that Unicode calls white
      space;
    * the zone is an offset in digits (3.3), one of the old names, or a single letter other than J,
      which says nothing about it (4.3).  Longer names that are not known are refused here, although
      4.3 lets them say nothing, too.

  Comments are no part of this form; they are cut off before (`Stamp.dateText`).
-/
import ImapWire.Stamp.Field

namespace ImapWire.MessageDate

open Text (skipBlanks)
open DateField

/-- The day of the week in front, if any: its name, and a comma directly behind it. -/
def weekdayBefore? : FieldReader (Option Nat) := fun cs =>
  match weekday? cs with
  | none => some (none, cs)
  | some (day, rest) => (mark? ',' rest).map fun (_, rest) => (some day, rest)

/-- The year that a number of so many digits means (RFC 2822, 4.3): two digits up to 49 count from
    2000, from 50 on from 1900, three digits from 1900. -/
def fullYear (n count : Nat) : Nat :=
  if count = 2 then (if n < 50 then n + 2000 else n + 1900)
  else if count = 3 then n + 1900
  else n

/-- A zone of letters. -/
def namedZone? : FieldReader Int := fun cs =>
  let name := cs.takeWhile isLetter
  let rest := cs.dropWhile isLetter
  match zoneHours? name with
  | some hours => some (hours * 3600, rest)
  | none =>
    if name.length = 1 ∧ name ≠ ['j'] ∧ name ≠ ['J'] then some (0, rest) else none

/-- A zone: letters, or an offset in digits. -/
def zone? : FieldReader Int := fun cs =>
  if (cs.head?.map isLetter).getD false then namedZone? cs else offset? ['-'] id cs

/-- The seconds, if there are any: a colon and two digits. -/
def seconds? : FieldReader Nat := fun cs =>
  match mark? ':' (skipBlanks cs) with
  | none => some (0, cs)
  | some (_, rest) => number? 2 2 rest

/-- Reads a whole text as the date of a message header. -/
def read? (cs : List Char) : Option Stamp := do
  let (weekday, cs) ← weekdayBefore? (skipBlanks cs)
  let (day, cs) ← number? 1 2 (skipBlanks cs)
  let (_, cs) ← blanks? cs
  let (month, cs) ← month? cs
  let (_, cs) ← blanks? cs
  let ((year, count), cs) ← digits? 2 cs
  let (_, cs) ← blanks? cs
  let (hour, cs) ← number? 2 2 cs
  let (_, cs) ← mark? ':' (skipBlanks cs)
  let (minute, cs) ← number? 2 2 (skipBlanks cs)
  let (second, cs) ← seconds? cs
  let (_, cs) ← blanks? cs
  let (offset, cs) ← zone? cs
  let date : Date := ⟨fullYear year count, month, day⟩
  let stamp ← (Clock.mk date hour minute second).stamp? offset
  if cs.isEmpty && (weekday.map (· == date.weekday)).getD true then some stamp else none

end ImapWire.MessageDate
