/-
  Dates written loosely.

  Mail programs write times with dots, long names of days and months, zones without a sign or no
  zone at all.  Such a date is cut into fields at blanks and commas, a field such as `9-Feb-2007` at
  its dashes too, and read field by field:

    * a word in front that is no month (a day of the week, in any language of letters) is dropped;
    * day and month may change places;
    * then come the year, the time and the zone, of which the last two may be missing;
    * further fields are ignored.
-/
import ImapWire.Stamp.Field

namespace ImapWire.LooseDate

open Text (isAsciiBlank)
open DateField

/-- The non-empty parts between the characters that separate. -/
def parts (separates : Char → Bool) (cs : List Char) : List (List Char) :=
  (cs.splitOnP separates).filter fun part => !part.isEmpty

/-- Cuts a field at its dashes, if it has one after its first character and starts with no sign. -/
def splitDashes (field : List Char) : List (List Char) :=
  if field.tail.contains '-' && field.head? != some '-' && field.head? != some '+' then
    parts (· == '-') field
  else [field]

/-- The fields of a date. -/
def fields (cs : List Char) : List (List Char) :=
  (parts (fun c => isAsciiBlank c || c == ',') cs).flatMap splitDashes

/-- Without a word in front that is no month. -/
def dropWord : List (List Char) → List (List Char)
  | [] => []
  | f :: fs => if f.all isLetter && (monthOf? f).isNone then fs else f :: fs

/-- The day before the month. -/
def dayFirst : List (List Char) → List (List Char)
  | f :: g :: fs =>
    if (monthOf? f).isSome && (wholeNumber? g).isSome then g :: f :: fs else f :: g :: fs
  | fs => fs

/-- A year of two to four digits; two digits up to 49 count from 2000, from 50 on from 1900. -/
def year? (f : List Char) : Option Nat :=
  if 2 ≤ f.length ∧ f.length ≤ 4 ∧ f.all isDigit then
    let n := value f
    some (if f.length = 2 then (if n < 50 then n + 2000 else n + 1900) else n)
  else none

/-- A time: hours, minutes and perhaps seconds, between colons or dots. -/
def time? (f : List Char) : Option (Nat × Nat × Nat) := do
  let numbers ← (f.splitOnP fun c => c == ':' || c == '.').mapM wholeNumber?
  let (hour, minute, second) ← match numbers with
    | [h, m] => some (h, m, 0)
    | [h, m, s] => some (h, m, s)
    | _ => none
  if second < 60 then some (hour, minute, second) else none

/-- A zone: a known name, an offset of four digits with or without a sign, or any other word, which
    says nothing. -/
def zone? (f : List Char) : Option Int :=
  match if f.map Char.toUpper = ['U', 'T', 'C'] then some 0 else zoneHours? f with
  | some hours => some (hours * 3600)
  | none =>
    let negative := f.head? = some '-'
    let ds := if negative ∨ f.head? = some '+' then f.tail else f
    if ds.length = 4 ∧ ds.all isDigit then
      let seconds : Int := (value (ds.take 2) * 3600 + value (ds.drop 2) * 60 : Nat)
      some (if negative then -seconds else seconds)
    else if f.all isLetter then some 0
    else none

/-- Reads a whole text as a loosely written date. -/
def read? (cs : List Char) : Option Stamp :=
  match dayFirst (dropWord (fields cs)) with
  | day :: month :: year :: rest => do
    let date : Date := ⟨(← year? year : Nat), ← monthOf? month, ← wholeNumber? day⟩
    let (hour, minute, second) ← match rest with
      | [] => some (0, 0, 0)
      | time :: _ => time? time
    let offset ← match rest with
      | _ :: zone :: _ => zone? zone
      | _ => some 0
    (Clock.mk date hour minute second).stamp? offset
  | _ => none

end ImapWire.LooseDate
