/-
  Stamps: instants as somebody's clock shows them.

  A `Stamp` is an instant, in seconds and nanoseconds of the epoch, with the offset of the clock
  that shows it, in seconds east of UTC.  A leap second is the second before it with a nanosecond
  count from one thousand million on.

  A `Clock` is what is read off and written down: a date and a time of day.  `Stamp.clock` shows a
  stamp, `Clock.stamp?` takes a clock and its offset to the stamp, if there is such a date, time,
  offset and instant.

  Two written forms:

    * `internalDate`, the wire form: `17-Jul-1996 02:44:25 -0700`, for any year;
    * `messageDate?`, the form of message headers: `Wed, 17 Jul 1996 02:44:25 -0700`, which exists
      for the years 0 to 9999 only.

  **The rules** are those that the date library chrono (0.4) documents.  A date is one of the
  proleptic Gregorian calendar in the years -262143 to 262142 (`isKeptYear`); an offset is of less
  than a day (`isOffset`).  The wire form is its layout `%d-%b-%Y %H:%M:%S %z`: two digits for each of
  `%d`, `%H`, `%M` and `%S` (the second 60 is a leap second), the English name of the month in three
  letters for `%b`, at least four digits for `%Y`, with a sign in front outside the years 0 to 9999,
  and for `%z` a sign with two digits each of hours and minutes.  The form of message headers is the
  date of RFC 2822, section 3.3, with the day of the week and the seconds, and the day of the month
  without a leading zero; it is defined for the years 0 to 9999 only.

  **One assumption.**  A reader may move a stamp to the local clock of its machine.  What that clock
  shows depends on the machine, and here it is assumed to stand at UTC (`Stamp.toUtc`).  On a machine
  in another zone a stamp that was moved is the same instant with another offset, and near the turn
  of a year the clock may show another year.
-/
import ImapWire.Calendar
import ImapWire.Decimal

namespace ImapWire

/-- An instant, and the offset of the clock that shows it. -/
structure Stamp where
  /-- Seconds since the start of 1970, rounded down. -/
  unix : Int
  /-- Nanoseconds in that second, one thousand million more in a leap second. -/
  nanos : Nat
  /-- Seconds east of UTC. -/
  offset : Int
  deriving DecidableEq, Repr

/-- A date and a time of day. -/
structure Clock where
  date : Date
  hour : Nat
  minute : Nat
  /-- From 0 to 59, or 60 in a leap second. -/
  second : Nat
  deriving DecidableEq, Repr

/-- The number of the first day of 1970. -/
def epochDay : Int := 719528

/-- The seconds of a day. -/
def daySeconds : Int := 86400

/-- The nanoseconds of a second. -/
def secondNanos : Nat := 1000000000

/-! ## Between clocks and stamps -/

/-- The years that are kept, as far as the library's dates reach. -/
def isKeptYear (year : Int) : Bool := -262143 ≤ year && year ≤ 262142

/-- Is an offset of less than a day. -/
def isOffset (offset : Int) : Bool := -daySeconds < offset && offset < daySeconds

namespace Stamp

/-- The seconds of the epoch that the clock shows, as if it stood at UTC. -/
def shown (s : Stamp) : Int := s.unix + s.offset

/-- What the clock shows. -/
def clock (s : Stamp) : Clock :=
  let second := (s.shown % daySeconds).toNat
  { date := Date.ofDays (s.shown / daySeconds + epochDay)
    hour := second / 3600
    minute := second / 60 % 60
    second := second % 60 + s.nanos / secondNanos }

/-- The year that the clock shows. -/
def year (s : Stamp) : Int := s.clock.date.year

/-- The same instant on the local clock, which is assumed to stand at UTC. -/
def toUtc (s : Stamp) : Stamp := { s with offset := 0 }

end Stamp

namespace Clock

/-- Is a time of day; the second 60 is a leap second. -/
def isTime (c : Clock) : Bool := c.hour < 24 && c.minute < 60 && c.second ≤ 60

/-- The stamp that a clock shows. -/
def stamp? (c : Clock) (offset : Int) : Option Stamp :=
  if c.date.isValid && c.isTime && isOffset offset && isKeptYear c.date.year then
    let leap := c.second == 60
    let second : Nat := c.hour * 3600 + c.minute * 60 + (if leap then 59 else c.second)
    let unix := (c.date.toDays - epochDay) * daySeconds + second - offset
    if isKeptYear (Date.ofDays (unix / daySeconds + epochDay)).year then
      some ⟨unix, if leap then secondNanos else 0, offset⟩
    else none
  else none

end Clock

/-! ## Written forms -/

namespace Stamp

/-- The names of the months. -/
def monthNames : List String :=
  ["Jan", "Feb", "Mar", "Apr", "May", "Jun", "Jul", "Aug", "Sep", "Oct", "Nov", "Dec"]

/-- The names of the days of the week. -/
def weekdayNames : List String := ["Sun", "Mon", "Tue", "Wed", "Thu", "Fri", "Sat"]

/-- A number with zeros in front, up to a width. -/
def padded (width n : Nat) : Bytes :=
  let ds := Decimal.digits n
  List.replicate (width - ds.length) Bytes.zero ++ ds

/-- A year: four digits, or its sign and at least four digits outside the years 0 to 9999. -/
def yearBytes (year : Int) : Bytes :=
  if year < 0 then Bytes.minus :: padded 4 year.natAbs
  else if year ≤ 9999 then padded 4 year.natAbs
  else Bytes.plus :: padded 4 year.natAbs

/-- The name of a month. -/
def monthBytes (month : Nat) : Bytes := Bytes.ofString ((monthNames[month - 1]?).getD "")

/-- A time of day. -/
def timeBytes (c : Clock) : Bytes :=
  padded 2 c.hour ++ Bytes.ofString ":" ++ padded 2 c.minute ++ Bytes.ofString ":"
    ++ padded 2 c.second

/-- An offset: its sign, hours and minutes, to the nearest minute. -/
def offsetBytes (offset : Int) : Bytes :=
  let minutes := (offset.natAbs + 30) / 60
  (if offset < 0 then Bytes.minus else Bytes.plus)
    :: (padded 2 (minutes / 60) ++ padded 2 (minutes % 60))

/-- The wire form of a stamp. -/
def internalDate (s : Stamp) : Bytes :=
  let c := s.clock
  padded 2 c.date.day ++ Bytes.ofString "-" ++ monthBytes c.date.month ++ Bytes.ofString "-"
    ++ yearBytes c.date.year ++ Bytes.ofString " " ++ timeBytes c ++ Bytes.ofString " "
    ++ offsetBytes s.offset

/-- Has a form in message headers: the year on the clock has four digits at most. -/
def isWritable (s : Stamp) : Bool := 0 ≤ s.year && s.year ≤ 9999

/-- The form of a stamp in message headers. -/
def messageDate? (s : Stamp) : Option Bytes :=
  let c := s.clock
  if s.isWritable then
    some (Bytes.ofString ((weekdayNames[c.date.weekday]?).getD "") ++ Bytes.ofString ", "
      ++ Decimal.digits c.date.day ++ Bytes.ofString " " ++ monthBytes c.date.month
      ++ Bytes.ofString " " ++ padded 4 c.date.year.natAbs ++ Bytes.ofString " " ++ timeBytes c
      ++ Bytes.ofString " " ++ offsetBytes s.offset)
  else none

end Stamp
end ImapWire
