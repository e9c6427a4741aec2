/-
  The calendar.

  Dates of the Gregorian calendar, carried back before its introduction and on beyond year 0, and
  their numbering by days: day 0 is the first of January of year 0.  A year has 365 days and one
  more if it is a leap year, so the number of the first day of a year is linear in the year up to
  three roundings (`daysBeforeYear`), and the year of a day is found by one division that is off by
  at most one year (`yearOfDay`).

  Main fact: the year found for a day is the one it lies in (`daysBeforeYear_le`,
  `lt_daysBeforeYear`).
-/

namespace ImapWire

/-- A day of the calendar. -/
structure Date where
  year : Int
  /-- From 1 to 12. -/
  month : Nat
  /-- From 1. -/
  day : Nat
  deriving DecidableEq, Repr

namespace Date

/-! ## Years -/

/-- Has a 29th of February. -/
def isLeap (year : Int) : Bool := year % 4 == 0 && (year % 100 != 0 || year % 400 == 0)

/-- The number of the first day of a year. -/
def daysBeforeYear (year : Int) : Int :=
  365 * year + (year + 3) / 4 - (year + 99) / 100 + (year + 399) / 400

/-- The year that a day lies in. -/
def yearOfDay (n : Int) : Int :=
  let guess := n * 400 / 146097
  if n < daysBeforeYear guess then guess - 1
  else if daysBeforeYear (guess + 1) ≤ n then guess + 1
  else guess

/-- The days of a year. -/
theorem daysBeforeYear_succ (year : Int) :
    daysBeforeYear (year + 1) = daysBeforeYear year + (if isLeap year then 366 else 365) := by
  simp only [daysBeforeYear, isLeap]
  by_cases h4 : year % 4 = 0 <;> by_cases h100 : year % 100 = 0 <;>
    by_cases h400 : year % 400 = 0 <;> simp [h4, h100, h400] <;> omega

theorem daysBeforeYear_le (n : Int) : daysBeforeYear (yearOfDay n) ≤ n := by
  simp only [yearOfDay]
  split
  · simp only [daysBeforeYear] at *; omega
  · split <;> omega

theorem lt_daysBeforeYear (n : Int) : n < daysBeforeYear (yearOfDay n + 1) := by
  simp only [yearOfDay]
  split
  · next h => simpa using h
  · split
    · simp only [daysBeforeYear] at *; omega
    · omega

/-! ## Months -/

/-- The lengths of the months. -/
def monthLengths (leap : Bool) : List Nat :=
  [31, if leap then 29 else 28, 31, 30, 31, 30, 31, 31, 30, 31, 30, 31]

/-- The days of a year before a month. -/
def daysBeforeMonth (leap : Bool) (month : Nat) : Nat :=
  ((monthLengths leap).take (month - 1)).foldl (fun days length => days + length) 0

/-- How many days a month has; none if there is no such month. -/
def monthLength (leap : Bool) (month : Nat) : Nat :=
  if month = 0 then 0 else ((monthLengths leap)[month - 1]?).getD 0

/-- Finds the month of a day among months of the given lengths, counting months from `month` and the
    days of a month from 1. -/
def monthOfDay (month : Nat) : List Nat → Nat → Nat × Nat
  | [], day => (month, day + 1)
  | length :: later, day =>
    if day < length then (month, day + 1) else monthOfDay (month + 1) later (day - length)

/-! ## Days -/

/-- Is a day of the calendar. -/
def isValid (d : Date) : Bool := 1 ≤ d.day && d.day ≤ monthLength (isLeap d.year) d.month

/-- The number of a day. -/
def toDays (d : Date) : Int :=
  daysBeforeYear d.year + (daysBeforeMonth (isLeap d.year) d.month : Nat) + ((d.day - 1 : Nat) : Int)

/-- The day with a number. -/
def ofDays (n : Int) : Date :=
  let year := yearOfDay n
  let (month, day) :=
    monthOfDay 1 (monthLengths (isLeap year)) (n - daysBeforeYear year).toNat
  ⟨year, month, day⟩

/-- The day of the week, counted from Sunday as 0. -/
def weekday (d : Date) : Nat := ((d.toDays + 6) % 7).toNat

end Date
end ImapWire
