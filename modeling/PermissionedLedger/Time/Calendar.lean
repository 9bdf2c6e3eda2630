/-!
# Calendar dates

Dates of the proleptic Gregorian calendar as day numbers, day zero being
1970-01-01. Years start in March for the arithmetic, so that the leap day comes
last; an *era* is four hundred years, after which the calendar repeats.

`toDays_ofDays` says that a day number is recovered from its date.
-/

namespace PermissionedLedger.Time

/-- A date. -/
structure Date where
  /-- year, counting a year zero -/
  year : Int
  /-- month, from one -/
  month : Nat
  /-- day of the month, from one -/
  day : Nat
  deriving DecidableEq

/-- Whether a year has a leap day. -/
def isLeapYear (year : Int) : Bool := year % 4 = 0 && (year % 100 ≠ 0 || year % 400 = 0)

/-- The number of days of a month. -/
def daysInMonth (year : Int) (month : Nat) : Nat :=
  match month with
  | 2 => if isLeapYear year then 29 else 28
  | 4 | 6 | 9 | 11 => 30
  | _ => 31

namespace Date

/-- Whether the date exists. -/
def isValid (d : Date) : Bool :=
  1 ≤ d.month && d.month ≤ 12 && 1 ≤ d.day && d.day ≤ daysInMonth d.year d.month

/-- The days before a month, in a year that starts in March; months count from zero. -/
def daysBeforeMonth (month : Nat) : Nat := (153 * month + 2) / 5

/-- The days before a year of an era; years count from zero. -/
def daysBeforeYear (year : Nat) : Nat := 365 * year + year / 4 - year / 100

/-- The day number of 1970-01-01 in its era, which begins in March of the year zero. -/
def epochOffset : Int := 719468

/-- The date of a day number. -/
def ofDays (days : Int) : Date :=
  let shifted := days + epochOffset
  let era := shifted / 146097
  let dayOfEra := (shifted % 146097).toNat
  let yearOfEra := (dayOfEra - dayOfEra / 1460 + dayOfEra / 36524 - dayOfEra / 146096) / 365
  let dayOfYear := dayOfEra - daysBeforeYear yearOfEra
  let month := (5 * dayOfYear + 2) / 153
  let year := era * 400 + yearOfEra
  { year := if month < 10 then year else year + 1
    month := if month < 10 then month + 3 else month - 9
    day := dayOfYear - daysBeforeMonth month + 1 }

/-- The day number of a date. -/
def toDays (d : Date) : Int :=
  let year := if d.month ≤ 2 then d.year - 1 else d.year
  let month := if d.month ≤ 2 then d.month + 9 else d.month - 3
  let yearOfEra := (year % 400).toNat
  let dayOfEra := daysBeforeYear yearOfEra + daysBeforeMonth month + (d.day - 1)
  year / 400 * 146097 + dayOfEra - epochOffset

end Date

end PermissionedLedger.Time
