import PermissionedLedger.Text.Blank
import PermissionedLedger.Time.Instant

/-!
# RFC 3339 timestamps

Writing is canonical: the letter `T` between date and time, `Z` at the end, and
no more digits of a fraction than needed.

Reading is generous. It takes blanks between the parts, a space or a small letter
between date and time, fields of fewer digits, a signed year of any length, a
fraction of any length (digits after the ninth are dropped), and an offset from
UTC in hours and minutes. The result is always in UTC, and the moment must be
representable both as written and in UTC.
-/

namespace PermissionedLedger.Time.Rfc3339

-- powers are those of the core library, whatever else is imported
attribute [local instance (high)] instPowNat

/-- The canonical form of an instant. -/
def write (i : Instant) : List Char := i.dateText ++ 'T' :: i.timeText ++ ['Z']

/-- What follows the given character, after blanks, at the front of a text. -/
def expect (c : Char) (cs : List Char) : Option (List Char) :=
  match Blank.skip cs with
  | d :: rest => if d = c then some rest else none
  | [] => none

/-- A year with an optional sign. -/
def readYear (cs : List Char) : Option (Int × List Char) :=
  match Blank.skip cs with
  | '-' :: rest => (Digits.scanAll rest).map fun (n, rest) => (-(n : Int), rest)
  | '+' :: rest => (Digits.scanAll rest).map fun (n, rest) => ((n : Int), rest)
  | cs => (Digits.scan 4 cs).map fun (n, rest) => ((n : Int), rest)

/-- A field of one or two digits, after blanks. -/
def readField (cs : List Char) : Option (Nat × List Char) := Digits.scan 2 (Blank.skip cs)

/-- A date that exists, as a day number. -/
def readDate (cs : List Char) : Option (Int × List Char) := do
  let (year, cs) ← readYear cs
  let cs ← expect '-' cs
  let (month, cs) ← readField cs
  let cs ← expect '-' cs
  let (day, cs) ← readField cs
  let date : Date := ⟨year, month, day⟩
  if date.isValid then return (date.toDays, cs) else none

/-- The separator between date and time. -/
def readSeparator : List Char → Option (List Char)
  | 'T' :: cs | 't' :: cs | ' ' :: cs => some cs
  | _ => none

/-- A fraction of a second in nanoseconds, zero if there is none. -/
def readFraction : List Char → Option (Nat × List Char)
  | '.' :: cs =>
    match (cs.take 9).takeWhile Digits.isDigit with
    | [] => none
    | ds => some (Digits.value ds * 10 ^ (9 - ds.length), cs.dropWhile Digits.isDigit)
  | cs => some (0, cs)

/-- A time of day: its second and its nanoseconds. -/
def readTime (cs : List Char) : Option ((Int × Nat) × List Char) := do
  let (hour, cs) ← readField cs
  let cs ← expect ':' cs
  let (minute, cs) ← readField cs
  let cs ← expect ':' cs
  let (second, cs) ← readField cs
  let (nanos, cs) ← readFraction cs
  if hour ≤ 23 ∧ minute ≤ 59 ∧ second ≤ 60 then
    let leap := second / 60
    return (((hour * 3600 + minute * 60 + second - leap : Nat), nanos + leap * secondNanos), cs)
  else none

/-- Two digits and what follows them. -/
def readTwoDigits : List Char → Option (Nat × List Char)
  | a :: b :: cs =>
    if Digits.isDigit a && Digits.isDigit b then some (Digits.value [a, b], cs) else none
  | _ => none

/-- An offset from UTC in seconds. -/
def readOffset (cs : List Char) : Option (Int × List Char) :=
  match Blank.skip cs with
  | 'Z' :: cs | 'z' :: cs => some (0, cs)
  | u :: t :: c :: cs =>
    if [u, t, c].map Char.toUpper = ['U', 'T', 'C'] then some (0, cs)
    else do
      let sign : Int ← if u = '+' then some 1 else if u = '-' ∨ u = '−' then some (-1) else none
      let (hours, cs) ← readTwoDigits (t :: c :: cs)
      let (minutes, cs) ← readTwoDigits (cs.dropWhile fun c => c = ':' || Blank.isBlank c)
      if minutes ≤ 59 ∧ hours ≤ 23 then return (sign * (hours * 3600 + minutes * 60), cs) else none
  | _ => none

/-- The instant that a text denotes. -/
def read? (cs : List Char) : Option Instant := do
  let (day, cs) ← readDate cs
  let cs ← readSeparator cs
  let ((second, nanos), cs) ← readTime cs
  let (offset, cs) ← readOffset cs
  if Blank.skip cs = [] then do
    let there ← Instant.ofUnix? (day * daySeconds + second) nanos
    Instant.ofUnix? (there.seconds - offset) nanos
  else none

end PermissionedLedger.Time.Rfc3339
