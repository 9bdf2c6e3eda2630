import PermissionedLedger.Text.Digits
import PermissionedLedger.Time.Calendar

/-!
# Instants

A moment of Coordinated Universal Time with nanoseconds, from the year -262143 to
the year 262142. A leap second is written as the second before it with a
billion nanoseconds or more, and exists only after the last second of a minute.

* Instants are ordered by second, then by nanosecond.
* `addSeconds?` moves by whole seconds. A move out of a leap second lands where
  the same move from the ordinary second before it (backwards: after it) would.
* `secondsSince` is the difference in whole seconds, towards zero. A leap second
  counts only if one of the two instants lies in it.
-/

namespace PermissionedLedger.Time

/-- The first second that is representable. -/
def minSeconds : Int := -8334601228800

/-- The last second that is representable. -/
def maxSeconds : Int := 8210266876799

/-- The number of seconds of a day. -/
def daySeconds : Int := 86400

/-- The number of nanoseconds of a second. -/
def secondNanos : Nat := 1000000000

/-- Whether a second and a nanosecond make a representable instant. -/
def isInstant (seconds : Int) (nanos : Nat) : Bool :=
  minSeconds ≤ seconds && seconds ≤ maxSeconds && nanos < 2 * secondNanos &&
    (nanos < secondNanos || seconds % 60 = 59)

/-- A moment of Coordinated Universal Time. -/
structure Instant where
  /-- seconds since 1970-01-01 00:00:00 -/
  seconds : Int
  /-- nanoseconds; a billion and more in a leap second -/
  nanos : Nat
  /-- the instant is representable -/
  isInstant : isInstant seconds nanos = true
  deriving DecidableEq

namespace Instant

/-- The start of Unix time. -/
def epoch : Instant := ⟨0, 0, by decide⟩

instance : Inhabited Instant := ⟨epoch⟩

/-- The last instant outside a leap second. -/
def last : Instant := ⟨maxSeconds, 999999999, by decide⟩

/-- The instant of a second and a nanosecond, if it is representable. -/
def ofUnix? (seconds : Int) (nanos : Nat) : Option Instant :=
  if h : Time.isInstant seconds nanos then some ⟨seconds, nanos, h⟩ else none

/-- Whether the instant lies in a leap second. -/
def isLeap (i : Instant) : Bool := secondNanos ≤ i.nanos

/-- Instants are ordered by second, then by nanosecond. -/
instance : Ord Instant :=
  ⟨compareLex (compareOn Instant.seconds) (compareOn Instant.nanos)⟩

instance : LT Instant :=
  ⟨fun a b => a.seconds < b.seconds ∨ (a.seconds = b.seconds ∧ a.nanos < b.nanos)⟩

instance : LE Instant :=
  ⟨fun a b => a.seconds < b.seconds ∨ (a.seconds = b.seconds ∧ a.nanos ≤ b.nanos)⟩

instance (a b : Instant) : Decidable (a < b) :=
  inferInstanceAs (Decidable (a.seconds < b.seconds ∨ (a.seconds = b.seconds ∧ a.nanos < b.nanos)))

instance (a b : Instant) : Decidable (a ≤ b) :=
  inferInstanceAs (Decidable (a.seconds < b.seconds ∨ (a.seconds = b.seconds ∧ a.nanos ≤ b.nanos)))

theorem lt_def {a b : Instant} :
    a < b ↔ a.seconds < b.seconds ∨ (a.seconds = b.seconds ∧ a.nanos < b.nanos) := Iff.rfl

theorem le_def {a b : Instant} :
    a ≤ b ↔ a.seconds < b.seconds ∨ (a.seconds = b.seconds ∧ a.nanos ≤ b.nanos) := Iff.rfl

theorem not_lt {a b : Instant} : ¬ a < b ↔ b ≤ a := by
  rw [lt_def, le_def]
  omega

theorem not_le {a b : Instant} : ¬ a ≤ b ↔ b < a := by
  rw [lt_def, le_def]
  omega

/-- The instant a number of seconds later, if it is representable. -/
def addSeconds? (i : Instant) (delta : Int) : Option Instant :=
  if delta = 0 then some i
  else if i.isLeap then
    ofUnix? (if 0 < delta then i.seconds + delta else i.seconds + 1 + delta) (i.nanos - secondNanos)
  else ofUnix? (i.seconds + delta) i.nanos

/-- The instant a number of seconds later, or the last one when there is none. -/
def addSeconds (i : Instant) (delta : Int) : Instant := (i.addSeconds? delta).getD last

/-- The second of the day, from zero. -/
def secondOfDay (i : Instant) : Int := i.seconds % daySeconds

/-- The difference to an earlier or later instant in nanoseconds. -/
def nanosSince (a b : Instant) : Int :=
  let leap : Int :=
    if b.secondOfDay < a.secondOfDay ∧ b.isLeap then 1
    else if a.secondOfDay < b.secondOfDay ∧ a.isLeap then -1
    else 0
  (a.seconds - b.seconds + leap) * secondNanos + (a.nanos - b.nanos)

/-- The difference to an earlier or later instant in whole seconds, towards zero. -/
def secondsSince (a b : Instant) : Int := (a.nanosSince b).tdiv secondNanos

/-- Between instants outside leap seconds and without nanoseconds the difference is that of the
seconds. -/
theorem secondsSince_of_nanos_zero {a b : Instant} (ha : a.nanos = 0) (hb : b.nanos = 0) :
    a.secondsSince b = a.seconds - b.seconds := by
  have hla : a.isLeap = false := by simp [isLeap, ha, secondNanos]
  have hlb : b.isLeap = false := by simp [isLeap, hb, secondNanos]
  simp [secondsSince, nanosSince, ha, hb, hla, hlb, secondNanos]

/-! ## Text -/

/-- The fraction of a second: nothing, or a point and three, six or nine digits, as few as are
exact. -/
def fractionText (nanos : Nat) : List Char :=
  let n := nanos % secondNanos
  if n = 0 then []
  else if n % 1000000 = 0 then '.' :: Digits.field 3 (n / 1000000)
  else if n % 1000 = 0 then '.' :: Digits.field 6 (n / 1000)
  else '.' :: Digits.field 9 n

/-- A year: four digits, or outside of 0 to 9999 a sign and at least four. -/
def yearText (year : Int) : List Char :=
  if 0 ≤ year ∧ year ≤ 9999 then Digits.field 4 year.toNat
  else (if year < 0 then '-' else '+') :: Digits.padded 4 year.natAbs

/-- The date: year, month and day. -/
def dateText (i : Instant) : List Char :=
  let d := Date.ofDays (i.seconds / daySeconds)
  yearText d.year ++ '-' :: Digits.field 2 d.month ++ '-' :: Digits.field 2 d.day

/-- The time of day; a leap second is shown as the second sixty. -/
def timeText (i : Instant) : List Char :=
  let s := i.secondOfDay.toNat
  Digits.field 2 (s / 3600) ++ ':' :: Digits.field 2 (s / 60 % 60) ++
    ':' :: Digits.field 2 (s % 60 + i.nanos / secondNanos) ++ fractionText i.nanos

/-- The instant as messages show it. -/
def text (i : Instant) : String :=
  String.ofList (i.dateText ++ ' ' :: i.timeText) ++ " UTC"

end Instant

end PermissionedLedger.Time
