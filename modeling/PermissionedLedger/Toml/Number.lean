import PermissionedLedger.Bytes.Hex
import PermissionedLedger.Text.Digits
import PermissionedLedger.Time.Calendar
import PermissionedLedger.Toml.Scan

/-!
# Numbers and dates

Integers have 64 bits and are written in base ten, or without a sign in base
sixteen, eight or two. Single underscores may stand between digits, and a number in
base ten has no leading zeros. A float must not be so large that it rounds to
infinity, unless it is negative.

Dates have to exist. Times have seconds, and an offset only together with a date.
-/

namespace PermissionedLedger.Toml.Number

-- powers are those of the core library, whatever else is imported
attribute [local instance (high)] instPowNat

/-! ## Digits -/

/-- More digits of a number, and single underscores before them. -/
def moreDigits (isDigit : Char → Bool) : List Char → List Char × List Char
  | '_' :: d :: cs =>
    if isDigit d then
      let (ds, rest) := moreDigits isDigit cs
      (d :: ds, rest)
    else ([], '_' :: d :: cs)
  | d :: cs =>
    if isDigit d then
      let (ds, rest) := moreDigits isDigit cs
      (d :: ds, rest)
    else ([], d :: cs)
  | [] => ([], [])

/-- The digits of a number, at least one. -/
def digits (isDigit : Char → Bool) : Reader (List Char)
  | d :: cs =>
    if isDigit d then
      let (ds, rest) := moreDigits isDigit cs
      some (d :: ds, rest)
    else none
  | [] => none

/-- The digits of a number in base ten: a zero alone, or digits that begin with another one. -/
def decimal : Reader (List Char)
  | '0' :: cs => some (['0'], cs)
  | cs => digits Digits.isDigit cs

/-- An optional sign; whether it is a minus. -/
def sign : List Char → Bool × List Char
  | '-' :: cs => (true, cs)
  | '+' :: cs => (false, cs)
  | cs => (false, cs)

/-! ## Integers -/

/-- An integer, if it has 64 bits. -/
def word? (n : Int) : Option Int :=
  if -2 ^ (63 : Nat) ≤ n ∧ n < 2 ^ (63 : Nat) then some n else none

/-- The number that digits spell in a base. -/
def value (base : Nat) (ds : List Char) : Nat :=
  ds.foldl (fun acc d => base * acc + (Hex.digit? d).getD 0) 0

/-- An integer in a base other than ten. -/
def inBase (base : Nat) (cs : List Char) : Option (Int × List Char) := do
  let (ds, rest) ← digits (fun c => (Hex.digit? c).any (· < base)) cs
  return (← word? (value base ds), rest)

/-- An integer. -/
def readInteger : Reader Int
  | '0' :: 'x' :: cs => inBase 16 cs
  | '0' :: 'o' :: cs => inBase 8 cs
  | '0' :: 'b' :: cs => inBase 2 cs
  | cs => do
    let (isNegative, cs) := sign cs
    let (ds, rest) ← decimal cs
    let n : Int := value 10 ds
    return (← word? (if isNegative then -n else n), rest)

/-! ## Floats -/

/-- The least positive number that rounds to infinity in double precision. -/
def overflow : Nat := 2 ^ (1024 : Nat) - 2 ^ (970 : Nat)

/-- Whether `m * 10 ^ e` rounds to infinity. The number of digits before the point settles it for
all but numbers close to the bound. -/
def overflows (m : Nat) (e : Int) : Bool :=
  let places := (Nat.toDigits 10 m).length + e
  if m = 0 ∨ places < 309 then false
  else if 309 < places then true
  else if 0 ≤ e then overflow ≤ m * 10 ^ e.toNat
  else overflow * 10 ^ (-e).toNat ≤ m

/-- The digits after a point, if there is one. -/
def readFraction : Reader (List Char)
  | '.' :: cs => digits Digits.isDigit cs
  | _ => none

/-- An exponent, if there is one. -/
def readExponent : Reader Int
  | c :: cs =>
    if c = 'e' || c = 'E' then do
      let (isNegative, cs) := sign cs
      let (ds, rest) ← digits Digits.isDigit cs
      let n : Int := value 10 ds
      return (if isNegative then -n else n, rest)
    else none
  | [] => none

/-- A float with a fraction, an exponent or both; the result is the rest of the text. -/
def readFinite (cs : List Char) : Option (List Char) := do
  let (isNegative, cs) := sign cs
  let (whole, cs) ← decimal cs
  let (part, cs) ←
    match readFraction cs with
    | some found => some found
    | none => if (readExponent cs).isSome then some ([], cs) else none
  let (exponent, cs) := (readExponent cs).getD (0, cs)
  if !isNegative && overflows (value 10 (whole ++ part)) (exponent - part.length) then none
  else return cs

/-- Infinity or not a number. -/
def readSpecial (cs : List Char) : Option (List Char) :=
  match (sign cs).2 with
  | 'i' :: 'n' :: 'f' :: rest => some rest
  | 'n' :: 'a' :: 'n' :: rest => some rest
  | _ => none

/-- A float; the result is the rest of the text. -/
def readFloat (cs : List Char) : Option (List Char) := (readFinite cs).or (readSpecial cs)

/-! ## Dates and times -/

/-- A number of exactly so many digits. -/
def field (width : Nat) (cs : List Char) : Option (Nat × List Char) :=
  let ds := cs.take width
  if ds.length = width && ds.all Digits.isDigit then some (Digits.value ds, cs.drop width) else none

/-- A date that exists; the result is the rest of the text. -/
def readDate (cs : List Char) : Option (List Char) := do
  let (year, cs) ← field 4 cs
  let (_, cs) ← one '-' cs
  let (month, cs) ← field 2 cs
  let (_, cs) ← one '-' cs
  let (day, cs) ← field 2 cs
  let date : Time.Date := ⟨year, month, day⟩
  if date.isValid then return cs else none

/-- Hours and minutes; the result is the rest of the text. -/
def readMinute (cs : List Char) : Option (List Char) := do
  let (hour, cs) ← field 2 cs
  let (_, cs) ← one ':' cs
  let (minute, cs) ← field 2 cs
  if hour ≤ 23 ∧ minute ≤ 59 then return cs else none

/-- A time of day; the result is the rest of the text. -/
def readTime (cs : List Char) : Option (List Char) := do
  let cs ← readMinute cs
  let (_, cs) ← one ':' cs
  let (second, cs) ← field 2 cs
  if 60 < second then none
  match cs with
  | '.' :: d :: rest => if Digits.isDigit d then return rest.dropWhile Digits.isDigit else return cs
  | _ => return cs

/-- An offset from UTC; the result is the rest of the text. -/
def readOffset : List Char → Option (List Char)
  | c :: cs =>
    if c = 'Z' || c = 'z' then some cs
    else if c = '+' || c = '-' then readMinute cs
    else none
  | [] => none

/-- What may follow a date: a time and an offset; the result is the rest of the text. -/
def readTimeOfDate : List Char → Option (List Char)
  | c :: cs =>
    if c = 'T' || c = 't' || c = ' ' then do
      let rest ← readTime cs
      return (readOffset rest).getD rest
    else none
  | [] => none

/-- A date, a date with a time, or a time; the result is the rest of the text. -/
def readMoment (cs : List Char) : Option (List Char) :=
  match readDate cs with
  | some rest => some ((readTimeOfDate rest).getD rest)
  | none => readTime cs

end PermissionedLedger.Toml.Number
