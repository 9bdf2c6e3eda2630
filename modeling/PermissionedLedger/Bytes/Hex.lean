import PermissionedLedger.Bytes.Basic

/-!
# Hexadecimal text

Bytes are shown as two lower-case digits each. Reading also takes upper-case
digits and refuses an odd number of digits and any other character.
`decode?_encode` says that what is shown reads back.
-/

namespace PermissionedLedger.Hex

/-- The lower-case digit of a number below sixteen. -/
def digit (n : Nat) : Char :=
  if n < 10 then Char.ofNat (48 + n) else Char.ofNat (87 + n)

/-- The value of a digit of either case. -/
def digit? (c : Char) : Option Nat :=
  let n := c.toNat
  if 48 ≤ n ∧ n ≤ 57 then some (n - 48)
  else if 97 ≤ n ∧ n ≤ 102 then some (n - 87)
  else if 65 ≤ n ∧ n ≤ 70 then some (n - 55)
  else none

/-- Two digits a byte, high half first. -/
def encode : Bytes → List Char
  | [] => []
  | b :: bs => digit (b.toNat / 16) :: digit (b.toNat % 16) :: encode bs

/-- The bytes that a digit string of even length spells. -/
def decode? : List Char → Option Bytes
  | [] => some []
  | [_] => none
  | high :: low :: rest => do
    let h ← digit? high
    let l ← digit? low
    let bs ← decode? rest
    return UInt8.ofNat (16 * h + l) :: bs

/-- The bytes as text. -/
def ofBytes (bs : Bytes) : String := String.ofList (encode bs)

/-- The bytes that a text spells. -/
def toBytes? (s : String) : Option Bytes := decode? s.toList

/-- The digits of a number without leading zeros; zero is a single digit. -/
def digitsOfNat (n : Nat) : List Char := Nat.toDigits 16 n

/-- A number as text: the mark of base sixteen and no leading zeros. -/
def ofNat (n : Nat) : String := "0x" ++ String.ofList (digitsOfNat n)

/-- A word as text: the mark of base sixteen and always eight digits. -/
def ofWord (w : UInt32) : String := "0x" ++ ofBytes (Bytes.ofNatBE 4 w.toNat)

/-- The number spelled by a text that carries the mark of base sixteen. -/
def toNat? (s : String) : Option Nat :=
  match s.toList with
  | '0' :: 'x' :: (d :: ds) =>
    (d :: ds).foldlM (fun acc c => (digit? c).map (16 * acc + ·)) 0
  | _ => none

theorem digit?_digit {n : Nat} (h : n < 16) : digit? (digit n) = some n := by
  have : n = 0 ∨ n = 1 ∨ n = 2 ∨ n = 3 ∨ n = 4 ∨ n = 5 ∨ n = 6 ∨ n = 7 ∨ n = 8 ∨ n = 9 ∨
      n = 10 ∨ n = 11 ∨ n = 12 ∨ n = 13 ∨ n = 14 ∨ n = 15 := by omega
  rcases this with h | h | h | h | h | h | h | h | h | h | h | h | h | h | h | h <;>
    subst h <;> rfl

/-- What is shown reads back. -/
theorem decode?_encode (bs : Bytes) : decode? (encode bs) = some bs := by
  induction bs with
  | nil => rfl
  | cons b bs ih =>
    have hb := b.toNat_lt
    have hh : b.toNat / 16 < 16 := by omega
    have hl : b.toNat % 16 < 16 := by omega
    have hbyte : UInt8.ofNat (16 * (b.toNat / 16) + b.toNat % 16) = b := by
      rw [Nat.div_add_mod]
      simp
    rw [encode, decode?, digit?_digit hh, digit?_digit hl, ih]
    exact congrArg (fun x => some (x :: bs)) hbyte

end PermissionedLedger.Hex
