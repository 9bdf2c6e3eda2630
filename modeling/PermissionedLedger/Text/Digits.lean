/-!
# Decimal digits

Numbers in fixed-width fields (`padded`) and the digits at the front of a text
(`scan`). Only the ten ASCII digits count.
-/

namespace PermissionedLedger.Digits

-- powers are those of the core library, whatever else is imported
attribute [local instance (high)] instPowNat

/-- Whether a character is one of the ten digits. -/
def isDigit (c : Char) : Bool := 48 ≤ c.toNat && c.toNat ≤ 57

/-- The value of a digit. -/
def digitValue (c : Char) : Nat := c.toNat - 48

/-- The digit of a number below ten. -/
def digit (n : Nat) : Char := Char.ofNat (48 + n)

/-- The number that a string of digits spells. -/
def value (ds : List Char) : Nat := ds.foldl (fun acc d => 10 * acc + digitValue d) 0

/-- The last `width` digits of a number, with leading zeros. -/
def field : (width n : Nat) → List Char
  | 0, _ => []
  | w + 1, n => field w (n / 10) ++ [digit (n % 10)]

/-- A number with leading zeros up to `width` digits. -/
def padded (width n : Nat) : List Char :=
  let ds := Nat.toDigits 10 n
  List.replicate (width - ds.length) '0' ++ ds

/-- The number at the front of a text, of one to `limit` digits, and what follows it. -/
def scan (limit : Nat) (cs : List Char) : Option (Nat × List Char) :=
  match (cs.take limit).takeWhile isDigit with
  | [] => none
  | ds => some (value ds, cs.drop ds.length)

/-- The number at the front of a text, of any number of digits, and what follows it. -/
def scanAll (cs : List Char) : Option (Nat × List Char) :=
  match cs.takeWhile isDigit with
  | [] => none
  | ds => some (value ds, cs.dropWhile isDigit)

@[simp] theorem length_field (width n : Nat) : (field width n).length = width := by
  induction width generalizing n with
  | zero => rfl
  | succ w ih => simp [field, ih]

theorem isDigit_digit {n : Nat} (h : n < 10) : isDigit (digit n) = true := by
  have : n = 0 ∨ n = 1 ∨ n = 2 ∨ n = 3 ∨ n = 4 ∨ n = 5 ∨ n = 6 ∨ n = 7 ∨ n = 8 ∨ n = 9 := by
    omega
  rcases this with h | h | h | h | h | h | h | h | h | h <;> subst h <;> rfl

theorem digitValue_digit {n : Nat} (h : n < 10) : digitValue (digit n) = n := by
  have : n = 0 ∨ n = 1 ∨ n = 2 ∨ n = 3 ∨ n = 4 ∨ n = 5 ∨ n = 6 ∨ n = 7 ∨ n = 8 ∨ n = 9 := by
    omega
  rcases this with h | h | h | h | h | h | h | h | h | h <;> subst h <;> rfl

/-- A field holds digits only. -/
theorem isDigit_of_mem_field {width n : Nat} {c : Char} (h : c ∈ field width n) :
    isDigit c = true := by
  induction width generalizing n with
  | zero => simp [field] at h
  | succ w ih =>
    rcases List.mem_append.1 h with h | h
    · exact ih h
    · rw [List.mem_singleton.1 h]
      exact isDigit_digit (Nat.mod_lt _ (by decide))

/-- A number that fits its field is spelled by it. -/
theorem value_field {width n : Nat} (h : n < 10 ^ width) : value (field width n) = n := by
  induction width generalizing n with
  | zero => simp_all [field, value]
  | succ w ih =>
    have hdiv : n / 10 < 10 ^ w := Nat.div_lt_of_lt_mul (by rwa [Nat.pow_succ, Nat.mul_comm] at h)
    have hlast := digitValue_digit (Nat.mod_lt n (y := 10) (by decide))
    rw [field, value, List.foldl_append, ← value, ih hdiv]
    simp only [List.foldl_cons, List.foldl_nil, hlast]
    omega

end PermissionedLedger.Digits
