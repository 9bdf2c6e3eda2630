/-!
# Byte strings

Everything that is hashed, signed or written to a file is a list of bytes. This
module fixes how natural numbers are laid out in them:

* `Bytes.ofNatLE` / `Bytes.ofNatBE` — a number in a given number of bytes, least
  or most significant byte first; high-order bytes that do not fit are dropped.
* `Bytes.toNatLE` / `Bytes.toNatBE` — the number a byte string spells.

`toNatLE_ofNatLE` says that a number that fits is read back.
-/

namespace PermissionedLedger

-- powers are those of the core library, whatever else is imported
attribute [local instance (high)] instPowNat

/-- A finite string of bytes. -/
abbrev Bytes := List UInt8

namespace Bytes

/-- The `width` low-order bytes of a number, least significant first. -/
def ofNatLE : Nat → Nat → Bytes
  | 0, _ => []
  | width + 1, n => UInt8.ofNat n :: ofNatLE width (n / 256)

/-- The `width` low-order bytes of a number, most significant first. -/
def ofNatBE (width n : Nat) : Bytes := (ofNatLE width n).reverse

/-- The number spelled by the bytes, least significant first. -/
def toNatLE : Bytes → Nat
  | [] => 0
  | b :: bs => b.toNat + 256 * toNatLE bs

/-- The number spelled by the bytes, most significant first. -/
def toNatBE (bs : Bytes) : Nat := toNatLE bs.reverse

/-- The bytes as a vector of length `n`, if that is how many there are. -/
def toVector? (n : Nat) (bs : Bytes) : Option (Vector UInt8 n) :=
  if h : bs.length = n then some ⟨bs.toArray, by simp [h]⟩ else none

/-- The `n` low-order bytes of a number as a vector, most significant first. -/
def vectorOfNatBE (n value : Nat) : Vector UInt8 n :=
  .ofFn fun i => UInt8.ofNat (value / 256 ^ (n - 1 - i.val))

@[simp] theorem length_ofNatLE (width n : Nat) : (ofNatLE width n).length = width := by
  induction width generalizing n with
  | zero => rfl
  | succ w ih => simp [ofNatLE, ih]

@[simp] theorem length_ofNatBE (width n : Nat) : (ofNatBE width n).length = width := by
  simp [ofNatBE]

/-- A number that fits in `width` bytes is read back. -/
theorem toNatLE_ofNatLE {width n : Nat} (h : n < 256 ^ width) :
    toNatLE (ofNatLE width n) = n := by
  induction width generalizing n with
  | zero => simp_all [ofNatLE, toNatLE]
  | succ w ih =>
    have hdiv : n / 256 < 256 ^ w := Nat.div_lt_of_lt_mul (by rwa [Nat.pow_succ, Nat.mul_comm] at h)
    rw [ofNatLE, toNatLE, ih hdiv]
    simp only [UInt8.toNat_ofNat']
    omega

/-- The bytes of a number spell it modulo the capacity of the width. -/
theorem toNatLE_lt (bs : Bytes) : toNatLE bs < 256 ^ bs.length := by
  induction bs with
  | nil => simp [toNatLE]
  | cons b bs ih =>
    have hb := b.toNat_lt
    simp only [toNatLE, List.length_cons, Nat.pow_succ]
    omega

@[simp] theorem toVector?_toList {n : Nat} (v : Vector UInt8 n) :
    toVector? n v.toList = some v := by
  rcases v with ⟨a, ha⟩
  subst ha
  simp [toVector?]

end Bytes

end PermissionedLedger
