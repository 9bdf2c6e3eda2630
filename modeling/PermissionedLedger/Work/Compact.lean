import PermissionedLedger.Bytes.Hex

/-!
# Compact targets

A proof-of-work target is a number below `2^256` that the digest of a block, read
as a number, must not exceed. Headers carry it in 32 bits: the top byte counts the
bytes of the number, the low 23 bits are its leading bits, and the bit between is
a sign. Targets are never negative, so a set sign makes the form invalid, unless
the leading bits are all zero.

* `target?` reads the compact form; `ofTarget` writes it, rounding down.
* `work` is the expected number of digests to try until one meets the target.
-/

namespace PermissionedLedger.Work

-- powers are those of the core library, whatever else is imported
attribute [local instance (high)] instPowNat

/-- The bound below which targets and amounts of work lie. -/
def bound : Nat := 2 ^ (256 : Nat)

/-- The target of a compact form, unless it is negative or too large. -/
def target? (bits : UInt32) : Option Nat :=
  let exponent := bits.toNat / 2 ^ (24 : Nat)
  let mantissa := bits.toNat % 2 ^ (23 : Nat)
  if mantissa = 0 then some 0
  else if bits.toNat / 2 ^ (23 : Nat) % 2 = 1 then none
  else if exponent ≤ 3 then some (mantissa / 256 ^ (3 - exponent))
  else if 34 < exponent ∨ (0xff < mantissa ∧ 33 < exponent) ∨
      (0xffff < mantissa ∧ 32 < exponent) then none
  else some (mantissa * 256 ^ (exponent - 3))

/-- The number of bytes that a positive number takes. -/
def byteLength (n : Nat) : Nat := (Nat.log2 n + 8) / 8

/-- The compact form of a target, its leading bits rounded down. -/
def ofTarget (target : Nat) : UInt32 :=
  if target = 0 then 0
  else
    let exponent := byteLength target
    let mantissa :=
      if exponent ≤ 3 then target * 256 ^ (3 - exponent) else target / 256 ^ (exponent - 3)
    -- a byte moves into the exponent where the leading bit would be read as a sign
    if mantissa < 2 ^ (23 : Nat) then UInt32.ofNat (exponent * 2 ^ (24 : Nat) + mantissa)
    else UInt32.ofNat ((exponent + 1) * 2 ^ (24 : Nat) + mantissa / 256)

/-- The expected number of digests to try until one meets the target; zero for forms that are
invalid or stand for zero. -/
def work (bits : UInt32) : Nat :=
  match target? bits with
  | none => 0
  | some target =>
    if target = 0 ∨ target = bound - 1 then 0 else (bound - 1 - target) / (target + 1) + 1

/-- The sum of two amounts of work, which stays below the bound. -/
def total (a b : Nat) : Nat := min (a + b) (bound - 1)

end PermissionedLedger.Work
