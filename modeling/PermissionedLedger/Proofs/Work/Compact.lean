import Mathlib
import PermissionedLedger.Work.Compact

/-!
# Rounding to compact targets

The compact form keeps at most 23 leading bits of a target, and drops whole bytes. So a
target that goes through it comes back rounded down (`rounded`, `target?_ofTarget`): to the
greatest number that has a compact form and is not above it (`le_rounded_of_target?`). From
this it follows that rounding keeps the order and does nothing a second time
(`rounded_mono`, `rounded_of_target?`).
-/

namespace PermissionedLedger.Work

-- powers are those of the core library, as in the definitions
attribute [local instance (high)] instPowNat

variable {n m z exponent mantissa : Nat} {bits : UInt32}

/-! ## Lengths -/

theorem lt_pow_byteLength (n : Nat) : n < 256 ^ byteLength n := by
  have hlt : n < 2 ^ (n.log2 + 1) := Nat.lt_log2_self
  have hle : n.log2 + 1 ≤ 8 * byteLength n := by
    rw [byteLength]
    omega
  calc n < 2 ^ (n.log2 + 1) := hlt
    _ ≤ 2 ^ (8 * byteLength n) := Nat.pow_le_pow_right (by decide) hle
    _ = 256 ^ byteLength n := Nat.pow_mul 2 8 _

theorem pow_le_of_lt_byteLength {k : Nat} (hpos : n ≠ 0) (hk : k < byteLength n) :
    256 ^ k ≤ n := by
  have hle : 8 * k ≤ n.log2 := by
    rw [byteLength] at hk
    omega
  calc 256 ^ k = 2 ^ (8 * k) := (Nat.pow_mul 2 8 k).symm
    _ ≤ 2 ^ n.log2 := Nat.pow_le_pow_right (by decide) hle
    _ ≤ n := Nat.log2_self_le hpos

theorem byteLength_le_of_lt {k : Nat} (hpos : n ≠ 0) (h : n < 256 ^ k) : byteLength n ≤ k := by
  by_contra hlt
  exact absurd (pow_le_of_lt_byteLength hpos (Nat.lt_of_not_le hlt)) (Nat.not_le.2 h)

theorem bound_eq : bound = 256 ^ 32 := by decide

/-! ## What is dropped -/

/-- The number of low bytes that the compact form of a number has no room for. -/
def dropped (n : Nat) : Nat :=
  if n / 256 ^ (byteLength n - 3) < 2 ^ 23 then byteLength n - 3 else byteLength n - 2

/-- A number without its dropped bytes. -/
def rounded (n : Nat) : Nat := n / 256 ^ dropped n * 256 ^ dropped n

theorem rounded_le (n : Nat) : rounded n ≤ n := Nat.div_mul_le_self ..

/-- Three leading bytes are always less than four. -/
theorem div_pow_byteLength_lt (n : Nat) : n / 256 ^ (byteLength n - 3) < 256 ^ 3 := by
  rw [Nat.div_lt_iff_lt_mul (Nat.pow_pos (by decide)), ← Nat.pow_add]
  exact (lt_pow_byteLength n).trans_le (Nat.pow_le_pow_right (by decide) (by omega))

/-- Where the leading bit would be read as a sign, there are three leading bytes. -/
theorem three_le_byteLength (hsign : ¬ n / 256 ^ (byteLength n - 3) < 2 ^ 23) :
    3 ≤ byteLength n := by
  by_contra hshort
  have hle : 256 ^ byteLength n ≤ 256 ^ 2 := Nat.pow_le_pow_right (by decide) (by omega)
  have hlt := lt_pow_byteLength n
  rw [Nat.sub_eq_zero_of_le (by omega), Nat.pow_zero, Nat.div_one] at hsign
  omega

/-- One more byte is dropped then. -/
theorem div_pow_byteLength_succ (hsign : ¬ n / 256 ^ (byteLength n - 3) < 2 ^ 23) :
    n / 256 ^ (byteLength n - 2) = n / 256 ^ (byteLength n - 3) / 256 := by
  have hthree := three_le_byteLength hsign
  rw [show byteLength n - 2 = byteLength n - 3 + 1 by omega, Nat.pow_succ,
    Nat.div_div_eq_div_mul]

/-- Nothing is dropped unless more than 15 bits are left. -/
theorem le_div_dropped (hdropped : dropped n ≠ 0) : 2 ^ 15 ≤ n / 256 ^ dropped n := by
  rw [dropped] at hdropped ⊢
  split at hdropped
  · next hfits =>
    rw [if_pos hfits, Nat.le_div_iff_mul_le (Nat.pow_pos (by decide))]
    have hpos : n ≠ 0 := by
      rintro rfl
      exact hdropped rfl
    calc 2 ^ 15 * 256 ^ (byteLength n - 3) ≤ 256 ^ 2 * 256 ^ (byteLength n - 3) :=
          Nat.mul_le_mul_right _ (by decide)
      _ = 256 ^ (2 + (byteLength n - 3)) := (Nat.pow_add ..).symm
      _ ≤ n := pow_le_of_lt_byteLength hpos (by omega)
  · next hsign =>
    rw [if_neg hsign, div_pow_byteLength_succ hsign]
    omega

/-! ## There and back -/

/-- Reading a count of bytes and leading bits. -/
theorem target?_ofNat (hexponent : exponent ≤ 33) (hmantissa : mantissa < 2 ^ 23)
    (hfits : exponent = 33 → mantissa ≤ 0xffff) :
    target? (UInt32.ofNat (exponent * 2 ^ 24 + mantissa)) =
      some (mantissa * 256 ^ exponent / 256 ^ 3) := by
  have hnat : (UInt32.ofNat (exponent * 2 ^ 24 + mantissa)).toNat =
      exponent * 2 ^ 24 + mantissa := UInt32.toNat_ofNat_of_lt' (by simp only [UInt32.size]; omega)
  simp only [target?, hnat]
  rw [show (exponent * 2 ^ 24 + mantissa) / 2 ^ 24 = exponent by omega,
    show (exponent * 2 ^ 24 + mantissa) % 2 ^ 23 = mantissa by omega,
    show (exponent * 2 ^ 24 + mantissa) / 2 ^ 23 % 2 = 0 by omega]
  split
  · next hzero => rw [hzero, Nat.zero_mul, Nat.zero_div]
  rw [if_neg (by decide)]
  split
  · next hshort =>
    rw [← Nat.pow_sub_mul_pow 256 hshort, Nat.mul_div_mul_right _ _ (Nat.pow_pos (by decide))]
  · next hlong =>
    rw [if_neg (by omega), ← Nat.pow_sub_mul_pow 256 (Nat.le_of_not_le hlong),
      ← Nat.mul_assoc, Nat.mul_div_cancel _ (by decide)]

/-- A number of three bytes at most loses a byte only where the leading bit would be read as a
sign. -/
theorem rounded_of_short (hshort : byteLength n ≤ 3) :
    rounded n = if n < 2 ^ 23 then n else n / 256 * 256 := by
  have hnone : byteLength n - 3 = 0 := by omega
  rw [rounded, dropped, hnone, Nat.pow_zero, Nat.div_one]
  split
  · rw [Nat.pow_zero, Nat.div_one, Nat.mul_one]
  · next hsign =>
    have hthree : 3 ≤ byteLength n := three_le_byteLength (by
      rwa [hnone, Nat.pow_zero, Nat.div_one])
    rw [show byteLength n - 2 = 1 by omega, Nat.pow_one]

/-- What is written stands for the rounded number, and has 16 leading bits at least. -/
theorem ofTarget_eq (hpos : n ≠ 0) (h : n < bound) : ∃ exponent mantissa,
    ofTarget n = UInt32.ofNat (exponent * 2 ^ 24 + mantissa) ∧ exponent ≤ 33 ∧
      2 ^ 15 ≤ mantissa ∧ mantissa < 2 ^ 23 ∧ (exponent = 33 → mantissa ≤ 0xffff) ∧
      mantissa * 256 ^ exponent = rounded n * 256 ^ 3 := by
  have hlength : byteLength n ≤ 32 := byteLength_le_of_lt hpos (bound_eq ▸ h)
  have hlong : 1 ≤ byteLength n := by
    rw [byteLength]
    omega
  have hge : 256 ^ (byteLength n - 1) ≤ n := pow_le_of_lt_byteLength hpos (by omega)
  rw [ofTarget, if_neg hpos]
  simp only
  by_cases hshort : byteLength n ≤ 3
  · rw [if_pos hshort, rounded_of_short hshort]
    have hlt := lt_pow_byteLength n
    generalize byteLength n = length at hshort hlt hlong hge ⊢
    interval_cases length <;> split <;>
      exact ⟨_, _, rfl, by omega, by omega, by omega, by omega, by split <;> omega⟩
  · rw [if_neg hshort]
    have hthree := div_pow_byteLength_lt n
    have htwo : 256 ^ 2 ≤ n / 256 ^ (byteLength n - 3) := by
      rw [Nat.le_div_iff_mul_le (Nat.pow_pos (by decide)), ← Nat.pow_add]
      rwa [show 2 + (byteLength n - 3) = byteLength n - 1 by omega]
    split
    · next hfits =>
      refine ⟨_, _, rfl, by omega, by omega, hfits, by omega, ?_⟩
      rw [rounded, dropped, if_pos hfits, Nat.mul_assoc, ← Nat.pow_add,
        show byteLength n - 3 + 3 = byteLength n by omega]
    · next hsign =>
      refine ⟨_, _, rfl, by omega, by omega, by omega, by omega, ?_⟩
      rw [rounded, dropped, if_neg hsign, div_pow_byteLength_succ hsign, Nat.mul_assoc,
        ← Nat.pow_add, show byteLength n - 2 + 3 = byteLength n + 1 by omega]

/-- A target that is written and read is rounded. -/
theorem target?_ofTarget (h : n < bound) : target? (ofTarget n) = some (rounded n) := by
  by_cases hzero : n = 0
  · subst hzero
    decide
  · obtain ⟨exponent, mantissa, hbits, hexponent, -, hmantissa, hfits, heq⟩ := ofTarget_eq hzero h
    rw [hbits, target?_ofNat hexponent hmantissa hfits, heq, Nat.mul_div_cancel _ (by decide)]

/-- A number of bytes and leading bits is too large in the cases that are told apart. -/
theorem bound_le_mul_pow_iff (hpos : 0 < mantissa) (hmantissa : mantissa < 2 ^ 23)
    (hlong : 3 < exponent) : bound ≤ mantissa * 256 ^ (exponent - 3) ↔
      34 < exponent ∨ (0xff < mantissa ∧ 33 < exponent) ∨ (0xffff < mantissa ∧ 32 < exponent) := by
  rw [bound_eq]
  constructor
  · contrapose!
    intro hfits
    obtain ⟨k, hlt, hk⟩ : ∃ k, mantissa < 256 ^ k ∧ k + (exponent - 3) ≤ 32 := by
      rcases Nat.lt_or_ge 32 exponent with hlarge | hsmall
      · rcases Nat.lt_or_ge 33 exponent with hlarger | hsmaller
        · exact ⟨1, by omega, by omega⟩
        · exact ⟨2, by omega, by omega⟩
      · exact ⟨3, by omega, by omega⟩
    calc mantissa * 256 ^ (exponent - 3) < 256 ^ k * 256 ^ (exponent - 3) :=
          Nat.mul_lt_mul_of_pos_right hlt (Nat.pow_pos (by decide))
      _ = 256 ^ (k + (exponent - 3)) := (Nat.pow_add ..).symm
      _ ≤ 256 ^ 32 := Nat.pow_le_pow_right (by decide) hk
  · intro hlarge
    obtain ⟨k, hle, hk⟩ : ∃ k, 256 ^ k ≤ mantissa ∧ 32 ≤ k + (exponent - 3) := by
      rcases hlarge with hlarge | ⟨hmany, hlarge⟩ | ⟨hmany, hlarge⟩
      · exact ⟨0, by omega, by omega⟩
      · exact ⟨1, by omega, by omega⟩
      · exact ⟨2, by omega, by omega⟩
    calc 256 ^ 32 ≤ 256 ^ (k + (exponent - 3)) := Nat.pow_le_pow_right (by decide) hk
      _ = 256 ^ k * 256 ^ (exponent - 3) := Nat.pow_add ..
      _ ≤ mantissa * 256 ^ (exponent - 3) := Nat.mul_le_mul_right _ hle

/-- What a compact form stands for has 23 leading bits. -/
theorem eq_mul_pow_of_target? (h : target? bits = some z) :
    ∃ k m, m < 2 ^ 23 ∧ z = m * 256 ^ k ∧ z < bound := by
  have hmantissa : bits.toNat % 2 ^ 23 < 2 ^ 23 := Nat.mod_lt _ (by decide)
  simp only [target?] at h
  split at h
  · obtain rfl := Option.some.inj h
    exact ⟨0, 0, by decide, rfl, by decide⟩
  split at h
  · cases h
  split at h
  · next hshort =>
    obtain rfl := Option.some.inj h
    have hle := Nat.div_le_self (bits.toNat % 2 ^ 23) (256 ^ (3 - bits.toNat / 2 ^ 24))
    have hsmall : 2 ^ 23 < bound := by decide
    exact ⟨0, _, hle.trans_lt hmantissa, (Nat.mul_one _).symm,
      (hle.trans_lt hmantissa).trans hsmall⟩
  split at h
  · cases h
  · next hfits =>
    obtain rfl := Option.some.inj h
    refine ⟨_, _, hmantissa, rfl, Nat.lt_of_not_le fun hle => hfits ?_⟩
    exact (bound_le_mul_pow_iff (by omega) hmantissa (by omega)).1 hle

/-- The rounded number is the greatest that has a compact form and is not above the number. -/
theorem le_rounded_of_target? (h : target? bits = some z) (hle : z ≤ n) : z ≤ rounded n := by
  obtain ⟨k, m, hm, rfl, -⟩ := eq_mul_pow_of_target? h
  rw [rounded]
  by_cases hk : dropped n ≤ k
  · -- then it is a multiple of what is counted
    obtain ⟨j, rfl⟩ := Nat.exists_eq_add_of_le' hk
    rw [Nat.pow_add, ← Nat.mul_assoc] at hle ⊢
    exact Nat.mul_le_mul_right _ ((Nat.le_div_iff_mul_le (Nat.pow_pos (by decide))).2 hle)
  · -- then it has fewer bits
    have hmany := le_div_dropped (show dropped n ≠ 0 by omega)
    calc m * 256 ^ k ≤ 2 ^ 23 * 256 ^ (dropped n - 1) :=
          Nat.mul_le_mul hm.le (Nat.pow_le_pow_right (by decide) (by omega))
      _ = 2 ^ 15 * 256 ^ (dropped n - 1 + 1) := by rw [Nat.pow_succ]; omega
      _ = 2 ^ 15 * 256 ^ dropped n := by rw [Nat.sub_add_cancel (by omega)]
      _ ≤ n / 256 ^ dropped n * 256 ^ dropped n := Nat.mul_le_mul_right _ hmany

theorem rounded_mono (hle : m ≤ n) (h : n < bound) : rounded m ≤ rounded n :=
  le_rounded_of_target? (target?_ofTarget (hle.trans_lt h)) ((rounded_le m).trans hle)

theorem lt_bound_of_target? (h : target? bits = some z) : z < bound := by
  obtain ⟨-, -, -, -, hlt⟩ := eq_mul_pow_of_target? h
  exact hlt

/-- What has a compact form is not rounded. -/
theorem rounded_of_target? (h : target? bits = some z) : rounded z = z :=
  Nat.le_antisymm (rounded_le z) (le_rounded_of_target? h le_rfl)

end PermissionedLedger.Work
