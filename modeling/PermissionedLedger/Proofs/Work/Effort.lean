import Mathlib
import PermissionedLedger.Proofs.Work.Compact

/-!
# How much work a target stands for

The work of a target `t` is the whole part of `2 ^ 256 / (t + 1)`, how many digests it takes on
average to find one that is not above it (`work_of_target?`). The dividend has no place in a word
of 256 bits, so the quotient is computed from the complement of `t`, and then no step leaves the
word (`toNat_wordWork`).

This holds of all targets but zero, which is left without work, and the greatest number of all,
which no compact form stands for (`target?_ne_max`).
-/

namespace PermissionedLedger.Work

-- powers are those of the core library, as in the definitions
attribute [local instance (high)] instPowNat

variable {bits bits' : UInt32} {t t' : Nat}

/-- The work of a target in words of 256 bits. -/
def wordWork (target : BitVec 256) : BitVec 256 := ~~~target / (target + 1) + 1

/-- The compact form cannot express the greatest number below the bound. -/
theorem target?_ne_max : target? bits ≠ some (bound - 1) := by
  intro h
  obtain ⟨k, m, hm, heq, -⟩ := eq_mul_pow_of_target? h
  cases k with
  | zero =>
    have hlarge : 2 ^ 23 ≤ bound - 1 := by decide
    rw [Nat.pow_zero, Nat.mul_one] at heq
    omega
  | succ k =>
    -- the lowest byte is zero
    have hbyte : (bound - 1) % 256 ≠ 0 := by decide
    rw [heq, Nat.pow_succ, ← Nat.mul_assoc, Nat.mul_mod_left] at hbyte
    exact hbyte rfl

/-- There is room to count on from a target. -/
theorem succ_lt_bound_of_target? (h : target? bits = some t) : t + 1 < bound := by
  have hlt := lt_bound_of_target? h
  have hne : t ≠ bound - 1 := by
    rintro rfl
    exact target?_ne_max h
  omega

/-- The dividend is too large by one, and so is the quotient too small without it. -/
theorem sub_div_succ (ht : t + 1 < bound) : (bound - 1 - t) / (t + 1) + 1 = bound / (t + 1) := by
  rw [← Nat.add_div_right _ (Nat.succ_pos t)]
  congr 1
  omega

theorem work_of_target? (h : target? bits = some t) (hpos : 0 < t) :
    work bits = bound / (t + 1) := by
  have ht := succ_lt_bound_of_target? h
  rw [work, h]
  simp only
  rw [if_neg (by omega), sub_div_succ ht]

theorem work_eq_zero (h : ∀ t, target? bits = some t → t = 0) : work bits = 0 := by
  rw [work]
  split
  · rfl
  · next t ht => rw [if_pos (Or.inl (h t ht))]

/-- A positive target leaves at least half of the bound. -/
theorem quotient_lt (hpos : 0 < t) : bound / (t + 1) < bound :=
  Nat.div_lt_self (Nat.two_pow_pos 256) (by omega)

theorem quotient_pos (ht : t + 1 < bound) : 0 < bound / (t + 1) :=
  Nat.div_pos ht.le (Nat.succ_pos t)

theorem toNat_wordWork (hpos : 0 < t) (ht : t + 1 < bound) :
    (wordWork (.ofNat 256 t)).toNat = bound / (t + 1) := by
  have hword : (BitVec.ofNat 256 t).toNat = t :=
    BitVec.toNat_ofNat _ _ ▸ Nat.mod_eq_of_lt (Nat.lt_of_succ_lt ht)
  have hsucc : (BitVec.ofNat 256 t + 1).toNat = t + 1 := by
    rw [BitVec.toNat_add, hword]
    exact Nat.mod_eq_of_lt ht
  have hquotient : (~~~(BitVec.ofNat 256 t) / (BitVec.ofNat 256 t + 1)).toNat =
      (bound - 1 - t) / (t + 1) := by
    rw [BitVec.toNat_udiv, BitVec.toNat_not, hword, hsucc]
    rfl
  have hlt : bound / (t + 1) < 2 ^ 256 := quotient_lt hpos
  rw [wordWork, BitVec.toNat_add, hquotient]
  refine (Nat.mod_eq_of_lt ?_).trans (sub_div_succ ht)
  exact (sub_div_succ ht).trans_lt hlt

/-- Harder targets stand for more work. -/
theorem work_anti (h : target? bits = some t) (h' : target? bits' = some t') (hpos : 0 < t)
    (hle : t ≤ t') : work bits' ≤ work bits := by
  rw [work_of_target? h hpos, work_of_target? h' (hpos.trans_le hle)]
  exact Nat.div_le_div_left (Nat.succ_le_succ hle) (Nat.succ_pos t)

end PermissionedLedger.Work
