import Mathlib
import PermissionedLedger.Proofs.Work.Compact

/-!
# Compact forms

A compact form of exponent `e` and mantissa `m` stands for the number `m * 256 ^ (e - 3)`, a
fraction where the exponent is small (`formValue`). It is invalid if that number is negative or
too large, and its target is the whole part otherwise (`target?_eq`).

What `ofTarget` writes has a mantissa of `2 ^ 15` at least, so that what is dropped is less
than one part in `2 ^ 15` of what is kept (`sub_rounded_mul_lt`). As it is below `2 ^ 23`,
a factor of 256 further up, there is one such form of a number only, and forms are in the
order of the numbers that they stand for (`ofTarget_le_of_rounded_le`).
-/

namespace PermissionedLedger.Work

-- powers are those of the core library, as in the definitions
attribute [local instance (high)] instPowNat

variable {n m exponent exponent' mantissa mantissa' : Nat} {bits : UInt32}

/-! ## Reading -/

/-- The top byte of a compact form. -/
def exponentOf (bits : UInt32) : Nat := bits.toNat / 2 ^ 24

/-- The low 23 bits of a compact form. -/
def mantissaOf (bits : UInt32) : Nat := bits.toNat % 2 ^ 23

/-- The bit between is set. -/
def IsSigned (bits : UInt32) : Prop := bits.toNat / 2 ^ 23 % 2 = 1

instance (bits : UInt32) : Decidable (IsSigned bits) := inferInstanceAs (Decidable (_ = _))

/-- The number that a compact form stands for, apart from its sign. -/
def formValue (bits : UInt32) : ℚ := mantissaOf bits * 256 ^ ((exponentOf bits : ℤ) - 3)

theorem mantissaOf_lt (bits : UInt32) : mantissaOf bits < 2 ^ 23 := Nat.mod_lt _ (by decide)

theorem formValue_of_short (hshort : exponentOf bits ≤ 3) :
    formValue bits = (mantissaOf bits : ℚ) / (256 ^ (3 - exponentOf bits) : Nat) := by
  have hexponent : (exponentOf bits : ℤ) - 3 = -((3 - exponentOf bits : Nat) : ℤ) := by omega
  rw [formValue, hexponent, zpow_neg, zpow_natCast, ← div_eq_mul_inv, Nat.cast_pow]
  rfl

theorem formValue_of_long (hlong : 3 < exponentOf bits) :
    formValue bits = (mantissaOf bits * 256 ^ (exponentOf bits - 3) : Nat) := by
  have hexponent : (exponentOf bits : ℤ) - 3 = (exponentOf bits - 3 : Nat) := by omega
  rw [formValue, hexponent, zpow_natCast, Nat.cast_mul, Nat.cast_pow]
  rfl

/-- A small exponent makes no number too large. -/
theorem formValue_lt_of_short (hshort : exponentOf bits ≤ 3) : formValue bits < 2 ^ 256 := by
  have hmantissa : (mantissaOf bits : ℚ) < 2 ^ 23 := by exact_mod_cast mantissaOf_lt bits
  calc formValue bits ≤ mantissaOf bits := by
        rw [formValue_of_short hshort]
        exact div_le_self (Nat.cast_nonneg _) (by exact_mod_cast Nat.pow_pos (by decide))
    _ < 2 ^ 23 := hmantissa
    _ ≤ 2 ^ 256 := by norm_num

/-- A compact form is invalid if it is negative or too large, and its target is the whole part of
what it stands for otherwise. -/
theorem target?_eq (bits : UInt32) : target? bits =
    if 0 < mantissaOf bits ∧ (IsSigned bits ∨ 2 ^ 256 ≤ formValue bits) then none
    else some ⌊formValue bits⌋₊ := by
  rcases Nat.eq_zero_or_pos (mantissaOf bits) with hzero | hpos
  · have hvalue : formValue bits = 0 := by rw [formValue, hzero, Nat.cast_zero, zero_mul]
    rw [if_neg (by omega), hvalue, Nat.floor_zero]
    exact if_pos hzero
  have hread : target? bits = if IsSigned bits then none else if exponentOf bits ≤ 3 then
      some (mantissaOf bits / 256 ^ (3 - exponentOf bits)) else
      if 34 < exponentOf bits ∨ (0xff < mantissaOf bits ∧ 33 < exponentOf bits) ∨
        (0xffff < mantissaOf bits ∧ 32 < exponentOf bits) then none
      else some (mantissaOf bits * 256 ^ (exponentOf bits - 3)) := if_neg hpos.ne'
  rw [hread]
  by_cases hsign : IsSigned bits
  · rw [if_pos hsign, if_pos ⟨hpos, Or.inl hsign⟩]
  rw [if_neg hsign]
  rcases Nat.lt_or_ge 3 (exponentOf bits) with hlong | hshort
  · rw [if_neg (by omega), formValue_of_long hlong, Nat.floor_natCast]
    have hlarge : (2 : ℚ) ^ 256 ≤ (mantissaOf bits * 256 ^ (exponentOf bits - 3) : Nat) ↔
        bound ≤ mantissaOf bits * 256 ^ (exponentOf bits - 3) := by
      rw [← Nat.cast_le (α := ℚ), bound]
      norm_num
    refine if_congr ?_ rfl rfl
    rw [hlarge, bound_le_mul_pow_iff hpos (mantissaOf_lt bits) hlong]
    exact ⟨fun h => ⟨hpos, Or.inr h⟩, fun h => h.2.resolve_left hsign⟩
  · have hsmall : ¬ (2 : ℚ) ^ 256 ≤ formValue bits := not_le.2 (formValue_lt_of_short hshort)
    rw [if_pos hshort, if_neg (fun h => h.2.elim hsign hsmall), formValue_of_short hshort,
      Nat.floor_div_eq_div]

/-! ## Writing -/

/-- Less than one part in `2 ^ 15` is dropped. -/
theorem sub_rounded_mul_lt (hpos : n ≠ 0) : (n - rounded n) * 2 ^ 15 < rounded n := by
  by_cases hdropped : dropped n = 0
  · have hsame : rounded n = n := by rw [rounded, hdropped, Nat.pow_zero, Nat.div_one, Nat.mul_one]
    rw [hsame]
    omega
  · have hmany := le_div_dropped hdropped
    have hrest : n - rounded n < 256 ^ dropped n := by
      have hmod := Nat.mod_lt n (Nat.pow_pos (by decide) : 0 < 256 ^ dropped n)
      have hsplit := Nat.div_add_mod' n (256 ^ dropped n)
      rw [rounded]
      omega
    calc (n - rounded n) * 2 ^ 15 < 256 ^ dropped n * 2 ^ 15 :=
          Nat.mul_lt_mul_of_pos_right hrest (by decide)
      _ = 2 ^ 15 * 256 ^ dropped n := Nat.mul_comm ..
      _ ≤ rounded n := Nat.mul_le_mul_right _ hmany

theorem rounded_pos (hpos : n ≠ 0) : 0 < rounded n :=
  (Nat.zero_le _).trans_lt (sub_rounded_mul_lt hpos)

/-- Of two forms with 16 to 23 leading bits, that of the greater number is the greater. -/
theorem form_le_of_le (hmany : 2 ^ 15 ≤ mantissa) (hfits : mantissa < 2 ^ 23)
    (hfits' : mantissa' < 2 ^ 23) (hle : mantissa * 256 ^ exponent ≤ mantissa' * 256 ^ exponent') :
    exponent * 2 ^ 24 + mantissa ≤ exponent' * 2 ^ 24 + mantissa' := by
  rcases Nat.lt_trichotomy exponent exponent' with hlt | rfl | hgt
  · omega
  · have := Nat.le_of_mul_le_mul_right hle (Nat.pow_pos (by decide))
    omega
  · -- the greater exponent outweighs all that mantissas can differ
    have hpow : 256 ^ (exponent' + 1) ≤ 256 ^ exponent := Nat.pow_le_pow_right (by decide) hgt
    have hless : mantissa' * 256 ^ exponent' < mantissa * 256 ^ exponent := by
      calc mantissa' * 256 ^ exponent' < 2 ^ 23 * 256 ^ exponent' :=
            Nat.mul_lt_mul_of_pos_right hfits' (Nat.pow_pos (by decide))
        _ = 2 ^ 15 * 256 ^ (exponent' + 1) := by rw [Nat.pow_succ]; omega
        _ ≤ mantissa * 256 ^ exponent := Nat.mul_le_mul hmany hpow
    exact absurd hle (Nat.not_le.2 hless)

/-- Forms are in the order of what they stand for. -/
theorem ofTarget_le_of_rounded_le (hn : n < bound) (hm : m < bound)
    (hle : rounded n ≤ rounded m) : (ofTarget n).toNat ≤ (ofTarget m).toNat := by
  by_cases hzero : n = 0
  · subst hzero
    exact Nat.zero_le _
  have hpos : m ≠ 0 := by
    rintro rfl
    exact absurd (rounded_pos hzero) (Nat.not_lt.2 hle)
  obtain ⟨e, k, hform, he, hmany, hfits, -, heq⟩ := ofTarget_eq hzero hn
  obtain ⟨e', k', hform', he', hmany', hfits', -, heq'⟩ := ofTarget_eq hpos hm
  rw [hform, hform', UInt32.toNat_ofNat_of_lt' (by simp only [UInt32.size]; omega),
    UInt32.toNat_ofNat_of_lt' (by simp only [UInt32.size]; omega)]
  refine form_le_of_le hmany hfits hfits' ?_
  rw [heq, heq']
  exact Nat.mul_le_mul_right _ hle

/-- A rounded number has the form of the number itself. -/
theorem ofTarget_rounded (h : n < bound) : ofTarget (rounded n) = ofTarget n := by
  have hlt : rounded n < bound := (rounded_le n).trans_lt h
  have hsame : rounded (rounded n) = rounded n := rounded_of_target? (target?_ofTarget h)
  exact UInt32.toNat_inj.1 (Nat.le_antisymm
    (ofTarget_le_of_rounded_le hlt h hsame.le) (ofTarget_le_of_rounded_le h hlt hsame.ge))

/-- Compact forms are read exactly. What is written is read as the target less a small part, and
written again as it was. The order of targets is kept, and a target that was read is not
changed. -/
theorem compact_faithful :
    (∀ bits, target? bits =
      if 0 < mantissaOf bits ∧ (IsSigned bits ∨ 2 ^ 256 ≤ formValue bits) then none
      else some ⌊formValue bits⌋₊) ∧
    (∀ t, 0 < t → t < 2 ^ 256 → ∃ d, target? (ofTarget t) = some d ∧ d ≤ t ∧
      (t - d) * 2 ^ 15 < d ∧ ofTarget d = ofTarget t) ∧
    (∀ t₁ t₂, t₁ ≤ t₂ → t₂ < 2 ^ 256 → (ofTarget t₁).toNat ≤ (ofTarget t₂).toNat) ∧
    ∀ bits t, target? bits = some t → target? (ofTarget t) = some t := by
  refine ⟨target?_eq, fun t hpos ht => ?_, fun t₁ t₂ hle ht => ?_, fun bits t h => ?_⟩
  · exact ⟨rounded t, target?_ofTarget ht, rounded_le t, sub_rounded_mul_lt hpos.ne',
      ofTarget_rounded ht⟩
  · exact ofTarget_le_of_rounded_le (hle.trans_lt ht) ht (rounded_mono hle ht)
  · rw [target?_ofTarget (lt_bound_of_target? h), rounded_of_target? h]

/-- The greatest target takes an exponent of 33, and keeps its sixteen leading bits. -/
theorem compact_faithful_at_top :
    ofTarget (2 ^ 256 - 1) = 0x2100ffff ∧
    (∃ d, target? (ofTarget (2 ^ 256 - 1)) = some d ∧ d ≤ 2 ^ 256 - 1 ∧
      (2 ^ 256 - 1 - d) * 2 ^ 15 < d ∧ ofTarget d = ofTarget (2 ^ 256 - 1)) ∧
    (ofTarget (2 ^ 248 - 1)).toNat ≤ (ofTarget (2 ^ 256 - 1)).toNat ∧
    target? 0x03008000 = some 0x8000 ∧ target? (ofTarget 0x8000) = some 0x8000 := by
  obtain ⟨-, hwritten, hmono, hread⟩ := compact_faithful
  have hsmall : target? 0x03008000 = some 0x8000 := by decide
  exact ⟨by decide, hwritten _ (by decide) (by decide), hmono _ _ (by decide) (by decide), hsmall,
    hread _ _ hsmall⟩

end PermissionedLedger.Work
