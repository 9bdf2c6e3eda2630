import Mathlib
import PermissionedLedger.Time.Instant

/-!
# The order of instants

Instants are ordered linearly. The order is that of the seconds, and of the nanoseconds
where the seconds are the same.
-/

namespace PermissionedLedger.Time.Instant

variable {a b c : Instant}

theorem le_refl (a : Instant) : a ≤ a := .inr ⟨rfl, Nat.le_refl _⟩

theorem le_trans (hab : a ≤ b) (hbc : b ≤ c) : a ≤ c := by
  rw [le_def] at *
  omega

theorem lt_trans (hab : a < b) (hbc : b < c) : a < c := by
  rw [lt_def] at *
  omega

theorem lt_asymm (hab : a < b) : ¬ b < a := by
  rw [lt_def] at *
  omega

theorem le_antisymm (hab : a ≤ b) (hba : b ≤ a) : a = b := by
  rw [le_def] at *
  cases a
  cases b
  simp only [mk.injEq] at *
  omega

theorem lt_or_eq_or_gt (a b : Instant) : a < b ∨ a = b ∨ b < a := by
  by_cases hab : a < b
  · exact Or.inl hab
  by_cases hba : b < a
  · exact Or.inr (Or.inr hba)
  · exact Or.inr (Or.inl (le_antisymm (not_lt.1 hba) (not_lt.1 hab)))

instance : Std.Total fun a b : Instant => a ≤ b :=
  ⟨fun a b => (Decidable.em (a < b)).imp (fun h => by rw [lt_def] at h; rw [le_def]; omega)
    not_lt.1⟩

instance : IsTrans Instant fun a b => a ≤ b := ⟨fun _ _ _ => le_trans⟩

instance : Std.Antisymm fun a b : Instant => a ≤ b := ⟨fun _ _ => le_antisymm⟩

end PermissionedLedger.Time.Instant
