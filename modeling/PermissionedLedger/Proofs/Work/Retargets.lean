import Mathlib
import PermissionedLedger.Proofs.Work.CompactForms
import PermissionedLedger.Proofs.Work.Easing

/-!
# One change of the target

A change scales the target by what the interval counts for, which is between a quarter of a
timespan and four of them (`Schedule.counted`), caps it at the limit, and rounds it to a
compact form. Each of these steps keeps the order of targets and of timespans, and none makes
zero of a target that is not too small to begin with.

The main statement is `Schedule.retarget_bounded`: a change is bounded, grows with the time
that the interval took, does nothing if that is the timespan, and leads to a permitted target.
-/

namespace PermissionedLedger.Work.Schedule

-- powers are those of the core library, as in the definitions
attribute [local instance (high)] instPowNat

variable {s : Schedule} {bits : UInt32} {old : Nat} {a b t : Int}

/-! ## What an interval counts for -/

theorem counted_eq (hpos : 0 < s.timespan.toInt) (hword : 4 * s.timespan.toInt < 2 ^ 63)
    (t : Int) : s.counted t =
      if t < s.timespan.toInt / 4 then s.timespan.toInt / 4
      else if 4 * s.timespan.toInt < t then 4 * s.timespan.toInt else t := by
  rw [counted, maxTimespan_eq hpos hword, minTimespan_eq hpos]

theorem counted_mono (hpos : 0 < s.timespan.toInt) (hword : 4 * s.timespan.toInt < 2 ^ 63)
    (hle : a ≤ b) : s.counted a ≤ s.counted b := by
  rw [counted_eq hpos hword, counted_eq hpos hword]
  split_ifs <;> omega

theorem quarter_le_counted (hpos : 0 < s.timespan.toInt) (hword : 4 * s.timespan.toInt < 2 ^ 63)
    (t : Int) : s.timespan.toInt / 4 ≤ s.counted t := by
  rw [counted_eq hpos hword]
  split
  · exact le_rfl
  · split <;> omega

theorem counted_le (hpos : 0 < s.timespan.toInt) (hword : 4 * s.timespan.toInt < 2 ^ 63)
    (t : Int) : s.counted t ≤ 4 * s.timespan.toInt := by
  rw [counted_eq hpos hword]
  split
  · omega
  · split <;> omega

theorem counted_timespan (hpos : 0 < s.timespan.toInt) (hword : 4 * s.timespan.toInt < 2 ^ 63) :
    s.counted s.timespan.toInt = s.timespan.toInt := by
  rw [counted_eq hpos hword, if_neg (by omega), if_neg (by omega)]

/-- Short intervals count for a quarter of a timespan. -/
theorem counted_of_lt (hpos : 0 < s.timespan.toInt) (hword : 4 * s.timespan.toInt < 2 ^ 63)
    (hlt : t < s.timespan.toInt / 4) : s.counted t = s.counted (s.timespan.toInt / 4) := by
  rw [counted_eq hpos hword, counted_eq hpos hword, if_pos hlt, if_neg (lt_irrefl _),
    if_neg (by omega)]

/-- Long intervals count for four timespans. -/
theorem counted_of_gt (hpos : 0 < s.timespan.toInt) (hword : 4 * s.timespan.toInt < 2 ^ 63)
    (hgt : 4 * s.timespan.toInt < t) : s.counted t = s.counted (4 * s.timespan.toInt) := by
  rw [counted_eq hpos hword, counted_eq hpos hword, if_neg (by omega), if_pos hgt,
    if_neg (by omega), if_neg (lt_irrefl _)]

/-! ## The target after a change -/

/-- The target after a change, before it is rounded. -/
def scaled (s : Schedule) (old : Nat) (t : Int) : Nat :=
  min (old * (s.counted t).toNat / (max s.timespan.toInt 1).toNat) s.limit

theorem retarget_eq (s : Schedule) (t : Int) (h : target? bits = some old) :
    s.retarget bits t = ofTarget (s.scaled old t) := by
  rw [retarget, h]
  rfl

theorem scaled_lt_bound (s : Schedule) (old : Nat) (t : Int) : s.scaled old t < bound :=
  (Nat.min_le_right ..).trans_lt s.limit_lt

theorem scaled_mono (hpos : 0 < s.timespan.toInt) (hword : 4 * s.timespan.toInt < 2 ^ 63)
    (old : Nat) (hle : a ≤ b) : s.scaled old a ≤ s.scaled old b := by
  have hcounted : (s.counted a).toNat ≤ (s.counted b).toNat :=
    Int.toNat_le_toNat (counted_mono hpos hword hle)
  exact min_le_min_right _ (Nat.div_le_div_right (Nat.mul_le_mul_left _ hcounted))

theorem scaled_le (hpos : 0 < s.timespan.toInt) (hword : 4 * s.timespan.toInt < 2 ^ 63)
    (old : Nat) (t : Int) : s.scaled old t ≤ min s.limit (4 * old) := by
  refine Nat.le_min.2 ⟨Nat.min_le_right .., (Nat.min_le_left ..).trans ?_⟩
  have hcounted : (s.counted t).toNat ≤ 4 * (max s.timespan.toInt 1).toNat := by
    have := counted_le hpos hword t
    omega
  refine Nat.div_le_of_le_mul ?_
  calc old * (s.counted t).toNat ≤ old * (4 * (max s.timespan.toInt 1).toNat) :=
        Nat.mul_le_mul_left _ hcounted
    _ = (max s.timespan.toInt 1).toNat * (4 * old) := by
        rw [← Nat.mul_assoc, Nat.mul_comm, Nat.mul_comm old]

/-- After a timespan the target is what it was. -/
theorem scaled_timespan (hpos : 0 < s.timespan.toInt) (hword : 4 * s.timespan.toInt < 2 ^ 63)
    (hlimit : old ≤ s.limit) : s.scaled old s.timespan.toInt = old := by
  rw [scaled, counted_timespan hpos hword, max_eq_left (by omega : 1 ≤ s.timespan.toInt),
    Nat.mul_div_cancel _ (by omega), Nat.min_eq_left hlimit]

/-- A target that a quarter of a timespan does not make zero is never made zero. -/
theorem scaled_pos (hpos : 0 < s.timespan.toInt) (hword : 4 * s.timespan.toInt < 2 ^ 63)
    (hold : 0 < old) (hlimit : old ≤ s.limit)
    (hlarge : s.timespan.toInt ≤ old * (s.timespan.toInt / 4)) (t : Int) :
    0 < s.scaled old t := by
  refine Nat.lt_min.2 ⟨Nat.div_pos ?_ (by omega), hold.trans_le hlimit⟩
  have hcounted := quarter_le_counted hpos hword t
  have hscaled : s.timespan.toInt ≤ old * s.counted t :=
    hlarge.trans (mul_le_mul_of_nonneg_left hcounted (Int.natCast_nonneg old))
  zify
  rw [Int.toNat_of_nonneg (by omega), Int.toNat_of_nonneg (by omega)]
  omega

/-- A change leads to a target of at most four times the old one, and of at most the limit. The
target grows with the timespan, which counts for a quarter of what it should be at least and for
four times that at most. After exactly the right time the target is the old one in its usual
form. No change leads to zero, but to a permitted target, if the shortest interval does not. -/
theorem retarget_bounded (s : Schedule) (hpos : 0 < s.timespan.toInt)
    (hword : 4 * s.timespan.toInt < 2 ^ 63) {bits : UInt32} {old : Nat}
    (hbits : target? bits = some old) (hold : 1 ≤ old) (hlimit : old ≤ s.limit) :
    (∀ t, ∃ new, target? (s.retarget bits t) = some new ∧ new ≤ min s.limit (4 * old)) ∧
    (∀ a b, a ≤ b → ∃ new new', target? (s.retarget bits a) = some new ∧
      target? (s.retarget bits b) = some new' ∧ new ≤ new') ∧
    (∀ t, t < s.timespan.toInt / 4 →
      s.retarget bits t = s.retarget bits (s.timespan.toInt / 4)) ∧
    (∀ t, 4 * s.timespan.toInt < t →
      s.retarget bits t = s.retarget bits (4 * s.timespan.toInt)) ∧
    s.retarget bits s.timespan.toInt = ofTarget old ∧
    (ofTarget old = bits → s.retarget bits s.timespan.toInt = bits) ∧
    (s.timespan.toInt ≤ old * (s.timespan.toInt / 4) →
      ∀ t, ∃ new, 0 < new ∧ permitted? (s.retarget bits t) s.limit = some new) := by
  have hread : ∀ t, target? (s.retarget bits t) = some (rounded (s.scaled old t)) :=
    fun t => target?_retarget s t hbits
  have hle : ∀ t, rounded (s.scaled old t) ≤ min s.limit (4 * old) := fun t =>
    (rounded_le _).trans (scaled_le hpos hword old t)
  have hneutral : s.retarget bits s.timespan.toInt = ofTarget old := by
    rw [retarget_eq s _ hbits, scaled_timespan hpos hword hlimit]
  refine ⟨fun t => ⟨_, hread t, hle t⟩, fun a b hab => ?_, fun t hlt => ?_, fun t hgt => ?_,
    hneutral, fun hcanonical => hneutral.trans hcanonical, fun hlarge t => ?_⟩
  · exact ⟨_, _, hread a, hread b,
      rounded_mono (scaled_mono hpos hword old hab) (s.scaled_lt_bound old b)⟩
  · rw [retarget_eq s t hbits, retarget_eq s _ hbits, scaled, scaled, counted_of_lt hpos hword hlt]
  · rw [retarget_eq s t hbits, retarget_eq s _ hbits, scaled, scaled, counted_of_gt hpos hword hgt]
  · have hnew : 0 < rounded (s.scaled old t) :=
      rounded_pos (scaled_pos hpos hword hold hlimit hlarge t).ne'
    refine ⟨_, hnew, Option.filter_eq_some_iff.2 ⟨hread t, decide_eq_true ⟨hnew.ne', ?_⟩⟩⟩
    exact (hle t).trans (Nat.min_le_left ..)

/-- The constants of a network with a limit that has no compact form. -/
def unroundedLimit : Schedule where
  limit := 2 ^ 256 - 1
  timespan := 600
  spacing := 300
  isFixed := false
  limit_lt := by decide

/-- The easiest target of all stays within such a limit, and is kept after the right time. -/
theorem retarget_bounded_of_unroundedLimit :
    (∃ new, target? (unroundedLimit.retarget 0x2100ffff 2400) = some new ∧
      new ≤ min (2 ^ 256 - 1) (4 * (0xffff * 256 ^ 30))) ∧
    (∃ new new', target? (unroundedLimit.retarget 0x2100ffff (-7)) = some new ∧
      target? (unroundedLimit.retarget 0x2100ffff 601) = some new' ∧ new ≤ new') ∧
    unroundedLimit.retarget 0x2100ffff 149 = unroundedLimit.retarget 0x2100ffff 150 ∧
    unroundedLimit.retarget 0x2100ffff 2401 = unroundedLimit.retarget 0x2100ffff 2400 ∧
    unroundedLimit.retarget 0x2100ffff 600 = 0x2100ffff ∧
    ∀ t, ∃ new, 0 < new ∧
      permitted? (unroundedLimit.retarget 0x2100ffff t) (2 ^ 256 - 1) = some new := by
  have hbits : target? 0x2100ffff = some (0xffff * 256 ^ 30) := by decide
  obtain ⟨hbounded, hmono, hshort, hlong, -, hneutral, hpositive⟩ :=
    retarget_bounded unroundedLimit (by decide) (by decide) hbits (by decide) (by decide)
  exact ⟨hbounded 2400, hmono (-7) 601 (by decide), hshort 149 (by decide),
    hlong 2401 (by decide), hneutral (by decide), hpositive (by decide)⟩

end PermissionedLedger.Work.Schedule
