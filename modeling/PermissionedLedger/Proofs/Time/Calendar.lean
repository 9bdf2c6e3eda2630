import Mathlib
import PermissionedLedger.Time.Calendar

/-!
# Dates of days

A day number is recovered from its date (`Date.toDays_ofDays`), and the date of a day exists
(`Date.isValid_ofDays`).

An era is split into centuries, groups of four years, and the days of such a group. The last day
of an era, the leap day of its last year, is in no century.
-/

namespace PermissionedLedger.Time.Date

/-! ## Years -/

/-- The year of an era in which one of its days lies. -/
def yearOfEra (day : Nat) : Nat := (day - day / 1460 + day / 36524 - day / 146096) / 365

theorem daysBeforeYear_parts {c q z : Nat} (hq : q ≤ 24) (hz : z ≤ 3) :
    daysBeforeYear (100 * c + 4 * q + z) = 36524 * c + 1461 * q + 365 * z := by
  rw [daysBeforeYear, show (100 * c + 4 * q + z) / 4 = 25 * c + q by omega,
    show (100 * c + 4 * q + z) / 100 = c by omega]
  omega

theorem yearOfEra_parts {c q r : Nat} (hc : c ≤ 3) (hr : r ≤ 1460)
    (h : 1461 * q + r < 36524) : ∃ z, z ≤ 3 ∧ 365 * z ≤ r ∧ r < 365 * z + 366 ∧
      (z < 3 → r < 365 * z + 365) ∧
      yearOfEra (36524 * c + 1461 * q + r) = 100 * c + 4 * q + z := by
  have hone : (q + r + 24 * c) / 1460 ≤ 1 := by omega
  refine ⟨(r - (q + r + 24 * c) / 1460) / 365, by omega, by omega, by omega, by omega, ?_⟩
  have hfours : (36524 * c + 1461 * q + r) / 1460 = 25 * c + q + (q + r + 24 * c) / 1460 := by
    omega
  have hcenturies : (36524 * c + 1461 * q + r) / 36524 = c := by omega
  have hlast : (36524 * c + 1461 * q + r) / 146096 = 0 := by omega
  rw [yearOfEra, hfours, hcenturies, hlast]
  omega

/-- A year that starts in March ends in a leap day if the next number is that of a leap year. -/
def HasLeapDay (year : Nat) : Prop :=
  (year + 1) % 4 = 0 ∧ ((year + 1) % 100 ≠ 0 ∨ (year + 1) % 400 = 0)

/-- A day of an era is in its year, and is the 366th of it in leap years at most. -/
theorem yearOfEra_spec {day : Nat} (h : day < 146097) : yearOfEra day < 400 ∧
    ∃ k, day = daysBeforeYear (yearOfEra day) + k ∧ k ≤ 365 ∧
      (k = 365 → HasLeapDay (yearOfEra day)) := by
  rcases Nat.lt_or_ge day 146096 with hlt | hge
  · obtain ⟨c, q, r, hc, hr, hq, rfl⟩ : ∃ c q r, c ≤ 3 ∧ r ≤ 1460 ∧ 1461 * q + r < 36524 ∧
        day = 36524 * c + 1461 * q + r :=
      ⟨day / 36524, day % 36524 / 1461, day % 36524 % 1461, by omega, by omega, by omega,
        by omega⟩
    obtain ⟨z, hz, hle, hlt', hshort, heq⟩ := yearOfEra_parts hc hr hq
    rw [heq, daysBeforeYear_parts (by omega) hz, HasLeapDay]
    refine ⟨by omega, r - 365 * z, by omega, by omega, fun hlast => ?_⟩
    omega
  · obtain rfl : day = 146096 := by omega
    exact ⟨by decide, 365, by decide, by decide, fun _ => ⟨by decide, by decide⟩⟩

/-! ## Months -/

/-- The month of a year that starts in March in which one of its days lies. -/
def monthOfYear (day : Nat) : Nat := (5 * day + 2) / 153

theorem monthOfYear_spec {day : Nat} (h : day ≤ 365) : monthOfYear day ≤ 11 ∧
    daysBeforeMonth (monthOfYear day) ≤ day ∧ day < daysBeforeMonth (monthOfYear day + 1) := by
  rw [monthOfYear, daysBeforeMonth, daysBeforeMonth]
  omega

/-! ## Dates -/

/-- The date of a day that is known by its era, its year in the era, its month in the year and the
days before it in the month. -/
def ofParts (era : Int) (year month day : Nat) : Date where
  year := if month < 10 then era * 400 + year else era * 400 + year + 1
  month := if month < 10 then month + 3 else month - 9
  day := day + 1

/-- Every day has such parts. -/
theorem exists_parts (days : Int) : ∃ era year month day,
    ofDays days = ofParts era year month day ∧
    days + epochOffset =
      era * 146097 + (daysBeforeYear year + (daysBeforeMonth month + day) : Nat) ∧
    year < 400 ∧ month ≤ 11 ∧ daysBeforeMonth month + day < daysBeforeMonth (month + 1) ∧
    daysBeforeMonth month + day ≤ 365 ∧
    (daysBeforeMonth month + day = 365 → HasLeapDay year) := by
  have hera : ((days + epochOffset) % 146097).toNat < 146097 := by omega
  obtain ⟨hyear, k, hday, hk, hleap⟩ := yearOfEra_spec hera
  obtain ⟨hmonth, hle, hlt⟩ := monthOfYear_spec hk
  have hsub : daysBeforeMonth (monthOfYear k) + (k - daysBeforeMonth (monthOfYear k)) = k :=
    Nat.add_sub_cancel' hle
  refine ⟨(days + epochOffset) / 146097, yearOfEra ((days + epochOffset) % 146097).toNat,
    monthOfYear k, k - daysBeforeMonth (monthOfYear k), ?_, ?_, hyear, hmonth, ?_, ?_, ?_⟩
  · obtain rfl : k = ((days + epochOffset) % 146097).toNat -
        daysBeforeYear (yearOfEra ((days + epochOffset) % 146097).toNat) := by omega
    rfl
  · rw [hsub, ← hday]
    omega
  · rwa [hsub]
  · rwa [hsub]
  · rwa [hsub]

theorem toDays_ofDays (days : Int) : (ofDays days).toDays = days := by
  obtain ⟨era, year, month, day, heq, hdays, hyear, hmonth, -, -, -⟩ := exists_parts days
  have hstart : (if (ofParts era year month day).month ≤ 2 then
      (ofParts era year month day).year - 1 else (ofParts era year month day).year) =
      era * 400 + year := by
    simp only [ofParts]
    split_ifs <;> omega
  have hmarch : (if (ofParts era year month day).month ≤ 2 then
      (ofParts era year month day).month + 9 else (ofParts era year month day).month - 3) =
      month := by
    simp only [ofParts]
    split_ifs <;> omega
  rw [heq, toDays]
  simp only [hstart, hmarch]
  rw [show (era * 400 + (year : Int)) / 400 = era by omega,
    show ((era * 400 + (year : Int)) % 400).toNat = year by omega]
  simp only [ofParts, Nat.add_sub_cancel]
  omega

theorem isLeapYear_of_hasLeapDay {year : Nat} (h : HasLeapDay year) (era : Int) :
    isLeapYear (era * 400 + year + 1) = true := by
  obtain ⟨hfour, hcentury⟩ := h
  simp only [isLeapYear, Bool.and_eq_true, Bool.or_eq_true, decide_eq_true_eq]
  omega

/-- All months but February have as many days as are counted for them. -/
theorem daysBeforeMonth_succ {month : Nat} (h : month ≤ 10) (year : Int) :
    daysBeforeMonth (month + 1) = daysBeforeMonth month +
      daysInMonth year (if month < 10 then month + 3 else month - 9) := by
  interval_cases month <;> rfl

theorem le_daysInMonth_two (year : Int) : 28 ≤ daysInMonth year 2 := by
  rw [daysInMonth]
  split <;> omega

theorem daysInMonth_two {year : Int} (h : isLeapYear year = true) : daysInMonth year 2 = 29 := by
  rw [daysInMonth, if_pos h]

theorem daysInMonth_le (year : Int) (month : Nat) : daysInMonth year month ≤ 31 := by
  unfold daysInMonth
  split
  · split <;> decide
  · decide
  · decide
  · decide
  · decide
  · decide

/-- The date of a day exists. -/
theorem isValid_ofDays (days : Int) : (ofDays days).isValid = true := by
  obtain ⟨era, year, month, day, heq, -, hyear, hmonth, hday, hlast, hleap⟩ := exists_parts days
  have hlength : day + 1 ≤ daysInMonth (ofParts era year month day).year
      (ofParts era year month day).month := by
    by_cases hfebruary : month = 11
    · subst hfebruary
      rw [show daysBeforeMonth 11 = 337 from rfl] at hlast hleap
      by_cases hleapDay : day = 28
      · have hyear := isLeapYear_of_hasLeapDay (hleap (by omega)) era
        exact hleapDay ▸ (daysInMonth_two hyear).ge
      · exact (by omega : day + 1 ≤ 28).trans (le_daysInMonth_two _)
    · rw [daysBeforeMonth_succ (by omega) (ofParts era year month day).year] at hday
      exact Nat.lt_of_add_lt_add_left hday
  have hmonths : 1 ≤ (ofParts era year month day).month ∧
      (ofParts era year month day).month ≤ 12 := by
    simp only [ofParts]
    split <;> omega
  rw [heq]
  simp only [isValid, Bool.and_eq_true, decide_eq_true_eq]
  exact ⟨⟨hmonths, Nat.succ_le_succ (Nat.zero_le day)⟩, hlength⟩

end PermissionedLedger.Time.Date
