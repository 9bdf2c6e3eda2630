import Mathlib
import PermissionedLedger.Proofs.Time.Calendar
import PermissionedLedger.Time.Rfc3339

/-!
# Timestamps are read back

The canonical form of an instant is read as that instant (`Time.Rfc3339.read?_write`), be it in a
leap second or in a year of more than four digits. Each part of it is read off the front of a
text, whatever follows. The form has ASCII characters only (`Time.Rfc3339.ascii_write`), and not
many of them (`Time.Rfc3339.length_write_le`).
-/

namespace PermissionedLedger

-- powers are those of the core library, as in the definitions
attribute [local instance (high)] instPowNat

/-! ## Digits -/

namespace Digits

variable {width n : Nat} {c : Char}

theorem toNat_of_isDigit (h : isDigit c = true) : 48 ≤ c.toNat ∧ c.toNat ≤ 57 := by
  simpa [isDigit] using h

theorem isBlank_of_isDigit (h : isDigit c = true) : Blank.isBlank c = false := by
  have hrange := toNat_of_isDigit h
  simp only [Blank.isBlank, Blank.ranges, List.any_cons, List.any_nil, Bool.or_false,
    Bool.or_eq_false_iff, Bool.and_eq_false_iff, decide_eq_false_iff_not]
  omega

theorem field_ne_nil (hwidth : 0 < width) : field width n ≠ [] :=
  List.ne_nil_of_length_pos (by rwa [length_field])

/-- A text that starts with digits does not start with blanks. -/
theorem skip_of_isDigit {cs : List Char} (hcs : cs ≠ []) (h : ∀ c ∈ cs, isDigit c = true)
    (rest : List Char) : Blank.skip (cs ++ rest) = cs ++ rest := by
  obtain ⟨c, cs, rfl⟩ := List.exists_cons_of_ne_nil hcs
  exact Blank.skip_cons (isBlank_of_isDigit (h c (List.mem_cons_self ..))) _

/-- A number is scanned off the front, whatever follows its field. -/
theorem scan_field (hwidth : 0 < width) (h : n < 10 ^ width) (rest : List Char) :
    scan width (field width n ++ rest) = some (n, rest) := by
  have htake : ((field width n ++ rest).take width).takeWhile isDigit = field width n := by
    rw [List.take_left' (length_field ..), List.takeWhile_eq_self_iff]
    exact fun c hc => isDigit_of_mem_field hc
  rw [scan, htake]
  split
  · next hnil => exact absurd hnil (field_ne_nil hwidth)
  · rw [value_field h, List.drop_left]

theorem isDigit_of_mem_padded (h : c ∈ padded width n) : isDigit c = true := by
  rcases List.mem_append.1 h with h | h
  · rw [List.eq_of_mem_replicate h]
    rfl
  · have hdigit := Nat.isDigit_of_mem_toDigits (by decide) (by decide) h
    simpa [isDigit, Char.isDigit, UInt32.le_iff_toNat_le] using hdigit

theorem padded_ne_nil : padded width n ≠ [] :=
  List.append_ne_nil_of_right_ne_nil _ Nat.toDigits_ne_nil

theorem value_padded (width n : Nat) : value (padded width n) = n := by
  change Nat.ofDigitChars 10 (padded width n) 0 = n
  rw [padded, Nat.ofDigitChars_append, Nat.ofDigitChars_replicate_zero, Nat.mul_zero,
    Nat.ofDigitChars_toDigits (by decide) (by decide)]

/-- A number of any length is scanned off the front if no digit follows. -/
theorem scanAll_padded (hc : isDigit c = false) (width n : Nat) (rest : List Char) :
    scanAll (padded width n ++ c :: rest) = some (n, c :: rest) := by
  have hdigits : ∀ d ∈ padded width n, isDigit d = true := fun d hd => isDigit_of_mem_padded hd
  have hstop : ¬ isDigit c = true := ne_true_of_eq_false hc
  rw [scanAll, List.takeWhile_append_of_pos hdigits, List.takeWhile_cons_of_neg hstop,
    List.append_nil, List.dropWhile_append_of_pos hdigits, List.dropWhile_cons_of_neg hstop]
  split
  · next hnil => exact absurd hnil padded_ne_nil
  · rw [value_padded]

end Digits

namespace Time

open Digits

/-! ## Dates -/

theorem Date.lt_of_isValid {d : Date} (h : d.isValid = true) : d.month < 100 ∧ d.day < 100 := by
  simp only [isValid, Bool.and_eq_true, decide_eq_true_eq] at h
  obtain ⟨⟨⟨-, hmonth⟩, -⟩, hday⟩ := h
  have hlength := daysInMonth_le d.year d.month
  omega

namespace Rfc3339

variable {c : Char} {n : Nat}

theorem expect_cons (h : Blank.isBlank c = false) (rest : List Char) :
    expect c (c :: rest) = some rest := by
  rw [expect, Blank.skip_cons h]
  simp

theorem readField_field (h : n < 100) (rest : List Char) :
    readField (field 2 n ++ rest) = some (n, rest) := by
  rw [readField, skip_of_isDigit (field_ne_nil (by decide)) (fun _ => isDigit_of_mem_field)]
  exact scan_field (by decide) h rest

/-- A year of four digits is read, whatever follows. -/
theorem readYear_field (h : n < 10 ^ 4) (rest : List Char) :
    readYear (field 4 n ++ rest) = some ((n : Int), rest) := by
  have hne : field 4 n ≠ [] := field_ne_nil (by decide)
  obtain ⟨d, ds, hfield⟩ := List.exists_cons_of_ne_nil hne
  have hd : isDigit d = true := isDigit_of_mem_field (hfield ▸ List.mem_cons_self ..)
  have hscan := scan_field (by decide) h rest
  rw [readYear, skip_of_isDigit hne (fun _ => isDigit_of_mem_field)]
  -- a digit is no sign
  rw [hfield] at hscan ⊢
  split
  · next heq => exact absurd ((List.cons.inj heq).1 ▸ hd) (by decide)
  · next heq => exact absurd ((List.cons.inj heq).1 ▸ hd) (by decide)
  · simp only [hscan, Option.map_some]

/-- A year is read, with its sign if it has one. -/
theorem readYear_yearText (year : Int) (rest : List Char) :
    readYear (Instant.yearText year ++ '-' :: rest) = some (year, '-' :: rest) := by
  have hdash : isDigit '-' = false := by decide
  rw [Instant.yearText]
  split
  · next hfour => rw [readYear_field (by omega), Int.toNat_of_nonneg hfour.1]
  split
  · next hneg =>
    rw [List.cons_append, readYear, Blank.skip_cons (by decide)]
    simp only [scanAll_padded hdash, Option.map_some]
    rw [Int.ofNat_natAbs_of_nonpos hneg.le, Int.neg_neg]
  · next hpos =>
    rw [List.cons_append, readYear, Blank.skip_cons (by decide)]
    simp only [scanAll_padded hdash, Option.map_some]
    rw [Int.natAbs_of_nonneg (by omega)]

/-- A date is read as the day that it is the date of. -/
theorem readDate_dateText (i : Instant) (rest : List Char) :
    readDate (i.dateText ++ rest) = some (i.seconds / daySeconds, rest) := by
  have hvalid := Date.isValid_ofDays (i.seconds / daySeconds)
  obtain ⟨hmonth, hday⟩ := Date.lt_of_isValid hvalid
  have hdash : Blank.isBlank '-' = false := by decide
  rw [readDate, Instant.dateText]
  simp only [List.append_assoc, List.cons_append, readYear_yearText, Option.bind_eq_bind,
    Option.bind_some, expect_cons hdash, readField_field hmonth, readField_field hday]
  rw [if_pos hvalid, Date.toDays_ofDays]
  rfl

/-! ## Times -/

/-- Up to nine digits of a fraction are read as nanoseconds. -/
theorem readFraction_point {width : Nat} (hwidth : 0 < width) (hnine : width ≤ 9)
    (h : n < 10 ^ width) (rest : List Char) :
    readFraction ('.' :: field width n ++ 'Z' :: rest) =
      some (n * 10 ^ (9 - width), 'Z' :: rest) := by
  have hdigits : ∀ d ∈ field width n, isDigit d = true := fun _ => isDigit_of_mem_field
  have hstop : (('Z' :: rest).take (9 - width)).takeWhile isDigit = [] := by
    cases 9 - width with
    | zero => rfl
    | succ k => exact List.takeWhile_cons_of_neg (by decide)
  have htake : ((field width n ++ 'Z' :: rest).take 9).takeWhile isDigit = field width n := by
    rw [List.take_append, length_field, List.take_of_length_le (by rwa [length_field]),
      List.takeWhile_append_of_pos hdigits, hstop, List.append_nil]
  have hdrop : (field width n ++ 'Z' :: rest).dropWhile isDigit = 'Z' :: rest := by
    rw [List.dropWhile_append_of_pos hdigits, List.dropWhile_cons_of_neg (by decide)]
  rw [List.cons_append, readFraction, htake, hdrop]
  split
  · next hnil => exact absurd hnil (field_ne_nil hwidth)
  · rw [value_field h, length_field]

/-- No more digits are written than are needed to read the fraction back. -/
theorem readFraction_fractionText (nanos : Nat) (rest : List Char) :
    readFraction (Instant.fractionText nanos ++ 'Z' :: rest) =
      some (nanos % secondNanos, 'Z' :: rest) := by
  have hlt : nanos % secondNanos < 1000000000 := Nat.mod_lt _ (by decide)
  rw [Instant.fractionText]
  generalize nanos % secondNanos = n at hlt ⊢
  split
  · next hzero =>
    subst hzero
    rfl
  split
  · next hmilli =>
    rw [readFraction_point (by decide) (by decide) (by omega),
      show n / 1000000 * 10 ^ (9 - 3) = n by omega]
  split
  · next hmicro =>
    rw [readFraction_point (by decide) (by decide) (by omega),
      show n / 1000 * 10 ^ (9 - 6) = n by omega]
  · rw [readFraction_point (by decide) (by decide) (by omega),
      show n * 10 ^ (9 - 9) = n by omega]

/-- A leap second is the second after the last one of a minute. -/
theorem nanos_div_cases (i : Instant) : i.nanos / secondNanos = 0 ∨
    i.nanos / secondNanos = 1 ∧ i.secondOfDay.toNat % 60 = 59 := by
  have hinstant := i.isInstant
  simp only [isInstant, Bool.and_eq_true, Bool.or_eq_true, decide_eq_true_eq] at hinstant
  simp only [secondNanos, Instant.secondOfDay, daySeconds] at hinstant ⊢
  omega

/-- A time of day is read, be it in a leap second or not. -/
theorem readTime_timeText (i : Instant) (rest : List Char) :
    readTime (i.timeText ++ 'Z' :: rest) = some ((i.secondOfDay, i.nanos), 'Z' :: rest) := by
  have hday : 0 ≤ i.secondOfDay ∧ i.secondOfDay < 86400 := by
    rw [Instant.secondOfDay, daySeconds]
    omega
  have hleap := nanos_div_cases i
  have hnanos : i.nanos % secondNanos + i.nanos / secondNanos * secondNanos = i.nanos :=
    Nat.mod_add_div' ..
  have hcolon : Blank.isBlank ':' = false := by decide
  rw [readTime, Instant.timeText]
  generalize hseconds : i.secondOfDay.toNat = s at hleap ⊢
  have hs : s < 86400 := by omega
  simp only [List.append_assoc, List.cons_append, Option.bind_eq_bind, Option.bind_some,
    expect_cons hcolon, readField_field (show s / 3600 < 100 by omega),
    readField_field (show s / 60 % 60 < 100 by omega),
    readField_field (show s % 60 + i.nanos / secondNanos < 100 by omega),
    readFraction_fractionText]
  rw [if_pos (by omega)]
  have hsecond : s / 3600 * 3600 + s / 60 % 60 * 60 + (s % 60 + i.nanos / secondNanos) -
      (s % 60 + i.nanos / secondNanos) / 60 = s := by omega
  have hleap' : (s % 60 + i.nanos / secondNanos) / 60 = i.nanos / secondNanos := by omega
  rw [hsecond, hleap', hnanos, ← hseconds, Int.toNat_of_nonneg hday.1]
  rfl

/-! ## Instants -/

theorem ofUnix?_self (i : Instant) : Instant.ofUnix? i.seconds i.nanos = some i := by
  rw [Instant.ofUnix?, dif_pos i.isInstant]

/-- The canonical form of an instant is read as the instant. -/
theorem read?_write (i : Instant) : read? (write i) = some i := by
  have hseconds : i.seconds / daySeconds * daySeconds + i.secondOfDay = i.seconds :=
    Int.ediv_mul_add_emod ..
  rw [read?, write]
  simp only [List.append_assoc, List.cons_append, Option.bind_eq_bind, Option.bind_some,
    readDate_dateText, readSeparator, readTime_timeText, hseconds, ofUnix?_self]
  have hoffset : readOffset ['Z'] = some (0, []) := rfl
  simp only [hoffset, Option.bind_some, Int.sub_zero, ofUnix?_self]
  rfl

example : (Instant.ofUnix? 253402300859 1500000000).map write =
    some "+10000-01-01T00:00:60.500Z".toList := by decide

/-! ## What is written -/

theorem toNat_lt_of_isDigit (h : isDigit c = true) : c.toNat < 0x80 := by
  have hrange := toNat_of_isDigit h
  omega

/-- The form has ASCII characters only. -/
theorem ascii_write (i : Instant) : ∀ c ∈ write i, c.toNat < 0x80 := by
  have hfield : ∀ width n, ∀ c ∈ field width n, c.toNat < 0x80 :=
    fun _ _ _ hc => toNat_lt_of_isDigit (isDigit_of_mem_field hc)
  have hyear : ∀ c ∈ Instant.yearText (Date.ofDays (i.seconds / daySeconds)).year,
      c.toNat < 0x80 := by
    rw [Instant.yearText]
    split
    · exact hfield _ _
    · refine List.forall_mem_cons.2 ⟨?_, fun _ hc => toNat_lt_of_isDigit (isDigit_of_mem_padded hc)⟩
      split <;> decide
  have hfraction : ∀ c ∈ Instant.fractionText i.nanos, c.toNat < 0x80 := by
    rw [Instant.fractionText]
    split
    · exact List.forall_mem_nil _
    split
    · exact List.forall_mem_cons.2 ⟨by decide, hfield _ _⟩
    split
    · exact List.forall_mem_cons.2 ⟨by decide, hfield _ _⟩
    · exact List.forall_mem_cons.2 ⟨by decide, hfield _ _⟩
  simp only [write, Instant.dateText, Instant.timeText, List.forall_mem_append,
    List.forall_mem_cons]
  refine ⟨⟨⟨⟨hyear, ?_, hfield _ _⟩, ?_, hfield _ _⟩, ?_, ⟨⟨hfield _ _, ?_, hfield _ _⟩, ?_,
    hfield _ _⟩, hfraction⟩, ?_, List.forall_mem_nil _⟩ <;> decide

theorem natAbs_year_lt (i : Instant) :
    (Date.ofDays (i.seconds / daySeconds)).year.natAbs < 10 ^ 6 := by
  have hinstant := i.isInstant
  simp only [isInstant, Bool.and_eq_true, decide_eq_true_eq] at hinstant
  obtain ⟨era, year, month, day, heq, hdays, hyear, hmonth, -, hday, -⟩ :=
    Date.exists_parts (i.seconds / daySeconds)
  rw [heq, Date.ofParts]
  simp only [minSeconds, maxSeconds, daySeconds, Date.epochOffset, Date.daysBeforeYear] at *
  split <;> omega

/-- The form is not long. -/
theorem length_write_le (i : Instant) : (write i).length ≤ 40 := by
  have hyear : (Instant.yearText (Date.ofDays (i.seconds / daySeconds)).year).length ≤ 7 := by
    have hdigits := (Nat.length_toDigits_le_iff (by decide) (by decide)).2 (natAbs_year_lt i)
    rw [Instant.yearText]
    split
    · rw [length_field]
      decide
    · rw [List.length_cons, padded, List.length_append, List.length_replicate]
      omega
  have hfraction : (Instant.fractionText i.nanos).length ≤ 10 := by
    rw [Instant.fractionText]
    split
    · exact Nat.zero_le _
    split
    · simp
    split <;> simp
  simp only [write, Instant.dateText, Instant.timeText, List.length_append, List.length_cons,
    List.length_nil, length_field]
  omega

end Rfc3339

end Time

end PermissionedLedger
