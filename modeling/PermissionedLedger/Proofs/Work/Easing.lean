import Mathlib
import PermissionedLedger.Proofs.Rules.WellFormed
import PermissionedLedger.Proofs.Work.Compact
import PermissionedLedger.Rules.Placement

/-!
# How fast targets can ease

`Schedule.easiest` allows for a factor of four in every four timespans, which is a factor of two
in every two of them. An interval of `t` seconds eases by `t / T`, where `T` is the timespan. So
it stays within the allowance if `t ≤ 2 * T`, and again if `t` counts for `4 * T` seconds at
least; in between it eases more (`Schedule.charge`).

Roots are avoided: targets are compared by their powers to the exponent `2 * T`, for which a
second is worth a factor of two. One change of the target stays within what its interval is
charged (`Schedule.retarget_within`), and so does any number of them (`Schedule.retargets_within`).
-/

namespace PermissionedLedger

namespace Work

-- powers are those of the core library, as in the definitions
attribute [local instance (high)] instPowNat

/-! ## Growth -/

section Growth

variable {j m c d : Nat}

/-- The first two terms of a binomial. -/
theorem pow_add_mul_pow_le (j m : Nat) : j ^ (m + 1) + (m + 1) * j ^ m ≤ (j + 1) ^ (m + 1) := by
  induction m with
  | zero => simp
  | succ m ih =>
    calc j ^ (m + 2) + (m + 2) * j ^ (m + 1)
        ≤ (j ^ (m + 1) + (m + 1) * j ^ m) * (j + 1) := by
          rw [Nat.pow_succ j (m + 1), Nat.pow_succ j m]
          nlinarith [Nat.zero_le ((m + 1) * j ^ m)]
      _ ≤ (j + 1) ^ (m + 1) * (j + 1) := Nat.mul_le_mul_right _ ih
      _ = (j + 1) ^ (m + 2) := (Nat.pow_succ ..).symm

/-- A power doubles where the base grows by one and is not above the exponent. -/
theorem two_mul_pow_le (h : j ≤ m) : 2 * j ^ (m + 1) ≤ (j + 1) ^ (m + 1) := by
  have hbinomial := pow_add_mul_pow_le j m
  have hle : j ^ (m + 1) ≤ (m + 1) * j ^ m := by
    rw [Nat.pow_succ, Nat.mul_comm]
    exact Nat.mul_le_mul_right _ (by omega)
  omega

/-- Below the exponent every step of the base is worth a factor of two at least. -/
theorem pow_mul_two_pow_le (h : c + d = m) : c ^ m * 2 ^ d ≤ m ^ m := by
  induction d generalizing c with
  | zero =>
    obtain rfl := h
    rw [Nat.pow_zero, Nat.mul_one, Nat.add_zero]
  | succ d ih =>
    obtain ⟨m, rfl⟩ := Nat.exists_eq_add_of_le' (show 1 ≤ m by omega)
    calc c ^ (m + 1) * 2 ^ (d + 1) = 2 * c ^ (m + 1) * 2 ^ d := by
          rw [Nat.pow_succ 2, Nat.mul_comm 2, Nat.mul_assoc, Nat.mul_comm 2]
      _ ≤ (c + 1) ^ (m + 1) * 2 ^ d := Nat.mul_le_mul_right _ (two_mul_pow_le (by omega))
      _ ≤ (m + 1) ^ (m + 1) := ih (by omega)

/-- Up to twice a timespan, a factor of `c / T` is covered by `c` seconds. -/
theorem pow_le_of_le_two_mul {T : Nat} (h : c ≤ 2 * T) :
    c ^ (2 * T) ≤ T ^ (2 * T) * 2 ^ c := by
  obtain ⟨d, hd⟩ := Nat.exists_eq_add_of_le h
  have hle : c ^ (2 * T) * 2 ^ d ≤ (2 * T) ^ (2 * T) := pow_mul_two_pow_le hd.symm
  refine Nat.le_of_mul_le_mul_right ?_ (Nat.two_pow_pos d)
  calc c ^ (2 * T) * 2 ^ d ≤ (2 * T) ^ (2 * T) := hle
    _ = T ^ (2 * T) * 2 ^ (2 * T) := by rw [Nat.mul_pow, Nat.mul_comm]
    _ = T ^ (2 * T) * 2 ^ c * 2 ^ d := by rw [Nat.mul_assoc, ← Nat.pow_add, ← hd]

/-- A factor of four is covered by four timespans. -/
theorem four_mul_pow (T : Nat) : (4 * T) ^ (2 * T) = T ^ (2 * T) * 2 ^ (4 * T) := by
  rw [Nat.mul_pow, Nat.mul_comm, show 4 * T = 2 * (2 * T) by omega, Nat.pow_mul 2 2]

end Growth

/-! ## One change -/

namespace Schedule

variable {s : Schedule} {bits : UInt32} {target : Nat} {t : Int}

/-- The seconds that an interval is charged: what it took, and four timespans at least if it took
more than two. -/
def charge (s : Schedule) (t : Int) : Int :=
  if 2 * s.timespan.toInt < t then max t (4 * s.timespan.toInt) else t

/-- The seconds that an interval counts for, between a quarter of a timespan and four of them. -/
def counted (s : Schedule) (t : Int) : Int :=
  if t < s.minTimespan then s.minTimespan else if s.maxTimespan < t then s.maxTimespan else t

theorem le_charge (s : Schedule) (t : Int) : t ≤ s.charge t := by
  rw [charge]
  split <;> omega

/-- Intervals are charged what they took unless that was strictly between two and four
timespans. -/
theorem charge_eq (h : t ≤ 2 * s.timespan.toInt ∨ 4 * s.timespan.toInt ≤ t) : s.charge t = t := by
  rw [charge]
  split <;> omega

theorem maxTimespan_eq (hpos : 0 < s.timespan.toInt) (hword : 4 * s.timespan.toInt < 2 ^ 63) :
    s.maxTimespan = 4 * s.timespan.toInt := by
  rw [maxTimespan, Int.bmod_eq_of_le (by simp only [maxFactor]; omega)
    (by simp only [maxFactor]; omega)]
  simp only [maxFactor]
  omega

theorem minTimespan_eq (hpos : 0 < s.timespan.toInt) :
    s.minTimespan = s.timespan.toInt / 4 := by
  rw [minTimespan, Int.tdiv_eq_ediv_of_nonneg hpos.le]
  rfl

/-- What an interval counts for is covered by what it is charged. -/
theorem counted_pow_le (hpos : 0 < s.timespan.toInt) (hword : 4 * s.timespan.toInt < 2 ^ 63)
    (ht : 0 ≤ t) : (s.counted t).toNat ^ (2 * s.timespan.toInt.toNat) ≤
      s.timespan.toInt.toNat ^ (2 * s.timespan.toInt.toNat) * 2 ^ (s.charge t).toNat := by
  rw [counted, maxTimespan_eq hpos hword, minTimespan_eq hpos, charge]
  generalize s.timespan.toInt = T at hpos
  obtain ⟨T, rfl⟩ := Int.eq_ofNat_of_zero_le hpos.le
  obtain ⟨t, rfl⟩ := Int.eq_ofNat_of_zero_le ht
  simp only [Int.toNat_natCast]
  split
  case isTrue =>
    -- a short interval does not ease at all
    have hquarter : ((T : Int) / 4).toNat ≤ T := by omega
    exact (Nat.pow_le_pow_left hquarter _).trans (Nat.le_mul_of_pos_right _ (Nat.two_pow_pos _))
  case isFalse =>
    by_cases hslow : 2 * (T : Int) < t
    · -- a slow one is charged for the largest factor
      rw [if_pos hslow]
      have hcounted : (if 4 * (T : Int) < t then 4 * (T : Int) else t).toNat ≤ 4 * T := by
        split <;> omega
      calc (if 4 * (T : Int) < t then 4 * (T : Int) else t).toNat ^ (2 * T)
          ≤ (4 * T) ^ (2 * T) := Nat.pow_le_pow_left hcounted _
        _ = T ^ (2 * T) * 2 ^ (4 * T) := four_mul_pow T
        _ ≤ T ^ (2 * T) * 2 ^ (max (t : Int) (4 * T)).toNat :=
            Nat.mul_le_mul_left _ (Nat.pow_le_pow_right (by decide) (by omega))
    · rw [if_neg hslow, if_neg (by omega), Int.toNat_natCast]
      exact pow_le_of_le_two_mul (by omega)

/-- The target after a change. -/
theorem target?_retarget (s : Schedule) (t : Int) (h : target? bits = some target) :
    target? (s.retarget bits t) = some (rounded
      (min (target * (s.counted t).toNat / (max s.timespan.toInt 1).toNat) s.limit)) := by
  have hlt := (Nat.min_le_right (target * (s.counted t).toNat / (max s.timespan.toInt 1).toNat)
    s.limit).trans_lt s.limit_lt
  rw [retarget, h]
  exact target?_ofTarget hlt

/-- A target is within what easing for some seconds allows, and within the limit. -/
structure Within (s : Schedule) (start seconds target : Nat) : Prop where
  /-- a second is worth a factor of two in the power -/
  pow_le : target ^ (2 * s.timespan.toInt.toNat) ≤
    start ^ (2 * s.timespan.toInt.toNat) * 2 ^ seconds
  /-- no target is above the limit -/
  le_limit : target ≤ s.limit

/-- A change leads from one target to another that is within what its interval is charged. -/
theorem retarget_within (hpos : 0 < s.timespan.toInt) (hword : 4 * s.timespan.toInt < 2 ^ 63)
    (h : target? bits = some target) (ht : 0 ≤ t) : ∃ next,
    target? (s.retarget bits t) = some next ∧ s.Within target (s.charge t).toNat next := by
  refine ⟨_, target?_retarget s t h, ?_, (rounded_le _).trans (Nat.min_le_right ..)⟩
  have hcounted := counted_pow_le hpos hword ht
  rw [show (max s.timespan.toInt 1).toNat = s.timespan.toInt.toNat by omega]
  have hT : 0 < s.timespan.toInt.toNat := by omega
  generalize s.timespan.toInt.toNat = T at hcounted hT ⊢
  generalize (s.counted t).toNat = c at hcounted ⊢
  have hle : rounded (min (target * c / T) s.limit) * T ≤ target * c :=
    (Nat.mul_le_mul_right T ((rounded_le _).trans (Nat.min_le_left ..))).trans
      (Nat.div_mul_le_self ..)
  refine Nat.le_of_mul_le_mul_right ?_ (Nat.pow_pos hT : 0 < T ^ (2 * T))
  calc rounded (min (target * c / T) s.limit) ^ (2 * T) * T ^ (2 * T)
      = (rounded (min (target * c / T) s.limit) * T) ^ (2 * T) := (Nat.mul_pow ..).symm
    _ ≤ (target * c) ^ (2 * T) := Nat.pow_le_pow_left hle _
    _ = target ^ (2 * T) * c ^ (2 * T) := Nat.mul_pow ..
    _ ≤ target ^ (2 * T) * (T ^ (2 * T) * 2 ^ (s.charge t).toNat) :=
        Nat.mul_le_mul_left _ hcounted
    _ = target ^ (2 * T) * 2 ^ (s.charge t).toNat * T ^ (2 * T) := by
        rw [Nat.mul_comm (T ^ (2 * T)), ← Nat.mul_assoc]

/-! ## Any number of changes -/

theorem Within.of_le {start : Nat} (hlimit : target ≤ s.limit) (hle : target ≤ start) :
    s.Within start 0 target :=
  ⟨(Nat.pow_le_pow_left hle _).trans (Nat.mul_one _).ge, hlimit⟩

theorem Within.trans {start next seconds seconds' : Nat} (h : s.Within start seconds next)
    (h' : s.Within next seconds' target) : s.Within start (seconds + seconds') target := by
  refine ⟨h'.pow_le.trans ?_, h'.le_limit⟩
  rw [Nat.pow_add, ← Nat.mul_assoc]
  exact Nat.mul_le_mul_right _ h.pow_le

theorem Within.mono {start seconds seconds' : Nat} (h : s.Within start seconds target)
    (hle : seconds ≤ seconds') : s.Within start seconds' target :=
  ⟨h.pow_le.trans (Nat.mul_le_mul_left _ (Nat.pow_le_pow_right (by decide) hle)), h.le_limit⟩

/-- Any number of changes stays within what their intervals are charged. -/
theorem retargets_within (hpos : 0 < s.timespan.toInt) (hword : 4 * s.timespan.toInt < 2 ^ 63)
    {ts : List Int} (h : target? bits = some target) (hlimit : target ≤ s.limit)
    (hts : ∀ t ∈ ts, 0 ≤ t) : ∃ reached, target? (ts.foldl s.retarget bits) = some reached ∧
      s.Within target (ts.map s.charge).sum.toNat reached := by
  induction ts generalizing bits target with
  | nil => exact ⟨target, h, .of_le hlimit le_rfl⟩
  | cons t ts ih =>
    obtain ⟨ht, hts⟩ := List.forall_mem_cons.1 hts
    obtain ⟨next, hnext, hwithin⟩ := retarget_within hpos hword h ht
    obtain ⟨reached, hreached, hwithin'⟩ := ih hnext hwithin.le_limit hts
    refine ⟨reached, hreached, (hwithin.trans hwithin').mono ?_⟩
    have hcharge := ht.trans (s.le_charge t)
    have hcharges : 0 ≤ (ts.map s.charge).sum :=
      List.sum_nonneg (List.forall_mem_map.2 fun t ht => (hts t ht).trans (s.le_charge t))
    rw [List.map_cons, List.sum_cons, Int.toNat_add hcharge hcharges]

/-! ## The bound -/

/-- Easing reaches every target that is within what the seconds allow. -/
theorem Within.le_ease {start seconds : Nat} (h : s.Within start seconds target)
    {step : Nat} (hstep : step + 1 = 4 * s.timespan.toInt.toNat) :
    target ≤ ease s.limit step start seconds := by
  fun_induction ease s.limit step start seconds with
  | case1 start =>
    have hpow := h.pow_le
    rw [Nat.pow_zero, Nat.mul_one] at hpow
    exact (Nat.pow_le_pow_iff_left (by omega)).1 hpow
  | case2 start remaining hdone => exact h.le_limit.trans hdone
  | case3 start remaining hless next ih =>
    apply ih
    by_cases hlarge : bound ≤ next
    · -- the limit is reached
      rw [dif_pos hlarge]
      exact (Within.of_le h.le_limit h.le_limit).mono (Nat.zero_le _)
    · rw [dif_neg hlarge]
      refine ⟨h.pow_le.trans ?_, h.le_limit⟩
      generalize s.timespan.toInt.toNat = T at hstep
      calc start ^ (2 * T) * 2 ^ (remaining + 1)
          ≤ start ^ (2 * T) * (2 ^ (4 * T) * 2 ^ (remaining - step)) := by
            rw [← Nat.pow_add]
            exact Nat.mul_le_mul_left _ (Nat.pow_le_pow_right (by decide) (by omega))
        _ = next ^ (2 * T) * 2 ^ (remaining - step) := by
            rw [← Nat.mul_assoc, Nat.mul_pow, show maxFactor = 2 ^ 2 from rfl, ← Nat.pow_mul,
              show 2 * (2 * T) = 4 * T by omega]

/-- The easiest target, as a number. -/
theorem target?_easiest (s : Schedule) (hfixed : s.isFixed = false) (seconds : Int)
    (h : target? bits = some target) : target? (s.easiest bits seconds) = some (rounded
      (min (ease s.limit ((max s.maxTimespan 1).toNat - 1) target seconds.toNat) s.limit)) := by
  rw [easiest, hfixed, if_neg Bool.false_ne_true, h]
  exact target?_ofTarget ((Nat.min_le_right ..).trans_lt s.limit_lt)

/-- Where intervals are charged no more than a time, their changes lead to no easier target than
is allowed for that time. -/
theorem retargets_le (hfixed : s.isFixed = false) (hpos : 0 < s.timespan.toInt)
    (hword : 4 * s.timespan.toInt < 2 ^ 63) {ts : List Int} (h : target? bits = some target)
    (hlimit : target ≤ s.limit) (hts : ∀ t ∈ ts, 0 ≤ t) {seconds : Int}
    (hsum : (ts.map s.charge).sum ≤ seconds) : ∃ reached reachable,
      target? (ts.foldl s.retarget bits) = some reached ∧
      target? (s.easiest bits seconds) = some reachable ∧ reached ≤ reachable := by
  obtain ⟨reached, hreached, hwithin⟩ := retargets_within hpos hword h hlimit hts
  refine ⟨reached, _, hreached, target?_easiest s hfixed seconds h,
    le_rounded_of_target? hreached (Nat.le_min.2 ⟨?_, hwithin.le_limit⟩)⟩
  refine (hwithin.mono (Int.toNat_le_toNat hsum)).le_ease ?_
  rw [maxTimespan_eq hpos hword]
  omega

end Schedule

end Work

/-- A block whose target is not easier than allowed since the latest checkpoint is not rejected for
it. -/
theorem Block.rule_ne_of_checkBounds {b : Block} {params : Params} {t : BlockTree}
    {pinned : TreeNode} (hpinned : (t.latestCheckpoint? params).bind t.node? = some pinned)
    {reached reachable : Nat} (hreached : Work.target? b.header.bits = some reached)
    (hreachable : Work.target? (params.pow.easiest pinned.header.bits
      (b.header.time.secondsSince pinned.header.time)) = some reachable)
    (hle : reached ≤ reachable) {flags : AddFlags} {fault : PlacementFault}
    (h : b.checkBounds params t flags = .error fault) : fault.rule ≠ .difficultyTooLow := by
  rw [checkBounds, hpinned] at h
  simp only [hreached, hreachable, Option.getD_some, require, if_pos hle] at h
  split at h
  · -- the time is in order, and then the target is
    split at h <;> cases h
  · obtain rfl := Except.error.inj h
    exact fun hrule => by cases hrule

namespace Work.Schedule

/-- The easiest target is a bound: no changes lead above it from a permitted target in the time
that their intervals are charged, which is the time that they took if none of it is strictly
between two and four timespans. So no block that follows the changes from the latest checkpoint
is rejected as easier than reachable. -/
theorem easiest_bounds (s : Schedule) (hfixed : s.isFixed = false) (hpos : 0 < s.timespan.toInt)
    (hword : 4 * s.timespan.toInt < 2 ^ 63) {bits : UInt32} {start : Nat}
    (hstart : permitted? bits s.limit = some start) {ts : List Int} (hts : ∀ t ∈ ts, 0 ≤ t) :
    (∀ seconds, (ts.map s.charge).sum ≤ seconds → ∃ reached reachable,
      target? (ts.foldl s.retarget bits) = some reached ∧
      target? (s.easiest bits seconds) = some reachable ∧ reached ≤ reachable) ∧
    ∀ {params : Params} {t : BlockTree} {pinned : TreeNode} {b : Block}, params.pow = s →
      (t.latestCheckpoint? params).bind t.node? = some pinned → pinned.header.bits = bits →
      b.header.bits = ts.foldl s.retarget bits →
      (ts.map s.charge).sum ≤ b.header.time.secondsSince pinned.header.time →
      ∀ flags fault, b.checkBounds params t flags = .error fault →
        fault.rule ≠ .difficultyTooLow := by
  obtain ⟨htarget, hrange⟩ := Option.filter_eq_some_iff.1 hstart
  have hlimit : start ≤ s.limit := (of_decide_eq_true hrange).2
  constructor
  · exact fun seconds hsum => retargets_le hfixed hpos hword htarget hlimit hts hsum
  · rintro params t pinned b rfl hpinned rfl hbits hsum flags fault hfault
    obtain ⟨reached, reachable, hreached, hreachable, hle⟩ :=
      retargets_le hfixed hpos hword htarget hlimit hts hsum
    rw [← hbits] at hreached
    exact Block.rule_ne_of_checkBounds hpinned hreached hreachable hle hfault

end Work.Schedule

/-! ## Samples -/

namespace Sample

/-- A header with a harder target than the easiest of the production network. -/
def hardHeader : Header := { Network.mainnetParams.genesis.header with bits := 0x1b0404cb }

/-- The production network, where the block with the hard target is a checkpoint. -/
def hardParams : Params :=
  { Network.mainnetParams with
    checkpoints := [⟨0, hardHeader.hash⟩]
    ascending := List.pairwise_singleton .. }

/-- The node of that block. -/
def hardNode : TreeNode :=
  ({} : BlockTree).child hardHeader none .valid hardParams.genesisKeys

/-- The tree of that block alone. -/
def hardTree : BlockTree :=
  (({} : BlockTree).insert hardHeader none .valid hardParams.genesisKeys).setTip 0

/-- A block that carries the target after some intervals, as many seconds after the checkpoint as
they took. -/
def eased (timespans : List Int) : Block where
  header :=
    { hardHeader with
      time := hardHeader.time.addSeconds timespans.sum
      bits := timespans.foldl hardParams.pow.retarget hardHeader.bits }
  transactions := []

/-- One timespan, two, five, and less than a quarter of one. -/
def mixed : List Int := [1209600, 2419200, 6048000, 100]

/-- Three timespans each. -/
def slow : List Int := [3628800, 3628800, 3628800, 3628800]

theorem hardTree_latest :
    (hardTree.latestCheckpoint? hardParams).bind hardTree.node? = some hardNode := by
  have hlatest : hardTree.latestCheckpoint? hardParams = some 0 := by decide +kernel
  rw [hlatest]
  rfl

end Sample

namespace Work.Schedule

/-- On the production network intervals of all lengths but those in between stay within the
bound. -/
theorem easiest_bounds_mixed :
    (∃ reached reachable,
      target? (Sample.mixed.foldl Sample.hardParams.pow.retarget 0x1b0404cb) = some reached ∧
      target? (Sample.hardParams.pow.easiest 0x1b0404cb Sample.mixed.sum) = some reachable ∧
      reached ≤ reachable) ∧
    ∀ flags fault,
      (Sample.eased Sample.mixed).checkBounds Sample.hardParams Sample.hardTree flags =
        .error fault → fault.rule ≠ .difficultyTooLow := by
  have hstart : permitted? 0x1b0404cb Sample.hardParams.pow.limit = some (0x404cb * 256 ^ 24) := by
    decide
  have hmixed : ∀ t ∈ Sample.mixed, 0 ≤ t := by decide
  have hcharged : (Sample.mixed.map Sample.hardParams.pow.charge).sum ≤ Sample.mixed.sum := by
    decide
  have helapsed : (Sample.eased Sample.mixed).header.time.secondsSince Sample.hardNode.header.time =
      Sample.mixed.sum := by decide
  obtain ⟨hbound, hblocks⟩ :=
    easiest_bounds Sample.hardParams.pow rfl (by decide) (by decide) hstart hmixed
  exact ⟨hbound _ hcharged, hblocks rfl Sample.hardTree_latest rfl rfl (hcharged.trans helapsed.ge)⟩

/-- Four intervals of three timespans each ease by a factor of 81, where the bound allows for 64 in
the time that they took. The block after them is rejected. -/
theorem slow_intervals_exceed_easiest :
    (∀ t ∈ Sample.slow, 0 ≤ t) ∧
    permitted? 0x1b0404cb Sample.hardParams.pow.limit = some (0x404cb * 256 ^ 24) ∧
    target? (Sample.slow.foldl Sample.hardParams.pow.retarget 0x1b0404cb) =
      some (0x14584 * 256 ^ 25) ∧
    target? (Sample.hardParams.pow.easiest 0x1b0404cb Sample.slow.sum) =
      some (0x10132 * 256 ^ 25) ∧
    (Sample.eased Sample.slow).checkBounds Sample.hardParams Sample.hardTree {} =
      .error (.easierThanReachable 0x1c014584 0x1c010132) := by
  decide +kernel

end Work.Schedule

end PermissionedLedger
