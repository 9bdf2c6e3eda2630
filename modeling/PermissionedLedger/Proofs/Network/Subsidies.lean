import Mathlib
import PermissionedLedger.Network.Profiles

/-!
# The total of all subsidies

The subsidy of a height is the first one divided by a power of two and rounded down. The end after
sixty-three halvings makes no difference, as nothing is left of a 64-bit word by then
(`Params.toInt_subsidy`). Between two halvings, in an *era*, all subsidies are the same, so those
of whole eras add up to a geometric sum (`Params.sum_subsidy_eras`).

What rounding loses of that sum is the number of ones among the binary digits of the first subsidy
(`Params.sum_halvings`). So there is an exact total, and it is at most twice of what one era would
pay without halvings (`Params.subsidy_capped`).
-/

namespace PermissionedLedger.Params

open Finset

variable {p : Params} {a b n : Nat}

/-- The number of blocks between two halvings. -/
def era (p : Params) : Nat := max 1 p.halvingInterval

/-- The subsidy of the first block as a natural number. -/
def firstSubsidy (p : Params) : Nat := p.baseSubsidy.toInt.toNat

theorem era_eq (p : Params) : max p.halvingInterval 1 = p.era := Nat.max_comm ..

theorem era_pos (p : Params) : 0 < p.era := lt_max_of_lt_left Nat.one_pos

theorem firstSubsidy_lt (p : Params) : p.firstSubsidy < 2 ^ lastHalving := by
  have hlt : p.baseSubsidy.toInt < 2 ^ 63 := p.baseSubsidy.toInt_lt
  rw [firstSubsidy, lastHalving]
  omega

/-! ## One height -/

/-- After the last halving there would be nothing left to halve. -/
theorem toInt_subsidy (hbase : 0 ≤ p.baseSubsidy.toInt) (height : Nat) :
    (p.subsidy height).toInt = (p.firstSubsidy / 2 ^ (height / p.era) : Nat) := by
  rw [subsidy, era_eq]
  split
  · next hended =>
    have hlt : p.firstSubsidy < 2 ^ (height / p.era) :=
      p.firstSubsidy_lt.trans_le (Nat.pow_le_pow_right (by decide) hended)
    rw [Nat.div_eq_of_lt hlt]
    rfl
  · have hhalved : p.baseSubsidy.toInt / 2 ^ (height / p.era) =
        (p.firstSubsidy / 2 ^ (height / p.era) : Nat) := by
      push_cast
      rw [firstSubsidy, Int.toNat_of_nonneg hbase]
    have hlt : p.firstSubsidy / 2 ^ (height / p.era) < 2 ^ 63 :=
      (Nat.div_le_self ..).trans_lt p.firstSubsidy_lt
    rw [hhalved]
    generalize p.firstSubsidy / 2 ^ (height / p.era) = halved at hlt ⊢
    exact Int64.toInt_ofInt_of_le (by omega) (by omega)

theorem subsidy_nonneg (hbase : 0 ≤ p.baseSubsidy.toInt) (height : Nat) :
    0 ≤ (p.subsidy height).toInt := by
  rw [toInt_subsidy hbase]
  exact Int.natCast_nonneg _

theorem subsidy_anti (hbase : 0 ≤ p.baseSubsidy.toInt) (hle : a ≤ b) :
    (p.subsidy b).toInt ≤ (p.subsidy a).toInt := by
  rw [toInt_subsidy hbase, toInt_subsidy hbase]
  exact_mod_cast Nat.div_le_div_left
    (Nat.pow_le_pow_right (by decide) (Nat.div_le_div_right hle)) (Nat.pow_pos (by decide))

theorem subsidy_eq_zero (hended : lastHalving * p.era ≤ n) : p.subsidy n = 0 := by
  rw [subsidy, era_eq]
  exact if_pos ((Nat.le_div_iff_mul_le p.era_pos).2 hended)

/-! ## All heights -/

/-- Each era pays the same subsidy as often as it has blocks. -/
theorem sum_subsidy_eras (hbase : 0 ≤ p.baseSubsidy.toInt) (eras : Nat) :
    ∑ h ∈ range (eras * p.era), (p.subsidy h).toInt =
      ((∑ k ∈ range eras, p.firstSubsidy / 2 ^ k) * p.era : Nat) := by
  induction eras with
  | zero => simp
  | succ eras ih =>
    have hera : ∀ j ∈ range p.era, (p.subsidy (eras * p.era + j)).toInt =
        (p.firstSubsidy / 2 ^ eras : Nat) := by
      intro j hj
      have hindex : (eras * p.era + j) / p.era = eras := by
        rw [Nat.mul_comm, Nat.mul_add_div p.era_pos, Nat.div_eq_of_lt (mem_range.1 hj),
          Nat.add_zero]
      rw [toInt_subsidy hbase, hindex]
    rw [Nat.succ_mul, sum_range_add, ih, sum_congr rfl hera, sum_const, card_range,
      sum_range_succ, Nat.add_mul]
    push_cast
    ring

/-- All halves of a number come to twice the number but for its binary digits. -/
theorem sum_halvings (hlt : a < 2 ^ n) :
    (∑ k ∈ range n, a / 2 ^ k) + (Nat.digits 2 a).sum = 2 * a := by
  -- a half has all digits but the lowest
  induction n generalizing a with
  | zero =>
    obtain rfl : a = 0 := by omega
    rfl
  | succ n ih =>
    have hhalf : ∀ k, a / 2 ^ (k + 1) = a / 2 / 2 ^ k := fun k => by
      rw [Nat.pow_succ', Nat.div_div_eq_div_mul]
    have hdigits : (Nat.digits 2 a).sum = a % 2 + (Nat.digits 2 (a / 2)).sum := by
      rcases Nat.eq_zero_or_pos a with rfl | hpos
      · rfl
      · rw [Nat.digits_def' (by decide) hpos, List.sum_cons]
    have hrest := @ih (a / 2) (by omega)
    rw [sum_range_succ', sum_congr rfl fun k _ => hhalf k, hdigits]
    omega

/-- The exact total, which is reached with the last era. -/
theorem sum_subsidy (hbase : 0 ≤ p.baseSubsidy.toInt) (hended : lastHalving * p.era ≤ n) :
    ∑ h ∈ range n, (p.subsidy h).toInt =
      (2 * p.baseSubsidy.toInt - (Nat.digits 2 p.firstSubsidy).sum) * p.era := by
  have hlater : ∀ h ∈ range n, h ∉ range (lastHalving * p.era) → (p.subsidy h).toInt = 0 := by
    intro h _ hlater
    rw [subsidy_eq_zero (Nat.le_of_not_lt (mt mem_range.2 hlater))]
    rfl
  have hsum := sum_halvings p.firstSubsidy_lt
  have hfirst : p.baseSubsidy.toInt = p.firstSubsidy := (Int.toNat_of_nonneg hbase).symm
  rw [← sum_subset (range_subset_range.2 hended) hlater, sum_subsidy_eras hbase, Nat.cast_mul,
    hfirst]
  congr 1
  omega

/-- The subsidy never grows. However many blocks there are, the subsidies of all of them come to
at most twice the first one for each block of an era, and in the end to that less the binary digits
of the first one. On the production network that is the most that can ever exist. -/
theorem subsidy_capped (p : Params) (hbase : 0 ≤ p.baseSubsidy.toInt) :
    (∀ a b, a ≤ b → 0 ≤ (p.subsidy b).toInt ∧ (p.subsidy b).toInt ≤ (p.subsidy a).toInt) ∧
    (∀ n, ∑ h ∈ range n, (p.subsidy h).toInt ≤
      2 * p.baseSubsidy.toInt * max 1 p.halvingInterval) ∧
    (∀ n, lastHalving * max 1 p.halvingInterval ≤ n → ∑ h ∈ range n, (p.subsidy h).toInt =
      (2 * p.baseSubsidy.toInt - (Nat.digits 2 p.baseSubsidy.toInt.toNat).sum) *
        max 1 p.halvingInterval) ∧
    2 * Network.mainnetParams.baseSubsidy.toInt * max 1 Network.mainnetParams.halvingInterval =
      maxAmount.toInt := by
  have htotal : ∀ n, lastHalving * p.era ≤ n → ∑ h ∈ range n, (p.subsidy h).toInt =
      (2 * p.baseSubsidy.toInt - (Nat.digits 2 p.firstSubsidy).sum) * p.era :=
    fun n hended => sum_subsidy hbase hended
  refine ⟨fun a b hle => ⟨subsidy_nonneg hbase b, subsidy_anti hbase hle⟩, fun n => ?_, htotal,
    by decide⟩
  -- no later subsidy is negative
  calc ∑ h ∈ range n, (p.subsidy h).toInt
      ≤ ∑ h ∈ range (max n (lastHalving * p.era)), (p.subsidy h).toInt :=
        sum_le_sum_of_subset_of_nonneg (range_subset_range.2 (le_max_left ..))
          fun h _ _ => subsidy_nonneg hbase h
    _ = (2 * p.baseSubsidy.toInt - (Nat.digits 2 p.firstSubsidy).sum) * p.era :=
        htotal _ (le_max_right ..)
    _ ≤ 2 * p.baseSubsidy.toInt * p.era :=
        mul_le_mul_of_nonneg_right (sub_le_self _ (Int.natCast_nonneg _)) (Int.natCast_nonneg _)

/-- On the production network all blocks are paid for less than what can ever exist. -/
theorem subsidy_capped_on_mainnet : 0 ≤ Network.mainnetParams.baseSubsidy.toInt ∧
    (Network.mainnetParams.subsidy 210000).toInt ≤ (Network.mainnetParams.subsidy 209999).toInt ∧
    (∀ n, ∑ h ∈ range n, (Network.mainnetParams.subsidy h).toInt ≤ maxAmount.toInt) ∧
    ∑ h ∈ range 13230000, (Network.mainnetParams.subsidy h).toInt =
      maxAmount.toInt - 11 * 210000 := by
  have hbase : 0 ≤ Network.mainnetParams.baseSubsidy.toInt := by decide
  obtain ⟨hanti, hcap, htotal, hmax⟩ := subsidy_capped Network.mainnetParams hbase
  refine ⟨hbase, (hanti 209999 210000 (by decide)).2, fun n => (hcap n).trans_eq hmax, ?_⟩
  rw [htotal 13230000 (by decide)]
  decide +kernel

end PermissionedLedger.Params
