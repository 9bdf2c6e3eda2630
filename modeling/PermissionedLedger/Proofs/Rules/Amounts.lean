import Mathlib
import PermissionedLedger.Proofs.Rules.Governance
import PermissionedLedger.Rules.Spending

/-!
# Amounts in a checked transaction

Amounts are 64-bit words, and sums and differences of words wrap around. Those of a
transaction that was checked do not: its values are in range and so is their sum
(`Transaction.Valued`), so that `Transaction.outputTotal` is exact.

Of all transactions only those of the Issue thread create value (`Transaction.minted`).
The outputs of the Root and Provision threads have none.
-/

namespace PermissionedLedger

namespace Amount

variable {a b c : Amount}

/-- An amount that the value of an output can be. -/
def InRange (a : Amount) : Prop := 0 ≤ a.toInt ∧ a.toInt ≤ maxAmount.toInt

instance (a : Amount) : Decidable a.InRange := inferInstanceAs (Decidable (_ ∧ _))

theorem toInt_maxAmount : maxAmount.toInt = 2100000000000000 := by decide

/-- A sum that is a word is exact. -/
theorem toInt_add_of_fits (hlow : -2 ^ 63 ≤ a.toInt + b.toInt)
    (hhigh : a.toInt + b.toInt < 2 ^ 63) : (a + b).toInt = a.toInt + b.toInt := by
  rw [Int64.toInt_add]
  exact Int.bmod_eq_of_le (by omega) (by omega)

/-- So is a difference. -/
theorem toInt_sub_of_fits (hlow : -2 ^ 63 ≤ a.toInt - b.toInt)
    (hhigh : a.toInt - b.toInt < 2 ^ 63) : (a - b).toInt = a.toInt - b.toInt := by
  rw [Int64.toInt_sub]
  exact Int.bmod_eq_of_le (by omega) (by omega)

theorem toInt_of_sum? (h : sum? a b = some c) : c.toInt = a.toInt + b.toInt := by
  rw [sum?] at h
  split at h
  · next hfits =>
    rw [Int64.toInt_minValue, Int64.toInt_maxValue] at hfits
    obtain rfl := Option.some.inj h
    exact Int64.toInt_ofInt_of_le hfits.1 (by omega)
  · cases h

/-- A sum that is cut off at the largest word is not above the exact one. -/
theorem toInt_clampedSum_le (hb : 0 ≤ b.toInt) : (clampedSum a b).toInt ≤ a.toInt + b.toInt := by
  have ha := a.le_toInt
  rw [clampedSum, Int64.toInt_minValue, Int64.toInt_maxValue,
    Int64.toInt_ofInt_of_le (by omega) (by omega)]
  omega

end Amount

namespace Transaction

variable {tx : Transaction} {params : Params} {total : Amount}

/-! ## Values of outputs -/

/-- The sum of the values of outputs, as an integer. -/
def worth (outputs : List TxOutput) : Int := (outputs.map (·.value.toInt)).sum

theorem worth_cons (output : TxOutput) (outputs : List TxOutput) :
    worth (output :: outputs) = output.value.toInt + worth outputs := by
  rw [worth, List.map_cons, List.sum_cons, worth]

/-- Values of outputs are in range, and so is their sum. -/
structure Valued (outputs : List TxOutput) : Prop where
  /-- no value is negative or too large -/
  inRange : ∀ output ∈ outputs, output.value.InRange
  /-- they are not too large together -/
  worth_le : worth outputs ≤ maxAmount.toInt

theorem worth_nonneg {outputs : List TxOutput} (h : ∀ output ∈ outputs, output.value.InRange) :
    0 ≤ worth outputs := by
  refine List.sum_nonneg fun a ha => ?_
  obtain ⟨output, hmem, rfl⟩ := List.mem_map.1 ha
  exact (h output hmem).1

theorem of_checkOutputs {before : Int} {outputs : List TxOutput}
    (h : checkOutputs before outputs = .ok ()) (hbefore : before ≤ maxAmount.toInt) :
    (∀ output ∈ outputs, output.value.InRange) ∧ before + worth outputs ≤ maxAmount.toInt := by
  induction outputs generalizing before with
  | nil =>
    refine ⟨fun _ hmem => (nomatch hmem), ?_⟩
    simpa [worth] using hbefore
  | cons output outputs ih =>
    rw [checkOutputs] at h
    obtain ⟨hlow, h⟩ := require_bind_eq_ok.1 h
    obtain ⟨hhigh, h⟩ := require_bind_eq_ok.1 h
    obtain ⟨hsum, h⟩ := require_bind_eq_ok.1 h
    obtain ⟨_, -, h⟩ := bind_eq_ok.1 h
    obtain ⟨hrange, hworth⟩ := ih h hsum
    rw [worth_cons, ← Int.add_assoc]
    exact ⟨List.forall_mem_cons.2 ⟨⟨hlow, hhigh⟩, hrange⟩, hworth⟩

theorem valued_of_check (h : tx.check params = .ok ()) : Valued tx.outputs := by
  obtain ⟨-, -, houtputs, -⟩ := check_parts h
  obtain ⟨hrange, hworth⟩ := of_checkOutputs houtputs (by decide)
  exact ⟨hrange, by rwa [Int.zero_add] at hworth⟩

/-- Values are added up without wrapping around. -/
theorem toInt_foldl {outputs : List TxOutput} {before : Amount}
    (hrange : ∀ output ∈ outputs, output.value.InRange) (hbefore : 0 ≤ before.toInt)
    (hsum : before.toInt + worth outputs ≤ maxAmount.toInt) :
    ((outputs.map (·.value)).foldl (· + ·) before).toInt = before.toInt + worth outputs := by
  induction outputs generalizing before with
  | nil => simp [worth]
  | cons output outputs ih =>
    obtain ⟨hfirst, hrest⟩ := List.forall_mem_cons.1 hrange
    have hnonneg := worth_nonneg hrest
    have hmax := Amount.toInt_maxAmount
    have hlow := hfirst.1
    rw [worth_cons] at hsum ⊢
    have hexact : (before + output.value).toInt = before.toInt + output.value.toInt :=
      Amount.toInt_add_of_fits (by omega) (by omega)
    rw [List.map_cons, List.foldl_cons, ih hrest (by omega) (by omega), hexact, Int.add_assoc]

theorem Valued.toInt_outputTotal (h : Valued tx.outputs) :
    tx.outputTotal.toInt = worth tx.outputs := by
  have hzero : (0 : Amount).toInt = 0 := rfl
  have hexact := toInt_foldl h.inRange (Int.le_of_eq hzero.symm)
    (by rw [hzero, Int.zero_add]; exact h.worth_le)
  rw [hzero, Int.zero_add] at hexact
  exact hexact

/-! ## Minted value -/

/-- The value that a transaction creates: that of the outputs after the first, where it continues
the Issue thread. -/
def minted (tx : Transaction) : Int :=
  if tx.continued? = some .issue then worth tx.outputs.tail else 0

/-- Outputs of the threads that manage keys have no value. -/
theorem worth_of_manages {thread : Thread} (h : tx.check params = .ok ())
    (ht : tx.continued? = some thread) (hmanages : thread ≠ .issue) : worth tx.outputs = 0 := by
  obtain ⟨-, -, -, -, hkind⟩ := check_parts h
  obtain ⟨hordinary, head, hhead, hlock⟩ := continued?_eq_some.1 ht
  have hthread : tx.thread? = some thread := by
    rw [continued?, hordinary, if_neg Bool.false_ne_true] at ht
    exact ht
  obtain ⟨rest, houtputs⟩ := List.head?_eq_some_iff.1 hhead
  rw [checkKind, hordinary, if_neg Bool.false_ne_true] at hkind
  obtain ⟨_, -, hkind⟩ := bind_eq_ok.1 hkind
  rw [mapError_eq_ok, checkGovernance, hthread, houtputs] at hkind
  obtain ⟨-, hkind⟩ := require_bind_eq_ok.1 hkind
  obtain ⟨hvalue, hkind⟩ := require_bind_eq_ok.1 hkind
  obtain ⟨-, hkind⟩ := require_bind_eq_ok.1 hkind
  have hall : requireAll (checkKeyOpOutput thread) rest = .ok () := by
    cases thread with
    | issue => exact absurd rfl hmanages
    | root | provision =>
      obtain ⟨-, hkind⟩ := require_bind_eq_ok.1 hkind
      exact (require_bind_eq_ok.1 hkind).2
  rw [houtputs, worth_cons, hvalue]
  have hrest : ∀ a ∈ rest.map (·.value.toInt), a = 0 := by
    intro a ha
    obtain ⟨output, hmem, rfl⟩ := List.mem_map.1 ha
    obtain ⟨-, hzero⟩ := require_bind_eq_ok.1 (forall_of_requireAll hall hmem)
    rw [require_eq_ok.1 hzero]
    rfl
  rw [worth, List.sum_eq_zero hrest]
  rfl

/-- The output of the Issue thread has no value, so that the others make up its outputs. -/
theorem worth_of_issue (h : tx.Governed) (ht : tx.continued? = some .issue) :
    worth tx.outputs = tx.minted := by
  obtain ⟨-, ⟨value, lock⟩, hhead, hlock⟩ := continued?_eq_some.1 ht
  obtain ⟨-, hvalue, -⟩ := h.first ((List.head?_eq_getElem? ..).symm.trans hhead) hlock
  obtain rfl : value = 0 := hvalue
  obtain ⟨rest, houtputs⟩ := List.head?_eq_some_iff.1 hhead
  rw [minted, if_pos ht, houtputs, worth_cons, List.tail_cons]
  exact Int.zero_add _

end Transaction

end PermissionedLedger
