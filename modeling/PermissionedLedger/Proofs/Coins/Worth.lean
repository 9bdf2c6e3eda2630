import Mathlib
import PermissionedLedger.Proofs.Coins.Threads
import PermissionedLedger.Proofs.Rules.Amounts

/-!
# What the coins are worth

A view is *within* a limit if its coins have values in range and are worth no more than
the limit together (`CoinView.Within`). Spending lowers the limit by what is spent, and
adding outputs raises it by what they are worth; outputs that cannot be spent or replace
others only leave more room.

A transaction that passes pays out what it spends less its fee, and what it mints
(`Transaction.worth_le_of_fee`). So the limit rises with a block by the subsidy and by what its
transactions mint (`Within.connect`): fees end up in the coinbase, whose value is bounded
by them, and all of these sums are exact.
-/

namespace PermissionedLedger

open Transaction

variable {v v' u : CoinView} {tx : Transaction} {height : Nat} {params : Params}
  {verify : Verifier} {journal : Journal} {limit limit' : Int} {b : Block}

namespace CoinView

/-- The value of an output, if it can be spent. -/
def valueAt (v : CoinView) (o : OutPoint) : Int :=
  ((v.lookup? o).map (·.output.value.toInt)).getD 0

/-- Coins have values in range, and are worth no more than a limit together. -/
structure Within (v : CoinView) (limit : Int) : Prop where
  /-- no value is negative or too large -/
  inRange : ∀ {o coin}, v.lookup? o = some coin → coin.output.value.InRange
  /-- the sum over all that can be spent is bounded -/
  bounded : ∃ held : Finset OutPoint, (∀ o, o ∈ held ↔ ∃ coin, v.lookup? o = some coin) ∧
    ∑ o ∈ held, v.valueAt o ≤ limit

theorem valueAt_nonneg (h : v.Within limit) (o : OutPoint) : 0 ≤ v.valueAt o := by
  rw [valueAt]
  rcases hcoin : v.lookup? o with _ | coin
  · exact Int.le_refl 0
  · exact (h.inRange hcoin).1

namespace Within

theorem mono (h : v.Within limit) (hle : limit ≤ limit') : v.Within limit' := by
  obtain ⟨held, hheld, hsum⟩ := h.bounded
  exact ⟨h.inRange, held, hheld, hsum.trans hle⟩

theorem nil : (⟨∅, ∅⟩ : CoinView).Within 0 := by
  have hnone : ∀ o, (⟨∅, ∅⟩ : CoinView).lookup? o = none := fun o => by simp [lookup?, fetch]
  refine ⟨fun hcoin => ?_, ∅, fun o => ?_, by simp⟩
  · rw [hnone] at hcoin
    cases hcoin
  · simp [hnone]

/-- What is spent no longer counts. -/
theorem spendAll {hash : Digest} {os : List OutPoint} (h : v.Within limit)
    (hs : CoinView.spendAll hash v os = (.ok (), v', journal)) :
    v'.Within (limit - (os.map v.valueAt).sum) := by
  obtain ⟨hnodup, hmap, hcoins, hlook⟩ := of_spendAll hs
  obtain ⟨held, hheld, hsum⟩ := h.bounded
  have hsub : os.toFinset ⊆ held := by
    intro o ho
    rw [List.mem_toFinset, ← hmap] at ho
    obtain ⟨entry, hentry, rfl⟩ := List.mem_map.1 ho
    exact (hheld _).2 ⟨_, hcoins entry hentry⟩
  refine ⟨fun {o coin} hcoin => ?_, held \ os.toFinset, fun o => ?_, ?_⟩
  · rw [hlook] at hcoin
    split at hcoin
    · cases hcoin
    · exact h.inRange hcoin
  · rw [Finset.mem_sdiff, List.mem_toFinset, hheld, hlook]
    by_cases ho : o ∈ os
    · simp [ho]
    · simp [ho]
  · have hrest : ∑ o ∈ held \ os.toFinset, v'.valueAt o =
        ∑ o ∈ held \ os.toFinset, v.valueAt o := by
      refine Finset.sum_congr rfl fun o ho => ?_
      rw [Finset.mem_sdiff, List.mem_toFinset] at ho
      rw [valueAt, hlook, if_neg ho.2, valueAt]
    have hspent : ∑ o ∈ os.toFinset, v.valueAt o = (os.map v.valueAt).sum :=
      List.sum_toFinset _ hnodup
    have hsplit := Finset.sum_sdiff hsub (f := v.valueAt)
    omega

/-- An output that is added counts, and one that it replaces does not any more. -/
theorem set_unspent {coin : Coin} (h : v.Within limit) (hrange : coin.output.value.InRange)
    (o : OutPoint) : (v.set o (.unspent coin)).Within (limit + coin.output.value.toInt) := by
  obtain ⟨held, hheld, hsum⟩ := h.bounded
  refine ⟨fun {p coin'} hcoin => ?_, insert o (held.erase o), fun p => ?_, ?_⟩
  · rw [lookup?_set_unspent] at hcoin
    split at hcoin
    · obtain rfl := Option.some.inj hcoin
      exact hrange
    · exact h.inRange hcoin
  · rw [Finset.mem_insert, Finset.mem_erase, hheld, lookup?_set_unspent]
    by_cases hp : p = o
    · simp [hp]
    · simp [hp]
  · have hrest : ∑ p ∈ held.erase o, (v.set o (.unspent coin)).valueAt p =
        ∑ p ∈ held.erase o, v.valueAt p := by
      refine Finset.sum_congr rfl fun p hp => ?_
      rw [valueAt, lookup?_set_unspent, if_neg (Finset.ne_of_mem_erase hp), valueAt]
    have hnew : (v.set o (.unspent coin)).valueAt o = coin.output.value.toInt := by
      rw [valueAt, lookup?_set_unspent, if_pos rfl]
      rfl
    have hle : ∑ p ∈ held.erase o, v.valueAt p ≤ ∑ p ∈ held, v.valueAt p :=
      Finset.sum_le_sum_of_subset_of_nonneg (Finset.erase_subset ..)
        fun p _ _ => valueAt_nonneg h p
    rw [Finset.sum_insert (Finset.notMem_erase o held), hnew, hrest]
    omega

theorem setAll {ss : List (OutPoint × TxOutput)} {isCoinbase : Bool} (h : v.Within limit)
    (hrange : ∀ s ∈ ss, s.2.value.InRange) :
    (v.setAll (fun output => .unspent ⟨output, height, isCoinbase⟩) ss).Within
      (limit + worth (ss.map Prod.snd)) := by
  induction ss generalizing v limit with
  | nil => simpa [worth, CoinView.setAll] using h
  | cons s ss ih =>
    obtain ⟨hfirst, hrest⟩ := List.forall_mem_cons.1 hrange
    rw [setAll_cons, List.map_cons, worth_cons, ← Int.add_assoc]
    exact ih (h.set_unspent hfirst s.1) hrest

end Within

/-- The outputs that can be spent are worth no more than all. -/
theorem worth_spendables_le (h : ∀ output ∈ tx.outputs, output.value.InRange) :
    worth (tx.spendables.map Prod.snd) ≤ worth tx.outputs := by
  have hall : tx.created.map Prod.snd = tx.outputs := by
    rw [created, outPointsOf, List.map_map]
    exact List.zipIdx_map_fst 0 tx.outputs
  have hsub : (tx.spendables.map Prod.snd).Sublist tx.outputs := by
    rw [← hall]
    exact (List.filter_sublist ..).map _
  refine (hsub.map _).sum_le_sum fun a ha => ?_
  obtain ⟨output, hmem, rfl⟩ := List.mem_map.1 ha
  exact (h output hmem).1

/-- A transaction makes room for what it spends, and takes up what it pays out. -/
theorem Within.connectTransaction (h : v.Within limit)
    (hrange : ∀ output ∈ tx.outputs, output.value.InRange)
    (hc : v.connectTransaction tx height = (.ok (), v', journal)) :
    v'.Within (limit - (tx.spends.map v.valueAt).sum + worth tx.outputs) := by
  obtain ⟨u, hu, rfl⟩ := connectTransaction_eq_ok.1 hc
  have hle := worth_spendables_le hrange
  rw [addOutputs_eq_setAll]
  refine ((h.spendAll hu).setAll fun s hs => ?_).mono (by omega)
  obtain ⟨i, hout, -⟩ := mem_created_iff.1 (mem_created_of_mem_spendables hs)
  exact hrange _ (List.mem_of_getElem? hout)

end CoinView

/-! ## Transactions -/

namespace Transaction

variable {total amount fee : Amount} {inputs : List TxInput} {index : Nat} {message : Digest}

/-- Inputs that pass provide exactly what they spend, and no more than there can be. -/
theorem toInt_provided (h : tx.provided height params v verify message index amount inputs =
    .ok total) (hamount : amount.toInt ≤ maxAmount.toInt) :
    total.toInt = amount.toInt + (inputs.map fun input => v.valueAt input.previous).sum ∧
      total.toInt ≤ maxAmount.toInt := by
  induction inputs generalizing index amount with
  | nil =>
    obtain rfl := Except.ok.inj h
    simpa using hamount
  | cons input inputs ih =>
    rw [provided] at h
    obtain ⟨coin, hcoin, h⟩ := bind_eq_ok.1 h
    obtain ⟨_, -, h⟩ := bind_eq_ok.1 h
    obtain ⟨_, -, h⟩ := bind_eq_ok.1 h
    obtain ⟨next, hnext, h⟩ := bind_eq_ok.1 h
    rw [addInput] at hnext
    split at hnext
    · next sum hsum =>
      obtain rfl := Except.ok.inj hnext
      obtain ⟨hexact, hle⟩ := Option.filter_eq_some_iff.1 hsum
      obtain ⟨htotal, hmax⟩ := ih h (of_decide_eq_true hle)
      have hvalue : v.valueAt input.previous = coin.output.value.toInt := by
        rw [CoinView.valueAt, CoinView.spendable_eq_ok.1 hcoin]
        rfl
      refine ⟨?_, hmax⟩
      rw [List.map_cons, List.sum_cons, hvalue, htotal, Amount.toInt_of_sum? hexact, Int.add_assoc]
    · cases hnext

/-- What is provided beyond the outputs is exact. -/
theorem toInt_sub_outputTotal (hvalued : Valued tx.outputs)
    (h : tx.provided height params v verify message 0 0 inputs = .ok total)
    (hle : tx.outputTotal.toInt ≤ total.toInt) :
    (total - tx.outputTotal).toInt = total.toInt - tx.outputTotal.toInt := by
  have hmax := (toInt_provided h (by decide)).2
  have hnonneg := worth_nonneg hvalued.inRange
  rw [← hvalued.toInt_outputTotal] at hnonneg
  rw [Amount.toInt_maxAmount] at hmax
  exact Amount.toInt_sub_of_fits (by omega) (by omega)

/-- A transaction that passes pays out what it spends and mints, less its fee or even less. -/
theorem worth_le_of_fee (hv : v.Within limit) (hcheck : tx.check params = .ok ())
    (hgoverned : tx.Governed) (hordinary : tx.isCoinbase = false)
    (h : tx.fee height params v verify = .ok fee) :
    0 ≤ fee.toInt ∧ worth tx.outputs + fee.toInt ≤ (tx.spends.map v.valueAt).sum + tx.minted := by
  have hvalued := valued_of_check hcheck
  obtain ⟨total, htotal, hsurplus⟩ := bind_eq_ok.1 h
  have hspent : total.toInt = (tx.spends.map v.valueAt).sum := by
    rw [spends, hordinary, if_neg Bool.false_ne_true, List.map_map,
      (toInt_provided htotal (by decide)).1]
    exact Int.zero_add _
  have hnonneg : 0 ≤ (tx.spends.map v.valueAt).sum := by
    refine List.sum_nonneg fun a ha => ?_
    obtain ⟨o, -, rfl⟩ := List.mem_map.1 ha
    exact CoinView.valueAt_nonneg hv o
  have hcontinued : tx.continued? = tx.thread? := by
    rw [continued?, hordinary, if_neg Bool.false_ne_true]
  rw [surplus] at hsurplus
  split at hsurplus
  · next hthread =>
    obtain rfl := Except.ok.inj hsurplus
    obtain ⟨thread, hthread⟩ := Option.isSome_iff_exists.1 hthread
    rw [← hcontinued] at hthread
    have hzero : (0 : Amount).toInt = 0 := rfl
    rw [hzero]
    refine ⟨Int.le_refl 0, ?_⟩
    by_cases hissue : thread = .issue
    · subst hissue
      rw [worth_of_issue hgoverned hthread]
      omega
    · have hminted : tx.minted = 0 := by
        rw [minted, hthread, if_neg fun heq => hissue (Option.some.inj heq)]
      rw [worth_of_manages hcheck hthread hissue, hminted]
      omega
  · next hnone =>
    obtain ⟨hle, hsurplus⟩ := require_bind_eq_ok.1 hsurplus
    obtain ⟨-, hsurplus⟩ := require_bind_eq_ok.1 hsurplus
    obtain rfl := Except.ok.inj hsurplus
    have hminted : tx.minted = 0 := by
      rw [minted, hcontinued, if_neg fun heq => hnone (by rw [heq]; rfl)]
    rw [toInt_sub_outputTotal hvalued htotal hle, hvalued.toInt_outputTotal] at *
    omega

end Transaction

/-! ## Blocks -/

namespace CoinView.Within

/-- Transactions that pay fees add what they mint, less the fees. -/
theorem connectChecked {txs : List Transaction} {fees total : Amount} (h : v.Within limit)
    (hchecks : ∀ tx ∈ txs, tx.check params = .ok ()) (hgoverned : ∀ tx ∈ txs, tx.Governed)
    (hordinary : ∀ tx ∈ txs, tx.isCoinbase = false)
    (hc : Block.connectChecked height params verify fees v txs = .ok (total, v', journal)) :
    fees.toInt ≤ total.toInt ∧
      v'.Within (limit + (txs.map minted).sum - (total.toInt - fees.toInt)) := by
  induction txs generalizing v fees journal limit with
  | nil =>
    rw [Block.connectChecked] at hc
    obtain ⟨rfl, hview⟩ := Prod.mk.inj (Except.ok.inj hc)
    obtain ⟨rfl, -⟩ := Prod.mk.inj hview
    exact ⟨Int.le_refl _, by simpa using h⟩
  | cons tx txs ih =>
    obtain ⟨hcheck, hchecks⟩ := List.forall_mem_cons.1 hchecks
    obtain ⟨hgov, hgoverned⟩ := List.forall_mem_cons.1 hgoverned
    obtain ⟨hord, hordinary⟩ := List.forall_mem_cons.1 hordinary
    obtain ⟨fee, next, u, first, rest, hfee, hnext, hu, hrest, -⟩ :=
      Block.connectChecked_cons_eq_ok.1 hc
    rw [Block.feeOf, hord, if_neg Bool.false_ne_true, mapError_eq_ok] at hfee
    obtain ⟨hnonneg, hbalance⟩ := worth_le_of_fee h hcheck hgov hord hfee
    have hsum := Amount.toInt_of_sum? hnext
    have hstep := h.connectTransaction (valued_of_check hcheck).inRange hu
    obtain ⟨hle, hwithin⟩ := ih hstep hchecks hgoverned hordinary hrest
    rw [List.map_cons, List.sum_cons]
    exact ⟨by omega, hwithin.mono (by omega)⟩

/-- A block that passes adds no more than the subsidy and what it mints. -/
theorem connect (h : v.Within limit) (hb : b.WellFormed)
    (hchecks : ∀ tx ∈ b.transactions, tx.check params = .ok ())
    (hgoverned : ∀ tx ∈ b.transactions, tx.Governed)
    (hc : b.connect height params v verify {} = .ok (v', journal)) :
    v'.Within (limit + (params.subsidy height).toInt + (b.transactions.map minted).sum) := by
  obtain ⟨-, fees, hchecked, hreward⟩ := (Block.connect_eq_ok_of_checked rfl).1 hc
  obtain ⟨coinbase, rest, heq, hcoinbase, hordinary⟩ := hb.coinbase_first
  rw [heq] at hchecked hchecks hgoverned
  obtain ⟨hcheck, hchecks⟩ := List.forall_mem_cons.1 hchecks
  obtain ⟨-, hgoverned⟩ := List.forall_mem_cons.1 hgoverned
  have hvalued := valued_of_check hcheck
  -- the coinbase pays no fee and spends nothing
  obtain ⟨fee, next, u, first, more, hfee, hnext, hu, hmore, -⟩ :=
    Block.connectChecked_cons_eq_ok.1 hchecked
  rw [Block.feeOf, if_pos hcoinbase] at hfee
  obtain rfl := Except.ok.inj hfee
  have hzero : next.toInt = 0 := Amount.toInt_of_sum? hnext
  have hfirst := h.connectTransaction hvalued.inRange hu
  rw [spends, if_pos hcoinbase, List.map_nil, List.sum_nil, Int.sub_zero] at hfirst
  obtain ⟨hfees, hwithin⟩ := hfirst.connectChecked hchecks hgoverned hordinary hmore
  -- and its value is bounded by the subsidy and the fees
  obtain ⟨-, hpaid⟩ := require_bind_eq_ok.1 hreward
  have hpaid := require_eq_ok.1 hpaid
  rw [Block.coinbase?, heq, List.head?_cons, Option.map_some, Option.getD_some,
    hvalued.toInt_outputTotal] at hpaid
  rw [hzero] at hfees hwithin
  have hlimit := Amount.toInt_clampedSum_le (a := params.subsidy height) hfees
  have hnone : coinbase.minted = 0 := by
    rw [minted, continued?, if_pos hcoinbase, if_neg (Option.some_ne_none _).symm]
  rw [heq, List.map_cons, List.sum_cons, hnone]
  exact hwithin.mono (by omega)

end CoinView.Within

end PermissionedLedger
