import Mathlib
import PermissionedLedger.Proofs.Chain.Threads
import PermissionedLedger.Proofs.Coins.Worth

/-!
# How much there is

If no block was trusted, the stored coins of a reachable chain are worth no more than the
subsidies of the main chain and what was minted on it (`Chain.Reachable.no_inflation`). Where a
coinbase claims less than it may, or value goes to outputs that cannot be spent, they are
worth less.

The sum is that of integers, whereas blocks are judged by sums of words. The two are the same
for blocks that were checked, and these are all that a chain stores or connects.
-/

namespace PermissionedLedger

open CoinView BlockTree Transaction

variable {σ : Type} [ChainStore σ] {params : Params} {verify : Verifier} {line : List Block}

/-! ## Along a line -/

/-- The subsidies of all blocks up to a height. Genesis has none. -/
def Params.subsidies (params : Params) (height : Nat) : Int :=
  ∑ h ∈ Finset.Icc 1 height, (params.subsidy h).toInt

theorem Params.subsidies_succ (params : Params) (height : Nat) :
    params.subsidies (height + 1) = params.subsidies height + (params.subsidy (height + 1)).toInt :=
  Finset.sum_Icc_succ_top (Nat.le_add_left 1 height) _

theorem within_genesis (params : Params) : (ofLine [params.genesis]).Within 0 := by
  have hrange : ∀ output ∈ Params.genesisCoinbase.outputs, output.value.InRange := by decide
  have hworth : worth Params.genesisCoinbase.outputs = 0 := by decide
  have hle := worth_spendables_le hrange
  rw [ofLine, ofLine, List.length_nil, Block.connect_genesis, addOutputs_eq_setAll]
  refine (Within.nil.setAll fun s hs => ?_).mono (by omega)
  obtain ⟨i, hout, -⟩ := mem_created_iff.1 (mem_created_of_mem_spendables hs)
  exact hrange _ (List.mem_of_getElem? hout)

theorem sum_minted_cons (b : Block) (older : List Block) :
    ((entriesOf (b :: older)).map (·.2.minted)).sum =
      ((entriesOf older).map (·.2.minted)).sum + (b.transactions.map minted).sum := by
  rw [entriesOf, List.map_append, List.sum_append, List.map_reverse, List.sum_reverse,
    List.map_map, Int.add_comm]
  rfl

theorem Block.Checked.transactions_checked {b : Block} (h : b.Checked params verify) :
    ∀ tx ∈ b.transactions, tx.check params = .ok () := by
  obtain ⟨now, flags, hcheck⟩ := h
  exact (Block.check_parts hcheck).2.2.1

/-- A line that was accepted over genesis leaves no more than its subsidies and what it minted. -/
theorem within_ofLine (hne : line ≠ []) (hover : Throughout (Block.CheckedOver params verify) line)
    (haccepted : Throughout (Block.Accepted params verify) line) :
    (ofLine line).Within
      (params.subsidies (line.length - 1) + ((entriesOf line).map (·.2.minted)).sum) := by
  induction line with
  | nil => exact absurd rfl hne
  | cons b older ih =>
    obtain ⟨hb, hover⟩ := Throughout.cons_iff.1 hover
    obtain ⟨hpassed, haccepted⟩ := Throughout.cons_iff.1 haccepted
    rcases hb with ⟨rfl, rfl⟩ | ⟨hne, hchecked⟩
    · exact within_genesis params
    · have hbelow := ih hne hover haccepted
      obtain ⟨⟨v, journal⟩, hr⟩ := hpassed.resolve_left fun hbottom => hne hbottom.1
      have hv : ofLine (b :: older) = v := by rw [ofLine, Block.connect_of_connect_eq_ok hr]
      obtain ⟨height, hheight⟩ := Nat.exists_eq_succ_of_ne_zero fun h0 =>
        hne (List.length_eq_zero_iff.1 h0)
      rw [hv, sum_minted_cons, List.length_cons, Nat.add_sub_cancel]
      refine (hbelow.connect hchecked.wellFormed hchecked.transactions_checked hchecked.governed
        hr).mono ?_
      rw [hheight, Nat.succ_sub_one, Nat.succ_eq_add_one, Params.subsidies_succ]
      omega

/-! ## Runs -/

/-- The sum of the outputs of a transaction is exact, and so is what its inputs provide beyond
it. -/
def Transaction.Exact (params : Params) (verify : Verifier) (tx : Transaction) : Prop :=
  tx.outputTotal.toInt = worth tx.outputs ∧
    ∀ height v total, tx.provided height params v verify tx.signingHash 0 0 tx.inputs = .ok total →
      tx.outputTotal.toInt ≤ total.toInt →
        (total - tx.outputTotal).toInt = total.toInt - tx.outputTotal.toInt

theorem Transaction.Valued.exact {tx : Transaction} (h : Valued tx.outputs) :
    tx.Exact params verify :=
  ⟨h.toInt_outputTotal, fun _ _ _ hprovided hle => toInt_sub_outputTotal h hprovided hle⟩

namespace Chain

variable {c : Chain σ}

/-- What all stored coins are worth together. -/
def supply (c : Chain σ) : Int :=
  (c.tables.coins.toList.map fun entry => entry.2.output.value.toInt).sum

/-- What the transactions of the main chain minted. -/
def minted (c : Chain σ) : Int := (c.mainTransactions.map (·.2.minted)).sum

/-- The stored coins are worth no more than a view is that shows them. -/
theorem supply_le {v : CoinView} {limit : Int} (h : v.Within limit)
    (hcoins : ∀ o, c.tables.coins[o]? = v.lookup? o) : c.supply ≤ limit := by
  obtain ⟨held, hheld, hsum⟩ := h.bounded
  have hentry : ∀ e ∈ c.tables.coins.toList, e.2.output.value.toInt = v.valueAt e.1 := by
    intro e he
    rw [valueAt, ← hcoins, Std.ExtTreeMap.mem_toList_iff_getElem?_eq_some.1 he]
    rfl
  have hkeys : (c.tables.coins.toList.map Prod.fst).Nodup := by
    rw [Std.ExtTreeMap.map_fst_toList_eq_keys]
    exact Std.ExtTreeMap.nodup_keys
  have hsame : (c.tables.coins.toList.map Prod.fst).toFinset = held := by
    ext o
    rw [List.mem_toFinset, hheld]
    constructor
    · intro ho
      obtain ⟨e, he, rfl⟩ := List.mem_map.1 ho
      exact ⟨e.2, (hcoins e.1).symm.trans (Std.ExtTreeMap.mem_toList_iff_getElem?_eq_some.1 he)⟩
    · rintro ⟨coin, hcoin⟩
      refine List.mem_map.2 ⟨(o, coin), ?_, rfl⟩
      exact Std.ExtTreeMap.mem_toList_iff_getElem?_eq_some.2 ((hcoins o).trans hcoin)
  calc c.supply
      = ((c.tables.coins.toList.map Prod.fst).map v.valueAt).sum := by
        rw [supply, List.map_map]
        exact congrArg List.sum (List.map_congr_left hentry)
    _ = ∑ o ∈ held, v.valueAt o := by rw [← hsame, List.sum_toFinset _ hkeys]
    _ ≤ limit := hsum

theorem minted_eq (hm : Mirror params c.tables c.tree) {tip : Nat} (htip : c.tree.tip? = some tip) :
    c.minted = ((entriesOf (c.tables.branch c.tree tip)).map (·.2.minted)).sum := by
  rw [minted, mainTransactions_eq hm htip, List.map_reverse, List.sum_reverse]

variable [LawfulChainStore σ]

/-- Without trusted blocks, the stored coins are worth no more than the subsidies of the main chain
and what was minted on it, and each has a value in range. No sum wraps around in a block that
is stored or was checked. -/
theorem Reachable.no_inflation
    (h : Reachable params verify (fun flags => flags.fastAdd = false) c) :
    c.supply ≤ params.subsidies c.best.height + c.minted ∧
    (∀ o coin, c.coin? o = some coin → coin.output.value.InRange) ∧
    ∀ b, b.Checked params verify ∨ (∃ hash, c.block? hash = some b) →
      ∀ tx ∈ b.transactions, tx.Exact params verify := by
  have hm := h.mirror
  have htables := h.tables_checked
  obtain ⟨tip, n, htip, hn, -, hheight, -⟩ := h.best_isTipOf
  obtain ⟨b, older, hbranch, -⟩ := hm.exists_branch_eq_cons hn
  have hcoins := h.sound.accurate.coins htip
  have hwithin := within_ofLine (hbranch ▸ List.cons_ne_nil b older) (hm.checkedOver htables)
    (h.sound.accepted htip hn)
  refine ⟨?_, fun o coin hcoin => hwithin.inRange ((hcoins o).symm.trans hcoin), ?_⟩
  · rw [hm.length_branch hn, Nat.add_sub_cancel, ← hheight, ← minted_eq hm htip] at hwithin
    exact supply_le hwithin hcoins
  · have hvalued : ∀ b : Block, b.Checked params verify →
        ∀ tx ∈ b.transactions, tx.Exact params verify :=
      fun b hb tx htx => (valued_of_check (hb.transactions_checked tx htx)).exact
    rintro b (hchecked | ⟨hash, hb⟩)
    · exact hvalued b hchecked
    · rcases htables hb with rfl | hchecked
      · intro tx htx
        obtain rfl := List.mem_singleton.1 htx
        exact Valued.exact ⟨by decide, by decide⟩
      · exact hvalued b hchecked

end Chain

/-! ## A sample issue

A block whose coinbase claims all of the subsidy, with a transaction of the Issue thread. -/

namespace Sample

/-- A transaction that mints seven atoms. -/
def issue : Transaction where
  version := 1
  inputs := [⟨Params.genesisCoinbase.outPoint 2,
    .signatures (network.genesisKeys.issuing.toList.map (⟨·, []⟩)), finalSequence⟩]
  outputs := [⟨0, .thread .issue⟩, ⟨7, .payToKey key⟩]
  lockTime := 0

/-- A coinbase that pays the subsidy to the key. -/
def reward : Transaction :=
  { coinbase 1 6 with outputs := [⟨network.subsidy 1, .payToKey key⟩] }

/-- Both in one block over genesis. -/
def issued : Block := block network.genesis.header [reward, issue]

theorem supply_issued : (after? network now [issued]).any (fun c =>
    decide (c.best.height = 1 ∧ c.minted = 7 ∧ c.supply = 5000000007)) = true := by
  decide +kernel

end Sample

/-- In the sample all is there that may be: the subsidy of one block, and what was minted. -/
theorem Chain.no_inflation_after_issue : ∃ c : Chain MemoryStore,
    c.best.height = 1 ∧ c.minted = 7 ∧ c.supply = 5000000007 ∧
      c.supply ≤ Sample.network.subsidies 1 + 7 ∧
      (∀ o coin, c.coin? o = some coin → coin.output.value.InRange) ∧
      ∀ tx ∈ Sample.issued.transactions, c.block? Sample.issued.hash = some Sample.issued →
        tx.Exact Sample.network Sample.trusting := by
  obtain ⟨c, store, hopen, hends⟩ := Sample.exists_opened Sample.supply_issued
  have hopened : c.Reachable Sample.network Sample.trusting fun flags => flags.fastAdd = false :=
    .opened rfl hopen
  have hreached := hopened.submit rfl Sample.now [Sample.issued]
  obtain ⟨hheight, hminted, hsupply⟩ := of_decide_eq_true hends
  obtain ⟨hle, hrange, hexact⟩ := hreached.no_inflation
  rw [hheight, hminted] at hle
  exact ⟨_, hheight, hminted, hsupply, hle, hrange, fun tx htx hblock =>
    hexact _ (Or.inr ⟨_, hblock⟩) tx htx⟩

end PermissionedLedger
