import Mathlib
import PermissionedLedger.Proofs.Coins.Origins
import PermissionedLedger.Proofs.Rules.Governance

/-!
# The right to spend

An input of a transaction spends an output *by right* (`SpendsByRight`) if the output
was created before and is unspent, is old enough if a coinbase created it, and its
lock is opened (`Lock.OpenedBy`): by signatures over the digest that the transaction
signs, or, for the output of a thread, by the thread going on.

`Block.connect` accepts a block only if all of its inputs spend by right
(`byRight_of_connect`). Signatures are looked at input by input
(`checked_of_provided`), each with the coins that are there when its turn comes.
-/

namespace PermissionedLedger

open CoinView

variable {v v' : CoinView} {tx : Transaction} {height index : Nat} {journal : Journal}
  {before : List (Nat × Transaction)} {params : Params} {verify : Verifier} {b : Block}
  {message : Digest} {unlock : Unlock}

/-! ## Opening locks -/

/-- What it takes for the input at a position of a transaction to open a lock. -/
def Lock.OpenedBy (verify : Verifier) (tx : Transaction) (index : Nat) (unlock : Unlock) :
    Lock → Prop
  | .payToKey key => ∃ s, unlock = .signatures [s] ∧ s.key = key ∧
      verify key tx.signingHash.toList s.signature = true
  | .multiSig required keys => 1 ≤ required.toNat ∧ ∃ signers : List PublicKey, signers.Nodup ∧
      required.toNat ≤ signers.length ∧ ∀ key ∈ signers, key ∈ keys ∧
        ∃ s ∈ unlock.toSignatures, s.key = key ∧
          verify key tx.signingHash.toList s.signature = true
  | .thread t => index = 0 ∧ tx.outputs.head?.map (·.lock) = some (.thread t)
  | .keyOp _ | .data _ => False

/-- The input of a transaction at a height may spend an output that was created at another. -/
structure Entitled (params : Params) (verify : Verifier) (height : Nat) (tx : Transaction)
    (index : Nat) (unlock : Unlock) (creator : Nat × Transaction) (output : TxOutput) : Prop where
  /-- coins from a coinbase are old enough, thread outputs apart -/
  mature : creator.2.isCoinbase = true → output.lock.thread? = none →
    creator.1 + params.coinbaseMaturity ≤ height
  /-- the lock is opened -/
  opened : output.lock.OpenedBy verify tx index unlock

/-- Every input of a transaction spends what was created before, is unspent, and may be spent by it.
The input of a coinbase spends nothing. -/
def SpendsByRight (params : Params) (verify : Verifier) (e : Nat × Transaction)
    (before : List (Nat × Transaction)) : Prop :=
  e.2.isCoinbase = false → ∀ index input, e.2.inputs[index]? = some input →
    ∃ output creator, Unspent before input.previous output creator ∧
      Entitled params verify e.1 e.2 index input.unlock creator output

theorem validSigners_spec (admits : PublicKey → Bool) (message : Digest) (verify : Verifier)
    (signatures : List KeySignature) :
    (validSigners admits message verify signatures).toList.Nodup ∧
      ∀ key ∈ (validSigners admits message verify signatures).toList, admits key = true ∧
        ∃ s ∈ signatures, s.key = key ∧ verify key message.toList s.signature = true := by
  constructor
  · refine Std.ExtTreeSet.distinct_toList.imp ?_
    rintro a b hne rfl
    exact hne Std.ReflCmp.compare_self
  · intro key hkey
    rw [Std.ExtTreeSet.mem_toList, validSigners, Std.ExtTreeSet.mem_ofList,
      List.contains_iff_mem, List.mem_map] at hkey
    obtain ⟨s, hs, rfl⟩ := hkey
    obtain ⟨hs, hvalid⟩ := List.mem_filter.1 hs
    obtain ⟨hadmits, hverify⟩ := Bool.and_eq_true_iff.1 hvalid
    exact ⟨hadmits, s, hs, rfl, hverify⟩

/-- Signatures that pass open a lock that is in order. -/
theorem Lock.openedBy_of_checkUnlock {lock : Lock} (hlock : lock.check = .ok ())
    (h : lock.checkUnlock unlock tx.signingHash verify = .ok ()) :
    lock.OpenedBy verify tx index unlock := by
  rw [checkUnlock.eq_def] at h
  cases unlock with
  | coinbase data => cases h
  | signatures signatures =>
    cases lock with
    | payToKey key =>
      rcases signatures with _ | ⟨s, _ | ⟨s', ss⟩⟩
      · cases h
      · obtain ⟨hkey, hverify⟩ := require_eq_ok.1 h
        exact ⟨s, rfl, hkey, hverify⟩
      · cases h
    | multiSig required keys =>
      obtain ⟨⟨hne, -⟩, -⟩ := require_bind_eq_ok.1 hlock
      obtain ⟨-, h⟩ := require_bind_eq_ok.1 h
      have henough := require_eq_ok.1 h
      obtain ⟨hnodup, hsigners⟩ := validSigners_spec (fun key => keys.contains key)
        tx.signingHash verify signatures
      refine ⟨?_, _, hnodup, ?_, fun key hkey => ?_⟩
      · rw [Nat.one_le_iff_ne_zero]
        exact fun hzero => hne (UInt8.toNat_inj.1 hzero)
      · rw [Std.ExtTreeSet.length_toList]
        exact henough
      · obtain ⟨hadmits, hs⟩ := hsigners key hkey
        exact ⟨List.contains_iff_mem.1 hadmits, hs⟩
    | thread t => cases h
    | keyOp op => cases h
    | data bytes => cases h

/-- An input with the right to a coin opens its lock. -/
theorem Transaction.openedBy_of_checkRight {coin : Coin} (hlock : coin.output.lock.check = .ok ())
    (h : tx.checkRight tx.signingHash verify index unlock coin = .ok ()) :
    coin.output.lock.OpenedBy verify tx index unlock := by
  rw [checkRight] at h
  split at h
  · next thread hthread =>
    obtain ⟨hindex, hcontinued⟩ := require_eq_ok.1 h
    rw [Lock.thread?_eq_some.1 hthread]
    obtain ⟨output, houtput, hsame⟩ := Option.bind_eq_some_iff.1 hcontinued
    refine ⟨hindex, ?_⟩
    rw [houtput, Option.map_some, Lock.thread?_eq_some.1 hsame]
  · split at h
    · obtain ⟨-, h⟩ := require_bind_eq_ok.1 h
      exact Lock.openedBy_of_checkUnlock hlock (mapError_eq_ok.1 h)
    · exact Lock.openedBy_of_checkUnlock hlock (mapError_eq_ok.1 h)

/-! ## Inputs in their turn -/

namespace Transaction

/-- Every input that was checked spends a coin that is there, is old enough and may be spent. -/
theorem checked_of_provided {amount total : Amount} {inputs : List TxInput}
    (h : tx.provided height params v verify message index amount inputs = .ok total) {k : Nat}
    {input : TxInput} (hinput : inputs[k]? = some input) :
    ∃ coin, v.lookup? input.previous = some coin ∧
      tx.checkMaturity params height input.previous coin = .ok () ∧
      tx.checkRight message verify (index + k) input.unlock coin = .ok () := by
  induction inputs generalizing index amount k with
  | nil => cases hinput
  | cons first inputs ih =>
    rw [provided] at h
    obtain ⟨coin, hcoin, h⟩ := bind_eq_ok.1 h
    obtain ⟨_, hmature, h⟩ := bind_eq_ok.1 h
    obtain ⟨_, hright, h⟩ := bind_eq_ok.1 h
    obtain ⟨next, -, h⟩ := bind_eq_ok.1 h
    cases k with
    | zero =>
      obtain rfl := Option.some.inj hinput
      exact ⟨coin, CoinView.spendable_eq_ok.1 hcoin, hmature, hright⟩
    | succ k =>
      obtain ⟨coin, hrest⟩ := ih h hinput
      rw [Nat.add_right_comm] at hrest
      exact ⟨coin, hrest⟩

/-- A transaction with a fee spends by right. -/
theorem byRight_of_fee {fee : Amount} (hcreated : CreatedIn before v)
    (hbefore : ∀ e ∈ before, e.1 ≤ height ∧ e.2.WellFormed)
    (h : tx.fee height params v verify = .ok fee) :
    SpendsByRight params verify (height, tx) before := by
  intro _ index input hinput
  obtain ⟨total, htotal, -⟩ := bind_eq_ok.1 h
  obtain ⟨coin, hcoin, hmature, hright⟩ := checked_of_provided htotal hinput
  rw [Nat.zero_add] at hright
  obtain ⟨creator, hunspent, hheight, hcoinbase⟩ := hcreated _ _ hcoin
  obtain ⟨hlow, hformed⟩ := hbefore creator hunspent.mem
  obtain ⟨houtput, hspendable⟩ := List.mem_filter.1 hunspent.created
  have hlock : coin.output.lock.check = .ok () := by
    obtain ⟨⟨output, position⟩, hmem, heq⟩ := List.mem_map.1 houtput
    obtain ⟨-, rfl⟩ := Prod.mk.inj heq
    exact hformed.lock_check _ (List.fst_mem_of_mem_zipIdx hmem)
  refine ⟨coin.output, creator, hunspent, fun hborn hordinary => ?_,
    openedBy_of_checkRight hlock hright⟩
  -- of all outputs that can be spent, those of threads alone belong to governance
  have hgovernance : coin.output.lock.isGovernance = false := by
    cases hcases : coin.output.lock with
    | thread t =>
      rw [hcases] at hordinary
      cases hordinary
    | keyOp op =>
      rw [hcases] at hspendable
      cases hspendable
    | _ => rfl
  have hage := require_eq_ok.1 hmature (hcoinbase.trans hborn) hgovernance
  rw [hheight] at hage
  omega

end Transaction

/-! ## Blocks -/

theorem byRight_connectChecked {txs : List Transaction} {fees total : Amount}
    (h : Throughout (SpendsByRight params verify) before) (hcreated : CreatedIn before v)
    (hbefore : ∀ e ∈ before, e.1 ≤ height ∧ e.2.WellFormed) (hformed : ∀ tx ∈ txs, tx.WellFormed)
    (hc : Block.connectChecked height params verify fees v txs = .ok (total, v', journal)) :
    Throughout (SpendsByRight params verify)
      ((txs.map fun tx => (height, tx)).reverse ++ before) := by
  induction txs generalizing v before fees journal with
  | nil => exact h
  | cons tx txs ih =>
    obtain ⟨fee, next, u, first, rest, hfee, -, hu, hrest, -⟩ :=
      Block.connectChecked_cons_eq_ok.1 hc
    rw [List.map_cons, List.reverse_cons, List.append_assoc, List.singleton_append]
    refine ih (Throughout.cons_iff.2 ⟨?_, h⟩) (hcreated.step hu) (fun e he => ?_)
      (fun tx htx => hformed tx (List.mem_cons_of_mem _ htx)) hrest
    · rw [Block.feeOf] at hfee
      split at hfee
      · next hcoinbase =>
        intro hordinary
        rw [hcoinbase] at hordinary
        cases hordinary
      · exact Transaction.byRight_of_fee hcreated hbefore (mapError_eq_ok.1 hfee)
    · rcases List.mem_cons.1 he with rfl | he
      · exact ⟨Nat.le_refl _, hformed tx (List.mem_cons_self ..)⟩
      · exact hbefore e he

/-- All the inputs of a block that was accepted over a line spend by right. -/
theorem byRight_of_connect {older : List Block} {r : CoinView × Journal}
    (h : Throughout (SpendsByRight params verify) (entriesOf older))
    (hconnects : Throughout (fun b older => ((ofLine older).connect b older.length).1 = .ok ()) older)
    (hformed : Throughout (fun b _ => b.WellFormed) (b :: older))
    (hc : b.connect older.length params (ofLine older) verify {} = .ok r) :
    Throughout (SpendsByRight params verify) (entriesOf (b :: older)) := by
  obtain ⟨-, fees, hchecked, -⟩ := (Block.connect_eq_ok_of_checked rfl).1 hc
  obtain ⟨hb, holder⟩ := Throughout.cons_iff.1 hformed
  refine byRight_connectChecked h (createdIn_ofLine hconnects) (fun e he => ?_) hb.transactions
    hchecked
  obtain ⟨c, rest, hs, hheight, htx⟩ := mem_entriesOf.1 he
  have hlen := hs.length_le
  rw [List.length_cons] at hlen
  exact ⟨by omega, (holder c rest hs).transactions _ htx⟩

end PermissionedLedger
