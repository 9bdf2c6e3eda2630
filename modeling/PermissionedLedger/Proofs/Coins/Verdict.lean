import Mathlib
import PermissionedLedger.Proofs.Coins.Views
import PermissionedLedger.Proofs.Rules.WellFormed

/-!
# Verdicts on blocks

`Block.connect` checks a block and connects it. Whatever the flags, a block that passes
is connected as `CoinView.connect` would do it (`connect_of_connect_eq_ok`), and a
trusted block passes exactly if it can be connected at all
(`connectTrusted_eq_ok_iff`).

The verdict depends on what can be spent and on nothing else: views that are alike
lead to the same verdict, journal and coins (`Alike.connectBlock`). And it is always a
verdict: on a well-formed block no failure of the engine occurs (`connect_ne_engine`).
-/

namespace PermissionedLedger

variable {v w : CoinView} {tx : Transaction} {height : Nat} {params : Params} {verify : Verifier}

theorem CoinView.spendable_eq_ok {hash : Digest} {o : OutPoint} {coin : Coin} :
    v.spendable hash o = .ok coin ↔ v.lookup? o = some coin := by
  rw [CoinView.spendable, CoinView.lookup?]
  cases v.fetch o <;> simp

theorem Transaction.connect_eq_ok {v' : CoinView} {journal : Journal} :
    tx.connect height v = .ok (v', journal) ↔
      v.connectTransaction tx height = (.ok (), v', journal) := by
  rw [Transaction.connect]
  rcases v.connectTransaction tx height with ⟨e | _, u, first⟩ <;> simp

/-- Outputs that are different and there can be spent by the transaction. -/
theorem CoinView.connectTransaction_of_there (height : Nat) (hnodup : tx.spends.Nodup)
    (hthere : ∀ o ∈ tx.spends, ∃ coin, v.lookup? o = some coin) :
    ∃ v' journal, v.connectTransaction tx height = (.ok (), v', journal) := by
  obtain ⟨u, journal, hu⟩ := CoinView.spendAll_eq_ok tx.hash hnodup hthere
  exact ⟨_, _, CoinView.connectTransaction_eq_ok.2 ⟨u, hu, rfl⟩⟩

namespace Block

/-! ## Trusted blocks -/

theorem there_of_requireAll {os : List OutPoint} {hash : Digest} {u : Unit}
    (h : requireAll (fun o => (v.spendable hash o).map fun _ => ()) os = .ok u) :
    ∀ o ∈ os, ∃ coin, v.lookup? o = some coin := by
  intro o ho
  have hcheck := forall_of_requireAll h ho
  rcases hs : v.spendable hash o with e | coin
  · rw [hs] at hcheck
    cases hcheck
  · exact ⟨coin, CoinView.spendable_eq_ok.1 hs⟩

theorem requireAll_of_there {os : List OutPoint} {hash : Digest}
    (h : ∀ o ∈ os, ∃ coin, v.lookup? o = some coin) :
    requireAll (fun o => (v.spendable hash o).map fun _ => ()) os = .ok () := by
  refine requireAll_eq_ok.2 fun o ho => ?_
  obtain ⟨coin, hcoin⟩ := h o ho
  rw [CoinView.spendable_eq_ok.2 hcoin]
  rfl

/-- A trusted block passes if its transactions can be connected. -/
theorem connectTrusted_eq_ok_iff {txs : List Transaction} {v' : CoinView} {journal : Journal} :
    connectTrusted height v txs = .ok (v', journal) ↔
      CoinView.connectAll height v txs = (.ok (), v', journal) := by
  induction txs generalizing v v' journal with
  | nil =>
    rw [CoinView.connectAll_nil_eq_ok, connectTrusted]
    simp [eq_comm]
  | cons tx txs ih =>
    rw [connectTrusted, CoinView.connectAll_cons_eq_ok]
    constructor
    · intro h
      obtain ⟨_, -, h⟩ := bind_eq_ok.1 h
      obtain ⟨⟨u, first⟩, hu, h⟩ := bind_eq_ok.1 h
      obtain ⟨⟨u', rest⟩, hrest, h⟩ := bind_eq_ok.1 h
      obtain ⟨rfl, rfl⟩ := Prod.mk.inj (Except.ok.inj h)
      exact ⟨u, first, rest, Transaction.connect_eq_ok.1 hu, ih.1 hrest, rfl⟩
    · rintro ⟨u, first, rest, hu, hrest, rfl⟩
      have hthere : ∀ o ∈ tx.spends, ∃ coin, v.lookup? o = some coin := by
        intro o ho
        obtain ⟨s, hs, -⟩ := CoinView.connectTransaction_eq_ok.1 hu
        obtain ⟨-, hmap, hcoins, -⟩ := CoinView.of_spendAll hs
        rw [← hmap] at ho
        obtain ⟨entry, hentry, rfl⟩ := List.mem_map.1 ho
        exact ⟨entry.coin, hcoins entry hentry⟩
      refine bind_eq_ok.2 ⟨(), mapError_eq_ok.2 (requireAll_of_there hthere), ?_⟩
      refine bind_eq_ok.2 ⟨(u, first), Transaction.connect_eq_ok.2 hu, ?_⟩
      exact bind_eq_ok.2 ⟨(v', rest), ih.2 hrest, rfl⟩

/-! ## Checked blocks -/

/-- The fee of a transaction; a coinbase pays none. -/
def feeOf (tx : Transaction) (height : Nat) (params : Params) (view : CoinView)
    (verify : Verifier) : Except Failure Amount :=
  if tx.isCoinbase then .ok 0 else (tx.fee height params view verify).mapError spendingFailure

theorem connectChecked_cons {txs : List Transaction} {fees : Amount} :
    connectChecked height params verify fees v (tx :: txs) =
      (feeOf tx height params v verify >>= fun fee =>
        match Amount.sum? fees fee with
        | none => .error (spendingFailure .feesOverflow)
        | some fees => do
          let (view, journal) ← tx.connect height v
          let (fees, view, more) ← connectChecked height params verify fees view txs
          return (fees, view, journal ++ more)) := by
  rw [connectChecked, feeOf]
  split <;> rfl

/-- What checking the first of several transactions comes to. -/
theorem connectChecked_cons_eq_ok {txs : List Transaction} {fees total : Amount} {v' : CoinView}
    {journal : Journal} :
    connectChecked height params verify fees v (tx :: txs) = .ok (total, v', journal) ↔
      ∃ fee next u first rest,
        feeOf tx height params v verify = .ok fee ∧
        Amount.sum? fees fee = some next ∧
        v.connectTransaction tx height = (.ok (), u, first) ∧
        connectChecked height params verify next u txs = .ok (total, v', rest) ∧
        journal = first ++ rest := by
  rw [connectChecked_cons]
  constructor
  · intro h
    obtain ⟨fee, hfee, h⟩ := bind_eq_ok.1 h
    split at h
    · cases h
    · next next hnext =>
      obtain ⟨⟨u, first⟩, hu, h⟩ := bind_eq_ok.1 h
      obtain ⟨⟨total', u', rest⟩, hrest, h⟩ := bind_eq_ok.1 h
      obtain ⟨rfl, hview⟩ := Prod.mk.inj (Except.ok.inj h)
      obtain ⟨rfl, rfl⟩ := Prod.mk.inj hview
      exact ⟨fee, next, u, first, rest, hfee, hnext, Transaction.connect_eq_ok.1 hu, hrest, rfl⟩
  · rintro ⟨fee, next, u, first, rest, hfee, hnext, hu, hrest, rfl⟩
    refine bind_eq_ok.2 ⟨fee, hfee, ?_⟩
    rw [hnext]
    refine bind_eq_ok.2 ⟨(u, first), Transaction.connect_eq_ok.2 hu, ?_⟩
    exact bind_eq_ok.2 ⟨(total, v', rest), hrest, rfl⟩

theorem connectAll_of_connectChecked {txs : List Transaction} {fees total : Amount} {v' : CoinView}
    {journal : Journal}
    (h : connectChecked height params verify fees v txs = .ok (total, v', journal)) :
    CoinView.connectAll height v txs = (.ok (), v', journal) := by
  induction txs generalizing v fees journal with
  | nil =>
    rw [connectChecked] at h
    obtain ⟨-, h⟩ := Prod.mk.inj (Except.ok.inj h)
    obtain ⟨rfl, rfl⟩ := Prod.mk.inj h
    rfl
  | cons tx txs ih =>
    obtain ⟨fee, next, u, first, rest, -, -, hu, hrest, rfl⟩ := connectChecked_cons_eq_ok.1 h
    exact CoinView.connectAll_cons_eq_ok.2 ⟨u, first, rest, hu, ih hrest, rfl⟩

/-- What passing means for a block that is not trusted. -/
theorem connect_eq_ok_of_checked {b : Block} {flags : AddFlags} (hflags : flags.fastAdd = false)
    {v' : CoinView} {journal : Journal} :
    b.connect height params v verify flags = .ok (v', journal) ↔
      b.checkFresh v = .ok () ∧ ∃ fees,
        connectChecked height params verify 0 v b.transactions = .ok (fees, v', journal) ∧
        b.checkReward height params fees = .ok () := by
  rw [connect, hflags, if_neg Bool.false_ne_true]
  constructor
  · intro h
    obtain ⟨_, hfresh, h⟩ := bind_eq_ok.1 h
    obtain ⟨⟨fees, u, j⟩, hchecked, h⟩ := bind_eq_ok.1 h
    obtain ⟨_, hreward, h⟩ := bind_eq_ok.1 h
    obtain ⟨rfl, rfl⟩ := Prod.mk.inj (Except.ok.inj h)
    exact ⟨mapError_eq_ok.1 hfresh, fees, hchecked, mapError_eq_ok.1 hreward⟩
  · rintro ⟨hfresh, fees, hchecked, hreward⟩
    refine bind_eq_ok.2 ⟨(), mapError_eq_ok.2 hfresh, ?_⟩
    refine bind_eq_ok.2 ⟨(fees, v', journal), hchecked, ?_⟩
    exact bind_eq_ok.2 ⟨(), mapError_eq_ok.2 hreward, rfl⟩

theorem connect_eq_ok_of_trusted {b : Block} {flags : AddFlags} (hflags : flags.fastAdd = true)
    {v' : CoinView} {journal : Journal} :
    b.connect height params v verify flags = .ok (v', journal) ↔
      v.connect b height = (.ok (), v', journal) := by
  rw [connect, hflags, if_pos rfl, connectTrusted_eq_ok_iff]
  rfl

/-- A block that passes is connected, whether it was checked or not. -/
theorem connect_of_connect_eq_ok {b : Block} {flags : AddFlags} {v' : CoinView}
    {journal : Journal} (h : b.connect height params v verify flags = .ok (v', journal)) :
    v.connect b height = (.ok (), v', journal) := by
  rcases hflags : flags.fastAdd
  · obtain ⟨-, fees, hchecked, -⟩ := (connect_eq_ok_of_checked hflags).1 h
    exact connectAll_of_connectChecked hchecked
  · exact (connect_eq_ok_of_trusted hflags).1 h

/-- No output of a block that passed the check is there already. -/
theorem notThere_of_checkFresh {b : Block} (h : b.checkFresh v = .ok ()) {tx : Transaction}
    (htx : tx ∈ b.transactions) {s : OutPoint × TxOutput} (hs : s ∈ tx.created) :
    v.lookup? s.1 = none :=
  require_eq_ok.1 (forall_of_requireAll (forall_of_requireAll h htx) hs)

end Block

/-! ## Likeness -/

namespace CoinView.Alike

theorem provided (halike : v.Alike w) {message : Digest} {index : Nat} {before total : Amount}
    {inputs : List TxInput}
    (h : tx.provided height params v verify message index before inputs = .ok total) :
    tx.provided height params w verify message index before inputs = .ok total := by
  induction inputs generalizing index before with
  | nil => exact h
  | cons input inputs ih =>
    rw [Transaction.provided] at h ⊢
    obtain ⟨coin, hcoin, h⟩ := bind_eq_ok.1 h
    obtain ⟨_, hmature, h⟩ := bind_eq_ok.1 h
    obtain ⟨_, hright, h⟩ := bind_eq_ok.1 h
    obtain ⟨next, hnext, h⟩ := bind_eq_ok.1 h
    have hcoin' : w.spendable tx.hash input.previous = .ok coin := by
      rw [CoinView.spendable_eq_ok, ← halike, ← CoinView.spendable_eq_ok]
      exact hcoin
    exact bind_eq_ok.2 ⟨coin, hcoin', bind_eq_ok.2 ⟨_, hmature, bind_eq_ok.2 ⟨_, hright,
      bind_eq_ok.2 ⟨next, hnext, ih h⟩⟩⟩⟩

theorem fee (halike : v.Alike w) {amount : Amount}
    (h : tx.fee height params v verify = .ok amount) :
    tx.fee height params w verify = .ok amount := by
  rw [Transaction.fee] at h ⊢
  obtain ⟨total, htotal, h⟩ := bind_eq_ok.1 h
  exact bind_eq_ok.2 ⟨total, halike.provided htotal, h⟩

theorem connectChecked (halike : v.Alike w) {txs : List Transaction} {fees total : Amount}
    {v' : CoinView} {journal : Journal}
    (h : Block.connectChecked height params verify fees v txs = .ok (total, v', journal)) :
    ∃ w', Block.connectChecked height params verify fees w txs = .ok (total, w', journal) ∧
      v'.Alike w' := by
  induction txs generalizing v w fees journal with
  | nil =>
    rw [Block.connectChecked] at h
    obtain ⟨hfees, h⟩ := Prod.mk.inj (Except.ok.inj h)
    obtain ⟨rfl, rfl⟩ := Prod.mk.inj h
    exact ⟨w, by rw [hfees, Block.connectChecked], halike⟩
  | cons tx txs ih =>
    obtain ⟨fee, next, u, first, rest, hfee, hnext, hu, hrest, rfl⟩ :=
      Block.connectChecked_cons_eq_ok.1 h
    obtain ⟨u', hu', halike'⟩ := halike.connectTransaction hu
    obtain ⟨w', hw', hend⟩ := ih halike' hrest
    refine ⟨w', Block.connectChecked_cons_eq_ok.2
      ⟨fee, next, u', first, rest, ?_, hnext, hu', hw', rfl⟩, hend⟩
    rw [Block.feeOf] at hfee ⊢
    split at hfee
    · next hcoinbase => rw [if_pos hcoinbase, hfee]
    · next hordinary =>
      rw [if_neg hordinary]
      exact mapError_eq_ok.2 (halike.fee (mapError_eq_ok.1 hfee))

theorem checkFresh (halike : v.Alike w) (b : Block) : b.checkFresh v = b.checkFresh w := by
  simp only [Block.checkFresh, halike _]

/-- Views that are alike lead to the same verdict, and are alike afterwards. -/
theorem connectBlock (halike : v.Alike w) {b : Block} {flags : AddFlags} {v' : CoinView}
    {journal : Journal} (h : b.connect height params v verify flags = .ok (v', journal)) :
    ∃ w', b.connect height params w verify flags = .ok (w', journal) ∧ v'.Alike w' := by
  rcases hflags : flags.fastAdd
  · obtain ⟨hfresh, fees, hchecked, hreward⟩ := (Block.connect_eq_ok_of_checked hflags).1 h
    obtain ⟨w', hw', hend⟩ := halike.connectChecked hchecked
    exact ⟨w', (Block.connect_eq_ok_of_checked hflags).2
      ⟨halike.checkFresh b ▸ hfresh, fees, hw', hreward⟩, hend⟩
  · obtain ⟨w', hw', hend⟩ := halike.connectAll ((Block.connect_eq_ok_of_trusted hflags).1 h)
    exact ⟨w', (Block.connect_eq_ok_of_trusted hflags).2 hw', hend⟩

end CoinView.Alike

/-! ## No failures of the engine -/

namespace Block

theorem there_of_provided {message : Digest} {index : Nat} {before total : Amount}
    {inputs : List TxInput}
    (h : tx.provided height params v verify message index before inputs = .ok total) :
    ∀ input ∈ inputs, ∃ coin, v.lookup? input.previous = some coin := by
  induction inputs generalizing index before with
  | nil => exact fun _ h => nomatch h
  | cons input inputs ih =>
    rw [Transaction.provided] at h
    obtain ⟨coin, hcoin, h⟩ := bind_eq_ok.1 h
    obtain ⟨_, -, h⟩ := bind_eq_ok.1 h
    obtain ⟨_, -, h⟩ := bind_eq_ok.1 h
    obtain ⟨next, -, h⟩ := bind_eq_ok.1 h
    intro i hi
    rcases List.mem_cons.1 hi with rfl | hi
    · exact ⟨coin, CoinView.spendable_eq_ok.1 hcoin⟩
    · exact ih h i hi

theorem there_of_feeOf {fee : Amount} (h : feeOf tx height params v verify = .ok fee) :
    ∀ o ∈ tx.spends, ∃ coin, v.lookup? o = some coin := by
  rw [feeOf] at h
  rw [Transaction.spends]
  split at h
  · next hcoinbase =>
    rw [if_pos hcoinbase]
    exact fun _ h => absurd h List.not_mem_nil
  · next hordinary =>
    rw [if_neg hordinary]
    obtain ⟨total, htotal, -⟩ := bind_eq_ok.1 (mapError_eq_ok.1 h)
    intro o ho
    obtain ⟨input, hinput, rfl⟩ := List.mem_map.1 ho
    exact there_of_provided htotal input hinput

theorem feeOf_ne_engine {fault : EngineFault} :
    feeOf tx height params v verify ≠ .error (.engine fault) := by
  intro h
  rw [feeOf] at h
  split at h
  · cases h
  · rcases hfee : tx.fee height params v verify with e | fee
    · rw [hfee] at h
      cases h
    · rw [hfee] at h
      cases h

theorem connectTrusted_ne_engine {txs : List Transaction} {fault : EngineFault}
    (hspends : ∀ tx ∈ txs, tx.spends.Nodup) :
    connectTrusted height v txs ≠ .error (.engine fault) := by
  induction txs generalizing v with
  | nil => exact fun h => nomatch h
  | cons tx txs ih =>
    intro h
    rw [connectTrusted] at h
    rcases hall : requireAll (fun o => (v.spendable tx.hash o).map fun _ => ()) tx.spends
      with e | _
    · rw [hall] at h
      cases h
    · obtain ⟨u, first, hu⟩ := CoinView.connectTransaction_of_there height
        (hspends tx (List.mem_cons_self ..)) (there_of_requireAll hall)
      rw [hall, Transaction.connect_eq_ok.2 hu] at h
      rcases hrest : connectTrusted height u txs with e | ⟨u', rest⟩
      · simp only [Except.mapError, bind, Except.bind, hrest] at h
        rw [Except.error.inj h] at hrest
        exact ih (fun tx htx => hspends tx (List.mem_cons_of_mem _ htx)) hrest
      · simp only [Except.mapError, bind, Except.bind, hrest] at h
        cases h

theorem connectChecked_ne_engine {txs : List Transaction} {fees : Amount} {fault : EngineFault}
    (hspends : ∀ tx ∈ txs, tx.spends.Nodup) :
    connectChecked height params verify fees v txs ≠ .error (.engine fault) := by
  induction txs generalizing v fees with
  | nil => exact fun h => nomatch h
  | cons tx txs ih =>
    intro h
    rw [connectChecked_cons] at h
    rcases hfee : feeOf tx height params v verify with e | fee
    · rw [hfee] at h
      obtain rfl := Except.error.inj h
      exact feeOf_ne_engine hfee
    · rw [hfee] at h
      have hthere := there_of_feeOf hfee
      obtain ⟨u, first, hu⟩ := CoinView.connectTransaction_of_there height
        (hspends tx (List.mem_cons_self ..)) hthere
      rcases hsum : Amount.sum? fees fee with _ | next
      · simp only [bind, Except.bind, hsum, spendingFailure] at h
        cases h
      · rcases hrest : connectChecked height params verify next u txs with e | ⟨total, u', rest⟩
        · simp only [bind, Except.bind, hsum, Transaction.connect_eq_ok.2 hu, hrest] at h
          rw [Except.error.inj h] at hrest
          exact ih (fun tx htx => hspends tx (List.mem_cons_of_mem _ htx)) hrest
        · simp only [bind, Except.bind, hsum, Transaction.connect_eq_ok.2 hu, hrest] at h
          cases h

/-- A well-formed block passes or breaks a rule. -/
theorem connect_ne_engine {b : Block} (hb : b.WellFormed) {flags : AddFlags}
    {fault : EngineFault} :
    b.connect height params v verify flags ≠ .error (.engine fault) := by
  have hspends : ∀ tx ∈ b.transactions, tx.spends.Nodup :=
    fun tx htx => (hb.transactions tx htx).spends_nodup
  intro h
  rw [connect] at h
  split at h
  · exact connectTrusted_ne_engine hspends h
  · rcases hfresh : b.checkFresh v with e | _
    · rw [hfresh] at h
      cases h
    · rcases hchecked : connectChecked height params verify 0 v b.transactions
        with e | ⟨fees, u, journal⟩
      · simp only [hfresh, Except.mapError, bind, Except.bind, hchecked] at h
        rw [Except.error.inj h] at hchecked
        exact connectChecked_ne_engine hspends hchecked
      · rcases hreward : b.checkReward height params fees with e | _
        · simp only [hfresh, Except.mapError, bind, Except.bind, hchecked, hreward,
            spendingFailure] at h
          cases h
        · simp only [hfresh, Except.mapError, bind, Except.bind, hchecked, hreward] at h
          cases h

end Block

end PermissionedLedger
