import Mathlib
import PermissionedLedger.Proofs.Coins.Origins

/-!
# Undoing a block and doing it again

A block that is connected and then disconnected with its journal leaves a view that shows
the same coins as before, and connecting it once more comes to the same journal and the
same coins (`CoinView.disconnect_undoes_connect`). It takes that the block holds no two
transactions of one digest, and replaces no output that can be spent. What happens inside
the block makes no difference: an output that one transaction creates may be spent by the
next.
-/

namespace PermissionedLedger

namespace CoinView

variable {v v' : CoinView} {block : Block} {height : Nat} {journal : Journal}

/-- Disconnecting undoes connecting, and the block can be connected again with the same result. -/
theorem disconnect_undoes_connect (h : v.connect block height = (.ok (), v', journal))
    (hhashes : (block.transactions.map (·.hash)).Nodup)
    (hnew : ∀ tx ∈ block.transactions, ∀ s ∈ tx.spendables, v.lookup? s.1 = none) :
    ∃ u, v'.disconnect block journal = (.ok (), u) ∧ u.Alike v ∧
      ∃ w, u.connect block height = (.ok (), w, journal) ∧ w.Alike v' := by
  have hfresh : Fresh height v block.transactions := fresh_of_notThere hhashes hnew h
  obtain ⟨u, hundo, halike⟩ := disconnect_of_connect h hfresh (Alike.refl v')
  obtain ⟨w, hredo, halike'⟩ := halike.symm.connectAll h
  exact ⟨u, hundo, halike, w, hredo, halike'.symm⟩

end CoinView

/-! ## A sample block -/

namespace Sample

/-- A transaction that hands the coin of an output on. -/
def relay (o : OutPoint) : Transaction where
  version := 1
  inputs := [⟨o, .signatures [], finalSequence⟩]
  outputs := [⟨5, .payToKey .zero⟩, ⟨0, .data []⟩]
  lockTime := 0

/-- An output that a coinbase created at height three. -/
def purse : OutPoint := ⟨.zero, 1⟩

/-- Its coin. -/
def pursed : Coin := ⟨⟨5, .payToKey .zero⟩, 3, true⟩

/-- A transaction that spends it. -/
def taken : Transaction := relay purse

/-- A block where the coin is spent, and what was created for it is spent too. -/
def relayed : Block where
  header := ⟨1, .zero, .zero, .epoch, 0, 0, 0, .zero, []⟩
  transactions := [taken, relay (taken.outPoint 0)]

/-- A view over a store that holds the coin. -/
def purseOnly : CoinView := ⟨(∅ : CoinMap).insert purse pursed, ∅⟩

/-- The block can be connected and replaces nothing. The coin is gone afterwards. -/
theorem connects_relayed : (purseOnly.connect relayed 7).1 = .ok () ∧
    (purseOnly.connect relayed 7).2.1.lookup? purse = none ∧
    (relayed.transactions.map (·.hash)).Nodup ∧
    ∀ tx ∈ relayed.transactions, ∀ s ∈ tx.spendables, purseOnly.lookup? s.1 = none := by
  decide +kernel

end Sample

/-- In the sample the coin is there again when the block is undone, as it was, and gone when the
block is connected once more. -/
theorem CoinView.disconnect_undoes_relayed : ∃ v' journal u w,
    Sample.purseOnly.connect Sample.relayed 7 = (.ok (), v', journal) ∧
    v'.lookup? Sample.purse = none ∧
    v'.disconnect Sample.relayed journal = (.ok (), u) ∧
    u.lookup? Sample.purse = some Sample.pursed ∧
    u.connect Sample.relayed 7 = (.ok (), w, journal) ∧ w.lookup? Sample.purse = none := by
  obtain ⟨hok, hgone, hhashes, hnew⟩ := Sample.connects_relayed
  rcases hconnect : Sample.purseOnly.connect Sample.relayed 7 with ⟨r, v', journal⟩
  rw [hconnect] at hok hgone
  obtain rfl := hok
  obtain ⟨u, hundo, halike, w, hredo, halike'⟩ :=
    CoinView.disconnect_undoes_connect hconnect hhashes hnew
  refine ⟨v', journal, u, w, rfl, hgone, hundo, ?_, hredo, (halike' _).trans hgone⟩
  rw [halike, CoinView.lookup?_eq_some]
  decide +kernel

end PermissionedLedger
