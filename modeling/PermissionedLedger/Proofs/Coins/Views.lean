import Mathlib
import PermissionedLedger.Rules.Spending

/-!
# Views that show the same coins

Two views are *alike* if they have the same outputs to spend (`CoinView.Alike`). They
may lie over different stores and differ in what they remember of spent outputs; no
operation that succeeds can tell them apart.

* **connecting** — what a transaction spends and adds, output by output
  (`lookup?_of_spendAll`, `lookup?_addOutputs`), and the same journal on views that
  are alike (`Alike.connectTransaction`);
* **disconnecting** — a block that replaced no output is undone by its journal, up to
  likeness (`disconnect_of_connect`).
-/

namespace PermissionedLedger.CoinView

variable {v w : CoinView} {tx : Transaction} {height : Nat}

/-- Two views have the same outputs to spend. -/
def Alike (v w : CoinView) : Prop := ∀ o, v.lookup? o = w.lookup? o

theorem Alike.refl (v : CoinView) : v.Alike v := fun _ => rfl

theorem Alike.symm (h : v.Alike w) : w.Alike v := fun o => (h o).symm

/-! ## Single outputs -/

theorem lookup?_eq_some {o : OutPoint} {coin : Coin} :
    v.lookup? o = some coin ↔ v.fetch o = .unspent coin := by
  rw [lookup?]
  cases v.fetch o <;> simp

theorem lookup?_set_of_ne {o p : OutPoint} (h : p ≠ o) (v : CoinView) (state : CoinState) :
    (v.set o state).lookup? p = v.lookup? p := by
  rw [lookup?, fetch_set, if_neg h]
  rfl

theorem lookup?_set_unspent (v : CoinView) (o p : OutPoint) (coin : Coin) :
    (v.set o (.unspent coin)).lookup? p = if p = o then some coin else v.lookup? p := by
  by_cases hp : p = o
  · rw [lookup?, fetch_set, if_pos hp, if_pos hp]
  · rw [lookup?_set_of_ne hp, if_neg hp]

theorem lookup?_set_spent (v : CoinView) (o p : OutPoint) :
    (v.set o .spent).lookup? p = if p = o then none else v.lookup? p := by
  by_cases hp : p = o
  · rw [lookup?, fetch_set, if_pos hp, if_pos hp]
  · rw [lookup?_set_of_ne hp, if_neg hp]

theorem Alike.set (h : v.Alike w) (o : OutPoint) (state : CoinState) :
    (v.set o state).Alike (w.set o state) := by
  intro p
  by_cases hp : p = o
  · rw [lookup?, lookup?, fetch_set, fetch_set, if_pos hp, if_pos hp]
  · rw [lookup?_set_of_ne hp, lookup?_set_of_ne hp, h p]

/-! ## Several outputs -/

/-- Records the states of several outputs in order. -/
def setAll (state : TxOutput → CoinState) (v : CoinView) (outputs : List (OutPoint × TxOutput)) :
    CoinView :=
  outputs.foldl (fun v s => v.set s.1 (state s.2)) v

theorem setAll_cons (state : TxOutput → CoinState) (v : CoinView) (s : OutPoint × TxOutput)
    (ss : List (OutPoint × TxOutput)) :
    v.setAll state (s :: ss) = (v.set s.1 (state s.2)).setAll state ss := rfl

theorem lookup?_setAll_of_notMem {state : TxOutput → CoinState}
    {ss : List (OutPoint × TxOutput)} {o : OutPoint} (h : o ∉ ss.map Prod.fst) (v : CoinView) :
    (v.setAll state ss).lookup? o = v.lookup? o := by
  induction ss generalizing v with
  | nil => rfl
  | cons s ss ih =>
    rw [List.map_cons, List.mem_cons, not_or] at h
    rw [setAll_cons, ih h.2, lookup?_set_of_ne h.1]

/-- Where one output stands several times, the last state counts. -/
theorem fetch_setAll_of_mem (state : TxOutput → CoinState) {ss : List (OutPoint × TxOutput)}
    {o : OutPoint} (h : o ∈ ss.map Prod.fst) (v : CoinView) :
    ∃ output, (o, output) ∈ ss ∧ (v.setAll state ss).fetch o = state output := by
  induction ss generalizing v with
  | nil => cases h
  | cons s ss ih =>
    by_cases hss : o ∈ ss.map Prod.fst
    · obtain ⟨output, hmem, hfetch⟩ := ih hss (v.set s.1 (state s.2))
      exact ⟨output, List.mem_cons_of_mem _ hmem, hfetch⟩
    · obtain rfl : o = s.1 := by
        rw [List.map_cons, List.mem_cons] at h
        exact h.resolve_right hss
      refine ⟨s.2, List.mem_cons_self .., ?_⟩
      have hlast : ∀ (ss : List (OutPoint × TxOutput)) (v : CoinView), s.1 ∉ ss.map Prod.fst →
          (v.setAll state ss).fetch s.1 = v.fetch s.1 := by
        intro ss
        induction ss with
        | nil => exact fun _ _ => rfl
        | cons r ss ih =>
          intro v h
          rw [List.map_cons, List.mem_cons, not_or] at h
          rw [setAll_cons, ih _ h.2, fetch_set, if_neg h.1]
      rw [setAll_cons, hlast ss _ hss, fetch_set, if_pos rfl]

theorem Alike.setAll (h : v.Alike w) (state : TxOutput → CoinState)
    (ss : List (OutPoint × TxOutput)) : (v.setAll state ss).Alike (w.setAll state ss) := by
  induction ss generalizing v w with
  | nil => exact h
  | cons s ss ih => exact ih (h.set s.1 _)

theorem addOutputs_eq_setAll (v : CoinView) (tx : Transaction) (height : Nat) :
    v.addOutputs tx height =
      v.setAll (fun output => .unspent ⟨output, height, tx.isCoinbase⟩) tx.spendables := rfl

theorem removeOutputs_eq_setAll (v : CoinView) (tx : Transaction) :
    v.removeOutputs tx = v.setAll (fun _ => .missing) tx.spendables := rfl

/-- Adding outputs changes nothing else. -/
theorem lookup?_addOutputs_of_notMem {o : OutPoint} (h : o ∉ tx.spendables.map Prod.fst) :
    (v.addOutputs tx height).lookup? o = v.lookup? o := by
  rw [addOutputs_eq_setAll, lookup?_setAll_of_notMem h]

/-- An added output can be spent. -/
theorem lookup?_addOutputs_of_mem (v : CoinView) (height : Nat) {o : OutPoint}
    (h : o ∈ tx.spendables.map Prod.fst) :
    ∃ output, (o, output) ∈ tx.spendables ∧
      (v.addOutputs tx height).lookup? o = some ⟨output, height, tx.isCoinbase⟩ := by
  obtain ⟨output, hmem, hfetch⟩ :=
    fetch_setAll_of_mem (fun output => .unspent ⟨output, height, tx.isCoinbase⟩) h v
  exact ⟨output, hmem, lookup?_eq_some.2 hfetch⟩

/-- Removing outputs takes them away and changes nothing else. -/
theorem lookup?_removeOutputs (v : CoinView) (tx : Transaction) (o : OutPoint) :
    (v.removeOutputs tx).lookup? o =
      if o ∈ tx.spendables.map Prod.fst then none else v.lookup? o := by
  rw [removeOutputs_eq_setAll]
  split
  · next h =>
    obtain ⟨output, -, hfetch⟩ := fetch_setAll_of_mem (fun _ => .missing) h v
    rw [lookup?, hfetch]
  · next h => rw [lookup?_setAll_of_notMem h]

/-! ## Spending -/

theorem spendAll_nil_eq_ok {hash : Digest} {v' : CoinView} {journal : Journal} :
    spendAll hash v [] = (.ok (), v', journal) ↔ v = v' ∧ journal = [] := by
  simp [spendAll, eq_comm]

theorem spendAll_cons_eq_ok {hash : Digest} {o : OutPoint} {os : List OutPoint} {v' : CoinView}
    {journal : Journal} :
    spendAll hash v (o :: os) = (.ok (), v', journal) ↔
      ∃ coin rest, v.lookup? o = some coin ∧
        spendAll hash (v.set o .spent) os = (.ok (), v', rest) ∧ journal = ⟨o, coin⟩ :: rest := by
  rw [spendAll]
  rcases hf : v.fetch o with coin | _ | _
  · have hl := lookup?_eq_some.2 hf
    constructor
    · intro h
      obtain ⟨h₁, h₂, h₃⟩ := by simpa only [Prod.mk.injEq] using h
      exact ⟨coin, _, hl, Prod.ext h₁ (Prod.ext h₂ rfl), h₃.symm⟩
    · rintro ⟨coin', rest, hl', hrest, rfl⟩
      rw [hl] at hl'
      obtain rfl := Option.some.inj hl'
      simp only [hrest]
  · simp [lookup?, hf]
  · simp [lookup?, hf]

/-- Spending succeeds if the outputs are different and all there. They are gone then, and nothing
else changes; the journal holds their coins in order. -/
theorem of_spendAll {hash : Digest} {os : List OutPoint} {v' : CoinView} {journal : Journal}
    (h : spendAll hash v os = (.ok (), v', journal)) :
    os.Nodup ∧ journal.map (·.outPoint) = os ∧
      (∀ entry ∈ journal, v.lookup? entry.outPoint = some entry.coin) ∧
      ∀ p, v'.lookup? p = if p ∈ os then none else v.lookup? p := by
  induction os generalizing v journal with
  | nil =>
    obtain ⟨rfl, rfl⟩ := spendAll_nil_eq_ok.1 h
    simp
  | cons o os ih =>
    obtain ⟨coin, rest, hl, hrest, rfl⟩ := spendAll_cons_eq_ok.1 h
    obtain ⟨hnodup, hmap, hcoins, hlook⟩ := ih hrest
    have ho : o ∉ os := by
      intro hmem
      rw [← hmap] at hmem
      obtain ⟨entry, hentry, heq⟩ := List.mem_map.1 hmem
      have hgone := hcoins entry hentry
      rw [heq, lookup?_set_spent, if_pos rfl] at hgone
      cases hgone
    refine ⟨List.nodup_cons.2 ⟨ho, hnodup⟩, by rw [List.map_cons, hmap], ?_, fun p => ?_⟩
    · intro entry hentry
      rcases List.mem_cons.1 hentry with rfl | hentry
      · exact hl
      · have hthere := hcoins entry hentry
        rw [lookup?_set_spent] at hthere
        split at hthere
        · cases hthere
        · exact hthere
    · rw [hlook, lookup?_set_spent]
      by_cases hp : p = o <;> by_cases hps : p ∈ os <;> simp [hp, hps]

theorem lookup?_of_spendAll {hash : Digest} {os : List OutPoint} {v' : CoinView}
    {journal : Journal} (h : spendAll hash v os = (.ok (), v', journal)) (p : OutPoint) :
    v'.lookup? p = if p ∈ os then none else v.lookup? p :=
  (of_spendAll h).2.2.2 p

theorem map_outPoint_of_spendAll {hash : Digest} {os : List OutPoint} {v' : CoinView}
    {journal : Journal} (h : spendAll hash v os = (.ok (), v', journal)) :
    journal.map (·.outPoint) = os :=
  (of_spendAll h).2.1

/-- Different outputs that are all there can be spent. -/
theorem spendAll_eq_ok (hash : Digest) {os : List OutPoint} (hnodup : os.Nodup)
    (hthere : ∀ o ∈ os, ∃ coin, v.lookup? o = some coin) :
    ∃ v' journal, spendAll hash v os = (.ok (), v', journal) := by
  induction os generalizing v with
  | nil => exact ⟨v, [], rfl⟩
  | cons o os ih =>
    obtain ⟨ho, hos⟩ := List.nodup_cons.1 hnodup
    obtain ⟨coin, hcoin⟩ := hthere o (List.mem_cons_self ..)
    obtain ⟨v', rest, hrest⟩ := ih (v := v.set o .spent) hos (fun p hp => by
      obtain ⟨c, hc⟩ := hthere p (List.mem_cons_of_mem _ hp)
      have hne : p ≠ o := fun heq => ho (heq ▸ hp)
      exact ⟨c, by rw [lookup?_set_of_ne hne, hc]⟩)
    exact ⟨v', _, spendAll_cons_eq_ok.2 ⟨coin, rest, hcoin, hrest, rfl⟩⟩

theorem Alike.spendAll (halike : v.Alike w) {hash : Digest} {os : List OutPoint} {v' : CoinView}
    {journal : Journal} (h : CoinView.spendAll hash v os = (.ok (), v', journal)) :
    ∃ w', CoinView.spendAll hash w os = (.ok (), w', journal) ∧ v'.Alike w' := by
  induction os generalizing v w journal with
  | nil =>
    obtain ⟨rfl, rfl⟩ := spendAll_nil_eq_ok.1 h
    exact ⟨w, rfl, halike⟩
  | cons o os ih =>
    obtain ⟨coin, rest, hl, hrest, rfl⟩ := spendAll_cons_eq_ok.1 h
    obtain ⟨w', hw', halike'⟩ := ih (halike.set o .spent) hrest
    exact ⟨w', spendAll_cons_eq_ok.2 ⟨coin, rest, (halike o) ▸ hl, hw', rfl⟩, halike'⟩

/-! ## Connecting -/

theorem connectTransaction_eq_ok {v' : CoinView} {journal : Journal} :
    v.connectTransaction tx height = (.ok (), v', journal) ↔
      ∃ u, spendAll tx.hash v tx.spends = (.ok (), u, journal) ∧ v' = u.addOutputs tx height := by
  rw [connectTransaction]
  rcases hs : spendAll tx.hash v tx.spends with ⟨e | u, u, j⟩
  · simp
  · simp only [Prod.mk.injEq, true_and]
    constructor
    · rintro ⟨rfl, rfl⟩
      exact ⟨u, ⟨rfl, rfl⟩, rfl⟩
    · rintro ⟨u', ⟨rfl, rfl⟩, rfl⟩
      exact ⟨rfl, rfl⟩

theorem Alike.connectTransaction (halike : v.Alike w) {v' : CoinView} {journal : Journal}
    (h : v.connectTransaction tx height = (.ok (), v', journal)) :
    ∃ w', w.connectTransaction tx height = (.ok (), w', journal) ∧ v'.Alike w' := by
  obtain ⟨u, hu, rfl⟩ := connectTransaction_eq_ok.1 h
  obtain ⟨u', hu', halike'⟩ := halike.spendAll hu
  refine ⟨_, connectTransaction_eq_ok.2 ⟨u', hu', rfl⟩, ?_⟩
  rw [addOutputs_eq_setAll, addOutputs_eq_setAll]
  exact halike'.setAll _ _

theorem connectAll_nil_eq_ok {v' : CoinView} {journal : Journal} :
    connectAll height v [] = (.ok (), v', journal) ↔ v = v' ∧ journal = [] := by
  simp [connectAll, eq_comm]

theorem connectAll_cons_eq_ok {txs : List Transaction} {v' : CoinView} {journal : Journal} :
    connectAll height v (tx :: txs) = (.ok (), v', journal) ↔
      ∃ u first rest, v.connectTransaction tx height = (.ok (), u, first) ∧
        connectAll height u txs = (.ok (), v', rest) ∧ journal = first ++ rest := by
  rw [connectAll]
  rcases hc : v.connectTransaction tx height with ⟨e | _, u, first⟩
  · simp
  · constructor
    · intro h
      obtain ⟨h₁, h₂, h₃⟩ := by simpa only [Prod.mk.injEq] using h
      exact ⟨u, first, _, rfl, Prod.ext h₁ (Prod.ext h₂ rfl), h₃.symm⟩
    · rintro ⟨u', first', rest, heq, hrest, rfl⟩
      obtain ⟨-, rfl, rfl⟩ := by simpa only [Prod.mk.injEq] using heq
      simp only [hrest]

theorem Alike.connectAll (halike : v.Alike w) {txs : List Transaction} {v' : CoinView}
    {journal : Journal} (h : CoinView.connectAll height v txs = (.ok (), v', journal)) :
    ∃ w', CoinView.connectAll height w txs = (.ok (), w', journal) ∧ v'.Alike w' := by
  induction txs generalizing v w journal with
  | nil =>
    obtain ⟨rfl, rfl⟩ := connectAll_nil_eq_ok.1 h
    exact ⟨w, rfl, halike⟩
  | cons tx txs ih =>
    obtain ⟨u, first, rest, hu, hrest, rfl⟩ := connectAll_cons_eq_ok.1 h
    obtain ⟨u', hu', halike'⟩ := halike.connectTransaction hu
    obtain ⟨w', hw', hend⟩ := ih halike' hrest
    exact ⟨w', connectAll_cons_eq_ok.2 ⟨u', first, rest, hu', hw', rfl⟩, hend⟩

/-- A journal holds what the transactions spend, in order. -/
theorem map_outPoint_of_connectAll {txs : List Transaction} {v' : CoinView} {journal : Journal}
    (h : connectAll height v txs = (.ok (), v', journal)) :
    journal.map (·.outPoint) = txs.flatMap (·.spends) := by
  induction txs generalizing v journal with
  | nil =>
    obtain ⟨-, rfl⟩ := connectAll_nil_eq_ok.1 h
    rfl
  | cons tx txs ih =>
    obtain ⟨u, first, rest, hu, hrest, rfl⟩ := connectAll_cons_eq_ok.1 h
    obtain ⟨u', hu', -⟩ := connectTransaction_eq_ok.1 hu
    rw [List.map_append, map_outPoint_of_spendAll hu', ih hrest, List.flatMap_cons]

/-! ## Disconnecting -/

/-- No transaction replaces an output that can be spent. -/
def Fresh (height : Nat) : CoinView → List Transaction → Prop
  | _, [] => True
  | v, tx :: txs =>
    (∀ s ∈ tx.spendables, v.lookup? s.1 = none) ∧
      Fresh height (v.connectTransaction tx height).2.1 txs

/-- Restoring gives the outputs of a journal back as they were in `w`. -/
theorem restoreAll_append (journal : Journal)
    (hcoins : ∀ entry ∈ journal, w.lookup? entry.outPoint = some entry.coin) (v : CoinView) :
    ∃ v', (∀ rest,
        restoreAll v (journal.map (·.outPoint)) (journal ++ rest) = (.ok rest, v')) ∧
      ∀ p, v'.lookup? p = if p ∈ journal.map (·.outPoint) then w.lookup? p else v.lookup? p := by
  induction journal generalizing v with
  | nil => exact ⟨v, fun rest => rfl, fun p => rfl⟩
  | cons entry journal ih =>
    obtain ⟨v', hv', hlook⟩ := ih (fun e he => hcoins e (List.mem_cons_of_mem _ he))
      (v.set entry.outPoint (.unspent entry.coin))
    refine ⟨v', fun rest => ?_, fun p => ?_⟩
    · rw [List.map_cons, List.cons_append, restoreAll, if_pos rfl]
      exact hv' rest
    · have hentry := hcoins entry (List.mem_cons_self ..)
      rw [hlook, lookup?_set_unspent, List.map_cons]
      by_cases hp : p = entry.outPoint
      · subst hp
        simp [hentry]
      · by_cases hps : p ∈ journal.map (·.outPoint) <;> simp [hp, hps]

/-- A transaction that replaced no output is undone by its journal. -/
theorem restoreAll_of_connectTransaction {v' : CoinView} {journal : Journal}
    (h : v.connectTransaction tx height = (.ok (), v', journal))
    (hfresh : ∀ s ∈ tx.spendables, v.lookup? s.1 = none) (hw : w.Alike v') :
    ∃ u, u.Alike v ∧ ∀ rest,
      restoreAll (w.removeOutputs tx) tx.spends.reverse (journal.reverse ++ rest) =
        (.ok rest, u) := by
  obtain ⟨s, hs, rfl⟩ := connectTransaction_eq_ok.1 h
  obtain ⟨-, hmap, hcoins, hlook⟩ := of_spendAll hs
  have hspends : tx.spends.reverse = journal.reverse.map (·.outPoint) := by
    rw [List.map_reverse, hmap]
  rw [hspends]
  obtain ⟨u, hu, hulook⟩ := restoreAll_append (w := v) journal.reverse
    (fun entry hentry => hcoins entry (List.mem_reverse.1 hentry)) (w.removeOutputs tx)
  refine ⟨u, fun p => ?_, hu⟩
  rw [hulook, ← hspends, lookup?_removeOutputs]
  by_cases hp : p ∈ tx.spends
  · rw [if_pos (List.mem_reverse.2 hp)]
  · rw [if_neg (fun hin => hp (List.mem_reverse.1 hin))]
    by_cases hnew : p ∈ tx.spendables.map Prod.fst
    · obtain ⟨s, hs, rfl⟩ := List.mem_map.1 hnew
      rw [if_pos hnew, hfresh s hs]
    · rw [if_neg hnew, hw p, lookup?_addOutputs_of_notMem hnew, hlook, if_neg hp]

/-- Transactions that replaced no outputs are undone one after another, latest first. -/
theorem disconnectAll_of_connectAll {txs : List Transaction} {v' : CoinView} {journal : Journal}
    (h : connectAll height v txs = (.ok (), v', journal)) (hfresh : Fresh height v txs)
    (hw : w.Alike v') :
    ∃ u, u.Alike v ∧ ∀ earlier rest,
      disconnectAll w (txs.reverse ++ earlier) (journal.reverse ++ rest) =
        disconnectAll u earlier rest := by
  induction txs generalizing v journal with
  | nil =>
    obtain ⟨rfl, rfl⟩ := connectAll_nil_eq_ok.1 h
    exact ⟨w, hw, fun earlier rest => rfl⟩
  | cons tx txs ih =>
    obtain ⟨u, first, more, hu, hmore, rfl⟩ := connectAll_cons_eq_ok.1 h
    obtain ⟨hnew, hlater⟩ := hfresh
    rw [hu] at hlater
    obtain ⟨u', halike, hlast⟩ := ih hmore hlater
    obtain ⟨u'', halike', hfirst⟩ := restoreAll_of_connectTransaction hu hnew halike
    refine ⟨u'', halike', fun earlier rest => ?_⟩
    rw [List.reverse_cons, List.reverse_append, List.append_assoc, List.append_assoc, hlast,
      List.singleton_append, disconnectAll, hfirst]

/-- A block that replaced no outputs is undone by its journal. -/
theorem disconnect_of_connect {block : Block} {v' : CoinView} {journal : Journal}
    (h : v.connect block height = (.ok (), v', journal))
    (hfresh : Fresh height v block.transactions) (hw : w.Alike v') :
    ∃ u, w.disconnect block journal = (.ok (), u) ∧ u.Alike v := by
  obtain ⟨u, halike, hundo⟩ := disconnectAll_of_connectAll h hfresh hw
  have hlen : (block.transactions.map (·.spends.length)).sum = journal.length := by
    rw [← List.length_map (f := fun e : SpentCoin => e.outPoint), map_outPoint_of_connectAll h,
      List.length_flatMap]
  refine ⟨u, ?_, halike⟩
  rw [disconnect, if_neg (not_not.2 hlen)]
  have hall := hundo [] []
  rw [List.append_nil, List.append_nil] at hall
  rw [hall]
  rfl

/-! ## The store below

No operation looks away from the store that a view lies over. -/

theorem base_setAll (state : TxOutput → CoinState) (v : CoinView)
    (ss : List (OutPoint × TxOutput)) : (v.setAll state ss).base = v.base := by
  induction ss generalizing v with
  | nil => rfl
  | cons s ss ih => exact ih _

theorem base_of_spendAll {hash : Digest} {os : List OutPoint} {v' : CoinView} {journal : Journal}
    (h : spendAll hash v os = (.ok (), v', journal)) : v'.base = v.base := by
  induction os generalizing v journal with
  | nil => rw [(spendAll_nil_eq_ok.1 h).1]
  | cons o os ih =>
    obtain ⟨coin, rest, -, hrest, -⟩ := spendAll_cons_eq_ok.1 h
    exact (ih hrest).trans rfl

theorem base_of_connectAll {txs : List Transaction} {v' : CoinView} {journal : Journal}
    (h : connectAll height v txs = (.ok (), v', journal)) : v'.base = v.base := by
  induction txs generalizing v journal with
  | nil => rw [(connectAll_nil_eq_ok.1 h).1]
  | cons tx txs ih =>
    obtain ⟨u, first, rest, hu, hrest, -⟩ := connectAll_cons_eq_ok.1 h
    obtain ⟨s, hs, rfl⟩ := connectTransaction_eq_ok.1 hu
    rw [ih hrest, addOutputs_eq_setAll, base_setAll, base_of_spendAll hs]

theorem base_restoreAll (v : CoinView) (os : List OutPoint) (journal : Journal) :
    (restoreAll v os journal).2.base = v.base := by
  induction os generalizing v journal with
  | nil => rfl
  | cons o os ih =>
    rcases journal with _ | ⟨entry, journal⟩
    · rfl
    · rw [restoreAll]
      split
      · exact ih _ _
      · rfl

theorem base_disconnectAll (v : CoinView) (txs : List Transaction) (journal : Journal) :
    (disconnectAll v txs journal).2.base = v.base := by
  induction txs generalizing v journal with
  | nil => rfl
  | cons tx txs ih =>
    have hrestore := base_restoreAll (v.removeOutputs tx) tx.spends.reverse journal
    rw [removeOutputs_eq_setAll, base_setAll] at hrestore
    rw [disconnectAll, removeOutputs_eq_setAll]
    rcases hr : restoreAll (v.setAll (fun _ => .missing) tx.spendables) tx.spends.reverse journal
      with ⟨e | rest, u⟩
    · rw [hr] at hrestore
      exact hrestore
    · rw [hr] at hrestore
      exact (ih u rest).trans hrestore

theorem base_disconnect (v : CoinView) (block : Block) (journal : Journal) :
    (v.disconnect block journal).2.base = v.base := by
  rw [disconnect]
  split
  · rfl
  · exact base_disconnectAll _ _ _

end PermissionedLedger.CoinView
