import Mathlib
import PermissionedLedger.Coins.Cache
import PermissionedLedger.Proofs.Store.Reliable

/-!
# Views and a plain map

A view over the coins of a store is as good as a plain map that starts as these coins and
is changed in place (`PlainCoins`). Whatever is asked of both, in any order and also where
it fails half-way, they give the same answers, and so does a view that remembers what it
read. When the writes of the view are committed, the store has the coins of the map, and
what was not set is not written (`faithfulOverlay`).

Operations only fetch and set. What relates two kinds of views need therefore only be
kept by these (`Simulation`), and each operation keeps it then (`Simulation.performAll`).
On the map itself, a block that is connected takes out what it spends and puts in what it
creates (`PlainCoins.coins_of_connectAll`), and so it does in the view.
-/

namespace PermissionedLedger

open CoinKeeper

/-! ## Operations on views of two kinds -/

/-- A relation between views of two kinds that fetching and setting keep, and under which they
fetch the same. -/
structure Simulation {V W : Type} [CoinKeeper V] [CoinKeeper W] (R : V → W → Prop) : Prop where
  /-- the states are the same, and the relation remains -/
  fetch : ∀ {v w}, R v w → ∀ o, (fetch v o).1 = (fetch w o).1 ∧ R (fetch v o).2 (fetch w o).2
  /-- the relation remains -/
  set : ∀ {v w}, R v w → ∀ o state, R (set v o state) (set w o state)

namespace Simulation

variable {V W : Type} [CoinKeeper V] [CoinKeeper W] {R : V → W → Prop} {v : V} {w : W}

/-- Two outcomes with the same answer, and with views that are related. -/
def Agree {V W α : Type} (R : V → W → Prop) (a : α × V) (b : α × W) : Prop :=
  a.1 = b.1 ∧ R a.2 b.2

/-- The same where a journal stands last. -/
def AgreeJournal {V W α : Type} (R : V → W → Prop) (a : α × V × Journal) (b : α × W × Journal) :
    Prop :=
  a.1 = b.1 ∧ R a.2.1 b.2.1 ∧ a.2.2 = b.2.2

theorem setAll (h : Simulation R) (hvw : R v w) (state : TxOutput → CoinState)
    (outputs : List (OutPoint × TxOutput)) :
    R (CoinKeeper.setAll state v outputs) (CoinKeeper.setAll state w outputs) := by
  induction outputs generalizing v w with
  | nil => exact hvw
  | cons s outputs ih => exact ih (h.set hvw s.1 _)

theorem addOutputs (h : Simulation R) (hvw : R v w) (tx : Transaction) (height : Nat) :
    R (CoinKeeper.addOutputs v tx height) (CoinKeeper.addOutputs w tx height) :=
  h.setAll hvw _ _

theorem removeOutputs (h : Simulation R) (hvw : R v w) (tx : Transaction) :
    R (CoinKeeper.removeOutputs v tx) (CoinKeeper.removeOutputs w tx) :=
  h.setAll hvw _ _

theorem spendAll (h : Simulation R) (hvw : R v w) (hash : Digest) (os : List OutPoint) :
    AgreeJournal R (CoinKeeper.spendAll hash v os) (CoinKeeper.spendAll hash w os) := by
  induction os generalizing v w with
  | nil => exact ⟨rfl, hvw, rfl⟩
  | cons o os ih =>
    obtain ⟨hstate, hnext⟩ := h.fetch hvw o
    rw [CoinKeeper.spendAll, CoinKeeper.spendAll]
    rcases hv : CoinKeeper.fetch v o with ⟨state, v'⟩
    rcases hw : CoinKeeper.fetch w o with ⟨state', w'⟩
    rw [hv, hw] at hstate hnext
    obtain rfl : state = state' := hstate
    cases state with
    | unspent coin =>
      obtain ⟨hresult, hviews, hjournal⟩ := ih (h.set hnext o .spent)
      exact ⟨hresult, hviews, congrArg (List.cons _) hjournal⟩
    | spent => exact ⟨rfl, hnext, rfl⟩
    | missing => exact ⟨rfl, hnext, rfl⟩

theorem connectTransaction (h : Simulation R) (hvw : R v w) (tx : Transaction) (height : Nat) :
    AgreeJournal R (CoinKeeper.connectTransaction v tx height)
      (CoinKeeper.connectTransaction w tx height) := by
  obtain ⟨hresult, hviews, hjournal⟩ := h.spendAll hvw tx.hash tx.spends
  rw [CoinKeeper.connectTransaction, CoinKeeper.connectTransaction]
  rcases hv : CoinKeeper.spendAll tx.hash v tx.spends with ⟨result, v', journal⟩
  rcases hw : CoinKeeper.spendAll tx.hash w tx.spends with ⟨result', w', journal'⟩
  rw [hv, hw] at hresult hviews hjournal
  obtain rfl : result = result' := hresult
  cases result with
  | error e => exact ⟨rfl, hviews, hjournal⟩
  | ok u => exact ⟨rfl, h.addOutputs hviews tx height, hjournal⟩

theorem connectAll (h : Simulation R) (hvw : R v w) (height : Nat) (txs : List Transaction) :
    AgreeJournal R (CoinKeeper.connectAll height v txs) (CoinKeeper.connectAll height w txs) := by
  induction txs generalizing v w with
  | nil => exact ⟨rfl, hvw, rfl⟩
  | cons tx txs ih =>
    obtain ⟨hresult, hviews, hjournal⟩ := h.connectTransaction hvw tx height
    rw [CoinKeeper.connectAll, CoinKeeper.connectAll]
    rcases hv : CoinKeeper.connectTransaction v tx height with ⟨result, v', journal⟩
    rcases hw : CoinKeeper.connectTransaction w tx height with ⟨result', w', journal'⟩
    rw [hv, hw] at hresult hviews hjournal
    obtain rfl : result = result' := hresult
    obtain rfl : journal = journal' := hjournal
    cases result with
    | error e => exact ⟨rfl, hviews, rfl⟩
    | ok u =>
      obtain ⟨hrest, hends, hmore⟩ := ih hviews
      exact ⟨hrest, hends, congrArg (journal ++ ·) hmore⟩

theorem restoreAll (h : Simulation R) (hvw : R v w) (os : List OutPoint) (journal : Journal) :
    Agree R (CoinKeeper.restoreAll v os journal) (CoinKeeper.restoreAll w os journal) := by
  induction os generalizing v w journal with
  | nil => exact ⟨rfl, hvw⟩
  | cons o os ih =>
    cases journal with
    | nil => exact ⟨rfl, hvw⟩
    | cons entry journal =>
      rw [CoinKeeper.restoreAll, CoinKeeper.restoreAll]
      split
      · exact ih (h.set hvw _ _) journal
      · exact ⟨rfl, hvw⟩

theorem disconnectAll (h : Simulation R) (hvw : R v w) (txs : List Transaction)
    (journal : Journal) :
    Agree R (CoinKeeper.disconnectAll v txs journal) (CoinKeeper.disconnectAll w txs journal) := by
  induction txs generalizing v w journal with
  | nil => exact ⟨rfl, hvw⟩
  | cons tx txs ih =>
    obtain ⟨hresult, hviews⟩ :=
      h.restoreAll (h.removeOutputs hvw tx) tx.spends.reverse journal
    rw [CoinKeeper.disconnectAll, CoinKeeper.disconnectAll]
    rcases hv : CoinKeeper.restoreAll (CoinKeeper.removeOutputs v tx) tx.spends.reverse journal with
      ⟨result, v'⟩
    rcases hw : CoinKeeper.restoreAll (CoinKeeper.removeOutputs w tx) tx.spends.reverse journal with
      ⟨result', w'⟩
    rw [hv, hw] at hresult hviews
    obtain rfl : result = result' := hresult
    cases result with
    | error e => exact ⟨rfl, hviews⟩
    | ok rest => exact ih hviews rest

theorem disconnect (h : Simulation R) (hvw : R v w) (block : Block) (journal : Journal) :
    Agree R (CoinKeeper.disconnect v block journal) (CoinKeeper.disconnect w block journal) := by
  rw [CoinKeeper.disconnect, CoinKeeper.disconnect]
  split
  · exact ⟨rfl, hvw⟩
  · exact h.disconnectAll hvw _ _

theorem perform (h : Simulation R) (hvw : R v w) (call : CoinCall) :
    Agree R (CoinKeeper.perform v call) (CoinKeeper.perform w call) := by
  cases call with
  | fetch o =>
    obtain ⟨hstate, hnext⟩ := h.fetch hvw o
    exact ⟨congrArg CoinAnswer.state hstate, hnext⟩
  | lookup o =>
    obtain ⟨hstate, hnext⟩ := h.fetch hvw o
    exact ⟨congrArg (fun state : CoinState => CoinAnswer.coin state.coin?) hstate, hnext⟩
  | addOutputs tx height => exact ⟨rfl, h.addOutputs hvw tx height⟩
  | connectTransaction tx height =>
    obtain ⟨hresult, hviews, hjournal⟩ := h.connectTransaction hvw tx height
    exact ⟨congrArg₂ CoinAnswer.connected hresult hjournal, hviews⟩
  | connect block height =>
    obtain ⟨hresult, hviews, hjournal⟩ := h.connectAll hvw height block.transactions
    exact ⟨congrArg₂ CoinAnswer.connected hresult hjournal, hviews⟩
  | disconnect block journal =>
    obtain ⟨hresult, hviews⟩ := h.disconnect hvw block journal
    exact ⟨congrArg CoinAnswer.disconnected hresult, hviews⟩

/-- Views that are related give the same answers to all calls, and are related afterwards. -/
theorem performAll (h : Simulation R) (hvw : R v w) (calls : List CoinCall) :
    Agree R (PermissionedLedger.performAll CoinKeeper.perform v calls)
      (PermissionedLedger.performAll CoinKeeper.perform w calls) := by
  induction calls generalizing v w with
  | nil => exact ⟨rfl, hvw⟩
  | cons call calls ih =>
    obtain ⟨hanswer, hviews⟩ := h.perform hvw call
    obtain ⟨hanswers, hends⟩ := ih hviews
    exact ⟨congrArg₂ List.cons hanswer hanswers, hends⟩

end Simulation

/-! ## The view that runs -/

namespace CoinView

variable (v : CoinView)

theorem keeper_fetch (o : OutPoint) : CoinKeeper.fetch v o = (v.fetch o, v) := rfl

theorem keeper_set (o : OutPoint) (state : CoinState) : CoinKeeper.set v o state = v.set o state :=
  rfl

theorem keeper_spendAll (hash : Digest) (os : List OutPoint) :
    CoinKeeper.spendAll hash v os = v.spendAll hash os := by
  induction os generalizing v with
  | nil => rfl
  | cons o os ih =>
    rw [CoinKeeper.spendAll, spendAll, keeper_fetch]
    rcases v.fetch o with coin | _ | _
    · simp only [keeper_set, ih]
    · rfl
    · rfl

theorem keeper_connectTransaction (tx : Transaction) (height : Nat) :
    CoinKeeper.connectTransaction v tx height = v.connectTransaction tx height := by
  rw [CoinKeeper.connectTransaction, connectTransaction, keeper_spendAll]
  rcases v.spendAll tx.hash tx.spends with ⟨_ | _, u, journal⟩ <;> rfl

theorem keeper_connectAll (height : Nat) (txs : List Transaction) :
    CoinKeeper.connectAll height v txs = v.connectAll height txs := by
  induction txs generalizing v with
  | nil => rfl
  | cons tx txs ih =>
    rw [CoinKeeper.connectAll, connectAll, keeper_connectTransaction]
    rcases v.connectTransaction tx height with ⟨_ | _, u, journal⟩
    · rfl
    · simp only [ih]

theorem keeper_restoreAll (os : List OutPoint) (journal : Journal) :
    CoinKeeper.restoreAll v os journal = v.restoreAll os journal := by
  induction os generalizing v journal with
  | nil => rfl
  | cons o os ih =>
    cases journal with
    | nil => rfl
    | cons entry journal => simp only [CoinKeeper.restoreAll, restoreAll, keeper_set, ih]

theorem keeper_disconnectAll (txs : List Transaction) (journal : Journal) :
    CoinKeeper.disconnectAll v txs journal = v.disconnectAll txs journal := by
  induction txs generalizing v journal with
  | nil => rfl
  | cons tx txs ih =>
    have hremove : CoinKeeper.removeOutputs v tx = v.removeOutputs tx := rfl
    rw [CoinKeeper.disconnectAll, disconnectAll, keeper_restoreAll, hremove]
    rcases (v.removeOutputs tx).restoreAll tx.spends.reverse journal with ⟨_ | rest, u⟩
    · rfl
    · exact ih u rest

/-- All calls can be made on the view that runs. -/
theorem keeper_perform (call : CoinCall) : CoinKeeper.perform v call = v.perform call := by
  cases call with
  | fetch o => rfl
  | lookup o =>
    rw [CoinKeeper.perform, perform, lookup?, keeper_fetch]
    rcases v.fetch o with coin | _ | _ <;> rfl
  | addOutputs tx height => rfl
  | connectTransaction tx height =>
    rw [CoinKeeper.perform, perform, keeper_connectTransaction]
  | connect block height => rw [CoinKeeper.perform, perform, keeper_connectAll, connect]
  | disconnect block journal =>
    rw [CoinKeeper.perform, perform, CoinKeeper.disconnect, disconnect, keeper_disconnectAll]

theorem keeper_performAll (calls : List CoinCall) :
    PermissionedLedger.performAll CoinKeeper.perform v calls =
      PermissionedLedger.performAll CoinView.perform v calls := by
  have hperform : CoinKeeper.perform = CoinView.perform := funext fun v => funext v.keeper_perform
  rw [hperform]

end CoinView

theorem CoinView.lookup?_eq_coin? (v : CoinView) (o : OutPoint) :
    v.lookup? o = (v.fetch o).coin? := by
  rw [lookup?]
  cases v.fetch o <;> rfl

theorem CoinView.lookup?_set (v : CoinView) (o p : OutPoint) (state : CoinState) :
    (v.set o state).lookup? p = if p = o then state.coin? else v.lookup? p := by
  rw [lookup?_eq_coin?, lookup?_eq_coin?, fetch_set]
  split <;> rfl

/-! ## Remembering what was read -/

namespace CoinCache

variable {c : CoinCache}

/-- What was only read is what the store has. -/
def Sound (c : CoinCache) : Prop :=
  ∀ (o : OutPoint) (cached : CachedCoin), c.entries[o]? = some cached →
    cached.modified = false → cached.state = CoinState.ofCoin? c.base[o]?

/-- The view that forgets what it read. -/
def view (c : CoinCache) : CoinView := ⟨c.base, c.changes⟩

/-- What was set, one by one. -/
theorem getElem?_changes (c : CoinCache) (o : OutPoint) :
    c.changes[o]? = (c.entries[o]?).bind fun cached : CachedCoin =>
      if cached.modified then some cached.state else none := by
  rw [changes, Std.ExtTreeMap.getElem?_filterMap']

/-- What is set anew is changed. -/
theorem view_set (c : CoinCache) (o : OutPoint) (state : CoinState) :
    (c.set o state).view = c.view.set o state := by
  have hchanges : (c.set o state).changes = c.changes.insert o state := by
    refine Std.ExtTreeMap.ext_getElem? fun p => ?_
    rw [getElem?_changes, set, getElem?_insert_eq, getElem?_insert_eq, getElem?_changes]
    split <;> rfl
  rw [view, hchanges]
  rfl

theorem Sound.set (h : c.Sound) (o : OutPoint) (state : CoinState) : (c.set o state).Sound := by
  intro p cached hp hread
  rw [CoinCache.set, getElem?_insert_eq] at hp
  split at hp
  · obtain rfl := Option.some.inj hp
    cases hread
  · exact h p cached hp hread

/-- What is read for the first time is not changed. -/
theorem view_read {o : OutPoint} (h : c.entries[o]? = none) (state : CoinState) :
    CoinCache.view { c with entries := c.entries.insert o ⟨state, false⟩ } = c.view := by
  have hchanges : CoinCache.changes { c with entries := c.entries.insert o ⟨state, false⟩ } =
      c.changes := by
    refine Std.ExtTreeMap.ext_getElem? fun p => ?_
    rw [getElem?_changes, getElem?_changes, getElem?_insert_eq]
    split
    · next heq =>
      rw [heq, h]
      rfl
    · rfl
  rw [view, hchanges]
  rfl

/-- A view that remembers what it read fetches what the one that forgets does, which stays the
same. -/
theorem Sound.fetch (h : c.Sound) (o : OutPoint) :
    (c.fetch o).1 = c.view.fetch o ∧ (c.fetch o).2.Sound ∧ (c.fetch o).2.view = c.view := by
  have hchanges := c.getElem?_changes o
  rw [CoinCache.fetch, CoinView.fetch, view, hchanges]
  rcases hcached : c.entries[o]? with _ | ⟨state, modified⟩
  · refine ⟨?_, ?_, view_read hcached _⟩
    · rcases c.base[o]? with _ | coin <;> rfl
    · intro p cached hp hread
      simp only [getElem?_insert_eq] at hp
      split at hp
      · next heq =>
        obtain rfl := Option.some.inj hp
        rw [heq]
      · exact h p cached hp hread
  · refine ⟨?_, h, rfl⟩
    cases modified with
    | true => rfl
    | false =>
      have hstate : state = CoinState.ofCoin? c.base[o]? := h o _ hcached rfl
      rw [hstate]
      rcases c.base[o]? with _ | coin <;> rfl

/-- Remembering what was read makes no difference. -/
theorem simulation : Simulation fun (c : CoinCache) (v : CoinView) => c.Sound ∧ c.view = v where
  fetch := by
    rintro c v ⟨h, rfl⟩ o
    obtain ⟨hstate, hsound, hview⟩ := h.fetch o
    exact ⟨hstate, hsound, hview⟩
  set := by
    rintro c v ⟨h, rfl⟩ o state
    exact ⟨h.set o state, c.view_set o state⟩

/-- Nothing was read or set at first. -/
theorem start (base : CoinMap) : (CoinCache.mk base ∅).Sound ∧
    (CoinCache.mk base ∅).view = ⟨base, ∅⟩ := by
  constructor
  · intro o cached hread
    rw [Std.ExtTreeMap.getElem?_empty] at hread
    cases hread
  · rfl

end CoinCache

/-! ## A plain map -/

/-- A map of coins that is changed in place, with a note of what was changed. -/
structure PlainCoins where
  /-- the coins that can be spent -/
  coins : CoinMap
  /-- the outputs that were set, and whether they were spent last -/
  marks : Std.ExtTreeMap OutPoint Bool := ∅

namespace PlainCoins

variable {base : CoinMap} {v : CoinView} {m : PlainCoins}

/-- What is in the map can be spent; what is not was spent or is missing. -/
def fetch (m : PlainCoins) (o : OutPoint) : CoinState :=
  match m.coins[o]? with
  | some coin => .unspent coin
  | none => if m.marks[o]? = some true then .spent else .missing

/-- Puts a coin into the map, or takes it away. -/
def set (m : PlainCoins) (o : OutPoint) (state : CoinState) : PlainCoins where
  coins := match state with
    | .unspent coin => m.coins.insert o coin
    | .spent | .missing => m.coins.erase o
  marks := m.marks.insert o (state = .spent)

instance : CoinKeeper PlainCoins := ⟨fun m o => (m.fetch o, m), set⟩

/-- A view over given coins shows the coins of a map, and differs where the map was changed. -/
structure Shown (base : CoinMap) (v : CoinView) (m : PlainCoins) : Prop where
  /-- the coins below the view stay -/
  base : v.base = base
  /-- what can be spent is in the map -/
  coins : ∀ o : OutPoint, m.coins[o]? = v.lookup? o
  /-- what differs is marked -/
  marks : ∀ o : OutPoint,
    m.marks[o]? = (v.changes[o]?).map fun state : CoinState => decide (state = .spent)

theorem Shown.fetch (h : Shown base v m) (o : OutPoint) : v.fetch o = m.fetch o := by
  rw [PlainCoins.fetch, h.coins, h.marks, CoinView.lookup?, CoinView.fetch]
  rcases v.changes[o]? with _ | state
  · rcases v.base[o]? with _ | coin <;> rfl
  · cases state <;> rfl

theorem getElem?_set (m : PlainCoins) (o p : OutPoint) (state : CoinState) :
    (m.set o state).coins[p]? = if p = o then state.coin? else m.coins[p]? := by
  cases state with
  | unspent coin => exact getElem?_insert_eq m.coins o p coin
  | spent => exact getElem?_erase_eq m.coins o p
  | missing => exact getElem?_erase_eq m.coins o p

theorem Shown.set (h : Shown base v m) (o : OutPoint) (state : CoinState) :
    Shown base (v.set o state) (m.set o state) where
  base := h.base
  coins p := by
    rw [getElem?_set, CoinView.lookup?_set, h.coins]
  marks p := by
    change (m.marks.insert o (decide (state = .spent)))[p]? =
      ((v.changes.insert o state)[p]?).map _
    rw [getElem?_insert_eq, getElem?_insert_eq, h.marks]
    split <;> rfl

/-- A view shows a map that is changed in place. -/
theorem simulation (base : CoinMap) : Simulation (Shown base) where
  fetch h o := ⟨h.fetch o, h⟩
  set h o state := h.set o state

/-- A view in which nothing was set shows the coins below it. -/
theorem Shown.start (base : CoinMap) : Shown base ⟨base, ∅⟩ ⟨base, ∅⟩ where
  base := rfl
  coins o := by
    rw [CoinView.lookup?_eq_coin?, CoinView.fetch, Std.ExtTreeMap.getElem?_empty]
    rcases base[o]? with _ | coin <;> rfl
  marks o := by rw [Std.ExtTreeMap.getElem?_empty, Std.ExtTreeMap.getElem?_empty, Option.map_none]

/-! ### What calls do to the map -/

theorem coins_of_spendAll {hash : Digest} {os : List OutPoint} {m' : PlainCoins}
    {journal : Journal} (h : spendAll hash m os = (.ok (), m', journal)) :
    m'.coins = os.foldl (fun coins o => coins.erase o) m.coins := by
  induction os generalizing m journal with
  | nil =>
    obtain ⟨-, rfl, -⟩ := by simpa only [spendAll, Prod.mk.injEq] using h
    rfl
  | cons o os ih =>
    have hfetch : CoinKeeper.fetch m o = (m.fetch o, m) := rfl
    rw [spendAll, hfetch] at h
    rcases hstate : m.fetch o with coin | _ | _ <;> rw [hstate] at h
    · obtain ⟨hresult, hmap, -⟩ := by simpa only [Prod.mk.injEq] using h
      exact ih (m := m.set o .spent) (Prod.ext hresult (Prod.ext hmap rfl))
    · cases (Prod.mk.inj h).1
    · cases (Prod.mk.inj h).1

theorem coins_setAll (m : PlainCoins) (coin : TxOutput → Coin)
    (outputs : List (OutPoint × TxOutput)) :
    (setAll (fun output => .unspent (coin output)) m outputs).coins =
      outputs.foldl (fun coins s => coins.insert s.1 (coin s.2)) m.coins := by
  induction outputs generalizing m with
  | nil => rfl
  | cons s outputs ih => exact ih (m.set s.1 (.unspent (coin s.2)))

/-- A transaction that is connected takes its inputs out of the map and puts its outputs in. -/
theorem coins_of_connectTransaction {tx : Transaction} {height : Nat} {m' : PlainCoins}
    {journal : Journal} (h : connectTransaction m tx height = (.ok (), m', journal)) :
    m'.coins = m.coins.applyTransaction tx height := by
  rw [connectTransaction] at h
  rcases hspend : spendAll tx.hash m tx.spends with ⟨_ | _, u, spent⟩
  · rw [hspend] at h
    cases (Prod.mk.inj h).1
  · rw [hspend] at h
    obtain ⟨-, rfl, -⟩ := by simpa only [Prod.mk.injEq] using h
    rw [addOutputs, coins_setAll, coins_of_spendAll hspend]
    rfl

/-- So do all transactions of a block, one after another. -/
theorem coins_of_connectAll {txs : List Transaction} {height : Nat} {m' : PlainCoins}
    {journal : Journal} (h : connectAll height m txs = (.ok (), m', journal)) :
    m'.coins = txs.foldl (fun coins tx => coins.applyTransaction tx height) m.coins := by
  induction txs generalizing m journal with
  | nil =>
    obtain ⟨-, rfl, -⟩ := by simpa only [connectAll, Prod.mk.injEq] using h
    rfl
  | cons tx txs ih =>
    rw [connectAll] at h
    rcases hconnect : connectTransaction m tx height with ⟨_ | _, u, first⟩
    · rw [hconnect] at h
      cases (Prod.mk.inj h).1
    · rw [hconnect] at h
      obtain ⟨hresult, hmap, -⟩ := by simpa only [Prod.mk.injEq] using h
      rw [List.foldl_cons, ← coins_of_connectTransaction hconnect]
      exact ih (Prod.ext hresult (Prod.ext hmap rfl))

end PlainCoins

/-! ## What is asked of a view -/

/-- The output that a write is about, if it is about a coin. -/
def Write.outPoint? : Write → Option OutPoint
  | .putCoin o _ => some o
  | .deleteCoin o => some o
  | _ => none

theorem CoinView.map_outPoint?_writes (v : CoinView) :
    v.writes.map Write.outPoint? = v.changes.keys.map some := by
  rw [writes, List.map_map, ← Std.ExtTreeMap.map_fst_toList_eq_keys, List.map_map]
  refine List.map_congr_left fun entry _ => ?_
  obtain ⟨o, state⟩ := entry
  cases state <;> rfl

/-- The answers of a view over given coins, and the view after all calls. -/
def CoinView.after (coins : CoinMap) (calls : List CoinCall) : List CoinAnswer × CoinView :=
  performAll perform ⟨coins, ∅⟩ calls

/-- The answers of a view that remembers what it reads of given coins. -/
def CoinCache.after (coins : CoinMap) (calls : List CoinCall) : List CoinAnswer × CoinCache :=
  performAll CoinKeeper.perform ⟨coins, ∅⟩ calls

/-- The answers of a map that starts as given coins and is changed in place. -/
def PlainCoins.after (coins : CoinMap) (calls : List CoinCall) : List CoinAnswer × PlainCoins :=
  performAll CoinKeeper.perform ⟨coins, ∅⟩ calls

/-- What views over a store have in common with a plain map after the same calls, and what their
writes do to the store. -/
structure FaithfulOverlay {σ : Type} [ChainStore σ] (store : σ) (view : List CoinAnswer × CoinView)
    (cache : List CoinAnswer × CoinCache) (map : List CoinAnswer × PlainCoins) : Prop where
  /-- all calls were answered as by the map -/
  answers : view.1 = map.1
  /-- also by the view that remembers -/
  cacheAnswers : cache.1 = map.1
  /-- the coins are those of the map -/
  lookup : ∀ o, view.2.lookup? o = map.2.coins[o]?
  /-- a block that can be connected then takes out what it spends and puts in what it creates -/
  connects : ∀ {block height v journal}, view.2.connect block height = (.ok (), v, journal) →
    ∀ o : OutPoint, v.lookup? o = (map.2.coins.applyBlock block height)[o]?
  /-- also in the view that remembers -/
  cacheLookup : ∀ o, (cache.2.fetch o).1.coin? = map.2.coins[o]?
  /-- what was only read is not written -/
  cacheWrites : cache.2.writes = view.2.writes
  /-- the writes are about the outputs that were set, each once and in ascending order -/
  order : ∃ os : List OutPoint, view.2.writes.map Write.outPoint? = os.map some ∧
    (os.Pairwise fun a b => compare a b = .lt) ∧ ∀ o, o ∈ os ↔ o ∈ map.2.marks
  /-- they can be committed, and the store has the coins of the view then -/
  commit : ∃ store', ChainStore.commit store view.2.writes = (.ok (), store') ∧
    (∀ o : OutPoint, (ChainStore.tables store').coins[o]? = view.2.lookup? o) ∧
    ∀ o : OutPoint, o ∉ map.2.marks →
      (ChainStore.tables store').coins[o]? = (ChainStore.tables store).coins[o]?

/-- A view that shows a map shows the block applied to it once the block is connected. -/
theorem PlainCoins.Shown.connect {base : CoinMap} {v v' : CoinView} {m : PlainCoins} {block : Block}
    {height : Nat} {journal : Journal} (h : Shown base v m)
    (hconnect : v.connect block height = (.ok (), v', journal)) (o : OutPoint) :
    v'.lookup? o = (m.coins.applyBlock block height)[o]? := by
  obtain ⟨hresult, hshown, -⟩ := (simulation base).connectAll h height block.transactions
  rw [CoinView.keeper_connectAll, ← CoinView.connect, hconnect] at hresult hshown
  have hmap := coins_of_connectAll (Prod.ext hresult.symm (Prod.ext rfl rfl))
  rw [← hshown.coins, hmap]
  rfl

/-- The writes of a view are committed, and store its coins. -/
theorem exists_commit_writes {σ : Type} [ChainStore σ] [ReliableChainStore σ] {store : σ}
    {v : CoinView} (hbase : v.base = (ChainStore.tables store).coins) :
    ∃ store', ChainStore.commit store v.writes = (.ok (), store') ∧
      ∀ o : OutPoint, (ChainStore.tables store').coins[o]? = v.lookup? o := by
  have hwrites : (ChainStore.tables store).tryWriteAll v.writes =
      .ok ((ChainStore.tables store).writeAll v.writes) := by
    refine Tables.tryWriteAll_eq_ok fun hash status hmem => ?_
    obtain ⟨o, ⟨coin, hput⟩ | hdelete⟩ := Tables.mem_writes hmem
    · cases hput
    · cases hdelete
  have hok := ReliableChainStore.commits store v.writes _ hwrites
  obtain ⟨store', hcommit⟩ : ∃ store', ChainStore.commit store v.writes = (.ok (), store') :=
    ⟨_, Prod.ext hok rfl⟩
  refine ⟨store', hcommit, fun o => ?_⟩
  rw [LawfulChainStore.tables_of_ok _ _ _ hcommit, Tables.coins_writeAll_writes hbase]

/-- Whatever is asked of a view over a store, in any order and also where it fails half-way, the
view is as good as a plain map. -/
theorem faithfulOverlay {σ : Type} [ChainStore σ] [ReliableChainStore σ] (store : σ)
    (calls : List CoinCall) :
    FaithfulOverlay store (CoinView.after (ChainStore.tables store).coins calls)
      (CoinCache.after (ChainStore.tables store).coins calls)
      (PlainCoins.after (ChainStore.tables store).coins calls) := by
  obtain ⟨hanswers, hshown⟩ := (PlainCoins.simulation (ChainStore.tables store).coins).performAll
    (PlainCoins.Shown.start _) calls
  obtain ⟨hcacheAnswers, hsound, hview⟩ :=
    CoinCache.simulation.performAll (CoinCache.start (ChainStore.tables store).coins) calls
  rw [CoinView.keeper_performAll] at hanswers hshown hcacheAnswers hview
  rw [CoinView.after, CoinCache.after, PlainCoins.after]
  set v := performAll CoinView.perform ⟨(ChainStore.tables store).coins, ∅⟩ calls
  set c := performAll CoinKeeper.perform
    (CoinCache.mk (ChainStore.tables store).coins ∅) calls
  set m := performAll CoinKeeper.perform
    (PlainCoins.mk (ChainStore.tables store).coins ∅) calls
  have hmarks : ∀ o, o ∈ v.2.changes ↔ o ∈ m.2.marks := by
    intro o
    rw [Std.ExtTreeMap.mem_iff_isSome_getElem?, Std.ExtTreeMap.mem_iff_isSome_getElem?,
      hshown.marks, Option.isSome_map]
  obtain ⟨store', hcommit, hcoins⟩ := exists_commit_writes hshown.base
  exact
    { answers := hanswers
      cacheAnswers := hcacheAnswers.trans hanswers
      lookup := fun o => (hshown.coins o).symm
      connects := fun hconnect o => hshown.connect hconnect o
      cacheLookup := fun o => by
        rw [(hsound.fetch o).1, hview, ← CoinView.lookup?_eq_coin?, hshown.coins]
      cacheWrites := by rw [← hview]; rfl
      order := ⟨v.2.changes.keys, v.2.map_outPoint?_writes, Std.ExtTreeMap.ordered_keys,
        fun o => Std.ExtTreeMap.mem_keys.trans (hmarks o)⟩
      commit := by
        refine ⟨store', hcommit, hcoins, fun o ho => ?_⟩
        have hsame : v.2.changes[o]? = none := getElem?_neg _ _ (mt (hmarks o).1 ho)
        rw [hcoins, CoinView.lookup?_eq_coin?, CoinView.fetch, hsame, hshown.base]
        rcases (ChainStore.tables store).coins[o]? with _ | coin <;> rfl }

/-! ## Spending a coin twice -/

namespace OverlaySample

/-- A coin that is stored. -/
def stored : OutPoint := ⟨.zero, 0⟩

/-- A store with the coin. -/
def store : MemoryStore :=
  ⟨{ coins := (∅ : CoinMap).insert stored ⟨⟨5, .payToKey .zero⟩, 0, false⟩ }⟩

/-- A transaction that spends the coin. -/
def spending : Transaction where
  version := 1
  inputs := [⟨stored, .signatures [], finalSequence⟩]
  outputs := [⟨5, .payToKey .zero⟩]
  lockTime := 0

/-- The transaction is connected, and a second time, which fails. -/
def calls : List CoinCall :=
  [.lookup stored, .connectTransaction spending 1, .connectTransaction spending 2, .fetch stored]

/-- A coin that was read, and spent once, is taken out of the store. -/
theorem faithfulOverlay_of_double_spend :
    (CoinView.after store.tables.coins calls).2.fetch stored = .spent ∧
      (CoinView.after store.tables.coins calls).2.lookup? (spending.outPoint 0) =
        some ⟨⟨5, .payToKey .zero⟩, 1, false⟩ ∧
      FaithfulOverlay store (CoinView.after store.tables.coins calls)
        (CoinCache.after store.tables.coins calls) (PlainCoins.after store.tables.coins calls) :=
  ⟨by decide +kernel, by decide +kernel, faithfulOverlay store calls⟩

end OverlaySample

end PermissionedLedger
