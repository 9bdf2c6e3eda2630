import Mathlib
import PermissionedLedger.Proofs.Coins.Line

/-!
# Where coins come from

The entries of a line are its transactions with their heights, the latest first
(`entriesOf`). Every coin that can be spent was created by one of them
(`createdIn_ofLine`).

Nothing is created twice, for one of two reasons:

* a block that is not trusted was compared with what is there
  (`fresh_of_checkFresh`);
* if no two transactions have one digest, no transaction can come again
  (`accounted_ofLine`). A coinbase repeats its height, so that two of different
  blocks differ. Any other transaction spends an output, and that was spent when it
  came first; for the output to be there again its creator would have come again.

The second argument also shows that no output is ever spent twice.
-/

namespace PermissionedLedger

open CoinView

variable {v v' : CoinView} {tx : Transaction} {height : Nat} {journal : Journal}
  {b : Block} {older line : List Block} {before : List (Nat × Transaction)}

/-- The transactions of a line with their heights, the latest first. -/
def entriesOf : List Block → List (Nat × Transaction)
  | [] => []
  | b :: older => (b.transactions.map fun tx => (older.length, tx)).reverse ++ entriesOf older

theorem mem_entriesOf {e : Nat × Transaction} :
    e ∈ entriesOf line ↔
      ∃ b older, b :: older <:+ line ∧ e.1 = older.length ∧ e.2 ∈ b.transactions := by
  induction line with
  | nil =>
    simp only [entriesOf, List.not_mem_nil, false_iff, not_exists]
    rintro b older ⟨h, -⟩
    cases List.suffix_nil.1 h
  | cons b older ih =>
    rw [entriesOf, List.mem_append, List.mem_reverse, List.mem_map, ih]
    constructor
    · rintro (⟨tx, htx, rfl⟩ | ⟨c, rest, hc, he⟩)
      · exact ⟨b, older, List.suffix_refl _, rfl, htx⟩
      · exact ⟨c, rest, hc.trans (List.suffix_cons ..), he⟩
    · rintro ⟨c, rest, hc, hheight, htx⟩
      rcases List.suffix_cons_iff.1 hc with heq | hc
      · obtain ⟨rfl, rfl⟩ := List.cons.inj heq
        exact Or.inl ⟨e.2, htx, Prod.ext hheight.symm rfl⟩
      · exact Or.inr ⟨c, rest, hc, hheight, htx⟩

/-- Different transactions have different digests. -/
def CollisionFree (entries : List (Nat × Transaction)) : Prop :=
  ∀ e ∈ entries, ∀ e' ∈ entries, e.2.hash = e'.2.hash → e.2 = e'.2

theorem CollisionFree.mono {as bs : List (Nat × Transaction)} (h : CollisionFree bs)
    (hsub : as ⊆ bs) : CollisionFree as :=
  fun e he e' he' => h e (hsub he) e' (hsub he')

namespace Transaction

theorem txHash_of_mem_created {s : OutPoint × TxOutput} (h : s ∈ tx.created) :
    s.1.txHash = tx.hash := by
  obtain ⟨⟨output, index⟩, -, rfl⟩ := List.mem_map.1 h
  rfl

theorem mem_created_of_mem_spendables {s : OutPoint × TxOutput} (h : s ∈ tx.spendables) :
    s ∈ tx.created :=
  (List.mem_filter.1 h).1

theorem txHash_of_mem_spendables {o : OutPoint} (h : o ∈ tx.spendables.map Prod.fst) :
    o.txHash = tx.hash := by
  obtain ⟨s, hs, rfl⟩ := List.mem_map.1 h
  exact txHash_of_mem_created (mem_created_of_mem_spendables hs)

end Transaction

/-! ## Every coin has a creator -/

/-- An output of a transaction in a history, the latest first, that nothing spent or replaced
since. -/
def Unspent (before : List (Nat × Transaction)) (o : OutPoint) (output : TxOutput)
    (e : Nat × Transaction) : Prop :=
  ∃ since earlier, before = since ++ e :: earlier ∧ (o, output) ∈ e.2.spendables ∧
    ∀ e' ∈ since, o ∉ e'.2.spends ∧ o ∉ e'.2.spendables.map Prod.fst

namespace Unspent

variable {o : OutPoint} {output : TxOutput} {e e' : Nat × Transaction}

theorem mem (h : Unspent before o output e) : e ∈ before := by
  obtain ⟨since, earlier, rfl, -⟩ := h
  exact List.mem_append_right _ (List.mem_cons_self ..)

theorem created (h : Unspent before o output e) : (o, output) ∈ e.2.spendables := by
  obtain ⟨-, -, -, hcreated, -⟩ := h
  exact hcreated

theorem cons (h : Unspent before o output e) (hspends : o ∉ e'.2.spends)
    (hcreates : o ∉ e'.2.spendables.map Prod.fst) : Unspent (e' :: before) o output e := by
  obtain ⟨since, earlier, rfl, hcreated, hsince⟩ := h
  refine ⟨e' :: since, earlier, rfl, hcreated, fun e'' he'' => ?_⟩
  rcases List.mem_cons.1 he'' with rfl | he''
  · exact ⟨hspends, hcreates⟩
  · exact hsince e'' he''

end Unspent

/-- The coins of a view were created in a history, as they say, and are unspent since. -/
def CreatedIn (before : List (Nat × Transaction)) (v : CoinView) : Prop :=
  ∀ o coin, v.lookup? o = some coin →
    ∃ e, Unspent before o coin.output e ∧ coin.height = e.1 ∧ coin.isCoinbase = e.2.isCoinbase

theorem CreatedIn.step (h : CreatedIn before v)
    (hc : v.connectTransaction tx height = (.ok (), v', journal)) :
    CreatedIn ((height, tx) :: before) v' := by
  obtain ⟨u, hu, rfl⟩ := connectTransaction_eq_ok.1 hc
  intro o coin hcoin
  by_cases ho : o ∈ tx.spendables.map Prod.fst
  · obtain ⟨output, hmem, hlook⟩ := lookup?_addOutputs_of_mem u height ho
    rw [hlook] at hcoin
    obtain rfl := Option.some.inj hcoin
    exact ⟨_, ⟨[], before, rfl, hmem, fun _ h => nomatch h⟩, rfl, rfl⟩
  · rw [lookup?_addOutputs_of_notMem ho, lookup?_of_spendAll hu] at hcoin
    split at hcoin
    · cases hcoin
    · next hkept =>
      obtain ⟨e, hunspent, hcreated⟩ := h o coin hcoin
      exact ⟨e, hunspent.cons hkept ho, hcreated⟩

theorem CreatedIn.connectAll {txs : List Transaction} (h : CreatedIn before v)
    (hc : CoinView.connectAll height v txs = (.ok (), v', journal)) :
    CreatedIn ((txs.map fun tx => (height, tx)).reverse ++ before) v' := by
  induction txs generalizing v before journal with
  | nil =>
    obtain ⟨rfl, -⟩ := connectAll_nil_eq_ok.1 hc
    exact h
  | cons tx txs ih =>
    obtain ⟨u, first, rest, hu, hrest, -⟩ := connectAll_cons_eq_ok.1 hc
    rw [List.map_cons, List.reverse_cons, List.append_assoc, List.singleton_append]
    exact ih (h.step hu) hrest

/-- What can be spent after a line was created on it. -/
theorem createdIn_ofLine
    (h : Throughout (fun b older => ((ofLine older).connect b older.length).1 = .ok ()) line) :
    CreatedIn (entriesOf line) (ofLine line) := by
  induction line with
  | nil =>
    intro o coin hcoin
    simp [ofLine, lookup?, fetch] at hcoin
  | cons b older ih =>
    obtain ⟨hb, holder⟩ := Throughout.cons_iff.1 h
    exact (ih holder).connectAll (connect_ofLine hb)

/-! ## Blocks that were compared with what is there -/

theorem fresh_of_notThere {txs : List Transaction}
    (hhashes : (txs.map (·.hash)).Nodup)
    (hnew : ∀ tx ∈ txs, ∀ s ∈ tx.spendables, v.lookup? s.1 = none)
    (hc : CoinView.connectAll height v txs = (.ok (), v', journal)) : Fresh height v txs := by
  induction txs generalizing v journal with
  | nil => trivial
  | cons tx txs ih =>
    obtain ⟨u, first, rest, hu, hrest, -⟩ := connectAll_cons_eq_ok.1 hc
    rw [List.map_cons, List.nodup_cons] at hhashes
    refine ⟨hnew tx (List.mem_cons_self ..), ?_⟩
    rw [hu]
    refine ih hhashes.2 (fun tx' htx' s hs => ?_) hrest
    obtain ⟨w, hw, rfl⟩ := connectTransaction_eq_ok.1 hu
    have hmem : s.1 ∈ tx'.spendables.map Prod.fst := List.mem_map_of_mem hs
    have hother : s.1 ∉ tx.spendables.map Prod.fst := by
      intro hin
      have heq := Transaction.txHash_of_mem_spendables hmem
      rw [Transaction.txHash_of_mem_spendables hin] at heq
      exact hhashes.1 (heq ▸ List.mem_map_of_mem htx')
    rw [lookup?_addOutputs_of_notMem hother, lookup?_of_spendAll hw,
      hnew tx' (List.mem_cons_of_mem _ htx') s hs]
    split <;> rfl

/-- A block that passed the check replaces no output. -/
theorem fresh_of_checkFresh (hb : b.WellFormed) (h : b.checkFresh v = .ok ())
    (hc : v.connect b height = (.ok (), v', journal)) : Fresh height v b.transactions :=
  fresh_of_notThere hb.hashes_nodup (fun _ htx _ hs => Block.notThere_of_checkFresh h htx
    (Transaction.mem_created_of_mem_spendables hs)) hc

/-! ## No transaction comes again -/

/-- What given transactions spent is gone for good: it is not there, its creator is one of them, and
it was spent once. -/
structure Accounted (before : List (Nat × Transaction)) (v : CoinView) : Prop where
  /-- what was spent is not there -/
  gone : ∀ e ∈ before, ∀ o ∈ e.2.spends, v.lookup? o = none
  /-- what was spent has a creator -/
  known : ∀ e ∈ before, ∀ o ∈ e.2.spends, ∃ e' ∈ before, e'.2.hash = o.txHash
  /-- nothing was spent twice -/
  once : (before.flatMap (·.2.spends)).Nodup

namespace Accounted

theorem nil (v : CoinView) : Accounted [] v where
  gone := fun _ h => nomatch h
  known := fun _ h => nomatch h
  once := List.nodup_nil

/-- A transaction that can be connected and spends something did not come before. -/
theorem notMem (h : Accounted before v) (hspends : tx.spends ≠ [])
    (hc : v.connectTransaction tx height = (.ok (), v', journal)) : ∀ e ∈ before, e.2 ≠ tx := by
  rintro e he rfl
  obtain ⟨u, hu, -⟩ := connectTransaction_eq_ok.1 hc
  obtain ⟨-, hmap, hcoins, -⟩ := of_spendAll hu
  obtain ⟨o, ho⟩ := List.exists_mem_of_ne_nil _ hspends
  have hgone := h.gone e he o ho
  rw [← hmap] at ho
  obtain ⟨entry, hentry, rfl⟩ := List.mem_map.1 ho
  rw [hcoins entry hentry] at hgone
  cases hgone

/-- A transaction that did not come before creates nothing that is there, and the account goes
on. -/
theorem step (h : Accounted before v) (hcreated : CreatedIn before v)
    (hnew : ∀ e ∈ before, e.2 ≠ tx) (hfree : CollisionFree ((height, tx) :: before))
    (hc : v.connectTransaction tx height = (.ok (), v', journal)) :
    (∀ s ∈ tx.spendables, v.lookup? s.1 = none) ∧ Accounted ((height, tx) :: before) v' := by
  obtain ⟨u, hu, rfl⟩ := connectTransaction_eq_ok.1 hc
  obtain ⟨hnodup, hmap, hcoins, hlook⟩ := of_spendAll hu
  -- no digest from before is that of the transaction
  have hhash : ∀ e ∈ before, e.2.hash ≠ tx.hash := fun e he heq =>
    hnew e he (hfree e (List.mem_cons_of_mem _ he) _ (List.mem_cons_self ..) heq)
  have hthere : ∀ o ∈ tx.spends, ∃ coin, v.lookup? o = some coin := by
    intro o ho
    rw [← hmap] at ho
    obtain ⟨entry, hentry, rfl⟩ := List.mem_map.1 ho
    exact ⟨_, hcoins entry hentry⟩
  have hknown : ∀ o ∈ tx.spends, ∃ e ∈ before, e.2.hash = o.txHash := by
    intro o ho
    obtain ⟨coin, hcoin⟩ := hthere o ho
    obtain ⟨e, he, -⟩ := hcreated o coin hcoin
    exact ⟨e, he.mem,
      (Transaction.txHash_of_mem_spendables (List.mem_map_of_mem he.created)).symm⟩
  have hadded : ∀ o, (∃ e ∈ before, e.2.hash = o.txHash) → o ∉ tx.spendables.map Prod.fst := by
    rintro o ⟨e, he, heq⟩ hin
    exact hhash e he (heq.trans (Transaction.txHash_of_mem_spendables hin))
  refine ⟨fun s hs => ?_, ?_, ?_, ?_⟩
  · rcases hs' : v.lookup? s.1 with _ | coin
    · rfl
    · obtain ⟨e, he, -⟩ := hcreated s.1 coin hs'
      have hsame := Transaction.txHash_of_mem_spendables (List.mem_map_of_mem he.created)
      exact absurd (List.mem_map_of_mem hs) (hadded s.1 ⟨e, he.mem, hsame.symm⟩)
  · intro e he o ho
    rcases List.mem_cons.1 he with rfl | he
    · rw [lookup?_addOutputs_of_notMem (hadded o (hknown o ho)), hlook, if_pos ho]
    · rw [lookup?_addOutputs_of_notMem (hadded o (h.known e he o ho)), hlook, h.gone e he o ho]
      split <;> rfl
  · intro e he o ho
    rcases List.mem_cons.1 he with rfl | he
    · obtain ⟨e', he', heq⟩ := hknown o ho
      exact ⟨e', List.mem_cons_of_mem _ he', heq⟩
    · obtain ⟨e', he', heq⟩ := h.known e he o ho
      exact ⟨e', List.mem_cons_of_mem _ he', heq⟩
  · rw [List.flatMap_cons]
    refine List.nodup_append.2 ⟨hnodup, h.once, ?_⟩
    rintro o ho o' ho' rfl
    obtain ⟨e, he, hin⟩ := List.mem_flatMap.1 ho'
    obtain ⟨coin, hcoin⟩ := hthere o ho
    rw [h.gone e he o hin] at hcoin
    cases hcoin

/-- The account goes on along transactions that all spend something. -/
theorem connectAll {txs : List Transaction} (h : Accounted before v)
    (hcreated : CreatedIn before v) (hspends : ∀ tx ∈ txs, tx.spends ≠ [])
    (hfree : CollisionFree ((txs.map fun tx => (height, tx)).reverse ++ before))
    (hc : CoinView.connectAll height v txs = (.ok (), v', journal)) :
    Fresh height v txs ∧
      Accounted ((txs.map fun tx => (height, tx)).reverse ++ before) v' := by
  induction txs generalizing v before journal with
  | nil =>
    obtain ⟨rfl, -⟩ := connectAll_nil_eq_ok.1 hc
    exact ⟨trivial, h⟩
  | cons tx txs ih =>
    obtain ⟨u, first, rest, hu, hrest, -⟩ := connectAll_cons_eq_ok.1 hc
    rw [List.map_cons, List.reverse_cons, List.append_assoc, List.singleton_append] at hfree ⊢
    have hfree' := hfree.mono (List.subset_append_right _ _)
    have hnew := h.notMem (hspends tx (List.mem_cons_self ..)) hu
    obtain ⟨hfirst, hacc⟩ := h.step hcreated hnew hfree' hu
    obtain ⟨hlater, hend⟩ := ih hacc (hcreated.step hu)
      (fun tx htx => hspends tx (List.mem_cons_of_mem _ htx)) hfree hrest
    refine ⟨⟨hfirst, ?_⟩, hend⟩
    rw [hu]
    exact hlater

end Accounted

namespace Block

theorem coinbaseHeight?_congr {c : Block} (h : b.coinbase? = c.coinbase?) :
    b.coinbaseHeight? = c.coinbaseHeight? := by
  rw [coinbaseHeight?, h, coinbaseHeight?]

/-- A coinbase in a well-formed block is the coinbase of the block. -/
theorem WellFormed.coinbase?_eq (hb : b.WellFormed) (htx : tx ∈ b.transactions)
    (hcoinbase : tx.isCoinbase = true) : b.coinbase? = some tx := by
  obtain ⟨coinbase, rest, heq, -, hrest⟩ := hb.coinbase_first
  rw [heq] at htx
  rcases List.mem_cons.1 htx with rfl | htx
  · rw [coinbase?, heq, List.head?_cons]
  · rw [hrest tx htx] at hcoinbase
    cases hcoinbase

/-- A block in its place: it is well formed, repeats its height, and can be connected. -/
structure Placed (b : Block) (older : List Block) : Prop where
  /-- the transactions are in order -/
  wellFormed : b.WellFormed
  /-- the coinbase repeats the height -/
  height : b.coinbaseHeight? = some older.length
  /-- everything it spends is there -/
  connects : ((ofLine older).connect b older.length).1 = .ok ()

end Block

/-- Along a line without collisions the account is kept, and every block fits. -/
theorem accounted_ofLine (h : Throughout Block.Placed line) (hfree : CollisionFree (entriesOf line)) :
    Throughout Block.Fits line ∧ Accounted (entriesOf line) (ofLine line) := by
  induction line with
  | nil => exact ⟨Throughout.nil, Accounted.nil _⟩
  | cons b older ih =>
    obtain ⟨hb, holder⟩ := Throughout.cons_iff.1 h
    have hfree' : CollisionFree (entriesOf older) := hfree.mono (List.subset_append_right _ _)
    obtain ⟨hfits, hacc⟩ := ih holder hfree'
    have hcreated := createdIn_ofLine (holder.imp fun _ _ hc => hc.connects)
    obtain ⟨coinbase, rest, heq, hcoinbase, hrest⟩ := hb.wellFormed.coinbase_first
    have hconnect := connect_ofLine hb.connects
    have hall : CoinView.connectAll older.length (ofLine older) (coinbase :: rest) =
        (.ok (), ofLine (b :: older), journalOf b older) := by
      rw [← heq]
      exact hconnect
    obtain ⟨u, first, more, hu, hmore, -⟩ := connectAll_cons_eq_ok.1 hall
    have hentries : entriesOf (b :: older) =
        (rest.map fun tx => (older.length, tx)).reverse ++
          (older.length, coinbase) :: entriesOf older := by
      rw [entriesOf, heq, List.map_cons, List.reverse_cons, List.append_assoc,
        List.singleton_append]
    rw [hentries] at hfree ⊢
    -- a coinbase from before would repeat another height
    have hnew : ∀ e ∈ entriesOf older, e.2 ≠ coinbase := by
      rintro e he rfl
      obtain ⟨c, below, hc, -, htx⟩ := mem_entriesOf.1 he
      have hplaced := holder c below hc
      have hsame : b.coinbase? = c.coinbase? := by
        rw [hplaced.wellFormed.coinbase?_eq htx hcoinbase, Block.coinbase?, heq, List.head?_cons]
      have hheight := hb.height
      rw [Block.coinbaseHeight?_congr hsame, hplaced.height] at hheight
      have hlen := hc.length_le
      rw [List.length_cons, Option.some.inj hheight] at hlen
      omega
    obtain ⟨hfirst, hacc'⟩ := hacc.step hcreated hnew
      (hfree.mono (List.subset_append_right _ _)) hu
    have hspends : ∀ tx ∈ rest, tx.spends ≠ [] := fun tx htx =>
      (hb.wellFormed.transactions tx (heq ▸ List.mem_cons_of_mem _ htx)).spends_ne_nil
        (hrest tx htx)
    obtain ⟨hlater, hend⟩ := hacc'.connectAll (hcreated.step hu) hspends hfree hmore
    refine ⟨Throughout.cons_iff.2 ⟨⟨hb.connects, ?_⟩, hfits⟩, hend⟩
    rw [heq]
    refine ⟨hfirst, ?_⟩
    rw [hu]
    exact hlater

end PermissionedLedger
