import Mathlib
import PermissionedLedger.Proofs.Chain.Spending
import PermissionedLedger.Proofs.Coins.Threads

/-!
# Threads on the main chain

If no block was trusted, each thread is one unbroken line on the main chain of a reachable
chain: the stored coins have one output for each thread, and every transaction of a thread
spends the output of the one before it, whatever was undone in between.

Every stored block but genesis was checked when it was submitted (`Tables.Checked`), so its
transactions have the shape that `Transaction.Governed` says. The blocks of the main chain
were accepted one over the other, so that the step from `Threads.step` can be made along it.
-/

namespace PermissionedLedger

open CoinView BlockTree

variable {σ : Type} [ChainStore σ] {params : Params} {verify : Verifier}

/-! ## Stored blocks -/

/-- Every stored block is genesis or passed the checks that need nothing else. -/
def Tables.Checked (params : Params) (verify : Verifier) (T : Tables) : Prop :=
  ∀ ⦃hash : Digest⦄ ⦃b : Block⦄, T.blocks[hash]? = some b →
    b = params.genesis ∨ b.Checked params verify

theorem checked_genesisTables (params : Params) (verify : Verifier) :
    params.genesisTables.Checked params verify :=
  fun _ _ hb => Or.inl (params.stored_genesisTables.1 hb).2

theorem checked_keptByPlans {allowed : AddFlags → Prop} :
    KeptByPlans params verify allowed fun T _ _ => T.Checked params verify := by
  intro T t best block flags plan p parent keys _ _ h hchecked hadds hash b hb
  rw [hadds.getElem?_blocks] at hb
  split at hb
  · exact Or.inr (Option.some.inj hb ▸ hchecked)
  · exact h hb

theorem checked_keptByLoading :
    KeptByLoading params fun T _ _ => T.Checked params verify :=
  fun _ _ _ _ _ _ _ _ h => h

/-- A block of a branch is genesis at the bottom, and was checked above. -/
def Block.CheckedOver (params : Params) (verify : Verifier) (b : Block) (older : List Block) : Prop :=
  older = [] ∧ b = params.genesis ∨ older ≠ [] ∧ b.Checked params verify

/-- Along a branch, only the lowest block is genesis. -/
theorem Mirror.checkedOver {T : Tables} {t : BlockTree} {i : Nat} (hm : Mirror params T t)
    (h : T.Checked params verify) : Throughout (Block.CheckedOver params verify) (T.branch t i) := by
  intro b older hs
  obtain ⟨j, n, -, hn, hb, -, hheight⟩ := hm.exists_of_suffix hs
  rcases older with _ | ⟨c, older⟩
  · -- a node without height has no parent
    refine Or.inl ⟨rfl, ?_⟩
    rcases hp : n.parent with _ | p
    · exact Option.some.inj (hb.symm.trans (hm.root hn hp).1)
    · obtain ⟨m, hparent⟩ := exists_parent hn hp
      have hsucc := (hm.coherent.of_child hn hp hparent).1
      rw [hheight] at hsucc
      cases hsucc
  · refine Or.inr ⟨List.cons_ne_nil _ _, (h hb).resolve_left ?_⟩
    -- genesis would repeat another height
    rintro rfl
    have hrepeats := (hm.formed_of_suffix hs).2
    rw [Block.coinbaseHeight?_genesis] at hrepeats
    cases Option.some.inj hrepeats

/-! ## Lines -/

theorem Block.Checked.governed {b : Block} (h : b.Checked params verify) :
    ∀ tx ∈ b.transactions, tx.Governed := by
  obtain ⟨now, flags, hcheck⟩ := h
  exact fun tx htx => Block.governed_of_check hcheck htx

/-- A line that was accepted over genesis continues the threads, block by block. -/
theorem threads_ofLine {line : List Block} (hne : line ≠ [])
    (hover : Throughout (Block.CheckedOver params verify) line)
    (haccepted : Throughout (Block.Accepted params verify) line) :
    Throughout Continues (entriesOf line) ∧ Threads (entriesOf line) (ofLine line) := by
  induction line with
  | nil => exact absurd rfl hne
  | cons b older ih =>
    obtain ⟨hb, hover⟩ := Throughout.cons_iff.1 hover
    obtain ⟨hpassed, haccepted⟩ := Throughout.cons_iff.1 haccepted
    rcases hb with ⟨rfl, rfl⟩ | ⟨hne, hchecked⟩
    · refine ⟨Throughout.cons_iff.2 ⟨fun t ht => ?_, Throughout.nil⟩, Threads.genesis⟩
      cases ht
    · obtain ⟨hcontinues, hthreads⟩ := ih hne hover haccepted
      obtain ⟨⟨v, journal⟩, hr⟩ := hpassed.resolve_left fun hbottom => hne hbottom.1
      obtain ⟨hfresh, fees, hconnect, -⟩ := (Block.connect_eq_ok_of_checked rfl).1 hr
      have hc := Block.connect_of_connect_eq_ok hr
      have hv : ofLine (b :: older) = v := by rw [ofLine, hc]
      rw [hv]
      exact hthreads.connectChecked hcontinues hchecked.wellFormed.transactions hchecked.governed
        (fresh_of_checkFresh hchecked.wellFormed hfresh hc) hconnect

/-! ## Runs -/

namespace Chain

variable {c : Chain σ}

/-- The transactions of a thread on the main chain, in order. -/
def threadLine (c : Chain σ) (t : Thread) : List Transaction :=
  (c.mainTransactions.map (·.2)).filter fun tx => tx.continued? = some t

/-- The outputs of a thread on the main chain, in order: that of genesis, and the first output of each
of its transactions. -/
def threadOutputs (c : Chain σ) (t : Thread) : List OutPoint :=
  Params.genesisCoinbase.outPoint t.tag.toNat :: (c.threadLine t).map (·.outPoint 0)

theorem threadLine_eq (hm : Mirror params c.tables c.tree) {tip : Nat}
    (htip : c.tree.tip? = some tip) (t : Thread) :
    c.threadLine t = lineOf t (entriesOf (c.tables.branch c.tree tip)) := by
  rw [threadLine, mainTransactions_eq hm htip, List.map_reverse, List.filter_reverse, lineOf]

theorem threadOutputs_eq (hm : Mirror params c.tables c.tree) {tip : Nat}
    (htip : c.tree.tip? = some tip) (t : Thread) :
    c.threadOutputs t = outputsOf t (entriesOf (c.tables.branch c.tree tip)) := by
  rw [threadOutputs, threadLine_eq hm htip, outputsOf]

variable [LawfulChainStore σ]

theorem Reachable.tables_checked {allowed : AddFlags → Prop} (h : Reachable params verify allowed c) :
    c.tables.Checked params verify :=
  (h.invariant (checked_genesisTables params verify) checked_keptByPlans checked_keptByLoading).2

/-- Without trusted blocks, every thread is one unbroken line on the main chain: all thread outputs
are along it, each transaction spends the output of the one before with its first input, and the
output of the last is the only one that is stored. Outputs that cannot be spent are not stored. -/
theorem Reachable.threads_unbroken
    (h : Reachable params verify (fun flags => flags.fastAdd = false) c) :
    (∀ t, ∃ o coin, c.coin? o = some coin ∧ coin.output = ⟨0, .thread t⟩ ∧
      (c.threadOutputs t).getLast? = some o ∧
      ∀ o' coin', c.coin? o' = some coin' → coin'.output.lock = .thread t → o' = o) ∧
    (∀ o coin, c.coin? o = some coin →
      (∀ op, coin.output.lock ≠ .keyOp op) ∧ ∀ data, coin.output.lock ≠ .data data) ∧
    (∀ t (i : Nat) tx, (c.threadLine t)[i]? = some tx → tx.outputs.head? = some ⟨0, .thread t⟩ ∧
      ∃ input, tx.inputs.head? = some input ∧ (c.threadOutputs t)[i]? = some input.previous) ∧
    ∀ t height tx output, (height, tx) ∈ c.mainTransactions → 0 < height →
      output ∈ tx.outputs → output.lock = .thread t → tx ∈ c.threadLine t := by
  have hm := h.mirror
  have htables := h.tables_checked
  obtain ⟨tip, n, htip, hn, -⟩ := hm.tip
  obtain ⟨b, older, hbranch, -⟩ := hm.exists_branch_eq_cons hn
  have hcoins := h.sound.accurate.coins htip
  obtain ⟨hcontinues, hthreads⟩ := threads_ofLine (hbranch ▸ List.cons_ne_nil b older)
    (hm.checkedOver htables) (h.sound.accepted htip hn)
  refine ⟨fun t => ?_, fun o coin hcoin => ?_, fun t i tx htx => ?_, ?_⟩
  · obtain ⟨coin, hcoin, houtput⟩ := hthreads.there t
    refine ⟨_, coin, (hcoins _).trans hcoin, houtput, ?_, fun o' coin' hcoin' hlock => ?_⟩
    · rw [threadOutputs_eq hm htip, getLast?_outputsOf]
    · exact hthreads.only ((hcoins o').symm.trans hcoin') hlock
  · have hspendable := hthreads.spendable ((hcoins o).symm.trans hcoin)
    refine ⟨fun op hop => ?_, fun data hdata => ?_⟩
    · rw [hop] at hspendable
      cases hspendable
    · rw [hdata] at hspendable
      cases hspendable
  · rw [threadLine_eq hm htip] at htx
    rw [threadOutputs_eq hm htip]
    exact of_lineOf hcontinues htx
  · intro t height tx output htx hpos houtput hlock
    have hentry := htx
    rw [mainTransactions_eq hm htip, List.mem_reverse] at hentry
    obtain ⟨b, older, hs, rfl, hin⟩ := mem_entriesOf.1 hentry
    have hchecked := ((hm.checkedOver htables b older hs).resolve_left
      fun hbottom => List.length_pos_iff.1 hpos hbottom.1).2
    have ht := (hchecked.governed tx hin).continued?_eq houtput hlock
    exact List.mem_filter.2 ⟨List.mem_map_of_mem htx, decide_eq_true ht⟩

end Chain

/-! ## A sample line

The Provision thread admits a key to issue, and takes it back in the same block. -/

namespace Sample

/-- A transaction of the Provision thread, over one of its outputs. -/
def provision (previous : OutPoint) (op : KeyOp) : Transaction where
  version := 1
  inputs := [⟨previous, .signatures (network.genesisKeys.provisioning.toList.map (⟨·, []⟩)),
    finalSequence⟩]
  outputs := [⟨0, .thread .provision⟩, ⟨0, .keyOp op⟩]
  lockTime := 0

/-- The key may issue. -/
def appointment : Transaction := provision (Params.genesisCoinbase.outPoint 1) (.add .issuing key)

/-- It may not any more. -/
def dismissal : Transaction := provision (appointment.outPoint 0) (.revoke .issuing key)

/-- Both in one block over genesis. -/
def staffed : Block := block network.genesis.header [coinbase 1 4, appointment, dismissal]

theorem threadLine_staffed : (after? network now [staffed]).any (fun c =>
    decide (c.threadLine .provision = [appointment, dismissal])) = true := by
  decide +kernel

end Sample

/-- In the sample the line of the Provision thread has two transactions, of which the second spends
the output of the first. Its own output is the only one that is stored. -/
theorem Chain.threads_unbroken_after_dismissal : ∃ c : Chain MemoryStore,
    c.threadLine .provision = [Sample.appointment, Sample.dismissal] ∧
    (∃ coin, c.coin? (Sample.dismissal.outPoint 0) = some coin ∧
      coin.output = ⟨0, .thread .provision⟩ ∧
      ∀ o coin', c.coin? o = some coin' → coin'.output.lock = .thread .provision →
        o = Sample.dismissal.outPoint 0) ∧
    ∃ input, Sample.dismissal.inputs.head? = some input ∧
      input.previous = Sample.appointment.outPoint 0 := by
  obtain ⟨c, store, hopen, hline⟩ := Sample.exists_opened Sample.threadLine_staffed
  have hopened : c.Reachable Sample.network Sample.trusting fun flags => flags.fastAdd = false :=
    .opened rfl hopen
  have hreached := hopened.submit rfl Sample.now [Sample.staffed]
  have hline := of_decide_eq_true hline
  obtain ⟨hstored, -, hspends, -⟩ := hreached.threads_unbroken
  obtain ⟨o, coin, hcoin, houtput, hlast, honly⟩ := hstored .provision
  rw [threadOutputs, hline] at hlast
  obtain rfl := Option.some.inj hlast
  obtain ⟨-, input, hinput, hprevious⟩ := hspends .provision 1 Sample.dismissal (by rw [hline]; rfl)
  rw [threadOutputs, hline] at hprevious
  exact ⟨_, hline, ⟨coin, hcoin, houtput, honly⟩, input, hinput, (Option.some.inj hprevious).symm⟩

end PermissionedLedger
