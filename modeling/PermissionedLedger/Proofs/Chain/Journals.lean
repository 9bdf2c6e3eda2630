import Mathlib
import PermissionedLedger.Proofs.Chain.Opening

/-!
# Journals of the main chain

Every block of the main chain has a journal that lists what it spends (`Journaled`). That
is all it takes to undo the block: restoring outputs fails for the number or the order of
the entries only, whatever the view shows (`CoinView.disconnect_eq_ok`). So the main chain
can be left at any of its nodes (`Journaled.detach`).

It does not matter by which rules blocks were accepted, because connecting a block always
lists what it spends. Plans with any flags therefore keep this (`Journaled.of_plan`), where
they keep the coins of the main chain only if no two transactions have one digest.
-/

namespace PermissionedLedger

open CoinView BlockTree Plan

/-- The outputs that a block spends, in order. -/
def Block.spends (b : Block) : List OutPoint := b.transactions.flatMap (·.spends)

/-- Blocks of the main chain have journals that list what they spend. -/
def Journaled (T : Tables) (t : BlockTree) : Prop :=
  ∀ ⦃tip i n b⦄, t.tip? = some tip → i ∈ t.lineage tip → t.node? i = some n →
    T.blocks[n.hash]? = some b →
    ∃ journal, T.journals[n.hash]? = some journal ∧ journal.map (·.outPoint) = b.spends

/-! ## Undoing a block -/

namespace CoinView

theorem restoreAll_eq_ok (v : CoinView) (journal rest : Journal) :
    ∃ v', restoreAll v (journal.map (·.outPoint)) (journal ++ rest) = (.ok rest, v') := by
  induction journal generalizing v with
  | nil => exact ⟨v, rfl⟩
  | cons entry journal ih =>
    rw [List.map_cons, List.cons_append, restoreAll, if_pos rfl]
    exact ih _

theorem disconnectAll_eq_ok (v : CoinView) {txs : List Transaction} {journal : Journal}
    (h : journal.map (·.outPoint) = txs.flatMap (·.spends.reverse)) :
    ∃ v', disconnectAll v txs journal = (.ok (), v') := by
  induction txs generalizing v journal with
  | nil => exact ⟨v, rfl⟩
  | cons tx txs ih =>
    rw [List.flatMap_cons] at h
    obtain ⟨first, rest, rfl, hfirst, hrest⟩ := List.map_eq_append_iff.1 h
    obtain ⟨u, hu⟩ := restoreAll_eq_ok (v.removeOutputs tx) first rest
    rw [hfirst] at hu
    rw [disconnectAll, hu]
    exact ih u hrest

/-- A block can be undone on any view with a journal that lists what it spends. -/
theorem disconnect_eq_ok (v : CoinView) {b : Block} {journal : Journal}
    (h : journal.map (·.outPoint) = b.spends) : ∃ v', v.disconnect b journal = (.ok (), v') := by
  have hlen : (b.transactions.map (·.spends.length)).sum = journal.length := by
    rw [← List.length_map (f := fun e : SpentCoin => e.outPoint), h, Block.spends,
      List.length_flatMap]
  rw [disconnect, if_neg (not_not.2 hlen)]
  refine disconnectAll_eq_ok v ?_
  rw [List.map_reverse, h, Block.spends, List.reverse_flatMap]
  rfl

end CoinView

namespace Switch

variable {params : Params} {verify : Verifier} {flags : AddFlags} {T : Tables}

/-- Nodes whose blocks and journals are stored can be undone in any order. -/
theorem detach_eq_ok_of_journals {nodes : List TreeNode}
    (h : ∀ n ∈ nodes, ∃ b journal, T.blocks[n.hash]? = some b ∧
      T.journals[n.hash]? = some journal ∧ journal.map (·.outPoint) = b.spends) (v : CoinView) :
    ∃ u dropped, detach T v nodes = .ok (u, dropped) := by
  induction nodes generalizing v with
  | nil => exact ⟨v, [], rfl⟩
  | cons node nodes ih =>
    obtain ⟨b, journal, hb, hjournal, hlists⟩ := h node (List.mem_cons_self ..)
    obtain ⟨u, hu⟩ := disconnect_eq_ok v hlists
    obtain ⟨w, dropped, hrest⟩ := ih (fun n hn => h n (List.mem_cons_of_mem _ hn)) u
    have hblock : storedBlock T node = .ok b := by rw [storedBlock, hb]
    have hstored : storedJournal T node = .ok journal := by rw [storedJournal, hjournal]
    refine ⟨w, .deleteJournal node.hash :: dropped, ?_⟩
    rw [detach]
    refine bind_eq_ok.2 ⟨b, hblock, bind_eq_ok.2 ⟨journal, hstored, ?_⟩⟩
    rw [hu]
    exact bind_eq_ok.2 ⟨(w, dropped), hrest, rfl⟩

theorem map_outPoint_of_connectNode {v v' : CoinView} {node : TreeNode} {b : Block}
    {journal : Journal} (h : connectNode params verify flags v node b = .ok (v', journal)) :
    journal.map (·.outPoint) = b.spends := by
  rw [connectNode] at h
  split at h
  · cases h
  · exact map_outPoint_of_connectAll (Block.connect_of_connect_eq_ok h)
  · exact map_outPoint_of_connectAll (Block.connect_of_connect_eq_ok h)

/-- Attaching leaves journals that list what the blocks spend. -/
theorem exists_journal_of_attach {newest : Block} {ps : List (Nat × TreeNode)} {v v' : CoinView}
    {writes : Batch} (h : attach T params verify flags newest v ps = .ok (.complete v' writes))
    (hnodup : (ps.map (·.2.hash)).Nodup) (S : Tables) {p : Nat × TreeNode} (hp : p ∈ ps) :
    ∃ b journal, (T.blocks.insert newest.hash newest)[p.2.hash]? = some b ∧
      (S.writeAll writes).journals[p.2.hash]? = some journal ∧
      journal.map (·.outPoint) = b.spends := by
  induction ps generalizing v writes S with
  | nil => cases hp
  | cons q ps ih =>
    obtain ⟨id, node⟩ := q
    obtain ⟨hnew, hnodup⟩ := List.nodup_cons.1 hnodup
    rcases attach_cons_eq_ok h with ⟨_, _, -, -, hbroken⟩ |
      ⟨b, u, journal, ⟨w, more⟩ | ⟨_, _⟩, hb, hconnect, hmore, heq⟩
    · cases hbroken
    · obtain ⟨rfl, rfl⟩ := Attached.complete.inj heq
      rw [Tables.writeAll_append]
      rcases List.mem_cons.1 hp with rfl | hp
      · refine ⟨b, journal, blockOf_eq_ok.1 hb, ?_, map_outPoint_of_connectNode hconnect⟩
        -- later nodes have other digests
        obtain ⟨hby, -⟩ := attachedBy_of_attach hmore
        rw [hby.journals_of_notMem _ hnew, attachWrites, Tables.writeAll_cons]
        have hput : (S.write (.putJournal node.hash journal)).journals[node.hash]? =
            some journal := by
          simp only [Tables.write, getElem?_insert_eq, if_pos]
        split
        · exact hput
        · rw [Tables.writeAll_cons, Tables.writeAll_nil, Tables.journals_write_setStatus]
          exact hput
      · exact ih hmore hnodup _ hp
    · cases heq

end Switch

/-! ## The main chain -/

/-- The journals that belong to the coins of the main chain list what its blocks spend. -/
theorem Accurate.journaled {params : Params} {T : Tables} {t : BlockTree} (ha : Accurate T t)
    (hm : Mirror params T t) : Journaled T t := by
  intro tip i n b htip hi hn hb
  obtain ⟨c, older, hbranch, hc⟩ := hm.exists_branch_eq_cons hn
  obtain rfl := Option.some.inj (hb.symm.trans hc)
  have hs : b :: older <:+ T.branch t tip := hbranch ▸ Mirror.branch_suffix T hi
  refine ⟨journalOf b older, (hm.block_hash hn hb).2 ▸ ha.journals htip b older hs, ?_⟩
  exact map_outPoint_of_connectAll (connect_ofLine (ha.fits htip b older hs).connects)

namespace Journaled

section Loading

variable {params : Params} {T : Tables} {t t' : BlockTree}

/-- Whether there are journals does not depend on how the tree numbers its nodes. -/
theorem of_mirror (hj : Journaled T t) (h : Mirror params T t) (h' : Mirror params T t') :
    Journaled T t' := by
  intro tip' j m b htip' hj' hm hb
  obtain ⟨tip, tipNode, htip, htipNode, -⟩ := h.tip
  obtain ⟨k, hk⟩ := BlockTree.exists_node (h'.path.tip_lt htip')
  obtain ⟨i, n, l, hi, hn, hl, heq⟩ := h.exists_ancestor h' htipNode hk
    (h.tip_eq h' htip htipNode htip' hk) hj'
  obtain rfl := Option.some.inj (hl.symm.trans hm)
  rw [← heq] at hb ⊢
  exact hj htip hi hn hb

end Loading

variable {s : Setting} {t : BlockTree} {best : BestState} {block : Block} {flags : AddFlags}
  {plan : Plan} {p : Nat} {parent : TreeNode} {keys : KeySets} {tip fork : Nat}

/-- The main chain can be undone down to any of its nodes. -/
theorem detach (hj : Journaled s.tables t) (hm : Mirror s.params s.tables t)
    (htip : t.tip? = some tip) (hfork : fork ∈ t.lineage tip) (block : Block) (p : Nat)
    (keys : KeySets) (v : CoinView) :
    ∃ view dropped, Switch.detach s.tables v
      (((Plan.grown t block p keys).located
        ((Plan.grown t block p keys).pathFrom fork tip)).reverse.map (·.2)) =
      .ok (view, dropped) := by
  have hmem : ∀ {i}, i ∈ t.pathFrom fork tip → i ∈ t.lineage tip :=
    fun hi => mem_lineage_of_mem_pathFrom hfork hi
  rw [Mirror.pathFrom_grown (lt_size_of_mem hfork), Mirror.located_grown fun i hi =>
    lt_size_of_mem_lineage (hmem hi)]
  refine Switch.detach_eq_ok_of_journals (fun n hn => ?_) v
  obtain ⟨⟨i, n⟩, hin, rfl⟩ := List.mem_map.1 hn
  obtain ⟨hi, hn⟩ := mem_located.1 (List.mem_reverse.1 hin)
  obtain ⟨b, hb, -⟩ := hm.block hn
  obtain ⟨journal, hjournal, hlists⟩ := hj htip (hmem hi) hn hb
  exact ⟨b, journal, hb, hjournal, hlists⟩

/-- A new node is not on the main chain yet. -/
theorem grown (hj : Journaled s.tables t) (hm : Mirror s.params s.tables t)
    (hnew : t.find? block.hash = none) (p : Nat) (parent : TreeNode) (keys : KeySets) :
    Journaled (s.tables.writeAll (pending block (newNode t block p keys) parent.keys))
      (Plan.grown t block p keys) := by
  intro tip i n b htip hi hn hb
  rw [lineage_grown_of_lt (hm.path.tip_lt htip)] at hi
  rcases node?_grown hn with ⟨rfl, -⟩ | hn
  · exact absurd (lt_size_of_mem_lineage hi) (Nat.lt_irrefl _)
  · rw [Mirror.blocks_pending, getElem?_insert_eq, if_neg (hm.coherent.hash_ne hn hnew)] at hb
    rw [Mirror.journals_pending]
    exact hj htip hi hn hb

/-- A switch that is given up moves no tip, and takes no journal. -/
theorem of_reject {pending : Batch} {failed : Nat} {violation : Violation}
    (hj : Journaled (s.tables.writeAll pending) t) :
    Journaled (s.tables.writeAll (reject t best pending failed violation).batch)
      (reject t best pending failed violation).tree := by
  intro tip i n b htip hi hn hb
  rw [tip?_reject] at htip
  rw [lineage_reject] at hi
  rw [writeAll_reject_eq] at hb ⊢
  obtain ⟨m, hm, heq⟩ := exists_of_node?_setStatuses hn
  have hhash : n.hash = m.hash := by rw [heq]
  rw [hhash] at hb ⊢
  exact hj htip hi hm hb

/-- A plan keeps the journals of the main chain. -/
theorem of_plan (hj : Journaled s.tables t) (hm : Mirror s.params s.tables t)
    (hadds : Adds s t best block flags p parent keys plan) :
    Journaled (s.tables.writeAll plan.batch) plan.tree := by
  obtain ⟨hb, hnew, hadmits, hplan⟩ := hadds
  have hgrown := hm.grown hb hnew hadmits
  have hstored := hj.grown hm hnew p parent keys
  have hblocks := hplan.blocks_eq
  cases hplan with
  | stored => exact hstored
  | tooOld => exact hstored
  | rejected => exact hstored.of_reject
  | @switched tip₁ fork tipNode view view' dropped attached htip₁ hnode better hfork hdetach
      hcomplete =>
    obtain ⟨hforkTip, hforkNew, -⟩ := findFork?_spec hgrown.coherent hgrown.path hfork
    obtain ⟨hby, -⟩ := Switch.attachedBy_of_attach hcomplete
    intro tip i n b htip hi hn hb
    rw [tip?_setStatuses_setTip hgrown.coherent hgrown.path size_grown_lt] at htip
    obtain rfl := Option.some.inj htip
    rw [lineage_setTip, lineage_setStatuses, lineage_eq_pathFrom_append hforkNew] at hi
    rw [node?_setTip] at hn
    obtain ⟨m, hm', heq⟩ := exists_of_node?_setStatuses hn
    have hhash : n.hash = m.hash := by rw [heq]
    rw [hblocks] at hb
    rw [hhash] at hb ⊢
    rw [Switch.writeAll_switched]
    rcases List.mem_append.1 hi with hi | hi
    · obtain ⟨c, journal, hc, hjournal, hlists⟩ := Switch.exists_journal_of_attach hcomplete
        (hgrown.nodup_hash_pathFrom hforkNew)
        ((s.tables.writeAll (pending block (newNode t block p keys) parent.keys)).writeAll dropped)
        (mem_located.2 ⟨List.mem_reverse.1 hi, hm'⟩)
      rw [Mirror.blocks_pending] at hb
      obtain rfl := Option.some.inj (hc.symm.trans hb)
      exact ⟨journal, hjournal, hlists⟩
    · -- the block is below the fork, and was on the main chain before
      obtain ⟨journal, hjournal, hlists⟩ := hstored htip₁ (mem_lineage_trans hi hforkTip) hm' hb
      refine ⟨journal, Eq.trans ?_ hjournal, hlists⟩
      rw [Switch.dropped_of_detach hdetach,
        Switch.journals_switched hby _ _ (hgrown.hash_notMem_located hforkNew hi hm'),
        if_neg (hgrown.hash_notMem_located hforkTip hi hm')]

end Journaled

end PermissionedLedger
