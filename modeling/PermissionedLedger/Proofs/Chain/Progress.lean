import Mathlib
import PermissionedLedger.Proofs.Chain.Journals
import PermissionedLedger.Proofs.Chain.Runs
import PermissionedLedger.Proofs.Store.Reliable

/-!
# Nothing but rules is in the way

A block under a known parent is refused for breaking a rule, or a plan is made for it:
branches share an ancestor (`Mirror.exists_findFork?`), the main chain can be undone, and
attaching a branch ends with a verdict (`Plan.exists_select`). A reliable store commits
every plan (`Plan.Adds.tryWriteAll_eq_ok`). So there are two outcomes of accepting a
block (`ChainState.accept_of_reliable`), and neither is a failure of the engine.
-/

namespace PermissionedLedger

open BlockTree CoinView Plan

/-! ## Forks -/

namespace BlockTree

variable {t : BlockTree}

theorem exists_root {i : Nat} (hi : i < t.size) :
    ∃ r n, r ∈ t.lineage i ∧ t.node? r = some n ∧ n.parent = none := by
  induction i, hi using lineage_induction with
  | root i n hn hp => exact ⟨i, n, mem_lineage_self (node?_lt hn), hn, hp⟩
  | child i n p hn hp ih =>
    obtain ⟨r, m, hr, hm⟩ := ih
    refine ⟨r, m, ?_, hm⟩
    rw [lineage_child hn hp]
    exact List.mem_cons_of_mem _ hr

/-- There is something after an ancestor that is not the node itself. -/
theorem pathFrom_ne_nil {f i : Nat} (hf : f ∈ t.lineage i) (hne : f ≠ i) : t.pathFrom f i ≠ [] := by
  intro hnil
  have hsplit := lineage_eq_pathFrom_append hf
  rw [hnil, List.reverse_nil, List.nil_append] at hsplit
  have hi : i ∈ t.lineage f := hsplit ▸ mem_lineage_self (lt_size_of_mem hf)
  exact hne (Nat.le_antisymm (le_of_mem_lineage hf) (le_of_mem_lineage hi))

end BlockTree

namespace Mirror

variable {params : Params} {T : Tables} {t : BlockTree}

/-- There is one root. -/
theorem root_eq (hm : Mirror params T t) {i j : Nat} {n m : TreeNode} (hn : t.node? i = some n)
    (hp : n.parent = none) (hm' : t.node? j = some m) (hp' : m.parent = none) : i = j := by
  refine hm.coherent.eq_of_hash_eq hn hm' ?_
  rw [← (hm.block_hash hn (hm.root hn hp).1).2, (hm.block_hash hm' (hm.root hm' hp').1).2]

theorem exists_findFork? (hm : Mirror params T t) {i j : Nat} (hi : i < t.size)
    (hj : j < t.size) : ∃ f, t.findFork? i j = some f := by
  obtain ⟨r, n, hr, hn, hp⟩ := exists_root hi
  obtain ⟨r', m, hr', hm', hp'⟩ := exists_root hj
  obtain rfl := hm.root_eq hn hp hm' hp'
  exact BlockTree.exists_findFork? hm.coherent hm.path hr hr'

end Mirror

/-! ## Plans are made -/

namespace Plan

variable {s : Setting} {t : BlockTree} {best : BestState} {block : Block} {flags : AddFlags}
  {p : Nat} {parent : TreeNode} {keys : KeySets} {pending : Batch}

/-- The rules of a place admit a block, and tell the keys in force after it. -/
theorem Admits.of_keysAfter (hfound : t.find? block.header.previous = some p)
    (hnode : t.node? p = some parent) (hkeys : keysAfter s t p parent block flags = .ok keys) :
    Admits s t block flags p parent keys := by
  rw [keysAfter] at hkeys
  obtain ⟨husable, hkeys⟩ := require_bind_eq_ok.1 hkeys
  obtain ⟨height, hplaced, hkeys⟩ := bind_eq_ok.1 hkeys
  refine ⟨hfound, hnode, ?_, ⟨height, mapError_eq_ok.1 hplaced⟩, hkeys⟩
  simpa [BlockStatus.isUsable] using husable

theorem Admits.keysAfter_eq (h : Admits s t block flags p parent keys) :
    keysAfter s t p parent block flags = .ok keys := by
  obtain ⟨height, hplaced⟩ := h.placed
  have husable : parent.status.isUsable = true := by
    simpa [BlockStatus.isUsable] using h.usable
  rw [keysAfter, require, if_pos husable, hplaced, h.keys]
  rfl

theorem ofBlock_eq_error {violation : Violation} (hfound : t.find? block.header.previous = some p)
    (hnode : t.node? p = some parent)
    (hkeys : keysAfter s t p parent block flags = .error violation) :
    ofBlock s t best block flags = .error (.rule violation) := by
  rw [ofBlock, hfound, Option.bind_some, hnode, Option.map_some]
  simp only [hkeys, Except.mapError, bind, Except.bind]

/-- An admitted block gets the plan that is selected for its node. -/
theorem Admits.ofBlock_eq_ok {plan : Plan} (h : Admits s t block flags p parent keys)
    (hselect : select s (grown t block p keys) best t.size (newNode t block p keys) block flags
      (Plan.pending block (newNode t block p keys) parent.keys) = .ok plan) :
    ofBlock s t best block flags = .ok plan := by
  rw [newNode, grown] at hselect
  rw [ofBlock, h.found, Option.bind_some, h.node, Option.map_some]
  simp only [h.keysAfter_eq, Except.mapError, bind, Except.bind]
  rw [hselect]

/-- It is decided where the node of an admitted block goes. -/
theorem exists_select (best : BestState) (pending : Batch) (hm : Mirror s.params s.tables t)
    (hj : Journaled s.tables t) (hb : block.WellFormed) (hnew : t.find? block.hash = none)
    (hadmits : Admits s t block flags p parent keys) :
    ∃ plan, select s (grown t block p keys) best t.size (newNode t block p keys) block flags
      pending = .ok plan := by
  have hgrown := hm.grown hb hnew hadmits
  obtain ⟨tip, tipNode, htip, hnode, -⟩ := hm.tip
  have htipLt := node?_lt hnode
  have hbind : ((grown t block p keys).tip?.bind fun tip =>
      ((grown t block p keys).node? tip).map fun n => (tip, n)) = some (tip, tipNode) := by
    rw [tip?_grown, htip, Option.bind_some, node?_grown_of_some block p keys hnode, Option.map_some]
  obtain ⟨fork, hfork⟩ := hgrown.exists_findFork? (i := tip) (j := t.size)
    (by rw [size_grown]; omega) (by rw [size_grown]; omega)
  rw [select, hbind]
  simp only [hfork]
  split
  · exact ⟨_, rfl⟩
  split
  · exact ⟨_, rfl⟩
  obtain ⟨hforkTip, hforkNew⟩ := hm.fork_mem hgrown.coherent htip hfork
  have hforkLt := lt_size_of_mem_lineage hforkTip
  obtain ⟨view, dropped, hdetach⟩ := hj.detach hm htip hforkTip block p keys
    ⟨s.tables.coins, ∅⟩
  have hclimb := hm.climb_grown hb hnew hadmits hforkLt hforkNew
  rw [reorganize, require, if_pos (pathFrom_ne_nil hforkNew (by omega))]
  rcases hattach : Switch.attach s.tables s.params s.verify flags block view
      ((grown t block p keys).located ((grown t block p keys).pathFrom fork t.size)) with
    fault | (⟨view', writes⟩ | ⟨failed, violation⟩)
  · refine absurd hattach (Switch.attach_ne_error hclimb fun q hq b hstored => ?_)
    obtain ⟨b', hb', -, hwf, -⟩ := hgrown.block (mem_located.1 hq).2
    rw [Mirror.blocks_pending] at hb'
    obtain rfl := Option.some.inj (hstored.symm.trans hb')
    exact hwf
  · simp only [hdetach, hattach, Except.mapError, bind, Except.bind]
    exact ⟨_, rfl⟩
  · simp only [hdetach, hattach, Except.mapError, bind, Except.bind]
    exact ⟨_, rfl⟩

/-- Every status in a plan is that of a stored node. -/
theorem Adds.tryWriteAll_eq_ok {plan : Plan} (hadds : Adds s t best block flags p parent keys plan)
    (hm : Mirror s.params s.tables t) :
    s.tables.tryWriteAll plan.batch = .ok (s.tables.writeAll plan.batch) := by
  obtain ⟨hb, hnew, hadmits, hplan⟩ := hadds
  have hgrown := hm.grown hb hnew hadmits
  have hpending : s.tables.tryWriteAll (Plan.pending block (newNode t block p keys) parent.keys) =
      .ok (s.tables.writeAll (Plan.pending block (newNode t block p keys) parent.keys)) := by
    refine Tables.tryWriteAll_eq_ok fun hash status hin => ?_
    rw [Plan.pending] at hin
    split at hin <;> simp at hin
  -- nodes of the tree are stored once the new one is
  have hstored : ∀ {q : Nat × TreeNode} {ids : List Nat}, q ∈ (grown t block p keys).located ids →
      q.2.hash ∈ (s.tables.writeAll
        (Plan.pending block (newNode t block p keys) parent.keys)).nodes := by
    intro q ids hq
    rw [Std.ExtTreeMap.mem_iff_isSome_getElem?, hgrown.findNode? (mem_located.1 hq).2]
    rfl
  have hrest : ∀ {more : Batch}, (∀ hash status, .setStatus hash status ∈ more →
      ∃ ids, ∃ q ∈ (grown t block p keys).located ids, q.2.hash = hash) →
      s.tables.tryWriteAll (Plan.pending block (newNode t block p keys) parent.keys ++ more) =
        .ok (s.tables.writeAll
          (Plan.pending block (newNode t block p keys) parent.keys ++ more)) := by
    intro more hmore
    rw [Tables.tryWriteAll_append hpending, Tables.writeAll_append]
    refine Tables.tryWriteAll_eq_ok fun hash status hin => ?_
    obtain ⟨ids, q, hq, rfl⟩ := hmore hash status hin
    exact hstored hq
  cases hplan with
  | stored => exact hpending
  | tooOld => exact hpending
  | @rejected tip fork failed =>
    refine hrest fun hash status hin => ?_
    obtain ⟨q, hq, heq⟩ := List.mem_map.1 hin
    obtain ⟨rfl, -⟩ := Write.setStatus.inj heq
    exact ⟨_, q, hq, rfl⟩
  | @switched tip fork tipNode view view' dropped attached htip hnode better hfork hdetach
      hcomplete =>
    obtain ⟨hattached, -⟩ := Switch.attachedBy_of_attach hcomplete
    simp only [List.append_assoc]
    refine hrest fun hash status hin => ?_
    rcases List.mem_append.1 hin with hin | hin
    · rw [Switch.dropped_of_detach hdetach] at hin
      obtain ⟨node, -, heq⟩ := List.mem_map.1 hin
      cases heq
    rcases List.mem_append.1 hin with hin | hin
    · rcases hattached.mem hin with ⟨q, -, journal, heq⟩ | ⟨q, hq, heq⟩
      · cases heq
      · obtain ⟨rfl, -⟩ := Write.setStatus.inj heq
        exact ⟨_, q, hq, rfl⟩
    rcases List.mem_append.1 hin with hin | hin
    · obtain ⟨o, ⟨coin, heq⟩ | heq⟩ := Tables.mem_writes hin
      · cases heq
      · cases heq
    · cases List.mem_singleton.1 hin

end Plan

/-! ## Accepting a block -/

namespace ChainState

variable {σ : Type} [ChainStore σ] [ReliableChainStore σ] {params : Params} {verify : Verifier}
  {s : ChainState σ} {block : Block} {p : Nat} {parent : TreeNode}

/-- On a reliable store, a block under a known parent breaks a rule, or the plan for it is carried
out. -/
theorem accept_of_reliable (flags : AddFlags) (hm : Mirror params s.tables s.tree)
    (hj : Journaled s.tables s.tree) (hb : block.WellFormed) (hnew : s.tree.find? block.hash = none)
    (hfound : s.tree.find? block.header.previous = some p)
    (hnode : s.tree.node? p = some parent) :
    (∃ violation,
      keysAfter ⟨params, verify, s.tables⟩ s.tree p parent block flags = .error violation ∧
      s.accept params verify block flags = (.error (.rule violation), s)) ∨
    ∃ keys plan s', Adds ⟨params, verify, s.tables⟩ s.tree s.best block flags p parent keys plan ∧
      s.accept params verify block flags = (plan.verdict.mapError .rule, s') ∧
      s'.tables = s.tables.writeAll plan.batch ∧ s'.tree = plan.tree := by
  rcases hkeys : keysAfter ⟨params, verify, s.tables⟩ s.tree p parent block flags with
    violation | keys
  · left
    refine ⟨violation, rfl, ?_⟩
    rw [accept, ofBlock_eq_error hfound hnode hkeys]
  · right
    have hadmits := Admits.of_keysAfter hfound hnode hkeys
    obtain ⟨plan, hselect⟩ := exists_select s.best
      (Plan.pending block (newNode s.tree block p keys) parent.keys) hm hj hb hnew hadmits
    have hadds := Adds.mk hb hnew hadmits (selected_of_select hselect)
    have hplan := hadmits.ofBlock_eq_ok hselect
    have hcommit := ReliableChainStore.commits s.store plan.batch _
      (hadds.tryWriteAll_eq_ok hm)
    rcases hc : ChainStore.commit s.store plan.batch with ⟨r, store⟩
    rw [hc] at hcommit
    obtain rfl : r = .ok () := hcommit
    refine ⟨keys, plan, ⟨store, plan.tree, plan.best⟩, hadds, ?_,
      LawfulChainStore.tables_of_ok _ _ _ hc, rfl⟩
    rw [accept, hplan]
    simp only [hc]

end ChainState

end PermissionedLedger
