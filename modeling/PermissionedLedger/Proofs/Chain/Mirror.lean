import Mathlib
import PermissionedLedger.Chain.Open
import PermissionedLedger.Proofs.Rules.WellFormed
import PermissionedLedger.Proofs.Store.Batches
import PermissionedLedger.Proofs.Tree.Branches

/-!
# The tree and its tables

The tree in memory and the tables of the store say the same (`Mirror`): the nodes are
the stored records, every one of them has its block, the parent of a node is the block
that its header names, and the tip is the stored one.

Each change of the tree keeps step with the writes that a plan makes for it:
`Mirror.insert`, `Mirror.setStatuses` and `Mirror.setTip`.

A walk through the tree is a list of blocks then (`Tables.branch`), and none of these
changes affects the branches there are.
-/

namespace PermissionedLedger

open BlockTree

variable {params : Params} {T : Tables} {t : BlockTree}

/-- The tree shows what the tables hold. -/
structure Mirror (params : Params) (T : Tables) (t : BlockTree) : Prop where
  /-- nodes fit their parents -/
  coherent : t.Coherent
  /-- the main chain is a walk -/
  path : t.MainPath
  /-- nodes are stored as they are -/
  nodes : ∀ hash, T.nodes[hash]? = (t.findNode? hash).map (·.toRecord)
  /-- every node has its block, which repeats its height -/
  block : ∀ {i n}, t.node? i = some n → ∃ b, T.blocks[n.hash]? = some b ∧ b.header = n.header ∧
    b.WellFormed ∧ b.coinbaseHeight? = some n.height
  /-- the header names the parent -/
  linked : ∀ {i n p m}, t.node? i = some n → n.parent = some p → t.node? p = some m →
    n.header.previous = m.hash
  /-- the only root is genesis -/
  root : ∀ {i n}, t.node? i = some n → n.parent = none →
    T.blocks[n.hash]? = some params.genesis ∧ n.keys = params.genesisKeys
  /-- keys are stored where they are not those of the parent -/
  keys : ∀ {i n}, t.node? i = some n → T.keys[n.hash]? = some n.keys ∨
    T.keys[n.hash]? = none ∧ ∃ p m, n.parent = some p ∧ t.node? p = some m ∧ m.keys = n.keys
  /-- blocks are stored for nodes only -/
  blocks_known : ∀ {hash b}, T.blocks[hash]? = some b → t.contains hash = true
  /-- so are keys -/
  keys_known : ∀ {hash ks}, T.keys[hash]? = some ks → t.contains hash = true
  /-- the tip is the stored one -/
  tip : ∃ tip n, t.tip? = some tip ∧ t.node? tip = some n ∧ T.tip = some n.hash

namespace Tables

/-- The blocks on the walk from a node, the newest first. -/
def branch (T : Tables) (t : BlockTree) (i : Nat) : List Block :=
  (t.lineageNodes i).filterMap fun n => T.blocks[n.hash]?

theorem branch_of_root {i : Nat} {n : TreeNode} {b : Block} (hn : t.node? i = some n)
    (hp : n.parent = none) (hb : T.blocks[n.hash]? = some b) : T.branch t i = [b] := by
  rw [branch, lineageNodes, lineage_root hn hp]
  simp [hn, hb]

theorem branch_of_child {i p : Nat} {n : TreeNode} {b : Block} (hn : t.node? i = some n)
    (hp : n.parent = some p) (hb : T.blocks[n.hash]? = some b) :
    T.branch t i = b :: T.branch t p := by
  rw [branch, branch, lineageNodes, lineageNodes, lineage_child hn hp]
  simp [hn, hb]

/-- Branches depend on parents, digests and blocks only. -/
theorem branch_congr {T' : Tables} {t' : BlockTree} {i : Nat}
    (hline : t'.lineage i = t.lineage i)
    (h : ∀ j ∈ t.lineage i, ((t'.node? j).bind fun n => T'.blocks[n.hash]?) =
      (t.node? j).bind fun n => T.blocks[n.hash]?) : T'.branch t' i = T.branch t i := by
  rw [branch, branch, lineageNodes, lineageNodes, hline, List.filterMap_filterMap,
    List.filterMap_filterMap]
  exact List.filterMap_congr h

theorem branch_setStatuses {ids : List Nat} {status : BlockStatus} {i : Nat} :
    T.branch (t.setStatuses ids status) i = T.branch t i := by
  refine branch_congr (lineage_setStatuses ids status i) fun j _ => ?_
  rw [node?_setStatuses]
  rcases t.node? j with _ | n
  · rfl
  · rw [Option.map_some, Option.bind_some, Option.bind_some]
    split <;> rfl

theorem branch_setTip {i j : Nat} : T.branch (t.setTip i) j = T.branch t j :=
  branch_congr (lineage_setTip i j) fun _ _ => rfl

/-- The tables with the records of a new node. -/
theorem writeAll_pending (T : Tables) (block : Block) (node : TreeNode) (keys : KeySets) :
    T.writeAll (Plan.pending block node keys) =
      { T with
        blocks := T.blocks.insert block.hash block
        nodes := T.nodes.insert node.hash node.toRecord
        keys := if node.keys = keys then T.keys else T.keys.insert node.hash node.keys } := by
  rw [Plan.pending]
  split <;> rfl

/-- Only the stored blocks matter. -/
theorem branch_of_blocks_eq {T' : Tables} {i : Nat} (h : T'.blocks = T.blocks) :
    T'.branch t i = T.branch t i :=
  branch_congr rfl fun _ _ => by rw [h]

end Tables

namespace Mirror

/-! ## Lookups -/

theorem findNode? (h : Mirror params T t) {i : Nat} {n : TreeNode} (hn : t.node? i = some n) :
    T.nodes[n.hash]? = some n.toRecord := by
  rw [h.nodes, h.coherent.findNode?_eq_some hn, Option.map_some]

/-- Blocks are stored under their digests. -/
theorem block_hash (h : Mirror params T t) {i : Nat} {n : TreeNode} {b : Block}
    (hn : t.node? i = some n) (hb : T.blocks[n.hash]? = some b) :
    b.header = n.header ∧ b.hash = n.hash := by
  obtain ⟨b', hb', hheader, -⟩ := h.block hn
  rw [hb] at hb'
  obtain rfl := Option.some.inj hb'
  refine ⟨hheader, ?_⟩
  rw [Block.hash, hheader, h.coherent.hash_eq hn]

/-- The tables of one tree give its nodes the same records. -/
theorem toRecord_eq {t' : BlockTree} (h : Mirror params T t) (h' : Mirror params T t') {i j : Nat}
    {n m : TreeNode} (hn : t.node? i = some n) (hm : t'.node? j = some m) (heq : n.hash = m.hash) :
    n.toRecord = m.toRecord := by
  have hrecord := h.findNode? hn
  rw [heq, h'.findNode? hm] at hrecord
  exact (Option.some.inj hrecord).symm

/-- Every stored block has its node in any tree of the tables. -/
theorem exists_node {t' : BlockTree} (h : Mirror params T t) (h' : Mirror params T t') {i : Nat}
    {n : TreeNode} (hn : t.node? i = some n) : ∃ j m, t'.node? j = some m ∧ m.hash = n.hash := by
  have hrecord := h.findNode? hn
  rw [h'.nodes, Option.map_eq_some_iff] at hrecord
  obtain ⟨m, hm, -⟩ := hrecord
  obtain ⟨j, hj, heq⟩ := h'.coherent.findNode?_iff.1 hm
  exact ⟨j, m, hj, heq⟩

/-- Nodes of one digest have parents of one digest. -/
theorem parents_eq {t' : BlockTree} (h : Mirror params T t) (h' : Mirror params T t') {i j : Nat}
    {n m : TreeNode} (hn : t.node? i = some n) (hm : t'.node? j = some m) (heq : n.hash = m.hash) :
    (n.parent = none ∧ m.parent = none) ∨
      ∃ p k q l, n.parent = some p ∧ t.node? p = some k ∧ m.parent = some q ∧
        t'.node? q = some l ∧ k.hash = l.hash := by
  have hrecord := h.toRecord_eq h' hn hm heq
  have hheight : n.height = m.height := congrArg NodeRecord.height hrecord
  have hheader : n.header = m.header := congrArg NodeRecord.header hrecord
  rcases hp : n.parent with _ | p <;> rcases hq : m.parent with _ | q
  · exact Or.inl ⟨rfl, rfl⟩
  · obtain ⟨l, hl⟩ := exists_parent hm hq
    have hzero := (h.coherent.of_root hn hp).1
    have hsucc := (h'.coherent.of_child hm hq hl).1
    omega
  · obtain ⟨k, hk⟩ := exists_parent hn hp
    have hzero := (h'.coherent.of_root hm hq).1
    have hsucc := (h.coherent.of_child hn hp hk).1
    omega
  · obtain ⟨k, hk⟩ := exists_parent hn hp
    obtain ⟨l, hl⟩ := exists_parent hm hq
    refine Or.inr ⟨p, k, q, l, rfl, hk, rfl, hl, ?_⟩
    rw [← h.linked hn hp hk, ← h'.linked hm hq hl, hheader]

/-! ## Branches -/

theorem exists_branch_eq_cons (h : Mirror params T t) {i : Nat} {n : TreeNode}
    (hn : t.node? i = some n) :
    ∃ b older, T.branch t i = b :: older ∧ T.blocks[n.hash]? = some b := by
  obtain ⟨b, hb, -⟩ := h.block hn
  rcases hp : n.parent with _ | p
  · exact ⟨b, [], Tables.branch_of_root hn hp hb, hb⟩
  · exact ⟨b, _, Tables.branch_of_child hn hp hb, hb⟩

/-- The height of a node is the number of blocks below it. -/
theorem length_branch (h : Mirror params T t) {i : Nat} {n : TreeNode} (hn : t.node? i = some n) :
    (T.branch t i).length = n.height + 1 := by
  induction i, node?_lt hn using lineage_induction generalizing n with
  | root i m hm hp =>
    rw [hn] at hm
    obtain rfl := Option.some.inj hm
    obtain ⟨b, hb, -⟩ := h.block hn
    rw [Tables.branch_of_root hn hp hb, (h.coherent.of_root hn hp).1]
    rfl
  | child i m p hm hp ih =>
    rw [hn] at hm
    obtain rfl := Option.some.inj hm
    obtain ⟨b, hb, -⟩ := h.block hn
    obtain ⟨k, hk⟩ := exists_parent hn hp
    rw [Tables.branch_of_child hn hp hb, List.length_cons, ih hk, (h.coherent.of_child hn hp hk).1]

/-- What lies below a block of a branch is the branch of its node. -/
theorem exists_of_suffix (h : Mirror params T t) {i : Nat} {b : Block} {older : List Block}
    (hs : b :: older <:+ T.branch t i) :
    ∃ j n, j ∈ t.lineage i ∧ t.node? j = some n ∧ T.blocks[n.hash]? = some b ∧
      T.branch t j = b :: older ∧ n.height = older.length := by
  have hi : i < t.size := by
    by_contra hge
    rw [Tables.branch, lineageNodes, lineage_of_none (by simpa [node?, size] using hge)] at hs
    cases List.suffix_nil.1 hs
  induction i, hi using lineage_induction with
  | root i n hn hp =>
    obtain ⟨c, hc, -⟩ := h.block hn
    have hbranch := Tables.branch_of_root hn hp hc
    rw [hbranch] at hs
    rcases List.suffix_cons_iff.1 hs with heq | hs
    · obtain ⟨rfl, rfl⟩ := List.cons.inj heq
      exact ⟨i, n, mem_lineage_self (node?_lt hn), hn, hc, hbranch, (h.coherent.of_root hn hp).1⟩
    · cases List.suffix_nil.1 hs
  | child i n p hn hp ih =>
    obtain ⟨c, hc, -⟩ := h.block hn
    have hbranch := Tables.branch_of_child hn hp hc
    rw [hbranch] at hs
    rcases List.suffix_cons_iff.1 hs with heq | hs
    · obtain ⟨rfl, rfl⟩ := List.cons.inj heq
      obtain ⟨m, hm⟩ := exists_parent hn hp
      refine ⟨i, n, mem_lineage_self (node?_lt hn), hn, hc, hbranch, ?_⟩
      rw [h.length_branch hm, (h.coherent.of_child hn hp hm).1]
    · obtain ⟨j, m, hj, hrest⟩ := ih hs
      rw [lineage_child hn hp]
      exact ⟨j, m, List.mem_cons_of_mem _ hj, hrest⟩

/-- The blocks of a branch are well formed, and repeat their heights. -/
theorem formed_of_suffix (h : Mirror params T t) {i : Nat} {b : Block} {older : List Block}
    (hs : b :: older <:+ T.branch t i) :
    b.WellFormed ∧ b.coinbaseHeight? = some older.length := by
  obtain ⟨j, n, -, hn, hb, -, hheight⟩ := h.exists_of_suffix hs
  obtain ⟨b', hb', -, hwf, hrepeats⟩ := h.block hn
  obtain rfl := Option.some.inj (hb.symm.trans hb')
  exact ⟨hwf, hheight ▸ hrepeats⟩

/-- The branch of an ancestor ends the branch of a node. -/
theorem branch_suffix (T : Tables) {i j : Nat} (hj : j ∈ t.lineage i) :
    T.branch t j <:+ T.branch t i := by
  obtain ⟨front, hfront⟩ := lineage_suffix hj
  refine ⟨(front.filterMap t.node?).filterMap fun n => T.blocks[n.hash]?, ?_⟩
  rw [Tables.branch, Tables.branch, lineageNodes, lineageNodes, ← hfront, List.filterMap_append,
    List.filterMap_append]

/-- All trees of the tables have the same branches. -/
theorem branch_eq {t' : BlockTree} (h : Mirror params T t) (h' : Mirror params T t') {i j : Nat}
    {n m : TreeNode} (hn : t.node? i = some n) (hm : t'.node? j = some m) (heq : n.hash = m.hash) :
    T.branch t i = T.branch t' j := by
  induction i, node?_lt hn using lineage_induction generalizing j n m with
  | root i k hk hp =>
    obtain rfl := Option.some.inj (hn.symm.trans hk)
    obtain ⟨b, hb, -⟩ := h.block hn
    rcases h.parents_eq h' hn hm heq with ⟨-, hq⟩ | ⟨p, k, q, l, hp', -⟩
    · rw [Tables.branch_of_root hn hp hb, Tables.branch_of_root hm hq (heq ▸ hb)]
    · cases hp.symm.trans hp'
  | child i k p hk hp ih =>
    obtain rfl := Option.some.inj (hn.symm.trans hk)
    rcases h.parents_eq h' hn hm heq with ⟨hp', -⟩ | ⟨p', k, q, l, hp', hk', hq, hl, hparents⟩
    · cases hp.symm.trans hp'
    · obtain rfl := Option.some.inj (hp.symm.trans hp')
      obtain ⟨b, hb, -⟩ := h.block hn
      rw [Tables.branch_of_child hn hp hb, Tables.branch_of_child hm hq (heq ▸ hb),
        ih hk' hl hparents]

/-! ## Changes -/

/-- Only these tables matter. -/
theorem congr {T' : Tables} (h : Mirror params T t) (hblocks : T'.blocks = T.blocks)
    (hnodes : T'.nodes = T.nodes) (hkeys : T'.keys = T.keys) (htip : T'.tip = T.tip) :
    Mirror params T' t where
  coherent := h.coherent
  path := h.path
  nodes := hnodes ▸ h.nodes
  block := hblocks ▸ h.block
  linked := h.linked
  root := hblocks ▸ h.root
  keys := hkeys ▸ h.keys
  blocks_known := hblocks ▸ h.blocks_known
  keys_known := hkeys ▸ h.keys_known
  tip := htip ▸ h.tip

theorem setStatus (h : Mirror params T t) {i : Nat} {n : TreeNode} (hn : t.node? i = some n)
    (status : BlockStatus) :
    Mirror params (T.write (.setStatus n.hash status)) (t.setStatuses [i] status) where
  coherent := h.coherent.setStatuses [i] status
  path := h.path.setStatuses [i] status
  nodes := by
    intro hash
    rw [Tables.nodes_write_setStatus, h.nodes, h.coherent.findNode?_setStatuses_singleton hn,
      Option.map_map, Option.map_map]
    refine congrArg (Option.map · _) (funext fun m => ?_)
    simp only [Function.comp_apply]
    split <;> rfl
  block := by
    intro j m hm
    obtain ⟨k, hk, heq⟩ := exists_of_node?_setStatuses hm
    have hblock := h.block hk
    rw [Tables.blocks_write_setStatus, heq]
    exact hblock
  linked := by
    intro j m p k hm hp hk
    obtain ⟨m', hm', heq⟩ := exists_of_node?_setStatuses hm
    obtain ⟨k', hk', heq'⟩ := exists_of_node?_setStatuses hk
    rw [heq] at hp
    have hlinked := h.linked hm' hp hk'
    rw [heq, heq']
    exact hlinked
  root := by
    intro j m hm hp
    obtain ⟨k, hk, heq⟩ := exists_of_node?_setStatuses hm
    rw [heq] at hp
    have hroot := h.root hk hp
    rw [Tables.blocks_write_setStatus, heq]
    exact hroot
  keys := by
    intro j m hm
    obtain ⟨k, hk, heq⟩ := exists_of_node?_setStatuses hm
    rw [Tables.keys_write_setStatus, heq]
    rcases h.keys hk with hkeys | ⟨hnone, p, l, hp, hl, hkeys⟩
    · exact Or.inl hkeys
    · refine Or.inr ⟨hnone, p, _, hp, by rw [node?_setStatuses, hl, Option.map_some], ?_⟩
      split <;> exact hkeys
  blocks_known := by
    intro hash b hb
    rw [Tables.blocks_write_setStatus] at hb
    rw [contains, find?_setStatuses]
    exact h.blocks_known hb
  keys_known := by
    intro hash ks hks
    rw [Tables.keys_write_setStatus] at hks
    rw [contains, find?_setStatuses]
    exact h.keys_known hks
  tip := by
    obtain ⟨tip, m, htip, hm, hstored⟩ := h.tip
    rw [Tables.tip_write_setStatus, hstored, tip?, main_setStatuses]
    refine ⟨tip, _, htip, by rw [node?_setStatuses, hm, Option.map_some], ?_⟩
    split <;> rfl

/-- Changing the statuses of nodes keeps step with the statuses of their records. -/
theorem setStatuses (h : Mirror params T t) (ids : List Nat) (hids : ∀ i ∈ ids, i < t.size)
    (status : BlockStatus) :
    Mirror params
      (T.writeAll ((ids.filterMap fun i => (t.node? i).map (·.hash)).map (.setStatus · status)))
      (t.setStatuses ids status) := by
  induction ids generalizing T t with
  | nil => exact h
  | cons i ids ih =>
    obtain ⟨n, hn⟩ := BlockTree.exists_node (hids i (List.mem_cons_self ..))
    have hstep := h.setStatus hn status
    have hrest := ih hstep (fun j hj => by
      rw [size_setStatuses]
      exact hids j (List.mem_cons_of_mem _ hj))
    have hsame : (ids.filterMap fun j => ((t.setStatuses [i] status).node? j).map (·.hash)) =
        ids.filterMap fun j => (t.node? j).map (·.hash) := by
      refine List.filterMap_congr fun j _ => ?_
      rw [node?_setStatuses]
      rcases t.node? j with _ | m
      · rfl
      · rw [Option.map_some, Option.map_some, Option.map_some]
        split <;> rfl
    rw [hsame] at hrest
    rw [List.filterMap_cons, hn, Option.map_some]
    exact hrest

theorem setTip (h : Mirror params T t) {i : Nat} {n : TreeNode} (hn : t.node? i = some n) :
    Mirror params (T.write (.setTip n.hash)) (t.setTip i) where
  coherent := h.coherent.setTip i
  path := h.path.setTip h.coherent (node?_lt hn)
  nodes := h.nodes
  block := h.block
  linked := h.linked
  root := h.root
  keys := h.keys
  blocks_known := h.blocks_known
  keys_known := h.keys_known
  tip := ⟨i, n, tip?_setTip h.coherent h.path (node?_lt hn), hn, rfl⟩

/-- No keys are stored under a digest that is not known. -/
theorem keys_eq_none (h : Mirror params T t) {hash : Digest} (hnew : t.find? hash = none) :
    T.keys[hash]? = none := by
  rcases hks : T.keys[hash]? with _ | ks
  · rfl
  · have hknown := h.keys_known hks
    rw [contains, hnew] at hknown
    cases hknown

/-- The new node of a block. -/
theorem insert (h : Mirror params T t) {block : Block} {p : Nat} {m : TreeNode}
    (hm : t.node? p = some m) (hprev : block.header.previous = m.hash)
    (hnew : t.find? block.hash = none) (hb : block.WellFormed)
    (hheight : block.coinbaseHeight? = some (m.height + 1)) (status : BlockStatus)
    (keys : KeySets) :
    Mirror params
      (T.writeAll (Plan.pending block (t.child block.header (some p) status keys) m.keys))
      (t.insert block.header (some p) status keys) := by
  have hp : p < t.size := node?_lt hm
  have hcoherent : (t.insert block.header (some p) status keys).Coherent :=
    h.coherent.insert hnew fun q hq => Option.some.inj hq ▸ hp
  have hother : ∀ {i n}, t.node? i = some n → n.hash ≠ block.hash :=
    fun hn => h.coherent.hash_ne hn hnew
  rw [Tables.writeAll_pending]
  constructor
  case coherent => exact hcoherent
  case path => exact h.path.insert
  case nodes =>
    intro hash
    rw [getElem?_insert_eq, h.coherent.findNode?_insert, apply_ite (Option.map _), h.nodes]
    rfl
  case block =>
    intro i n hn
    rw [getElem?_insert_eq]
    rcases node?_insert_cases hn with ⟨-, rfl⟩ | hn
    · exact ⟨block, if_pos rfl, rfl, hb, by simp [hheight, child, hm]⟩
    · rw [if_neg (hother hn)]
      exact h.block hn
  case linked =>
    refine linked_insert h.linked fun hq hk => ?_
    obtain rfl := Option.some.inj hq
    obtain rfl := Option.some.inj (hm.symm.trans hk)
    exact hprev
  case root =>
    intro i n hn hq
    rcases node?_insert_cases hn with ⟨-, rfl⟩ | hn
    · cases hq.symm.trans (parent_child_eq_some.2 ⟨rfl, hp⟩)
    · rw [getElem?_insert_eq, if_neg (hother hn)]
      exact h.root hn hq
  case keys =>
    intro i n hn
    rcases node?_insert_cases hn with ⟨-, rfl⟩ | hn
    · split
      · next hsame =>
        exact Or.inr ⟨h.keys_eq_none hnew, p, m, parent_child_eq_some.2 ⟨rfl, hp⟩,
          node?_insert_of_some hm, hsame.symm⟩
      · exact Or.inl (by rw [getElem?_insert_eq, if_pos rfl])
    · have hkeep : (if keys = m.keys then T.keys else T.keys.insert block.hash keys)[n.hash]? =
          T.keys[n.hash]? := by
        split
        · rfl
        · rw [getElem?_insert_eq, if_neg (hother hn)]
      rcases h.keys hn with hkeys | ⟨hnone, q, k, hq, hk, hkeys⟩
      · exact Or.inl (hkeep.trans hkeys)
      · exact Or.inr ⟨hkeep.trans hnone, q, k, hq, node?_insert_of_some hk, hkeys⟩
  case blocks_known =>
    intro hash b hb
    rw [getElem?_insert_eq] at hb
    split at hb
    · next heq => exact heq ▸ contains_insert_self
    · exact contains_insert_of_contains (h.blocks_known hb)
  case keys_known =>
    intro hash ks hks
    split at hks
    · exact contains_insert_of_contains (h.keys_known hks)
    · rw [getElem?_insert_eq] at hks
      split at hks
      · next heq => exact heq ▸ contains_insert_self
      · exact contains_insert_of_contains (h.keys_known hks)
  case tip =>
    obtain ⟨tip, n, htip, hn, hstored⟩ := h.tip
    exact ⟨tip, n, htip, node?_insert_of_some hn, hstored⟩

/-- A new node changes no branch there is. -/
theorem branch_insert_of_lt (h : Mirror params T t) {block : Block} {p : Nat}
    {status : BlockStatus} {keys : KeySets} {T' : Tables}
    (hblocks : T'.blocks = T.blocks.insert block.hash block)
    (hnew : t.find? block.hash = none) {i : Nat} (hi : i < t.size) :
    T'.branch (t.insert block.header (some p) status keys) i = T.branch t i := by
  refine Tables.branch_congr (lineage_insert_of_lt hi) fun j hj => ?_
  obtain ⟨n, hn⟩ := BlockTree.exists_node (lt_size_of_mem_lineage hj)
  rw [node?_insert_of_some hn, hn, Option.bind_some, Option.bind_some, hblocks, getElem?_insert_eq,
    if_neg (h.coherent.hash_ne hn hnew)]

end Mirror

end PermissionedLedger
