import Mathlib
import PermissionedLedger.Chain.Plan
import PermissionedLedger.Proofs.Tree.Placement

/-!
# Histories

Two trees can hold the same blocks and number them in different ways. What a tree says of a
node and its ancestors, apart from positions, is the *history* of the node
(`BlockTree.history`).

The rules for a new block look at the history of its parent and at that of the tip, on
which the latest checkpoint stands, and at nothing else of the tree
(`Block.checkPlacement_congr_of_history`, `Block.checkBounds_congr_of_history`). The nodes
on the way from an ancestor are what the histories of the two ends differ in
(`BlockTree.history_eq_append`).
-/

namespace PermissionedLedger

/-- A node without the position of its parent. -/
def TreeNode.facts (n : TreeNode) : TreeNode := { n with parent := none }

/-- Everything but the position of the parent can be read off the facts. -/
theorem TreeNode.congr_of_facts {α : Type} (f : TreeNode → α) {n m : TreeNode}
    (h : n.facts = m.facts) (hf : ∀ n : TreeNode, f n.facts = f n := by intro _; rfl) :
    f n = f m := by
  rw [← hf n, h, hf m]

namespace BlockTree

variable {t t' : BlockTree} {i j f tip : Nat} {n m : TreeNode}

/-- What is known of a node and its ancestors, wherever they stand in the tree. -/
def history (t : BlockTree) (i : Nat) : List TreeNode := (t.lineageNodes i).map (·.facts)

theorem history_root (hn : t.node? i = some n) (hp : n.parent = none) :
    t.history i = [n.facts] := by
  rw [history, lineageNodes, lineage_root hn hp]
  simp [hn]

theorem history_child {p : Nat} (hn : t.node? i = some n) (hp : n.parent = some p) :
    t.history i = n.facts :: t.history p := by
  rw [history, history, lineageNodes, lineageNodes, lineage_child hn hp]
  simp [hn]

theorem history_eq_cons (hn : t.node? i = some n) : ∃ rest, t.history i = n.facts :: rest := by
  obtain ⟨rest, hrest⟩ := lineage_eq_cons hn
  refine ⟨(rest.filterMap t.node?).map (·.facts), ?_⟩
  rw [history, lineageNodes, hrest, List.filterMap_cons, hn, List.map_cons]

theorem facts_eq_of_history (hn : t.node? i = some n) (hm : t'.node? j = some m)
    (h : t.history i = t'.history j) : n.facts = m.facts := by
  obtain ⟨rest, hrest⟩ := history_eq_cons hn
  obtain ⟨rest', hrest'⟩ := history_eq_cons hm
  rw [hrest, hrest'] at h
  exact (List.cons.inj h).1

theorem headers_eq_of_history (h : t.history i = t'.history j) : t.headers i = t'.headers j := by
  have hmap := congrArg (List.map (·.header)) h
  rw [history, history, List.map_map, List.map_map] at hmap
  exact hmap

/-- New nodes, statuses and the tip do not matter for headers. -/
theorem headers_insert_of_lt {header : Header} {parent : Option Nat} {status : BlockStatus}
    {keys : KeySets} (hi : i < t.size) :
    (t.insert header parent status keys).headers i = t.headers i := by
  rw [headers, headers, lineageNodes, lineageNodes, lineage_insert_of_lt hi]
  refine congrArg (List.map _) (List.filterMap_congr fun j hj => ?_)
  rw [node?_insert_of_lt (lt_size_of_mem_lineage hj)]

theorem headers_setStatuses (ids : List Nat) (status : BlockStatus) (i : Nat) :
    (t.setStatuses ids status).headers i = t.headers i := by
  rw [headers, headers, lineageNodes, lineageNodes, lineage_setStatuses, List.map_filterMap,
    List.map_filterMap]
  refine List.filterMap_congr fun j _ => ?_
  rw [node?_setStatuses]
  rcases t.node? j with _ | k
  · rfl
  · rw [Option.map_some, Option.map_some, Option.map_some]
    split <;> rfl

theorem headers_setTip (i j : Nat) : (t.setTip i).headers j = t.headers j := by
  rw [headers, headers, lineageNodes, lineageNodes, lineage_setTip]
  rfl

/-- The nodes after an ancestor come before its history. -/
theorem history_eq_append (hf : f ∈ t.lineage i) :
    t.history i = ((t.located (t.pathFrom f i)).map (·.2.facts)).reverse ++ t.history f := by
  have hlocated : ∀ ids : List Nat,
      (t.located ids).map (·.2.facts) = (ids.filterMap t.node?).map (·.facts) := by
    intro ids
    rw [located, List.map_filterMap, List.map_filterMap]
    refine List.filterMap_congr fun id _ => ?_
    rcases t.node? id with _ | k <;> rfl
  rw [hlocated, ← List.map_reverse, ← List.filterMap_reverse, history, history, lineageNodes,
    lineageNodes, lineage_eq_pathFrom_append hf, List.filterMap_append, List.map_append]

/-- Where histories are the same, so are the nodes between an ancestor and its descendant. -/
theorem map_facts_located_eq {f' : Nat} (hf : f ∈ t.lineage i) (hf' : f' ∈ t'.lineage j)
    (h : t.history i = t'.history j) (hfork : t.history f = t'.history f') :
    (t.located (t.pathFrom f i)).map (·.2.facts) =
      (t'.located (t'.pathFrom f' j)).map (·.2.facts) := by
  rw [history_eq_append hf, history_eq_append hf', hfork] at h
  exact List.reverse_injective (List.append_cancel_right h)

/-! ## The main chain -/

/-- Read from the root, the history of the tip is the main chain. -/
theorem getElem?_reverse_history (hm : t.MainPath) (htip : t.tip? = some tip) (k : Nat) :
    (t.history tip).reverse[k]? = ((t.mainAt? k).bind t.node?).map (·.facts) := by
  rw [history, lineageNodes, ← List.map_reverse, ← List.filterMap_reverse, List.getElem?_map,
    getElem?_filterMap_of_isSome, mainAt?, ← Array.getElem?_toList, hm tip htip]
  intro j hj
  exact exists_node (lt_size_of_mem_lineage (List.mem_reverse.1 hj))

/-- The latest checkpoint is found in the history of the tip. -/
theorem latestCheckpoint?_eq (hm : t.MainPath) (htip : t.tip? = some tip) (params : Params) :
    ((t.latestCheckpoint? params).bind t.node?).map (·.facts) =
      params.checkpoints.reverse.findSome? fun c =>
        ((t.history tip).reverse[c.height]?).filter (·.hash = c.hash) := by
  rw [latestCheckpoint?]
  generalize params.checkpoints.reverse = checkpoints
  induction checkpoints with
  | nil => rfl
  | cons c checkpoints ih =>
    rw [List.findSome?_cons, List.findSome?_cons, getElem?_reverse_history hm htip]
    rcases hmain : t.mainAt? c.height with _ | id
    · exact ih
    rcases hn : t.node? id with _ | n
    · simp only [Option.filter_some, hn, Option.any_none, Bool.false_eq_true, if_false,
        Option.bind_some, Option.map_none, Option.filter_none]
      exact ih
    · have hhash : n.facts.hash = n.hash := rfl
      by_cases heq : n.hash = c.hash
      · simp only [Option.filter_some, hn, Option.any_some, heq, decide_true, if_true,
          Option.bind_some, Option.map_some, hhash]
      · simp only [Option.filter_some, hn, Option.any_some, decide_eq_true_eq, if_neg heq,
          Option.bind_some, Option.map_some, hhash]
        exact ih

theorem latestCheckpoint?_congr {tip' : Nat} (hm : t.MainPath) (hm' : t'.MainPath)
    (htip : t.tip? = some tip) (htip' : t'.tip? = some tip')
    (h : t.history tip = t'.history tip') (params : Params) :
    ((t.latestCheckpoint? params).bind t.node?).map (·.facts) =
      ((t'.latestCheckpoint? params).bind t'.node?).map (·.facts) := by
  rw [latestCheckpoint?_eq hm htip, latestCheckpoint?_eq hm' htip', h]

theorem height_latestCheckpoint? (t : BlockTree) (params : Params) :
    (t.latestCheckpoint? params).map t.height =
      (((t.latestCheckpoint? params).bind t.node?).map (·.facts)).map (·.height) := by
  rcases hc : t.latestCheckpoint? params with _ | id
  · rfl
  · -- a checkpoint is found at a node
    rw [latestCheckpoint?] at hc
    obtain ⟨c, -, hfilter⟩ := List.exists_of_findSome?_eq_some hc
    obtain ⟨-, hany⟩ := Option.filter_eq_some_iff.1 hfilter
    obtain ⟨n, hn, -⟩ := (Option.any_eq_true _ _).1 hany
    rw [Option.map_some, Option.bind_some, BlockTree.height, hn]
    rfl

end BlockTree

/-! ## The rules for a new block -/

namespace Block

open BlockTree

variable {t t' : BlockTree} {p p' tip tip' : Nat} {n m : TreeNode} {params : Params}

/-- The bounds of a block depend on the history of the tip. -/
theorem checkBounds_congr_of_history (hm : t.MainPath) (hm' : t'.MainPath)
    (htip : t.tip? = some tip) (htip' : t'.tip? = some tip')
    (hmain : t.history tip = t'.history tip') (b : Block) (flags : AddFlags) :
    b.checkBounds params t flags = b.checkBounds params t' flags := by
  have hcheckpoint := latestCheckpoint?_congr hm hm' htip htip' hmain params
  rw [checkBounds, checkBounds]
  rcases hc : (t.latestCheckpoint? params).bind t.node? with _ | c <;>
    rcases hc' : (t'.latestCheckpoint? params).bind t'.node? with _ | c' <;>
    rw [hc, hc'] at hcheckpoint
  · cases hcheckpoint
  · cases hcheckpoint
  · have hfacts : c.facts = c'.facts := Option.some.inj hcheckpoint
    have hheader : c.header = c'.header := TreeNode.congr_of_facts (·.header) hfacts
    simp only [hheader]

/-- The place of a block depends on the histories of its parent and of the tip. -/
theorem checkPlacement_congr_of_history (ht : t.Coherent) (hm : t.MainPath) (ht' : t'.Coherent)
    (hm' : t'.MainPath) (htip : t.tip? = some tip) (htip' : t'.tip? = some tip')
    (hmain : t.history tip = t'.history tip') (hn : t.node? p = some n)
    (hn' : t'.node? p' = some m) (hparent : t.history p = t'.history p') (b : Block)
    (flags : AddFlags) :
    b.checkPlacement params t p flags = b.checkPlacement params t' p' flags := by
  refine checkPlacement_congr_of_checkpoint ?_ ht hm ht' hm' hn hn'
    (headers_eq_of_history hparent)
    (TreeNode.congr_of_facts (·.keys) (facts_eq_of_history hn hn' hparent))
  rw [height_latestCheckpoint?, height_latestCheckpoint?,
    latestCheckpoint?_congr hm hm' htip htip' hmain]

end Block

/-- The best state over a tip depends on its history. -/
theorem BestState.ofTip_congr {t t' : BlockTree} {i j : Nat} {n m : TreeNode}
    (hn : n.facts = m.facts) (hheaders : t.headers i = t'.headers j) (params : Params)
    (b : Block) : BestState.ofTip t params i n b = .ofTip t' params j m b := by
  have hmedian : t.medianTime i params.medianTimeBlocks = t'.medianTime j params.medianTimeBlocks := by
    rw [BlockTree.medianTime_eq, BlockTree.medianTime_eq, hheaders]
  have hnode : BestState.ofTip t params i n b = .ofTip t params i m b :=
    TreeNode.congr_of_facts (BestState.ofTip t params i · b) hn
  rw [hnode, BestState.ofTip, BestState.ofTip, hmedian]

end PermissionedLedger
