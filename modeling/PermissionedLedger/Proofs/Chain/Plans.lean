import Mathlib
import PermissionedLedger.Proofs.Chain.Switching

/-!
# What a plan can be

A block that may be added under its parent (`Plan.Admits`) becomes the newest node of
the tree. The plan for it is one of four (`Plan.Selected`): the node is stored on a side
branch; its branch is preferred but leaves the main chain too early; the switch to it is
given up at a node whose block does not pass; or its node is the tip.

Whichever it is, the tree of the plan shows what the store holds after the batch
(`Mirror.of_plan`). Nodes keep their places, and nothing about them changes but the status
(`Selected.exists_of_node`).
-/

namespace PermissionedLedger

open CoinView BlockTree

namespace Plan

variable {s : Setting} {t : BlockTree} {best : BestState} {block : Block} {flags : AddFlags}
  {plan : Plan}

/-- A block may be added under a node, and these keys are in force after it. -/
structure Admits (s : Setting) (t : BlockTree) (block : Block) (flags : AddFlags) (p : Nat)
    (parent : TreeNode) (keys : KeySets) : Prop where
  /-- the parent is known -/
  found : t.find? block.header.previous = some p
  /-- as a node -/
  node : t.node? p = some parent
  /-- that is not invalid -/
  usable : parent.status ≠ .invalid
  /-- the place is allowed -/
  placed : ∃ height, block.checkPlacement s.params t p flags = .ok height
  /-- so are the changes of keys -/
  keys : parent.keys.applyBlock s.params (if flags.fastAdd then none else some s.verify) block =
    .ok keys

/-- The new node of an admitted block. -/
def newNode (t : BlockTree) (block : Block) (p : Nat) (keys : KeySets) : TreeNode :=
  t.child block.header (some p) .unvalidated keys

/-- The tree with the new node. -/
def grown (t : BlockTree) (block : Block) (p : Nat) (keys : KeySets) : BlockTree :=
  t.insert block.header (some p) .unvalidated keys

/-- The plans for the newest node of a tree, which is at `id`. -/
inductive Selected (s : Setting) (tree : BlockTree) (best : BestState) (id : Nat)
    (node : TreeNode) (block : Block) (flags : AddFlags) (pending : Batch) : Plan → Prop
  /-- the node is stored on a side branch -/
  | stored {tip : Nat} {tipNode : TreeNode} (htip : tree.tip? = some tip)
      (hnode : tree.node? tip = some tipNode) (side : node.parent ≠ some tip)
      (worse : node.isBetterThan tipNode = false) :
      Selected s tree best id node block flags pending ⟨pending, tree, best, .ok false⟩
  /-- the branch leaves the main chain below the latest checkpoint -/
  | tooOld {tip fork : Nat} {tipNode : TreeNode} {fault : PlacementFault}
      (htip : tree.tip? = some tip) (hnode : tree.node? tip = some tipNode)
      (better : node.parent = some tip ∨ node.isBetterThan tipNode = true)
      (hfork : tree.findFork? tip id = some fork)
      (old : checkFork s.params tree fork node.hash = .error fault) :
      Selected s tree best id node block flags pending
        ⟨pending, tree, best, .error (.placement fault)⟩
  /-- a block of the branch does not pass -/
  | rejected {tip fork failed : Nat} {tipNode : TreeNode} {view : CoinView} {dropped : Batch}
      {violation : Violation} (htip : tree.tip? = some tip) (hnode : tree.node? tip = some tipNode)
      (better : node.parent = some tip ∨ node.isBetterThan tipNode = true)
      (hfork : tree.findFork? tip id = some fork)
      (detached : Switch.detach s.tables ⟨s.tables.coins, ∅⟩
        ((tree.located (tree.pathFrom fork tip)).reverse.map (·.2)) = .ok (view, dropped))
      (broken : Switch.attach s.tables s.params s.verify flags block view
        (tree.located (tree.pathFrom fork id)) = .ok (.broken failed violation)) :
      Selected s tree best id node block flags pending (reject tree best pending failed violation)
  /-- the node is the tip -/
  | switched {tip fork : Nat} {tipNode : TreeNode} {view view' : CoinView}
      {dropped attached : Batch} (htip : tree.tip? = some tip)
      (hnode : tree.node? tip = some tipNode)
      (better : node.parent = some tip ∨ node.isBetterThan tipNode = true)
      (hfork : tree.findFork? tip id = some fork)
      (detached : Switch.detach s.tables ⟨s.tables.coins, ∅⟩
        ((tree.located (tree.pathFrom fork tip)).reverse.map (·.2)) = .ok (view, dropped))
      (complete : Switch.attach s.tables s.params s.verify flags block view
        (tree.located (tree.pathFrom fork id)) = .ok (.complete view' attached)) :
      Selected s tree best id node block flags pending
        ⟨pending ++ dropped ++ attached ++ view'.writes ++ [.setTip node.hash],
          (tree.setStatuses (tree.pathFrom fork id) .valid).setTip id,
          .ofTip ((tree.setStatuses (tree.pathFrom fork id) .valid).setTip id) s.params id node
            block, .ok true⟩

/-- The plan adds a new block under a node. -/
structure Adds (s : Setting) (t : BlockTree) (best : BestState) (block : Block) (flags : AddFlags)
    (p : Nat) (parent : TreeNode) (keys : KeySets) (plan : Plan) : Prop where
  /-- the block is well formed -/
  formed : block.WellFormed
  /-- it is not known yet -/
  unknown : t.find? block.hash = none
  /-- it may be added -/
  admits : Admits s t block flags p parent keys
  /-- the plan is one for its node -/
  selected : Selected s (grown t block p keys) best t.size (newNode t block p keys) block flags
    (pending block (newNode t block p keys) parent.keys) plan

theorem selected_of_select {tree : BlockTree} {id : Nat} {node : TreeNode} {pending : Batch}
    (h : select s tree best id node block flags pending = .ok plan) :
    Selected s tree best id node block flags pending plan := by
  rw [select] at h
  split at h
  · cases h
  · next tip tipNode hbind =>
    obtain ⟨tip', htip, hmap⟩ := Option.bind_eq_some_iff.1 hbind
    obtain ⟨n, hnode, heq⟩ := Option.map_eq_some_iff.1 hmap
    obtain ⟨rfl, rfl⟩ := Prod.mk.inj heq
    split at h
    · next hside =>
      obtain rfl := Except.ok.inj h
      exact .stored htip hnode hside.1 hside.2
    · next hchosen =>
      have better : node.parent = some tip' ∨ node.isBetterThan n = true := by
        by_contra hnot
        obtain ⟨h₁, h₂⟩ := not_or.1 hnot
        exact hchosen ⟨h₁, Bool.eq_false_iff.2 h₂⟩
      split at h
      · cases h
      · next fork hfork =>
        split at h
        · next fault hold =>
          obtain rfl := Except.ok.inj h
          exact .tooOld htip hnode better hfork hold
        · rw [reorganize] at h
          obtain ⟨-, h⟩ := require_bind_eq_ok.1 h
          obtain ⟨⟨view, dropped⟩, hdetach, h⟩ := bind_eq_ok.1 h
          obtain ⟨attached, hattach, h⟩ := bind_eq_ok.1 h
          rw [mapError_eq_ok] at hdetach
          rcases attached with ⟨view', writes⟩ | ⟨failed, violation⟩
          · obtain rfl := Except.ok.inj h
            exact .switched htip hnode better hfork hdetach hattach
          · obtain rfl := Except.ok.inj h
            exact .rejected htip hnode better hfork hdetach hattach

/-- What a plan for a block can be. -/
theorem ofBlock_eq_ok (h : ofBlock s t best block flags = .ok plan) :
    ∃ p parent keys, Admits s t block flags p parent keys ∧
      Selected s (grown t block p keys) best t.size (newNode t block p keys) block flags
        (pending block (newNode t block p keys) parent.keys) plan := by
  rw [ofBlock] at h
  simp only at h
  split at h
  · cases h
  · next p parent hp =>
    obtain ⟨p', hfind, hmap⟩ := Option.bind_eq_some_iff.1 hp
    obtain ⟨n, hnode, heq⟩ := Option.map_eq_some_iff.1 hmap
    obtain ⟨rfl, rfl⟩ := Prod.mk.inj heq
    obtain ⟨keys, hkeys, h⟩ := bind_eq_ok.1 h
    rw [mapError_eq_ok] at h hkeys
    rw [keysAfter] at hkeys
    obtain ⟨husable, hkeys⟩ := require_bind_eq_ok.1 hkeys
    obtain ⟨height, hplaced, hkeys⟩ := bind_eq_ok.1 hkeys
    refine ⟨p', n, keys, ⟨hfind, hnode, ?_, ⟨height, mapError_eq_ok.1 hplaced⟩, hkeys⟩,
      selected_of_select h⟩
    simpa [BlockStatus.isUsable] using husable

/-- Where a switch is given up, statuses are written after what is pending. -/
theorem reject_batch (tree : BlockTree) (best : BestState) (pending : Batch) (failed : Nat)
    (violation : Violation) : (reject tree best pending failed violation).batch =
      pending ++ ((tree.located (tree.descendants failed)).map (·.2.hash)).map
        (.setStatus · .invalid) := by
  rw [List.map_map]
  rfl

/-- Besides what is pending, only the records of nodes change then. -/
theorem writeAll_reject_eq (T : Tables) (tree : BlockTree) (best : BestState) (pending : Batch)
    (failed : Nat) (violation : Violation) :
    T.writeAll (reject tree best pending failed violation).batch =
      { T.writeAll pending with
        nodes := (T.writeAll (reject tree best pending failed violation).batch).nodes } := by
  rw [reject_batch, Tables.writeAll_append, Tables.writeAll_setStatus_eq]

section Reject

variable {tree : BlockTree} {pending : Batch} {failed : Nat} {violation : Violation}

theorem tip?_reject : (reject tree best pending failed violation).tree.tip? = tree.tip? := by
  rw [reject, tip?, main_setStatuses]
  rfl

theorem lineage_reject (i : Nat) :
    (reject tree best pending failed violation).tree.lineage i = tree.lineage i :=
  lineage_setStatuses ..

/-- What descends from the node that failed becomes invalid. -/
theorem node?_reject (hfailed : failed < tree.size) {i : Nat} {n : TreeNode}
    (hn : tree.node? i = some n) : (reject tree best pending failed violation).tree.node? i =
      some (if failed ∈ tree.lineage i then { n with status := .invalid } else n) := by
  rw [reject, node?_setStatuses, hn, Option.map_some]
  simp only [mem_descendants hfailed]

end Reject

end Plan

/-! ## Writes of a switch -/

namespace Switch

variable {blocks : Std.ExtTreeMap Digest Block} {base top : List Block}
  {ps : List (Nat × TreeNode)}

theorem AttachedBy.mem {writes : Batch} (h : AttachedBy ps writes) {w : Write} (hw : w ∈ writes) :
    (∃ p ∈ ps, ∃ journal, w = .putJournal p.2.hash journal) ∨
      ∃ p ∈ ps, w = .setStatus p.2.hash .valid := by
  induction h with
  | nil => cases hw
  | cons id node journal rest ih =>
    rcases List.mem_append.1 hw with hw | hw
    · rw [attachWrites] at hw
      rcases List.mem_cons.1 hw with rfl | hw
      · exact Or.inl ⟨_, List.mem_cons_self .., _, rfl⟩
      · split at hw
        · cases hw
        · rw [List.mem_singleton.1 hw]
          exact Or.inr ⟨_, List.mem_cons_self .., rfl⟩
    · rcases ih hw with ⟨q, hq, hw⟩ | ⟨q, hq, hw⟩
      · exact Or.inl ⟨q, List.mem_cons_of_mem _ hq, hw⟩
      · exact Or.inr ⟨q, List.mem_cons_of_mem _ hq, hw⟩

/-- Attaching writes journals and statuses only. -/
theorem AttachedBy.keeps {writes : Batch} (h : AttachedBy ps writes) {α : Type} (f : Tables → α)
    (hjournal : ∀ T hash journal, f (Tables.write T (.putJournal hash journal)) = f T)
    (hstatus : ∀ T hash status, f (Tables.write T (.setStatus hash status)) = f T) (T : Tables) :
    f (T.writeAll writes) = f T := by
  refine Tables.writeAll_keeps f (fun w hw T => ?_) T
  rcases h.mem hw with ⟨p, -, journal, rfl⟩ | ⟨p, -, rfl⟩
  · exact hjournal T _ _
  · exact hstatus T _ _

theorem AttachedBy.journals_of_notMem {writes : Batch} (h : AttachedBy ps writes) (T : Tables)
    {hash : Digest} (hnot : hash ∉ ps.map (·.2.hash)) :
    (T.writeAll writes).journals[hash]? = T.journals[hash]? := by
  refine Tables.writeAll_keeps (fun T => T.journals[hash]?) (fun w hw T => ?_) T
  rcases h.mem hw with ⟨p, hp, journal, rfl⟩ | ⟨p, -, rfl⟩
  · have hne : hash ≠ p.2.hash := fun heq => hnot (heq ▸ List.mem_map_of_mem hp)
    simp only [Tables.write, getElem?_insert_eq, if_neg hne]
  · simp only [Tables.journals_write_setStatus]

theorem attachedBy_attachedWrites (hc : Climb blocks base ps top) :
    AttachedBy ps (attachedWrites blocks base ps) := by
  induction hc with
  | nil base => exact .nil
  | cons stored hash height rest ih =>
    rw [attachedWrites, stored]
    exact .cons _ _ _ ih

/-- Detaching drops journals only. -/
theorem writeAll_dropped_eq (T : Tables) (xs : List TreeNode) :
    T.writeAll (xs.map fun node => .deleteJournal node.hash) =
      { T with journals :=
          (T.writeAll (xs.map fun node => .deleteJournal node.hash)).journals } := by
  induction xs generalizing T with
  | nil => rfl
  | cons x xs ih =>
    rw [List.map_cons, Tables.writeAll_cons, ih]
    rfl

theorem journals_dropped (T : Tables) (xs : List TreeNode) (hash : Digest) :
    (T.writeAll (xs.map fun node => .deleteJournal node.hash)).journals[hash]? =
      if hash ∈ xs.map (·.hash) then none else T.journals[hash]? := by
  induction xs generalizing T with
  | nil => rfl
  | cons x xs ih =>
    rw [List.map_cons, Tables.writeAll_cons, ih, List.map_cons]
    simp only [Tables.write, getElem?_erase_eq]
    by_cases hx : hash = x.hash <;> by_cases hxs : hash ∈ xs.map (·.hash) <;> simp [hx, hxs]

/-- Of the journals of other nodes, those of the nodes that were undone are gone. -/
theorem journals_switched {attached : Batch} (h : AttachedBy ps attached) (T : Tables)
    (undone : List (Nat × TreeNode)) {hash : Digest} (hnot : hash ∉ ps.map (·.2.hash)) :
    ((T.writeAll ((undone.reverse.map (·.2)).map fun node => .deleteJournal node.hash)).writeAll
      attached).journals[hash]? =
        if hash ∈ undone.map (·.2.hash) then none else T.journals[hash]? := by
  have hsame : hash ∈ (undone.reverse.map (·.2)).map (·.hash) ↔ hash ∈ undone.map (·.2.hash) := by
    rw [List.map_map, List.mem_map, List.mem_map]
    simp only [List.mem_reverse, Function.comp_apply]
  rw [h.journals_of_notMem _ hnot, journals_dropped]
  simp only [hsame]

/-- Every block on the way up leaves its journal. -/
theorem journals_attached (hc : Climb blocks base ps top) (hnodup : (ps.map (·.2.hash)).Nodup)
    (T : Tables) {b : Block} {older : List Block} (hs : b :: older <:+ top)
    (hlen : base.length ≤ older.length) :
    (T.writeAll (attachedWrites blocks base ps)).journals[b.hash]? = some (journalOf b older) := by
  induction hc generalizing T with
  | nil base =>
    have := hs.length_le
    rw [List.length_cons] at this
    omega
  | @cons base top ps id node c stored hash height rest ih =>
    rw [List.map_cons, List.nodup_cons] at hnodup
    rw [attachedWrites, stored]
    simp only [Tables.writeAll_append]
    by_cases hlow : (c :: base).length ≤ older.length
    · exact ih hnodup.2 _ hs hlow
    · have heq := List.IsSuffix.eq_of_length
        (List.suffix_of_suffix_length_le hs rest.suffix (by
          simp only [List.length_cons] at hlow ⊢
          omega)) (by
          simp only [List.length_cons] at hlow ⊢
          omega)
      obtain ⟨rfl, rfl⟩ := List.cons.inj heq
      rw [(attachedBy_attachedWrites rest).journals_of_notMem _ (hash ▸ hnodup.1), attachWrites,
        Tables.writeAll_cons]
      have hput : (T.write (.putJournal node.hash (journalOf b older))).journals[b.hash]? =
          some (journalOf b older) := by
        simp only [Tables.write, getElem?_insert_eq, hash, if_pos]
      split
      · exact hput
      · rw [Tables.writeAll_cons, Tables.writeAll_nil, Tables.journals_write_setStatus]
        exact hput

/-- Once the branch is attached, a switch changes coins and the tip only. -/
theorem writeAll_switched (T : Tables) (pending dropped attached : Batch) (v : CoinView)
    (hash : Digest) : T.writeAll (pending ++ dropped ++ attached ++ v.writes ++ [.setTip hash]) =
      { ((T.writeAll pending).writeAll dropped).writeAll attached with
        coins :=
          ((((T.writeAll pending).writeAll dropped).writeAll attached).writeAll v.writes).coins
        tip := some hash } := by
  simp only [Tables.writeAll_append, Tables.writeAll_cons, Tables.writeAll_nil]
  rw [Tables.writeAll_writes_eq]
  rfl

end Switch

/-! ## The mirror of a plan -/

namespace Mirror

variable {params : Params} {T : Tables} {t : BlockTree}

/-- Dropping journals changes nothing of the tree. -/
theorem dropped (h : Mirror params T t) (xs : List TreeNode) :
    Mirror params (T.writeAll (xs.map fun node => .deleteJournal node.hash)) t := by
  rw [Switch.writeAll_dropped_eq]
  exact h.congr rfl rfl rfl rfl

/-- Writing coins changes nothing of the tree. -/
theorem writes (h : Mirror params T t) (v : CoinView) : Mirror params (T.writeAll v.writes) t := by
  rw [Tables.writeAll_writes_eq]
  exact h.congr rfl rfl rfl rfl

/-- Attaching marks all nodes as valid. -/
theorem attached {ps : List (Nat × TreeNode)} {writes : Batch} (hw : Switch.AttachedBy ps writes)
    (h : Mirror params T t) (hps : ∀ p ∈ ps, t.node? p.1 = some p.2)
    (hnodup : (ps.map Prod.fst).Nodup) :
    Mirror params (T.writeAll writes) (t.setStatuses (ps.map Prod.fst) .valid) := by
  induction hw generalizing T t with
  | nil => exact h
  | @cons ps writes id node journal rest ih =>
    obtain ⟨hid, hnodup⟩ := List.nodup_cons.1 hnodup
    have hn := hps _ (List.mem_cons_self ..)
    have hjournal : Mirror params (T.write (.putJournal node.hash journal)) t :=
      h.congr rfl rfl rfl rfl
    have hstep : Mirror params (T.writeAll (Switch.attachWrites node journal))
        (t.setStatuses [id] .valid) := by
      rw [Switch.attachWrites]
      split
      · next hvalid =>
        have hsame : t.setStatuses [id] .valid = t := setStatus_self hn hvalid
        rw [hsame]
        exact hjournal
      · exact hjournal.setStatus hn .valid
    rw [Tables.writeAll_append]
    refine ih hstep (fun p hp => ?_) hnodup
    have hne : p.1 ≠ id := by
      rintro rfl
      exact hid (List.mem_map.2 ⟨p, hp, rfl⟩)
    change (t.setStatuses [id] .valid).node? p.1 = _
    rw [node?_setStatuses, hps p (List.mem_cons_of_mem _ hp), Option.map_some, if_neg]
    simpa using hne

end Mirror

namespace Plan.Admits

variable {s : Setting} {t : BlockTree} {block : Block} {flags : AddFlags} {p : Nat}
  {parent : TreeNode} {keys : KeySets}

theorem lt_size (h : Admits s t block flags p parent keys) : p < t.size := node?_lt h.node

theorem previous (h : Admits s t block flags p parent keys) (ht : t.Coherent) :
    block.header.previous = parent.hash := by
  obtain ⟨n, hn, hhash⟩ := ht.find?_iff.1 h.found
  rw [h.node] at hn
  obtain rfl := Option.some.inj hn
  exact hhash.symm

theorem coinbaseHeight (h : Admits s t block flags p parent keys) :
    block.coinbaseHeight? = some (parent.height + 1) := by
  obtain ⟨height, hplaced⟩ := h.placed
  rw [Block.checkPlacement] at hplaced
  obtain ⟨_, hheight, -⟩ := bind_eq_ok.1 hplaced
  rw [Block.checkHeight] at hheight
  split at hheight
  · next encoded hencoded =>
    rw [hencoded, require_eq_ok.1 hheight, BlockTree.height, h.node]
    rfl
  · cases hheight

end Plan.Admits

/-! ## The new node -/

namespace Plan

variable {s : Setting} {t : BlockTree} {block : Block} {flags : AddFlags} {p : Nat}
  {parent : TreeNode} {keys : KeySets}

@[simp] theorem size_grown : (grown t block p keys).size = t.size + 1 := size_insert

theorem size_grown_lt : t.size < (grown t block p keys).size := by
  rw [size_grown]
  exact Nat.lt_succ_self _

theorem node?_grown_size (t : BlockTree) (block : Block) (p : Nat) (keys : KeySets) :
    (grown t block p keys).node? t.size = some (newNode t block p keys) :=
  node?_insert_size

theorem node?_grown_of_some (block : Block) (p : Nat) (keys : KeySets) {i : Nat} {n : TreeNode}
    (h : t.node? i = some n) :
    (grown t block p keys).node? i = some n :=
  node?_insert_of_some h

/-- A node is the new one or was there before. -/
theorem node?_grown {i : Nat} {n : TreeNode} (h : (grown t block p keys).node? i = some n) :
    (i = t.size ∧ n = newNode t block p keys) ∨ t.node? i = some n :=
  node?_insert_cases h

theorem parent_newNode (hp : p < t.size) : (newNode t block p keys).parent = some p :=
  parent_child_eq_some.2 ⟨rfl, hp⟩

theorem height_newNode (hparent : t.node? p = some parent) :
    (newNode t block p keys).height = parent.height + 1 := by
  simp [newNode, child, hparent]

theorem lineage_grown_of_lt {i : Nat} (hi : i < t.size) :
    (grown t block p keys).lineage i = t.lineage i :=
  lineage_insert_of_lt hi

theorem lineage_grown_size (hp : p < t.size) :
    (grown t block p keys).lineage t.size = t.size :: t.lineage p :=
  lineage_insert_size hp

theorem tip?_grown : (grown t block p keys).tip? = t.tip? := rfl

end Plan

namespace Mirror

open Plan

variable {s : Setting} {t : BlockTree} {best : BestState} {block : Block} {flags : AddFlags}
  {plan : Plan} {p : Nat} {parent : TreeNode} {keys : KeySets}

theorem grown (h : Mirror s.params s.tables t) (hb : block.WellFormed)
    (hnew : t.find? block.hash = none) (hadmits : Admits s t block flags p parent keys) :
    Mirror s.params
      (s.tables.writeAll (pending block (newNode t block p keys) parent.keys))
      (Plan.grown t block p keys) :=
  h.insert hadmits.node (hadmits.previous h.coherent) hnew hb hadmits.coinbaseHeight .unvalidated
    keys

theorem blocks_pending (T : Tables) (block : Block) (node : TreeNode) (keys : KeySets) :
    (T.writeAll (pending block node keys)).blocks = T.blocks.insert block.hash block := by
  rw [Tables.writeAll_pending]

theorem coins_pending (T : Tables) (block : Block) (node : TreeNode) (keys : KeySets) :
    (T.writeAll (pending block node keys)).coins = T.coins := by
  rw [Tables.writeAll_pending]

theorem journals_pending (T : Tables) (block : Block) (node : TreeNode) (keys : KeySets) :
    (T.writeAll (pending block node keys)).journals = T.journals := by
  rw [Tables.writeAll_pending]

/-- The branch of the new node leaves the main chain at a node from before. -/
theorem fork_mem {params : Params} {T : Tables} (h : Mirror params T t)
    (hgrown : (Plan.grown t block p keys).Coherent) {tip fork : Nat} (htip : t.tip? = some tip)
    (hfork : (Plan.grown t block p keys).findFork? tip t.size = some fork) :
    fork ∈ t.lineage tip ∧ fork ∈ (Plan.grown t block p keys).lineage t.size := by
  obtain ⟨hforkTip, hforkNew, -⟩ := findFork?_spec hgrown h.path.insert hfork
  rw [lineage_grown_of_lt (h.path.tip_lt htip)] at hforkTip
  exact ⟨hforkTip, hforkNew⟩

/-- Digests of located nodes are those at the positions. -/
theorem map_hash_located (ids : List Nat) :
    (t.located ids).map (·.2.hash) = ids.filterMap fun i => (t.node? i).map (·.hash) := by
  rw [located, List.map_filterMap]
  refine List.filterMap_congr fun i _ => ?_
  rcases t.node? i with _ | n <;> rfl

/-- The tree of a plan shows what the store holds after its batch. -/
theorem of_plan (h : Mirror s.params s.tables t)
    (hadds : Adds s t best block flags p parent keys plan) :
    Mirror s.params (s.tables.writeAll plan.batch) plan.tree := by
  obtain ⟨hb, hnew, hadmits, hplan⟩ := hadds
  have hgrown := h.grown hb hnew hadmits
  cases hplan with
  | stored => exact hgrown
  | tooOld => exact hgrown
  | @rejected tip fork failed tipNode view dropped violation htip hnode better hfork hdetach
      hbroken =>
    obtain ⟨hfailed, -⟩ :=
      Switch.mem_lineage_of_broken hgrown.coherent hgrown.path hfork hbroken
    have hlt := lt_size_of_mem_lineage hfailed
    have hmirror := hgrown.setStatuses ((Plan.grown t block p keys).descendants failed)
      (fun i hi => lt_size_of_mem ((mem_descendants hlt).1 hi)) .invalid
    rw [← map_hash_located] at hmirror
    rw [reject_batch, Tables.writeAll_append]
    exact hmirror
  | @switched tip fork tipNode view view' dropped attached htip hnode better hfork hdetach
      hcomplete =>
    obtain ⟨hattached, -⟩ := Switch.attachedBy_of_attach hcomplete
    obtain ⟨-, hforkNew, -⟩ := findFork?_spec hgrown.coherent hgrown.path hfork
    have hpath : ∀ i ∈ (Plan.grown t block p keys).pathFrom fork t.size,
        i < (Plan.grown t block p keys).size := fun i hi =>
      lt_size_of_mem_lineage (mem_lineage_of_mem_pathFrom hforkNew hi)
    rw [Switch.dropped_of_detach hdetach]
    simp only [Tables.writeAll_append]
    have hdropped := hgrown.dropped
      (((Plan.grown t block p keys).located
        ((Plan.grown t block p keys).pathFrom fork tip)).reverse.map (·.2))
    have hvalid := Mirror.attached hattached hdropped (fun q hq => (mem_located.1 hq).2) (by
      rw [map_fst_located hpath]
      exact pathFrom_nodup _ _)
    rw [map_fst_located hpath] at hvalid
    obtain ⟨n, hn, hhash⟩ : ∃ n, ((Plan.grown t block p keys).setStatuses
        ((Plan.grown t block p keys).pathFrom fork t.size) .valid).node? t.size = some n ∧
        n.hash = (newNode t block p keys).hash := by
      refine ⟨_, by rw [node?_setStatuses, node?_grown_size, Option.map_some], ?_⟩
      split <;> rfl
    rw [← hhash]
    exact (hvalid.writes view').setTip hn

end Mirror

/-! ## What a plan changes -/

namespace Plan.Selected

variable {s : Setting} {tree : BlockTree} {best : BestState} {block : Block} {flags : AddFlags}
  {plan : Plan} {id : Nat} {node : TreeNode} {pending : Batch}

theorem size_eq (h : Selected s tree best id node block flags pending plan) :
    plan.tree.size = tree.size := by
  cases h with
  | stored => rfl
  | tooOld => rfl
  | rejected => exact size_setStatuses ..
  | switched => exact (size_setTip ..).trans (size_setStatuses ..)

theorem lineage_eq (h : Selected s tree best id node block flags pending plan) (i : Nat) :
    plan.tree.lineage i = tree.lineage i := by
  cases h with
  | stored => rfl
  | tooOld => rfl
  | rejected => exact lineage_setStatuses ..
  | switched => exact (lineage_setTip ..).trans (lineage_setStatuses ..)

/-- Only statuses change. An invalid node stays invalid, and none becomes unvalidated. -/
theorem exists_status (h : Selected s tree best id node block flags pending plan) {i : Nat}
    {n : TreeNode} (hn : tree.node? i = some n) :
    ∃ status, plan.tree.node? i = some { n with status } ∧
      (n.status = .invalid → status = .invalid) ∧
      (status = .unvalidated → n.status = .unvalidated) := by
  cases h with
  | stored => exact ⟨n.status, hn, fun h => h, fun h => h⟩
  | tooOld => exact ⟨n.status, hn, fun h => h, fun h => h⟩
  | @rejected tip fork failed =>
    rw [reject, node?_setStatuses, hn, Option.map_some]
    split
    · exact ⟨.invalid, rfl, fun _ => rfl, nofun⟩
    · exact ⟨n.status, rfl, fun h => h, fun h => h⟩
  | @switched tip fork tipNode view view' dropped attached htip hnode better hfork hdetach
      hcomplete =>
    rw [node?_setTip, node?_setStatuses, hn, Option.map_some]
    split
    · next hi =>
      -- what is invalid is not attached
      obtain ⟨-, hstatus⟩ := Switch.attachedBy_of_attach hcomplete
      exact ⟨.valid, rfl, fun hinvalid =>
        absurd hinvalid (hstatus (i, n) (mem_located.2 ⟨hi, hn⟩)), nofun⟩
    · exact ⟨n.status, rfl, fun h => h, fun h => h⟩

/-- A node of a plan was in the tree, with some status. -/
theorem exists_of_node (h : Selected s tree best id node block flags pending plan) {i : Nat}
    {n : TreeNode} (hn : plan.tree.node? i = some n) :
    ∃ m, tree.node? i = some m ∧ n = { m with status := n.status } := by
  obtain ⟨m, hm⟩ := BlockTree.exists_node (h.size_eq ▸ node?_lt hn)
  obtain ⟨status, hm', -⟩ := h.exists_status hm
  obtain rfl := Option.some.inj (hn.symm.trans hm')
  exact ⟨m, hm, rfl⟩

end Plan.Selected

namespace Plan.Adds

variable {s : Setting} {t : BlockTree} {best : BestState} {block : Block} {flags : AddFlags}
  {plan : Plan} {p : Nat} {parent : TreeNode} {keys : KeySets}

/-- A plan says whether the new node is the tip. -/
theorem tip?_cases (hadds : Adds s t best block flags p parent keys plan)
    (hm : Mirror s.params s.tables t) :
    (plan.tree.tip? = t.tip? ∧ plan.verdict ≠ .ok true) ∨
      (plan.tree.tip? = some t.size ∧ plan.verdict = .ok true) := by
  obtain ⟨hb, hnew, hadmits, hplan⟩ := hadds
  have hgrown := hm.grown hb hnew hadmits
  cases hplan with
  | stored => exact Or.inl ⟨rfl, by simp⟩
  | tooOld => exact Or.inl ⟨rfl, by simp⟩
  | rejected => exact Or.inl ⟨tip?_reject, by simp [reject]⟩
  | switched =>
    exact Or.inr ⟨tip?_setStatuses_setTip hgrown.coherent hgrown.path size_grown_lt, rfl⟩

/-- A node of a plan is the new one, or was there before with this header. -/
theorem node_cases (hadds : Adds s t best block flags p parent keys plan) {i : Nat}
    {n : TreeNode} (hn : plan.tree.node? i = some n) :
    (i = t.size ∧ n.header = block.header) ∨
      ∃ m, t.node? i = some m ∧ m.hash = n.hash ∧ m.header = n.header := by
  obtain ⟨m, hm, heq⟩ := hadds.selected.exists_of_node hn
  rcases node?_grown hm with ⟨rfl, rfl⟩ | hm
  · exact Or.inl ⟨rfl, by rw [heq]; rfl⟩
  · exact Or.inr ⟨m, hm, by rw [heq], by rw [heq]⟩

/-- Walks of a plan are those from before, and the one from the new node. -/
theorem mem_lineage (hadds : Adds s t best block flags p parent keys plan) {i id : Nat}
    (h : (i < t.size ∧ id ∈ t.lineage i) ∨ (i = t.size ∧ id ∈ t.lineage p)) :
    id ∈ plan.tree.lineage i := by
  rw [hadds.selected.lineage_eq]
  rcases h with ⟨hi, hid⟩ | ⟨rfl, hid⟩
  · rwa [lineage_grown_of_lt hi]
  · rw [lineage_grown_size hadds.admits.lt_size]
    exact List.mem_cons_of_mem _ hid

end Plan.Adds

end PermissionedLedger
