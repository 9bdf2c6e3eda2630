import Mathlib
import PermissionedLedger.Proofs.Chain.Reload
import PermissionedLedger.Proofs.Coins.Origins

/-!
# The stored coins

What is stored of coins and journals is that of the main chain (`Accurate`), and nodes
are valid if all blocks of their branches were accepted (`Verified`).

A plan keeps both. Where it moves the tip, every block after the fork either was
accepted now, or was accepted before in the same place. The latter blocks are trusted,
so that they might replace an output, unless

* they were accepted by all the rules (`Verified.of_plan`), or
* no two transactions have one digest (`accounted_ofLine`).
-/

namespace PermissionedLedger

open CoinView BlockTree Plan

/-- The stored coins and journals are those of the main chain. -/
structure Accurate (T : Tables) (t : BlockTree) : Prop where
  /-- blocks of the main chain fit -/
  fits : ∀ {tip}, t.tip? = some tip → Throughout Block.Fits (T.branch t tip)
  /-- the coins are what the main chain left -/
  coins : ∀ {tip}, t.tip? = some tip → ∀ o, T.coins[o]? = (ofLine (T.branch t tip)).lookup? o
  /-- blocks of the main chain have their journals -/
  journals : ∀ {tip}, t.tip? = some tip → ∀ b older, b :: older <:+ T.branch t tip →
    T.journals[b.hash]? = some (journalOf b older)
  /-- no other block has one -/
  journals_main : ∀ {tip hash journal}, t.tip? = some tip → T.journals[hash]? = some journal →
    ∃ i n, i ∈ t.lineage tip ∧ t.node? i = some n ∧ n.hash = hash

/-- All the rules accept a block over the blocks below it. Genesis needs no acceptance. -/
def Block.Accepted (params : Params) (verify : Verifier) (b : Block) (older : List Block) : Prop :=
  older = [] ∧ b = params.genesis ∨
    ∃ r, b.connect older.length params (ofLine older) verify {} = .ok r

/-- The branches of valid nodes were accepted. -/
def Verified (params : Params) (verify : Verifier) (T : Tables) (t : BlockTree) : Prop :=
  ∀ ⦃i n⦄, t.node? i = some n → n.status = .valid →
    Throughout (Block.Accepted params verify) (T.branch t i)

/-! ## Accepted blocks fit -/

namespace Block

variable {params : Params} {verify : Verifier} {b : Block} {older : List Block}

theorem connect_genesis (params : Params) :
    (⟨∅, ∅⟩ : CoinView).connect params.genesis 0 =
      (.ok (), (⟨∅, ∅⟩ : CoinView).addOutputs Params.genesisCoinbase 0, []) :=
  rfl

theorem fits_genesis (params : Params) : params.genesis.Fits [] where
  connects := by
    change ((⟨∅, ∅⟩ : CoinView).connect params.genesis 0).1 = _
    rw [connect_genesis]
  fresh := ⟨fun _ _ => by simp [ofLine, lookup?, fetch], trivial⟩

/-- The rules do not depend on whether the work was checked. -/
theorem connect_of_fastAdd_eq_false {flags : AddFlags} (hflags : flags.fastAdd = false)
    {height : Nat} {v v' : CoinView} {journal : Journal}
    (h : b.connect height params v verify flags = .ok (v', journal)) :
    b.connect height params v verify {} = .ok (v', journal) :=
  (connect_eq_ok_of_checked rfl).2 ((connect_eq_ok_of_checked hflags).1 h)

/-- A block that was accepted can be connected, and replaces no output. -/
theorem Accepted.fits (h : b.Accepted params verify older) (hb : b.WellFormed) :
    b.Fits older := by
  rcases h with ⟨rfl, rfl⟩ | ⟨⟨v', journal⟩, hr⟩
  · exact fits_genesis params
  · have hconnect := connect_of_connect_eq_ok hr
    obtain ⟨hfresh, -⟩ := (connect_eq_ok_of_checked rfl).1 hr
    exact ⟨by rw [hconnect], fresh_of_checkFresh hb hfresh hconnect⟩

end Block

/-! ## Trees of the same tables -/

namespace Accurate

variable {params : Params} {T : Tables} {t t' : BlockTree}

/-- What is stored does not depend on how the tree numbers its nodes. -/
theorem of_mirror (ha : Accurate T t) (h : Mirror params T t) (h' : Mirror params T t') :
    Accurate T t' := by
  obtain ⟨tip, n, htip, hn, -⟩ := h.tip
  have hbranch : ∀ {tip'}, t'.tip? = some tip' → T.branch t' tip' = T.branch t tip := by
    intro tip' htip'
    obtain ⟨m, hm⟩ := BlockTree.exists_node (h'.path.tip_lt htip')
    exact (h.branch_eq h' hn hm (h.tip_eq h' htip hn htip' hm)).symm
  constructor
  case fits =>
    intro tip' htip'
    rw [hbranch htip']
    exact ha.fits htip
  case coins =>
    intro tip' htip'
    rw [hbranch htip']
    exact ha.coins htip
  case journals =>
    intro tip' htip'
    rw [hbranch htip']
    exact ha.journals htip
  case journals_main =>
    intro tip' hash journal htip' hjournal
    obtain ⟨i, k, hi, hk, rfl⟩ := ha.journals_main htip hjournal
    obtain ⟨m, hm⟩ := BlockTree.exists_node (h'.path.tip_lt htip')
    obtain ⟨j, l, k', hj, hl, hk', heq⟩ := h'.exists_ancestor h hm hn
      (h.tip_eq h' htip hn htip' hm).symm hi
    obtain rfl := Option.some.inj (hk.symm.trans hk')
    exact ⟨j, l, hj, hl, heq⟩

end Accurate

theorem Verified.of_mirror {params : Params} {verify : Verifier} {T : Tables} {t t' : BlockTree}
    (hv : Verified params verify T t) (h : Mirror params T t) (h' : Mirror params T t') :
    Verified params verify T t' := by
  intro j m hm hvalid
  obtain ⟨i, n, hn, heq⟩ := h'.exists_node h hm
  have hrecord := h.toRecord_eq h' hn hm heq
  have hstatus : n.status = m.status := congrArg NodeRecord.status hrecord
  rw [← h.branch_eq h' hn hm heq]
  exact hv hn (hstatus.trans hvalid)

/-! ## The blocks of a plan -/

namespace Plan

variable {s : Setting} {t tree : BlockTree} {best : BestState} {block : Block} {flags : AddFlags}
  {plan : Plan} {p id : Nat} {node parent : TreeNode} {keys : KeySets} {pending : Batch}

/-- A plan stores no blocks but those that are pending. -/
theorem Selected.blocks_eq (h : Selected s tree best id node block flags pending plan) :
    (s.tables.writeAll plan.batch).blocks = (s.tables.writeAll pending).blocks := by
  cases h with
  | stored => rfl
  | tooOld => rfl
  | rejected htip hnode better hfork hdetach hbroken => rw [writeAll_reject_eq]
  | switched htip hnode better hfork hdetach hcomplete =>
    obtain ⟨hattached, -⟩ := Switch.attachedBy_of_attach hcomplete
    rw [Switch.dropped_of_detach hdetach, Switch.writeAll_switched]
    refine (hattached.keeps (·.blocks) (fun _ _ _ => rfl)
      Tables.blocks_write_setStatus _).trans ?_
    rw [Switch.writeAll_dropped_eq]

/-- A plan stores its block, and no other. -/
theorem Adds.getElem?_blocks (h : Adds s t best block flags p parent keys plan) (hash : Digest) :
    (s.tables.writeAll plan.batch).blocks[hash]? =
      if hash = block.hash then some block else s.tables.blocks[hash]? := by
  rw [h.selected.blocks_eq, Mirror.blocks_pending, getElem?_insert_eq]

/-- A plan changes no branch of the tree it is made for. -/
theorem Selected.branch_eq (h : Selected s tree best id node block flags pending plan) (i : Nat) :
    (s.tables.writeAll plan.batch).branch plan.tree i =
      (s.tables.writeAll pending).branch tree i := by
  rw [Tables.branch_of_blocks_eq h.blocks_eq]
  cases h with
  | stored => rfl
  | tooOld => rfl
  | rejected => exact Tables.branch_setStatuses
  | switched => exact Tables.branch_setTip.trans Tables.branch_setStatuses

end Plan

namespace Mirror

variable {s : Setting} {t : BlockTree} {block : Block} {flags : AddFlags} {p : Nat}
  {parent : TreeNode} {keys : KeySets}

theorem pathFrom_grown {f i : Nat} (hi : i < t.size) :
    (Plan.grown t block p keys).pathFrom f i = t.pathFrom f i := by
  rw [pathFrom, pathFrom, lineage_grown_of_lt hi]

theorem located_grown {ids : List Nat} (hids : ∀ i ∈ ids, i < t.size) :
    (Plan.grown t block p keys).located ids = t.located ids := by
  refine List.filterMap_congr fun i hi => ?_
  rw [Plan.grown, node?_insert_of_lt (hids i hi)]

/-- Different nodes have different digests. -/
theorem nodup_hash_located {params : Params} {T : Tables} (hm : Mirror params T t)
    {ids : List Nat} (hids : ∀ i ∈ ids, i < t.size) (hnodup : ids.Nodup) :
    ((t.located ids).map (·.2.hash)).Nodup := by
  refine List.Nodup.map_on (fun q hq r hr heq => ?_) ?_
  · obtain ⟨-, hn⟩ := mem_located.1 hq
    obtain ⟨-, hn'⟩ := mem_located.1 hr
    have hfst := hm.coherent.eq_of_hash_eq hn hn' heq
    rw [hfst] at hn
    exact Prod.ext hfst (Option.some.inj (hn.symm.trans hn'))
  · refine List.Nodup.of_map Prod.fst ?_
    rwa [map_fst_located hids]

/-- The nodes on a path have different digests. -/
theorem nodup_hash_pathFrom {params : Params} {T : Tables} (hm : Mirror params T t) {f i : Nat}
    (hf : f ∈ t.lineage i) : ((t.located (t.pathFrom f i)).map (·.2.hash)).Nodup :=
  hm.nodup_hash_located
    (fun _ hj => lt_size_of_mem_lineage (mem_lineage_of_mem_pathFrom hf hj)) (pathFrom_nodup ..)

/-- None of them has the digest of a node below. -/
theorem hash_notMem_located {params : Params} {T : Tables} (hm : Mirror params T t) {f i j : Nat}
    {n : TreeNode} (hf : f ∈ t.lineage i) (hj : j ∈ t.lineage f) (hn : t.node? j = some n) :
    n.hash ∉ (t.located (t.pathFrom f i)).map (·.2.hash) := by
  intro hin
  obtain ⟨⟨k, m⟩, hmem, heq⟩ := List.mem_map.1 hin
  obtain ⟨hk, hm'⟩ := mem_located.1 hmem
  obtain rfl := hm.coherent.eq_of_hash_eq hn hm' heq.symm
  exact notMem_lineage_of_mem_pathFrom hf hk hj

/-- Branches from before stay. -/
theorem branch_grown_of_lt (p : Nat) (parent : TreeNode) (keys : KeySets)
    (hm : Mirror s.params s.tables t) (hnew : t.find? block.hash = none)
    {i : Nat} (hi : i < t.size) :
    (s.tables.writeAll (pending block (newNode t block p keys) parent.keys)).branch
      (Plan.grown t block p keys) i = s.tables.branch t i :=
  hm.branch_insert_of_lt (blocks_pending ..) hnew hi

/-- The nodes after the fork climb to the new block. -/
theorem climb_grown (hm : Mirror s.params s.tables t) (hb : block.WellFormed)
    (hnew : t.find? block.hash = none) (hadmits : Admits s t block flags p parent keys)
    {fork : Nat} (hlt : fork < t.size) (hfork : fork ∈ (Plan.grown t block p keys).lineage t.size) :
    Climb (s.tables.blocks.insert block.hash block) (s.tables.branch t fork)
      ((Plan.grown t block p keys).located ((Plan.grown t block p keys).pathFrom fork t.size))
      ((s.tables.writeAll (pending block (newNode t block p keys) parent.keys)).branch
        (Plan.grown t block p keys) t.size) := by
  have hclimb := (hm.grown hb hnew hadmits).climb hfork
  rwa [blocks_pending, hm.branch_grown_of_lt _ _ _ hnew hlt] at hclimb

/-- The blocks of a branch that passed are old ones, or passed now in the same place. -/
theorem cases_of_passed {params : Params} {verify : Verifier} {T : Tables}
    (hm : Mirror params T t) {f i : Nat} (hf : f ∈ t.lineage i)
    (hpassed : Switch.Passed params verify flags T.blocks (T.branch t f)
      (t.located (t.pathFrom f i))) {b : Block} {older : List Block}
    (hs : b :: older <:+ T.branch t i) :
    b :: older <:+ T.branch t f ∨ ∃ j n, j ∈ t.pathFrom f i ∧ t.node? j = some n ∧
      T.branch t j = b :: older ∧ n.height = older.length ∧
      Switch.Passes params verify flags n b older := by
  by_cases hlow : (T.branch t f).length ≤ older.length
  · right
    obtain ⟨j, n, -, hn, hb, hbranch, hheight⟩ := hm.exists_of_suffix hs
    obtain ⟨⟨k, m⟩, hmem, hb', -, hpasses⟩ := hpassed.exists_node (hm.climb hf) hs hlow
    obtain ⟨hk, hm'⟩ := mem_located.1 hmem
    -- both nodes have the digest of the block
    have heq : n.hash = m.hash :=
      (hm.block_hash hn hb).2.symm.trans (hm.block_hash hm' hb').2
    obtain rfl := hm.coherent.eq_of_hash_eq hn hm' heq
    obtain rfl := Option.some.inj (hn.symm.trans hm')
    exact ⟨j, n, hk, hn, hbranch, hheight, hpasses⟩
  · left
    refine List.suffix_of_suffix_length_le hs (branch_suffix T hf) ?_
    rw [List.length_cons]
    omega

end Mirror

/-! ## Why blocks fit -/

/-- The stored transactions of one digest are one transaction. -/
def Tables.CollisionFree (T : Tables) : Prop :=
  ∀ {h h' : Digest} {b b' : Block}, T.blocks[h]? = some b → T.blocks[h']? = some b' →
    ∀ tx ∈ b.transactions, ∀ tx' ∈ b'.transactions, tx.hash = tx'.hash → tx = tx'

section Fitting

variable {params : Params} {verify : Verifier} {T : Tables} {t : BlockTree} {i : Nat}

theorem Tables.CollisionFree.entriesOf_branch (h : T.CollisionFree) (hm : Mirror params T t) :
    PermissionedLedger.CollisionFree (entriesOf (T.branch t i)) := by
  intro e he e' he'
  obtain ⟨b, older, hs, -, htx⟩ := mem_entriesOf.1 he
  obtain ⟨b', older', hs', -, htx'⟩ := mem_entriesOf.1 he'
  obtain ⟨j, n, -, -, hb, -⟩ := hm.exists_of_suffix hs
  obtain ⟨k, m, -, -, hb', -⟩ := hm.exists_of_suffix hs'
  exact h hb hb' _ htx _ htx'

/-- Without collisions, blocks that can be connected along a branch fit there, and nothing is spent
twice. -/
theorem Mirror.accounted (hm : Mirror params T t) (hfree : T.CollisionFree)
    (hconnects : Throughout (fun b older => ((ofLine older).connect b older.length).1 = .ok ())
      (T.branch t i)) :
    Throughout Block.Fits (T.branch t i) ∧
      Accounted (entriesOf (T.branch t i)) (ofLine (T.branch t i)) := by
  refine accounted_ofLine (fun b older hs => ?_) (hfree.entriesOf_branch hm)
  obtain ⟨hwf, hrepeats⟩ := hm.formed_of_suffix hs
  exact ⟨hwf, hrepeats, hconnects b older hs⟩

/-- The blocks on the branch of a valid node fit if they were accepted by all the rules. -/
theorem Verified.fits (hv : Verified params verify T t) (hm : Mirror params T t) {n : TreeNode}
    (hn : t.node? i = some n) (hvalid : n.status = .valid) :
    Throughout Block.Fits (T.branch t i) :=
  fun b older hs => (hv hn hvalid b older hs).fits (hm.formed_of_suffix hs).1

end Fitting

/-! ## Moving the tip -/

section Switching

variable {s : Setting} {t : BlockTree} {best : BestState} {block : Block} {flags : AddFlags}
  {plan : Plan} {p : Nat} {parent : TreeNode} {keys : KeySets} {tip fork : Nat}

/-- The main chain can be undone down to any of its nodes. -/
theorem Accurate.detach (block : Block) (p : Nat) (keys : KeySets) (ha : Accurate s.tables t)
    (hm : Mirror s.params s.tables t)
    (htip : t.tip? = some tip) (hfork : fork ∈ t.lineage tip) :
    ∃ view dropped, Switch.detach s.tables ⟨s.tables.coins, ∅⟩
        (((Plan.grown t block p keys).located
          ((Plan.grown t block p keys).pathFrom fork tip)).reverse.map (·.2)) =
        .ok (view, dropped) ∧
      view.Alike (ofLine (s.tables.branch t fork)) ∧ view.base = s.tables.coins := by
  have hlt := lt_size_of_mem hfork
  have halike : (⟨s.tables.coins, ∅⟩ : CoinView).Alike (ofLine (s.tables.branch t tip)) := by
    intro o
    rw [← ha.coins htip o]
    simp only [lookup?, fetch, Std.ExtTreeMap.getElem?_empty]
    rcases s.tables.coins[o]? with _ | coin <;> rfl
  obtain ⟨view, hview, halike', hbase⟩ := Switch.detach_eq_ok (hm.climb hfork) (ha.fits htip)
    (ha.journals htip) halike
  rw [Mirror.pathFrom_grown hlt, Mirror.located_grown fun i hi =>
    lt_size_of_mem_lineage (mem_lineage_of_mem_pathFrom hfork hi)]
  exact ⟨view, _, hview, halike', hbase⟩

/-- A branch that was attached passed, and the view shows what it left. -/
theorem Accurate.attach (ha : Accurate s.tables t) (hm : Mirror s.params s.tables t)
    (hb : block.WellFormed) (hnew : t.find? block.hash = none)
    (hadmits : Admits s t block flags p parent keys) (htip : t.tip? = some tip)
    (hfork : (Plan.grown t block p keys).findFork? tip t.size = some fork)
    {view view' : CoinView} {dropped attached : Batch}
    (hdetach : Switch.detach s.tables ⟨s.tables.coins, ∅⟩
      (((Plan.grown t block p keys).located
        ((Plan.grown t block p keys).pathFrom fork tip)).reverse.map (·.2)) = .ok (view, dropped))
    (hcomplete : Switch.attach s.tables s.params s.verify flags block view
      ((Plan.grown t block p keys).located ((Plan.grown t block p keys).pathFrom fork t.size)) =
        .ok (.complete view' attached)) :
    let T := s.tables.writeAll (pending block (newNode t block p keys) parent.keys)
    Switch.Passed s.params s.verify flags T.blocks (T.branch (Plan.grown t block p keys) fork)
        ((Plan.grown t block p keys).located ((Plan.grown t block p keys).pathFrom fork t.size)) ∧
      view'.Alike (ofLine (T.branch (Plan.grown t block p keys) t.size)) ∧
      view'.base = s.tables.coins ∧
      attached = Switch.attachedWrites T.blocks (T.branch (Plan.grown t block p keys) fork)
        ((Plan.grown t block p keys).located ((Plan.grown t block p keys).pathFrom fork t.size)) := by
  obtain ⟨hforkTip, hforkNew⟩ := hm.fork_mem (hm.grown hb hnew hadmits).coherent htip hfork
  have hlt := lt_size_of_mem_lineage hforkTip
  obtain ⟨u, _, hu, halike, hbase⟩ := ha.detach block p keys hm htip hforkTip
  obtain ⟨rfl, -⟩ := Prod.mk.inj (Except.ok.inj (hdetach.symm.trans hu))
  obtain ⟨hpassed, halike', hbase', hattached⟩ :=
    Switch.attach_complete (hm.climb_grown hb hnew hadmits hlt hforkNew) halike hcomplete
  intro T
  rw [Mirror.blocks_pending, hm.branch_grown_of_lt _ _ _ hnew hlt]
  exact ⟨hpassed, halike', hbase'.trans hbase, hattached⟩

/-- What is on the branch of a node that was valid, and so is not the new one. -/
theorem Mirror.exists_valid_of_grown (hm : Mirror s.params s.tables t)
    (hnew : t.find? block.hash = none) {i : Nat} {n : TreeNode}
    (hn : (Plan.grown t block p keys).node? i = some n) (hvalid : n.status = .valid)
    {line : List Block}
    (hs : line <:+ (s.tables.writeAll (pending block (newNode t block p keys) parent.keys)).branch
      (Plan.grown t block p keys) i) :
    ∃ j m, t.node? j = some m ∧ m.status = .valid ∧ line <:+ s.tables.branch t j := by
  rcases node?_grown hn with ⟨-, rfl⟩ | hn
  · cases hvalid
  · rw [hm.branch_grown_of_lt _ _ _ hnew (node?_lt hn)] at hs
    exact ⟨i, n, hn, hvalid, hs⟩

/-- A block on a branch that was attached was on the branch of a valid node before, or it was tried
now and passed. -/
theorem Accurate.valid_of_attached (ha : Accurate s.tables t) (ht : t.Settled s.params)
    (hm : Mirror s.params s.tables t) (hb : block.WellFormed) (hnew : t.find? block.hash = none)
    (hadmits : Admits s t block flags p parent keys) (htip : t.tip? = some tip)
    (hfork : (Plan.grown t block p keys).findFork? tip t.size = some fork)
    {view view' : CoinView} {dropped attached : Batch}
    (hdetach : Switch.detach s.tables ⟨s.tables.coins, ∅⟩
      (((Plan.grown t block p keys).located
        ((Plan.grown t block p keys).pathFrom fork tip)).reverse.map (·.2)) = .ok (view, dropped))
    (hcomplete : Switch.attach s.tables s.params s.verify flags block view
      ((Plan.grown t block p keys).located ((Plan.grown t block p keys).pathFrom fork t.size)) =
        .ok (.complete view' attached))
    {b : Block} {older : List Block}
    (hs : b :: older <:+ (s.tables.writeAll (pending block (newNode t block p keys)
      parent.keys)).branch (Plan.grown t block p keys) t.size) :
    (∃ j m, t.node? j = some m ∧ m.status = .valid ∧ b :: older <:+ s.tables.branch t j) ∨
      ∃ j m r, j ∈ (Plan.grown t block p keys).pathFrom fork t.size ∧
        (Plan.grown t block p keys).node? j = some m ∧ m.status = .unvalidated ∧
        b.hash = m.hash ∧ b.connect older.length s.params (ofLine older) s.verify flags = .ok r := by
  have hgrown := hm.grown hb hnew hadmits
  obtain ⟨hforkTip, hforkNew⟩ := hm.fork_mem hgrown.coherent htip hfork
  obtain ⟨f, hf⟩ := BlockTree.exists_node (lt_size_of_mem_lineage hforkTip)
  obtain ⟨hpassed, -⟩ := ha.attach hm hb hnew hadmits htip hfork hdetach hcomplete
  rcases hgrown.cases_of_passed hforkNew hpassed hs with
    hs' | ⟨j, k, hj, hk, hbranch, hheight, hpasses⟩
  · exact Or.inl (hm.exists_valid_of_grown hnew (node?_grown_of_some _ _ _ hf)
      (ht.main_valid htip hforkTip hf) hs')
  · rcases hstatus : k.status
    · obtain ⟨r, hr⟩ := hpasses.accepted hheight hstatus
      obtain ⟨c, rest, hbranch', hc⟩ := hgrown.exists_branch_eq_cons hk
      obtain ⟨rfl, -⟩ := List.cons.inj (hbranch.symm.trans hbranch')
      exact Or.inr ⟨j, k, r, hj, hk, hstatus, (hgrown.block_hash hk hc).2, hr⟩
    · rw [← hbranch]
      exact Or.inl (hm.exists_valid_of_grown hnew hk hstatus (List.suffix_refl _))
    · exact absurd hstatus hpasses.status_ne

/-- A block on the branch of a node that is valid after a plan was on such a branch before, or it was
tried now and passed. -/
theorem Accurate.valid_of_plan (ha : Accurate s.tables t) (ht : t.Settled s.params)
    (hm : Mirror s.params s.tables t) (hadds : Adds s t best block flags p parent keys plan)
    {i : Nat} {n : TreeNode} (hn : plan.tree.node? i = some n) (hvalid : n.status = .valid)
    {b : Block} {older : List Block}
    (hs : b :: older <:+ (s.tables.writeAll plan.batch).branch plan.tree i) :
    (∃ j m, t.node? j = some m ∧ m.status = .valid ∧ b :: older <:+ s.tables.branch t j) ∨
      ∃ j m r, (Plan.grown t block p keys).node? j = some m ∧ m.status = .unvalidated ∧
        plan.tree.node? j = some { m with status := .valid } ∧ b.hash = m.hash ∧
        b.connect older.length s.params (ofLine older) s.verify flags = .ok r := by
  obtain ⟨hb, hnew, hadmits, hplan⟩ := hadds
  rw [hplan.branch_eq] at hs
  cases hplan with
  | stored => exact Or.inl (hm.exists_valid_of_grown hnew hn hvalid hs)
  | tooOld => exact Or.inl (hm.exists_valid_of_grown hnew hn hvalid hs)
  | @rejected tip fork failed tipNode view dropped violation htip hnode better hfork hdetach
      hbroken =>
    simp only [reject] at hn
    rw [node?_setStatuses, Option.map_eq_some_iff] at hn
    obtain ⟨m, hm', rfl⟩ := hn
    split at hvalid
    · cases hvalid
    · exact Or.inl (hm.exists_valid_of_grown hnew hm' hvalid hs)
  | @switched tip fork tipNode view view' dropped attached htip hnode better hfork hdetach
      hcomplete =>
    rw [node?_setTip, node?_setStatuses, Option.map_eq_some_iff] at hn
    obtain ⟨m, hm', rfl⟩ := hn
    by_cases hi : i ∈ (Plan.grown t block p keys).pathFrom fork t.size
    · have hgrown := hm.grown hb hnew hadmits
      obtain ⟨-, hforkNew, -⟩ := findFork?_spec hgrown.coherent hgrown.path hfork
      rcases ha.valid_of_attached ht hm hb hnew hadmits htip hfork hdetach hcomplete
        (hs.trans (Mirror.branch_suffix _ (mem_lineage_of_mem_pathFrom hforkNew hi))) with
        hold | ⟨j, k, r, hj, hk, hstatus, hhash, hr⟩
      · exact Or.inl hold
      · refine Or.inr ⟨j, k, r, hk, hstatus, ?_, hhash, hr⟩
        rw [node?_setTip, node?_setStatuses, hk, Option.map_some, if_pos hj]
    · rw [if_neg hi] at hvalid
      exact Or.inl (hm.exists_valid_of_grown hnew hm' hvalid hs)

/-- A plan without trust keeps all valid nodes accepted. -/
theorem Verified.of_plan (hv : Verified s.params s.verify s.tables t)
    (ha : Accurate s.tables t) (ht : t.Settled s.params) (hm : Mirror s.params s.tables t)
    (hadds : Adds s t best block flags p parent keys plan) (hflags : flags.fastAdd = false) :
    Verified s.params s.verify (s.tables.writeAll plan.batch) plan.tree := by
  intro i n hn hvalid b older hs
  rcases ha.valid_of_plan ht hm hadds hn hvalid hs with
    ⟨j, m, hm', hvalid', hs'⟩ | ⟨j, m, ⟨v', journal⟩, -, -, -, -, hr⟩
  · exact hv hm' hvalid' b older hs'
  · exact Or.inr ⟨_, Block.connect_of_fastAdd_eq_false hflags hr⟩

/-- Where the main chain stays, so do its coins and journals. -/
theorem Accurate.of_same {T T' : Tables} {t' : BlockTree} (ha : Accurate T t)
    (htip : t.tip? = some tip) (htip' : t'.tip? = some tip)
    (hbranch : T'.branch t' tip = T.branch t tip) (hcoins : T'.coins = T.coins)
    (hjournals : T'.journals = T.journals) (hline : t'.lineage tip = t.lineage tip)
    (hnodes : ∀ {i n}, t.node? i = some n → ∃ m, t'.node? i = some m ∧ m.hash = n.hash) :
    Accurate T' t' := by
  have hsame : ∀ {tip'}, t'.tip? = some tip' → tip' = tip := fun h =>
    Option.some.inj (h.symm.trans htip')
  constructor
  case fits =>
    intro tip' h
    rw [hsame h, hbranch]
    exact ha.fits htip
  case coins =>
    intro tip' h
    rw [hsame h, hbranch, hcoins]
    exact ha.coins htip
  case journals =>
    intro tip' h
    rw [hsame h, hbranch, hjournals]
    exact ha.journals htip
  case journals_main =>
    intro tip' hash journal h hj
    rw [hjournals] at hj
    obtain ⟨i, n, hi, hn, rfl⟩ := ha.journals_main htip hj
    obtain ⟨m, hm, heq⟩ := hnodes hn
    rw [hsame h, hline]
    exact ⟨i, m, hi, hm, heq⟩

/-- What remains of the journals after the blocks above the fork were undone, and others were
attached there: those of blocks below the fork, and those of the new branch. -/
theorem journals_switch {params : Params} {T : Tables} {i : Nat} {attached : Batch}
    (hm : Mirror params T t) (hforkTip : fork ∈ t.lineage tip) (hforkNew : fork ∈ t.lineage i)
    (hattached : attached = Switch.attachedWrites T.blocks (T.branch t fork)
      (t.located (t.pathFrom fork i)))
    (hold : ∀ b older, b :: older <:+ T.branch t tip → T.journals[b.hash]? = some (journalOf b older))
    (hmain : ∀ {hash journal}, T.journals[hash]? = some journal →
      ∃ j n, j ∈ t.lineage tip ∧ t.node? j = some n ∧ n.hash = hash) {T' : Tables}
    (hT' : T' = (T.writeAll (((t.located (t.pathFrom fork tip)).reverse.map (·.2)).map fun node =>
      .deleteJournal node.hash)).writeAll attached) :
    (∀ b older, b :: older <:+ T.branch t i →
      T'.journals[b.hash]? = some (journalOf b older)) ∧
    ∀ {hash journal}, T'.journals[hash]? = some journal →
      ∃ j n, j ∈ t.lineage i ∧ t.node? j = some n ∧ n.hash = hash := by
  have hclimb := hm.climb hforkNew
  have hby := Switch.attachedBy_attachedWrites hclimb
  rw [← hattached] at hby
  constructor
  · intro b older hs
    by_cases hlow : (T.branch t fork).length ≤ older.length
    · rw [hT', hattached]
      exact Switch.journals_attached hclimb (hm.nodup_hash_pathFrom hforkNew) _ hs hlow
    · have hbase : b :: older <:+ T.branch t fork := by
        refine List.suffix_of_suffix_length_le hs (Mirror.branch_suffix T hforkNew) ?_
        rw [List.length_cons]
        omega
      obtain ⟨j, n, hj, hn, hb, -⟩ := hm.exists_of_suffix hbase
      obtain ⟨-, heq⟩ := hm.block_hash hn hb
      rw [hT', heq, Switch.journals_switched hby _ _ (hm.hash_notMem_located hforkNew hj hn),
        if_neg (hm.hash_notMem_located hforkTip hj hn), ← heq]
      exact hold b older (hbase.trans (Mirror.branch_suffix T hforkTip))
  · intro hash journal hj
    by_cases hin : hash ∈ (t.located (t.pathFrom fork i)).map (·.2.hash)
    · obtain ⟨⟨j, n⟩, hmem, heq⟩ := List.mem_map.1 hin
      obtain ⟨hj, hn⟩ := mem_located.1 hmem
      exact ⟨j, n, mem_lineage_of_mem_pathFrom hforkNew hj, hn, heq⟩
    · rw [hT', Switch.journals_switched hby _ _ hin] at hj
      split at hj
      · cases hj
      · next hkept =>
        obtain ⟨k, n, hk, hn, rfl⟩ := hmain hj
        refine ⟨k, n, mem_lineage_trans ?_ hforkNew, hn, rfl⟩
        rw [lineage_eq_pathFrom_append hforkTip] at hk
        rcases List.mem_append.1 hk with hk | hk
        · have hmem : (k, n) ∈ t.located (t.pathFrom fork tip) :=
            mem_located.2 ⟨List.mem_reverse.1 hk, hn⟩
          exact absurd (List.mem_map.2 ⟨_, hmem, rfl⟩) hkept
        · exact hk

/-- A switch that is given up moves no tip, and takes neither coins nor journals. -/
theorem Accurate.of_reject {pending : Batch} {failed : Nat} {violation : Violation}
    (ha : Accurate (s.tables.writeAll pending) t) (htip : t.tip? = some tip)
    (hbranch : (s.tables.writeAll (reject t best pending failed violation).batch).branch
      (reject t best pending failed violation).tree tip =
        (s.tables.writeAll pending).branch t tip) :
    Accurate (s.tables.writeAll (reject t best pending failed violation).batch)
      (reject t best pending failed violation).tree := by
  refine ha.of_same htip (tip?_reject.trans htip) hbranch ?_ ?_ (lineage_reject tip) fun hn => ?_
  · rw [writeAll_reject_eq]
  · rw [writeAll_reject_eq]
  · simp only [reject, node?_setStatuses, hn, Option.map_some]
    refine ⟨_, rfl, ?_⟩
    split <;> rfl

/-- A plan keeps the stored coins those of the main chain, where blocks that can be connected along
it replace no output. -/
theorem Accurate.of_plan (ha : Accurate s.tables t) (hm : Mirror s.params s.tables t)
    (hadds : Adds s t best block flags p parent keys plan)
    (hfits : ∀ {tip}, plan.tree.tip? = some tip →
      Throughout (fun b older => ((ofLine older).connect b older.length).1 = .ok ())
        ((s.tables.writeAll plan.batch).branch plan.tree tip) →
      Throughout Block.Fits ((s.tables.writeAll plan.batch).branch plan.tree tip)) :
    Accurate (s.tables.writeAll plan.batch) plan.tree := by
  obtain ⟨hb, hnew, hadmits, hplan⟩ := hadds
  have hgrown := hm.grown hb hnew hadmits
  obtain ⟨tip, tipNode, htip, hnode, -⟩ := hm.tip
  have htipLt := node?_lt hnode
  have hstored : Accurate (s.tables.writeAll (pending block (newNode t block p keys) parent.keys))
      (Plan.grown t block p keys) :=
    ha.of_same htip htip (hm.branch_grown_of_lt p parent keys hnew htipLt)
      (Mirror.coins_pending ..) (Mirror.journals_pending ..) (lineage_grown_of_lt htipLt)
      fun hn => ⟨_, node?_grown_of_some _ _ _ hn, rfl⟩
  have hbranch := hplan.branch_eq
  cases hplan with
  | stored => exact hstored
  | tooOld => exact hstored
  | rejected => exact hstored.of_reject htip (hbranch tip)
  | @switched tip₁ fork tipNode₁ view view' dropped attached htip₁ hnode₁ better hfork hdetach
      hcomplete =>
    obtain rfl := Option.some.inj (htip₁.symm.trans htip)
    obtain ⟨hforkTip, hforkNew, -⟩ := findFork?_spec hgrown.coherent hgrown.path hfork
    obtain ⟨hpassed, halike, hbase, hattached⟩ :=
      ha.attach hm hb hnew hadmits htip hfork hdetach hcomplete
    obtain ⟨hby, -⟩ := Switch.attachedBy_of_attach hcomplete
    have htip' : ∀ {tip'}, (((Plan.grown t block p keys).setStatuses
        ((Plan.grown t block p keys).pathFrom fork t.size) .valid).setTip t.size).tip? =
          some tip' → tip' = t.size := by
      intro tip' h
      rw [tip?_setStatuses_setTip hgrown.coherent hgrown.path size_grown_lt] at h
      exact (Option.some.inj h).symm
    rw [Switch.dropped_of_detach hdetach] at hbranch hfits ⊢
    obtain ⟨hjournals, hmain⟩ := journals_switch hgrown hforkTip hforkNew hattached
      (hstored.journals htip) (hstored.journals_main htip) rfl
    constructor
    case fits =>
      intro tip' h
      refine hfits h fun b older hs => ?_
      rw [htip' h, hbranch] at hs
      rcases hgrown.cases_of_passed hforkNew hpassed hs with
        hs | ⟨j, k, -, -, -, hheight, hpasses⟩
      · exact (hstored.fits htip b older (hs.trans (Mirror.branch_suffix _ hforkTip))).connects
      · exact hpasses.connects hheight
    case coins =>
      intro tip' h o
      rw [htip' h, hbranch, ← halike o, Switch.writeAll_switched]
      refine Tables.coins_writeAll_writes ?_ o
      rw [hby.keeps (·.coins) (fun _ _ _ => rfl) Tables.coins_write_setStatus,
        Switch.writeAll_dropped_eq, Mirror.coins_pending, hbase]
    case journals =>
      intro tip' h b older hs
      rw [htip' h, hbranch] at hs
      rw [Switch.writeAll_switched]
      exact hjournals b older hs
    case journals_main =>
      intro tip' hash journal h hj
      rw [Switch.writeAll_switched] at hj
      obtain ⟨j, n, hj, hn, heq⟩ := hmain hj
      rw [htip' h, lineage_setTip, lineage_setStatuses]
      refine ⟨j, _, hj, by rw [node?_setTip, node?_setStatuses, hn, Option.map_some], ?_⟩
      split <;> exact heq

end Switching

end PermissionedLedger
