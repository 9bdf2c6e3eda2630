import Mathlib
import PermissionedLedger.Proofs.Chain.Spending
import PermissionedLedger.Proofs.Tree.Placement

/-!
# Why nodes are what they are

If no block was trusted and there are no checkpoints, the tree does not depend on its
own past:

* a node is in the tree because the rules admit its block under its parent
  (`Authorized`), and they still do;
* a node is invalid only if the rules refuse a block of its branch over the blocks below
  it (`Refuted`), be it that block or another one that was looked at.

Together with the validity of what was accepted (`Sound`) this is kept by plans and by
loading (`Grounded`).
-/

namespace PermissionedLedger

open BlockTree CoinView Plan

variable {params : Params} {verify : Verifier} {T : Tables} {t : BlockTree}

/-- All nodes but the root were admitted under their parents. -/
def Authorized (params : Params) (verify : Verifier) (T : Tables) (t : BlockTree) : Prop :=
  ∀ ⦃i n p m b⦄, t.node? i = some n → n.parent = some p → t.node? p = some m →
    T.blocks[n.hash]? = some b →
    (∃ height, b.checkPlacement params t p {} = .ok height) ∧
      m.keys.applyBlock params (some verify) b = .ok n.keys

/-- The branches of invalid nodes are not accepted. -/
def Refuted (params : Params) (verify : Verifier) (T : Tables) (t : BlockTree) : Prop :=
  ∀ ⦃i n⦄, t.node? i = some n → n.status = .invalid →
    ¬ Throughout (Block.Accepted params verify) (T.branch t i)

/-- What is known of a chain without trusted blocks and checkpoints. -/
structure Grounded (params : Params) (verify : Verifier) (T : Tables) (t : BlockTree) : Prop
    extends Sound params verify T t where
  /-- nodes were admitted -/
  authorized : Authorized params verify T t
  /-- for invalid ones there is a reason -/
  refuted : Refuted params verify T t

/-- Headers are those of the stored blocks. -/
theorem Mirror.headers_eq (h : Mirror params T t) (i : Nat) :
    t.headers i = (T.branch t i).map (·.header) := by
  have hheaders : ∀ ids : List Nat, (ids.filterMap t.node?).map (·.header) =
      ((ids.filterMap t.node?).filterMap fun n => T.blocks[n.hash]?).map (·.header) := by
    intro ids
    induction ids with
    | nil => rfl
    | cons i ids ih =>
      rcases hn : t.node? i with _ | n
      · rw [List.filterMap_cons, hn]
        exact ih
      · obtain ⟨b, hb, hheader, -⟩ := h.block hn
        rw [List.filterMap_cons, hn, List.map_cons, List.filterMap_cons, hb, List.map_cons, hheader,
          ih]
  exact hheaders _

/-! ## Plans -/

section Plans

variable {s : Setting} {best : BestState} {block : Block} {plan : Plan} {p : Nat}
  {parent : TreeNode} {keys : KeySets}

/-- The rules admit under a node what they admitted before a plan. -/
theorem checkPlacement_of_plan {b : Block} {flags : AddFlags} (hm : Mirror s.params s.tables t)
    (hnone : s.params.checkpoints = []) (hadds : Adds s t best block flags p parent keys plan)
    {q : Nat} (hq : q < t.size) :
    b.checkPlacement s.params plan.tree q {} = b.checkPlacement s.params t q {} := by
  have hm' := hm.of_plan hadds
  obtain ⟨hb, hnew, hadmits, hplan⟩ := hadds
  obtain ⟨m, hmq⟩ := BlockTree.exists_node hq
  obtain ⟨status, hmq', -⟩ := hplan.exists_status (node?_grown_of_some block p keys hmq)
  refine Block.checkPlacement_congr hnone hm'.coherent hm'.path hm.coherent hm.path hmq' hmq ?_ rfl
  rw [hm'.headers_eq, hm.headers_eq, hplan.branch_eq, hm.branch_grown_of_lt _ _ _ hnew hq]

/-- A plan keeps all nodes admitted. -/
theorem Authorized.of_plan (h : Authorized s.params s.verify s.tables t)
    (hm : Mirror s.params s.tables t) (hnone : s.params.checkpoints = [])
    (hadds : Adds s t best block {} p parent keys plan) :
    Authorized s.params s.verify (s.tables.writeAll plan.batch) plan.tree := by
  have hplaces : ∀ {b : Block} {q}, q < t.size → b.checkPlacement s.params plan.tree q {} =
      b.checkPlacement s.params t q {} := checkPlacement_of_plan hm hnone hadds
  have hblocks := hadds.getElem?_blocks
  obtain ⟨hb, hnew, hadmits, hplan⟩ := hadds
  intro i n q m b hn hq hmq hstored
  rw [hblocks] at hstored
  obtain ⟨n', hn', heq⟩ := hplan.exists_of_node hn
  obtain ⟨m', hm', heq'⟩ := hplan.exists_of_node hmq
  have hkeys : n.keys = n'.keys := by rw [heq]
  have hkeys' : m.keys = m'.keys := by rw [heq']
  have hhash : n.hash = n'.hash := by rw [heq]
  have hparent : n.parent = n'.parent := by rw [heq]
  rw [hkeys, hkeys']
  rw [hparent] at hq
  rw [hhash] at hstored
  rcases node?_grown hn' with ⟨rfl, rfl⟩ | hn'
  · rw [parent_newNode hadmits.lt_size] at hq
    obtain rfl := Option.some.inj hq
    rw [node?_grown_of_some _ _ _ hadmits.node] at hm'
    obtain rfl := Option.some.inj hm'
    rw [if_pos (show (newNode t block p keys).hash = block.hash from rfl)] at hstored
    obtain rfl := Option.some.inj hstored
    rw [hplaces hadmits.lt_size]
    exact ⟨hadmits.placed, hadmits.keys⟩
  · obtain ⟨k, hk⟩ := exists_parent hn' hq
    rw [node?_grown_of_some _ _ _ hk] at hm'
    obtain rfl := Option.some.inj hm'
    rw [if_neg] at hstored
    · rw [hplaces (node?_lt hk)]
      exact h hn' hq hk hstored
    · exact hm.coherent.hash_ne hn' hnew

/-- A block that the rules accept over others passes there, unless it is marked as invalid. -/
theorem passes_of_accepted {params : Params} {verify : Verifier} {node : TreeNode} {b : Block}
    {older : List Block} (hacc : b.Accepted params verify older) (hb : b.WellFormed)
    (hbase : older ≠ []) (hheight : node.height = older.length) (hstatus : node.status ≠ .invalid) :
    Switch.Passes params verify {} node b older := by
  rcases hcase : node.status
  · rcases hacc with ⟨hnil, -⟩ | ⟨r, hr⟩
    · exact absurd hnil hbase
    · refine ⟨r, ?_⟩
      rw [Switch.connectNode, hcase, hheight]
      exact hr
  · obtain ⟨v', hv', -⟩ := connect_trusted_of_fits (hacc.fits hb) (Alike.refl _)
      (show ({ ({} : AddFlags) with fastAdd := true } : AddFlags).fastAdd = true from rfl)
    exact ⟨_, by rw [Switch.connectNode, hcase, hheight, hv']⟩
  · exact absurd hcase hstatus

/-- A switch is given up only at a block that the rules refuse over the blocks below it. -/
theorem refuted_of_broken {tip fork failed : Nat} {view : CoinView} {dropped : Batch}
    {violation : Violation} (h : Sound s.params s.verify s.tables t)
    (hm : Mirror s.params s.tables t) (hb : block.WellFormed) (hnew : t.find? block.hash = none)
    (hadmits : Admits s t block {} p parent keys) (htip : t.tip? = some tip)
    (hfork : (Plan.grown t block p keys).findFork? tip t.size = some fork)
    (hdetach : Switch.detach s.tables ⟨s.tables.coins, ∅⟩
      (((Plan.grown t block p keys).located
        ((Plan.grown t block p keys).pathFrom fork tip)).reverse.map (·.2)) = .ok (view, dropped))
    (hbroken : Switch.attach s.tables s.params s.verify {} block view
      ((Plan.grown t block p keys).located ((Plan.grown t block p keys).pathFrom fork t.size)) =
        .ok (.broken failed violation)) :
    ¬ Throughout (Block.Accepted s.params s.verify)
      ((s.tables.writeAll (pending block (newNode t block p keys) parent.keys)).branch
        (Plan.grown t block p keys) failed) := by
  have hgrown := hm.grown hb hnew hadmits
  have hsettled := h.settled.grown hm hadmits
  obtain ⟨hforkTip, hforkNew⟩ := hm.fork_mem hgrown.coherent htip hfork
  obtain ⟨u, _, hu, halike, -⟩ := h.accurate.detach block p keys hm htip hforkTip
  obtain ⟨rfl, -⟩ := Prod.mk.inj (Except.ok.inj (hdetach.symm.trans hu))
  obtain ⟨f, hf⟩ := BlockTree.exists_node (lt_size_of_mem_lineage hforkTip)
  have hclimb := hm.climb_grown hb hnew hadmits (node?_lt hf) hforkNew
  obtain ⟨pre, node, post, b, mid, hsplit, hpre, -, hstored, hheight, hfails⟩ :=
    Switch.attach_broken hclimb halike hbroken
  have hmem : (failed, node) ∈ (Plan.grown t block p keys).located
      ((Plan.grown t block p keys).pathFrom fork t.size) := by
    rw [hsplit]
    exact List.mem_append_right _ (List.mem_cons_self ..)
  obtain ⟨hpath, hnode⟩ := mem_located.1 hmem
  have hfailed := mem_lineage_of_mem_pathFrom hforkNew hpath
  -- the branch of the node is its block over those that were attached before
  have hbranch : (s.tables.writeAll (pending block (newNode t block p keys) parent.keys)).branch
      (Plan.grown t block p keys) failed = b :: mid := by
    have hmid := (hsplit ▸ hclimb).suffix_of_append hpre hstored
    have hlen := hgrown.length_branch hnode
    refine List.IsSuffix.eq_of_length
      (List.suffix_of_suffix_length_le (Mirror.branch_suffix _ hfailed) hmid ?_) ?_
    all_goals rw [hlen, hheight, List.length_cons]
  have hmid : mid ≠ [] := by
    rintro rfl
    have hle := hpre.suffix.length_le
    rw [hm.length_branch hf] at hle
    cases hle
  have hvalid : node.status ≠ .invalid := fun hinvalid =>
    nomatch hsettled.invalid_of_mem_lineage hfailed (node?_grown_size t block p keys) hnode
      hinvalid
  obtain ⟨b', hb', -, hwf, -⟩ := hgrown.block hnode
  rw [Mirror.blocks_pending] at hb'
  obtain rfl := Option.some.inj (hstored.symm.trans hb')
  rw [hbranch]
  intro haccepted
  exact hfails (passes_of_accepted (Throughout.cons_iff.1 haccepted).1 hwf hmid hheight hvalid)

/-- A plan keeps all invalid nodes refuted. -/
theorem Refuted.of_plan (h : Refuted s.params s.verify s.tables t)
    (hsound : Sound s.params s.verify s.tables t) (hm : Mirror s.params s.tables t)
    (hadds : Adds s t best block {} p parent keys plan) :
    Refuted s.params s.verify (s.tables.writeAll plan.batch) plan.tree := by
  obtain ⟨hb, hnew, hadmits, hplan⟩ := hadds
  have hgrown := hm.grown hb hnew hadmits
  -- nodes that were invalid before
  have hold : ∀ {i n}, (Plan.grown t block p keys).node? i = some n → n.status = .invalid →
      ¬ Throughout (Block.Accepted s.params s.verify)
        ((s.tables.writeAll (pending block (newNode t block p keys) parent.keys)).branch
          (Plan.grown t block p keys) i) := by
    intro i n hn hinvalid
    rcases node?_grown hn with ⟨-, rfl⟩ | hn
    · cases hinvalid
    · rw [hm.branch_grown_of_lt _ _ _ hnew (node?_lt hn)]
      exact h hn hinvalid
  intro i n hn hinvalid
  rw [hplan.branch_eq]
  cases hplan with
  | stored => exact hold hn hinvalid
  | tooOld => exact hold hn hinvalid
  | @rejected tip fork failed tipNode view dropped violation htip hnode better hfork hdetach
      hbroken =>
    rw [reject, node?_setStatuses, Option.map_eq_some_iff] at hn
    obtain ⟨m, hm', rfl⟩ := hn
    by_cases hi : i ∈ (Plan.grown t block p keys).descendants failed
    · obtain ⟨hmem, -⟩ := Switch.mem_lineage_of_broken hgrown.coherent hgrown.path hfork hbroken
      have hbelow := (mem_descendants (lt_size_of_mem_lineage hmem)).1 hi
      have hbroken' := refuted_of_broken hsound hm hb hnew hadmits htip hfork hdetach hbroken
      exact fun hall => hbroken' (hall.of_suffix (Mirror.branch_suffix _ hbelow))
    · rw [if_neg hi] at hinvalid
      exact hold hm' hinvalid
  | @switched tip fork tipNode view view' dropped attached htip hnode better hfork hdetach
      hcomplete =>
    rw [node?_setTip, node?_setStatuses, Option.map_eq_some_iff] at hn
    obtain ⟨m, hm', rfl⟩ := hn
    split at hinvalid
    · cases hinvalid
    · exact hold hm' hinvalid

end Plans

/-! ## Runs -/

variable {t' : BlockTree}

theorem Authorized.of_mirror (h : Authorized params verify T t) (hnone : params.checkpoints = [])
    (hm : Mirror params T t) (hm' : Mirror params T t') : Authorized params verify T t' := by
  intro i' n' p' m' b hn' hp' hk' hstored
  obtain ⟨i, n, hn, heq⟩ := hm'.exists_node hm hn'
  rcases hm.parents_eq hm' hn hn' heq with ⟨-, hroot⟩ | ⟨p, k, q, l, hp, hk, hq, hl, hparents⟩
  · cases hp'.symm.trans hroot
  · obtain rfl := Option.some.inj (hp'.symm.trans hq)
    obtain rfl := Option.some.inj (hk'.symm.trans hl)
    obtain ⟨⟨height, hplaced⟩, hkeys⟩ := h hn hp hk (heq ▸ hstored)
    have hkeys' := hm.keys_eq hm' hk hk' hparents
    have hheaders : t.headers p = t'.headers p' := by
      rw [hm.headers_eq, hm'.headers_eq, hm.branch_eq hm' hk hk' hparents]
    rw [← hm.keys_eq hm' hn hn' heq, ← hkeys', ← Block.checkPlacement_congr hnone hm.coherent
      hm.path hm'.coherent hm'.path hk hk' hheaders hkeys']
    exact ⟨⟨height, hplaced⟩, hkeys⟩

theorem Refuted.of_mirror (h : Refuted params verify T t) (hm : Mirror params T t)
    (hm' : Mirror params T t') : Refuted params verify T t' := by
  intro j m hk hinvalid
  obtain ⟨i, n, hn, heq⟩ := hm'.exists_node hm hk
  rw [← hm.branch_eq hm' hn hk heq]
  exact h hn ((status_eq_of_mirror hm hm' hn hk heq).trans hinvalid)

theorem Params.grounded_genesis (params : Params) (verify : Verifier) :
    Grounded params verify params.genesisTables params.genesisTree where
  toSound := ⟨params.elected_genesis.toSettled, params.accurate_genesis,
    params.verified_genesis verify⟩
  authorized := by
    intro i n p m b hn hp
    obtain ⟨-, rfl⟩ := params.node?_genesisTree.1 hn
    cases hp
  refuted := by
    intro i n hn hinvalid
    obtain ⟨-, rfl⟩ := params.node?_genesisTree.1 hn
    cases hinvalid

theorem grounded_keptByPlans (hnone : params.checkpoints = []) :
    KeptByPlans params verify (fun flags => flags = {}) fun T t _ =>
      Grounded params verify T t := by
  intro T t best block flags plan p parent keys hflags hm h hchecked hadds
  obtain rfl : flags = {} := hflags
  have hsound : KeptByPlans params verify (fun flags => flags.fastAdd = false) fun T t _ =>
      Sound params verify T t := sound_keptByPlans
  exact ⟨@hsound T t best block {} plan p parent keys rfl hm h.toSound hchecked hadds,
    h.authorized.of_plan hm hnone hadds, h.refuted.of_plan h.toSound hm hadds⟩

theorem grounded_keptByLoading (hnone : params.checkpoints = []) :
    KeptByLoading params fun T t _ => Grounded params verify T t := by
  intro T t t' best best' hm hm' hbest h
  have hsound : KeptByLoading params fun T t _ => Sound params verify T t := sound_keptByLoading
  exact ⟨@hsound T t t' best best' hm hm' hbest h.toSound, h.authorized.of_mirror hnone hm hm',
    h.refuted.of_mirror hm hm'⟩

/-- Reachable chains are grounded. -/
theorem Chain.Reachable.grounded {σ : Type} [ChainStore σ] [LawfulChainStore σ] {c : Chain σ}
    (h : Reachable params verify (fun flags => flags = {}) c) (hnone : params.checkpoints = []) :
    Grounded params verify c.tables c.tree :=
  (h.invariant (I := fun T t _ => Grounded params verify T t) (params.grounded_genesis verify)
    (grounded_keptByPlans hnone) (grounded_keptByLoading hnone)).2

end PermissionedLedger
