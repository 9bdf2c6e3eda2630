import Mathlib
import PermissionedLedger.Proofs.Chain.Plans
import PermissionedLedger.Proofs.Tree.Preference

/-!
# The choice between branches

In every tree that plans lead to, the main chain is the best branch that is not known
to be invalid (`BlockTree.Elected`), and checkpoints hold their blocks in place.

A plan keeps this (`Elected.of_plan`). A new node either loses against the tip, or
takes its place, or goes down with the branch that failed. The remaining exit, a branch
that leaves the main chain below the latest checkpoint, is never taken: such a branch
would have to pass the checkpoint's height with another block.
-/

namespace PermissionedLedger

open CoinView BlockTree Plan

namespace BlockTree

variable {params : Params} {t : BlockTree}

/-- What validation has found out is consistent. -/
structure Settled (params : Params) (t : BlockTree) : Prop where
  /-- the main chain is valid -/
  main_valid : ∀ {tip i n}, t.tip? = some tip → i ∈ t.lineage tip → t.node? i = some n →
    n.status = .valid
  /-- what descends from an invalid node is invalid -/
  closed : ∀ {i n p m}, t.node? i = some n → n.parent = some p → t.node? p = some m →
    m.status = .invalid → n.status = .invalid
  /-- at the height of a checkpoint stands its block -/
  pinned : ∀ {i n c}, t.node? i = some n → 0 < n.height →
    params.checkpointAt? n.height = some c → n.hash = c.hash

/-- The main chain is the best branch that is not invalid. -/
structure Elected (params : Params) (t : BlockTree) : Prop extends t.Settled params where
  /-- the tip is better than all other nodes that are not invalid -/
  best : ∀ {tip m i n}, t.tip? = some tip → t.node? tip = some m → t.node? i = some n → i ≠ tip →
    n.status ≠ .invalid → m.isBetterThan n = true

/-- What descends from an invalid node is invalid, over any distance. -/
theorem Settled.invalid_of_mem_lineage (h : t.Settled params) {i j : Nat} {n m : TreeNode}
    (hj : j ∈ t.lineage i) (hn : t.node? i = some n) (hm : t.node? j = some m)
    (hinvalid : m.status = .invalid) : n.status = .invalid := by
  induction i, node?_lt hn using lineage_induction generalizing n with
  | root i k hk hp =>
    rw [lineage_root hk hp, List.mem_singleton] at hj
    rw [hj, hn] at hm
    obtain rfl := Option.some.inj hm
    exact hinvalid
  | child i k p hk hp ih =>
    rw [hn] at hk
    obtain rfl := Option.some.inj hk
    obtain ⟨l, hl⟩ := exists_parent hn hp
    rw [lineage_child hn hp] at hj
    rcases List.mem_cons.1 hj with rfl | hj
    · rw [hn] at hm
      obtain rfl := Option.some.inj hm
      exact hinvalid
    · exact h.closed hn hp hl (ih hj hl)

/-! ## Checkpoints -/

/-- The latest checkpoint that was passed is a node of the main chain, with the digest that is
pinned at its height. -/
theorem of_latestCheckpoint? (ht : t.Coherent) (hm : t.MainPath) {tip cp : Nat}
    (htip : t.tip? = some tip) (h : t.latestCheckpoint? params = some cp) :
    cp ∈ t.lineage tip ∧ ∃ c ∈ params.checkpoints, ∃ n, t.node? cp = some n ∧
      n.height = c.height ∧ n.hash = c.hash := by
  obtain ⟨c, hc, hfound⟩ := List.exists_of_findSome?_eq_some h
  obtain ⟨hat, hany⟩ := Option.filter_eq_some_iff.1 hfound
  rw [mainAt?, ← Array.getElem?_toList, hm tip htip, ht.getElem?_reverse_lineage] at hat
  obtain ⟨hmem, n, hn, hheight⟩ := hat
  rw [hn, Option.any_some, decide_eq_true_eq] at hany
  exact ⟨hmem, c, List.mem_reverse.1 hc, n, hn, hheight, hany⟩

/-- At the height of a checkpoint some checkpoint is found. -/
theorem exists_checkpointAt? {c : Checkpoint} (hc : c ∈ params.checkpoints) :
    ∃ d, params.checkpointAt? c.height = some d := by
  rw [Params.checkpointAt?]
  rcases hfind : params.checkpoints.find? (·.height = c.height) with _ | d
  · have := List.find?_eq_none.1 hfind c hc
    simp at this
  · exact ⟨d, hfind⟩

/-- A new node is no checkpoint of the main chain. -/
theorem latestCheckpoint?_insert (hm : t.MainPath) {header : Header} {parent : Option Nat}
    {status : BlockStatus} {keys : KeySets} :
    (t.insert header parent status keys).latestCheckpoint? params =
      t.latestCheckpoint? params := by
  rw [latestCheckpoint?, latestCheckpoint?]
  congr 1
  funext c
  have hat : (t.insert header parent status keys).mainAt? c.height = t.mainAt? c.height := rfl
  rw [hat]
  rcases hmain : t.mainAt? c.height with _ | i
  · rfl
  · obtain ⟨tip, htip⟩ : ∃ tip, t.tip? = some tip := by
      rcases htip : t.tip? with _ | tip
      · rw [tip?, Array.back?_eq_none_iff] at htip
        simp [mainAt?, htip] at hmain
      · exact ⟨tip, rfl⟩
    rw [mainAt?, ← Array.getElem?_toList, hm tip htip] at hmain
    have hlt := lt_size_of_mem_lineage (List.mem_reverse.1 (List.mem_of_getElem? hmain))
    rw [Option.filter_some, Option.filter_some, node?_insert_of_lt hlt]

end BlockTree

namespace Plan.Admits

variable {s : Setting} {t : BlockTree} {block : Block} {flags : AddFlags} {p : Nat}
  {parent : TreeNode} {keys : KeySets}

theorem checkCheckpoints (h : Admits s t block flags p parent keys) :
    block.checkCheckpoints s.params t (parent.height + 1) = .ok () := by
  obtain ⟨height, hplaced⟩ := h.placed
  have hheight : t.height p + 1 = parent.height + 1 := by
    rw [BlockTree.height, h.node]
    rfl
  rw [Block.checkPlacement] at hplaced
  simp only [hheight] at hplaced
  obtain ⟨_, -, hplaced⟩ := bind_eq_ok.1 hplaced
  split at hplaced
  · obtain ⟨_, hcheck, -⟩ := bind_eq_ok.1 hplaced
    exact hcheck
  · obtain ⟨_, -, hplaced⟩ := bind_eq_ok.1 hplaced
    obtain ⟨_, hcheck, -⟩ := bind_eq_ok.1 hplaced
    exact hcheck

/-- An admitted block is the one that a checkpoint pins at its height. -/
theorem pinned (h : Admits s t block flags p parent keys) {c : Checkpoint}
    (hc : s.params.checkpointAt? (parent.height + 1) = some c) : c.hash = block.hash := by
  have hcheck := h.checkCheckpoints
  rw [Block.checkCheckpoints, hc] at hcheck
  exact (require_bind_eq_ok.1 hcheck).1

/-- An admitted block is not below the latest checkpoint. -/
theorem height_le (h : Admits s t block flags p parent keys) {cp : Nat}
    (hcp : t.latestCheckpoint? s.params = some cp) : t.height cp ≤ parent.height + 1 := by
  have hcheck := h.checkCheckpoints
  rw [Block.checkCheckpoints, hcp] at hcheck
  split at hcheck
  · exact require_eq_ok.1 (require_bind_eq_ok.1 hcheck).2
  · exact require_eq_ok.1 hcheck

end Plan.Admits

namespace BlockTree

variable {s : Setting} {t : BlockTree} {best : BestState} {block : Block} {flags : AddFlags}
  {plan : Plan} {p : Nat} {parent : TreeNode} {keys : KeySets}

namespace Settled

/-- A node that becomes invalid takes all its descendants along. The main chain must not be among
them. -/
theorem setStatuses_invalid {params : Params} (h : t.Settled params) {failed tip : Nat}
    (hfailed : failed < t.size) (htip : t.tip? = some tip) (hsafe : failed ∉ t.lineage tip) :
    (t.setStatuses (t.descendants failed) .invalid).Settled params where
  main_valid := by
    intro tip' i n htip' hi hn
    rw [tip?, main_setStatuses] at htip'
    have heq : tip' = tip := Option.some.inj (htip'.symm.trans htip)
    rw [lineage_setStatuses, heq] at hi
    rw [node?_setStatuses, Option.map_eq_some_iff] at hn
    obtain ⟨m, hm, rfl⟩ := hn
    rw [if_neg]
    · exact h.main_valid htip hi hm
    · intro hin
      exact hsafe (mem_lineage_trans ((mem_descendants hfailed).1 hin) hi)
  closed := by
    intro i n p m hn hp hm hinvalid
    rw [node?_setStatuses, Option.map_eq_some_iff] at hn hm
    obtain ⟨n', hn', rfl⟩ := hn
    obtain ⟨m', hm', rfl⟩ := hm
    have hp' : n'.parent = some p := by
      split at hp <;> exact hp
    by_cases hin : p ∈ t.descendants failed
    · have hi : i ∈ t.descendants failed := by
        rw [mem_descendants hfailed] at hin ⊢
        rw [lineage_child hn' hp']
        exact List.mem_cons_of_mem _ hin
      rw [if_pos hi]
    · rw [if_neg hin] at hinvalid
      have := h.closed hn' hp' hm' hinvalid
      split
      · rfl
      · exact this
  pinned := by
    intro i n c hn hpos hc
    obtain ⟨m, hm, heq⟩ := exists_of_node?_setStatuses hn
    rw [heq] at hpos hc
    have hpin := h.pinned hm hpos hc
    rw [heq]
    exact hpin

/-- An admitted block fits in. -/
theorem grown (h : t.Settled s.params) (hm : Mirror s.params s.tables t)
    (hadmits : Admits s t block flags p parent keys) :
    (Plan.grown t block p keys).Settled s.params where
  main_valid := by
    intro tip i n htip hi hn
    have hlt := hm.path.tip_lt htip
    rw [lineage_grown_of_lt hlt] at hi
    rcases node?_grown hn with ⟨rfl, -⟩ | hn
    · exact absurd (lt_size_of_mem_lineage hi) (Nat.lt_irrefl _)
    · exact h.main_valid htip hi hn
  closed := by
    intro i n q m hn hq hmq hinvalid
    rcases node?_grown hn with ⟨rfl, rfl⟩ | hn
    · rw [parent_newNode hadmits.lt_size] at hq
      obtain rfl := Option.some.inj hq
      rw [node?_grown_of_some _ _ _ hadmits.node] at hmq
      obtain rfl := Option.some.inj hmq
      exact absurd hinvalid hadmits.usable
    · obtain ⟨m', hm'⟩ := exists_parent hn hq
      rw [node?_grown_of_some _ _ _ hm'] at hmq
      obtain rfl := Option.some.inj hmq
      exact h.closed hn hq hm' hinvalid
  pinned := by
    intro i n c hn hpos hc
    rcases node?_grown hn with ⟨rfl, rfl⟩ | hn
    · rw [height_newNode hadmits.node] at hc
      exact (hadmits.pinned hc).symm
    · exact h.pinned hn hpos hc

/-- A branch that passed can become the main chain. -/
theorem switch {params : Params} (h : t.Settled params) (ht : t.Coherent) (hm : t.MainPath)
    {tip fork i : Nat} (htip : t.tip? = some tip) (hi : i < t.size)
    (hforkTip : fork ∈ t.lineage tip) (hfork : fork ∈ t.lineage i)
    (hpassed : ∀ j ∈ t.pathFrom fork i, ∀ n, t.node? j = some n → n.status ≠ .invalid) :
    ((t.setStatuses (t.pathFrom fork i) .valid).setTip i).Settled params where
  main_valid := by
    intro tip' j n htip' hj hn
    rw [tip?_setStatuses_setTip ht hm hi] at htip'
    obtain rfl := Option.some.inj htip'
    rw [lineage_setTip, lineage_setStatuses, lineage_eq_pathFrom_append hfork, List.mem_append,
      List.mem_reverse] at hj
    rw [node?_setTip, node?_setStatuses, Option.map_eq_some_iff] at hn
    obtain ⟨m, hm', rfl⟩ := hn
    by_cases hin : j ∈ t.pathFrom fork i
    · rw [if_pos hin]
    · rw [if_neg hin]
      exact h.main_valid htip (mem_lineage_trans (hj.resolve_left hin) hforkTip) hm'
  closed := by
    intro j n q m hn hq hm' hinvalid
    rw [node?_setTip, node?_setStatuses, Option.map_eq_some_iff] at hn hm'
    obtain ⟨n', hn', rfl⟩ := hn
    obtain ⟨m', hm', rfl⟩ := hm'
    have hq' : n'.parent = some q := by
      split at hq <;> exact hq
    have hold : m'.status = .invalid := by
      split at hinvalid
      · cases hinvalid
      · exact hinvalid
    have hbad := h.closed hn' hq' hm' hold
    rw [if_neg fun hin => hpassed j hin n' hn' hbad]
    exact hbad
  pinned := by
    intro j n c hn hpos hc
    obtain ⟨m, hm', heq⟩ := exists_of_node?_setStatuses (by simpa using hn)
    rw [heq] at hpos hc
    have hpin := h.pinned hm' hpos hc
    rw [heq]
    exact hpin

/-- A branch that is preferred leaves the main chain at the latest checkpoint or above it. -/
theorem checkFork_eq_ok (h : t.Settled s.params) (hm : Mirror s.params s.tables t)
    (hgrown : (Plan.grown t block p keys).Coherent)
    (hadmits : Admits s t block flags p parent keys) {tip fork : Nat}
    (htip : t.tip? = some tip)
    (hfork : (Plan.grown t block p keys).findFork? tip t.size = some fork) :
    checkFork s.params (Plan.grown t block p keys) fork (newNode t block p keys).hash = .ok () := by
  have hpath : (Plan.grown t block p keys).MainPath := hm.path.insert
  obtain ⟨hforkTip, hforkNew, hlast⟩ := findFork?_spec hgrown hpath hfork
  have hsame : (Plan.grown t block p keys).latestCheckpoint? s.params =
      t.latestCheckpoint? s.params := latestCheckpoint?_insert hm.path
  rw [checkFork, hsame]
  rcases hcp : t.latestCheckpoint? s.params with _ | cp
  · rfl
  rw [require_eq_ok]
  obtain ⟨hmem, c, hc, n, hn, hheight, -⟩ := of_latestCheckpoint? hm.coherent hm.path htip hcp
  obtain ⟨f, hf⟩ := BlockTree.exists_node (lt_size_of_mem_lineage hforkNew)
  have hn' := node?_grown_of_some block p keys hn
  rw [BlockTree.height, BlockTree.height, hn', hf, Option.map_some, Option.map_some,
    Option.getD_some, Option.getD_some]
  by_contra hlow
  -- the new branch passes the height of the checkpoint, and its block stands there
  have hle := hadmits.height_le hcp
  rw [BlockTree.height, hn, Option.map_some, Option.getD_some] at hle
  have hlen := hgrown.length_lineage (node?_grown_size t block p keys)
  rw [height_newNode hadmits.node] at hlen
  obtain ⟨a, ha⟩ : ∃ a, ((Plan.grown t block p keys).lineage t.size).reverse[n.height]? = some a :=
    ⟨_, List.getElem?_eq_getElem (by
      rw [List.length_reverse]
      omega)⟩
  obtain ⟨hamem, m, hma, hmheight⟩ := hgrown.getElem?_reverse_lineage.1 ha
  obtain ⟨d, hpin⟩ := exists_checkpointAt? hc
  rw [← hheight] at hpin
  have hnhash : n.hash = d.hash := h.pinned hn (by omega) hpin
  have hmhash : m.hash = d.hash := by
    rcases node?_grown hma with ⟨-, rfl⟩ | hma
    · rw [← hmheight, height_newNode hadmits.node] at hpin
      exact (hadmits.pinned hpin).symm
    · exact h.pinned hma (by omega) (hmheight ▸ hpin)
  have heq := hgrown.eq_of_hash_eq hma hn' (hmhash.trans hnhash.symm)
  have hcpTip : cp ∈ (Plan.grown t block p keys).lineage tip := by
    rw [lineage_grown_of_lt (hm.path.tip_lt htip)]
    exact hmem
  have hbelow := hgrown.height_le (hlast cp hcpTip (heq ▸ hamem)) hn' hf
  exact hlow hbelow

/-- A plan keeps what validation has found out consistent. -/
theorem of_plan (h : t.Settled s.params) (hm : Mirror s.params s.tables t)
    (hadds : Adds s t best block flags p parent keys plan) :
    plan.tree.Settled s.params := by
  obtain ⟨hb, hnew, hadmits, hplan⟩ := hadds
  have hgrown := hm.grown hb hnew hadmits
  have hsettled := h.grown hm hadmits
  cases hplan with
  | stored => exact hsettled
  | tooOld => exact hsettled
  | @rejected tip fork failed tipNode view dropped violation htip hnode better hfork hdetach
      hbroken =>
    obtain ⟨hmem, hsafe⟩ :=
      Switch.mem_lineage_of_broken hgrown.coherent hgrown.path hfork hbroken
    exact hsettled.setStatuses_invalid (lt_size_of_mem_lineage hmem) htip hsafe
  | @switched tip fork tipNode view view' dropped attached htip hnode better hfork hdetach
      hcomplete =>
    obtain ⟨hforkTip, hforkNew, -⟩ := findFork?_spec hgrown.coherent hgrown.path hfork
    obtain ⟨-, hstatus⟩ := Switch.attachedBy_of_attach hcomplete
    exact hsettled.switch hgrown.coherent hgrown.path htip (by simp) hforkTip hforkNew
      fun j hj n hn => hstatus (j, n) (mem_located.2 ⟨hj, hn⟩)

end Settled

/-- The tip of a tree stays, or moves to a node that is better. -/
def TipImproves (t t' : BlockTree) : Prop :=
  ∀ ⦃tip m tip' m'⦄, t.tip? = some tip → t.node? tip = some m → t'.tip? = some tip' →
    t'.node? tip' = some m' → m'.work = m.work ∧ m'.hash = m.hash ∨ m'.isBetterThan m = true

theorem TipImproves.refl (t : BlockTree) : t.TipImproves t := by
  intro tip m tip' m' htip hm htip' hm'
  obtain rfl := Option.some.inj (htip.symm.trans htip')
  obtain rfl := Option.some.inj (hm.symm.trans hm')
  exact Or.inl ⟨rfl, rfl⟩

theorem TipImproves.trans {t u v : BlockTree} (h : t.TipImproves u) (h' : u.TipImproves v)
    {tip : Nat} {m : TreeNode} (htip : u.tip? = some tip) (hm : u.node? tip = some m) :
    t.TipImproves v := by
  intro tip₁ m₁ tip₂ m₂ htip₁ hm₁ htip₂ hm₂
  rcases h' htip hm htip₂ hm₂ with ⟨hwork, hhash⟩ | hbetter
  · rcases h htip₁ hm₁ htip hm with ⟨hwork', hhash'⟩ | hbetter'
    · exact Or.inl ⟨hwork.trans hwork', hhash.trans hhash'⟩
    · refine Or.inr ?_
      rw [← hbetter']
      exact TreeNode.isBetterThan_congr ⟨hwork, hhash⟩ ⟨rfl, rfl⟩
  · rcases h htip₁ hm₁ htip hm with ⟨hwork', hhash'⟩ | hbetter'
    · refine Or.inr ?_
      rw [← hbetter]
      exact TreeNode.isBetterThan_congr ⟨rfl, rfl⟩ ⟨hwork'.symm, hhash'.symm⟩
    · exact Or.inr (TreeNode.isBetterThan_trans hbetter hbetter')

/-- The new node becomes the tip, and is better than the old one; or else it loses against the tip,
unless it is invalid. -/
theorem Settled.newest_of_plan (h : t.Settled s.params) (hm : Mirror s.params s.tables t)
    (hadds : Adds s t best block flags p parent keys plan)
    (hwork : 0 < Work.work block.header.bits)
    (hexact : (Plan.grown t block p keys).ExactWork) {tip : Nat} {tipNode : TreeNode}
    (htip : t.tip? = some tip) (hnode : t.node? tip = some tipNode) :
    (plan.tree.tip? = some tip ∧ ∀ n, plan.tree.node? t.size = some n → n.status ≠ .invalid →
      tipNode.isBetterThan n = true) ∨
    (plan.tree.tip? = some t.size ∧ ∀ n, plan.tree.node? t.size = some n →
      n.isBetterThan tipNode = true) := by
  obtain ⟨hb, hnew, hadmits, hplan⟩ := hadds
  have hgrown := hm.grown hb hnew hadmits
  have hnode' := node?_grown_of_some block p keys hnode
  cases hplan with
  | @stored tip₁ tipNode₁ htip₁ hnode₁ side worse =>
    obtain rfl := Option.some.inj (htip₁.symm.trans htip)
    obtain rfl := Option.some.inj (hnode₁.symm.trans hnode')
    refine Or.inl ⟨htip, fun n hn _ => ?_⟩
    obtain rfl := Option.some.inj ((node?_grown_size ..).symm.trans hn)
    exact TreeNode.isBetterThan_of_not (hm.coherent.hash_ne hnode hnew).symm worse
  | tooOld htip₁ hnode₁ better hfork old =>
    rw [h.checkFork_eq_ok hm hgrown.coherent hadmits htip₁ hfork] at old
    cases old
  | @rejected tip₁ fork failed tipNode₁ view dropped violation htip₁ hnode₁ better hfork hdetach
      hbroken =>
    obtain ⟨hmem, -⟩ := Switch.mem_lineage_of_broken hgrown.coherent hgrown.path hfork hbroken
    refine Or.inl ⟨tip?_reject.trans htip, fun n hn hvalid => ?_⟩
    -- the new node goes down with the one that failed
    rw [node?_reject (lt_size_of_mem_lineage hmem) (node?_grown_size ..), if_pos hmem] at hn
    rw [← Option.some.inj hn] at hvalid
    exact absurd rfl hvalid
  | @switched tip₁ fork tipNode₁ view view' dropped attached htip₁ hnode₁ better hfork hdetach
      hcomplete =>
    obtain rfl := Option.some.inj (htip₁.symm.trans htip)
    obtain rfl := Option.some.inj (hnode₁.symm.trans hnode')
    have hwins : (newNode t block p keys).isBetterThan tipNode₁ = true := by
      rcases better with hparent | hbetter
      · exact isBetterThan_of_parent hgrown.coherent hexact (node?_grown_size ..) hparent hnode'
          hwork
      · exact hbetter
    refine Or.inr ⟨tip?_setStatuses_setTip hgrown.coherent hgrown.path size_grown_lt,
      fun n hn => ?_⟩
    obtain ⟨k, hk, heq⟩ := exists_of_node?_setStatuses (by simpa using hn)
    obtain rfl := Option.some.inj ((node?_grown_size ..).symm.trans hk)
    rw [heq]
    exact hwins

/-- All nodes of a plan but the new one and the old tip are worse than that tip, or invalid. -/
theorem Elected.isBetterThan_of_plan (h : t.Elected s.params)
    (hadds : Adds s t best block flags p parent keys plan) {tip i : Nat} {tipNode n : TreeNode}
    (htip : t.tip? = some tip) (hnode : t.node? tip = some tipNode)
    (hn : plan.tree.node? i = some n) (hne : i ≠ tip) (hnew : i ≠ t.size)
    (hvalid : n.status ≠ .invalid) : tipNode.isBetterThan n = true := by
  obtain ⟨k, hk, -⟩ := hadds.selected.exists_of_node hn
  obtain ⟨status, hn', hinvalid, -⟩ := hadds.selected.exists_status hk
  obtain rfl := Option.some.inj (hn.symm.trans hn')
  rcases node?_grown hk with ⟨rfl, -⟩ | hk
  · exact absurd rfl hnew
  · have hbetter := h.best htip hnode hk hne fun hk => hvalid (hinvalid hk)
    exact hbetter

/-- A plan keeps the main chain the best branch, and improves the tip if it moves it. -/
theorem Elected.of_plan (h : t.Elected s.params) (hm : Mirror s.params s.tables t)
    (hadds : Adds s t best block flags p parent keys plan)
    (hwork : 0 < Work.work block.header.bits)
    (hexact : (Plan.grown t block p keys).ExactWork) :
    plan.tree.Elected s.params ∧ t.TipImproves plan.tree := by
  have hsettled := h.toSettled.of_plan hm hadds
  obtain ⟨tip, tipNode, htip, hnode, -⟩ := hm.tip
  obtain ⟨status, hnode', -⟩ :=
    hadds.selected.exists_status (node?_grown_of_some block p keys hnode)
  rcases h.toSettled.newest_of_plan hm hadds hwork hexact htip hnode with
    ⟨htip', hloses⟩ | ⟨htip', hwins⟩
  · -- the tip stays
    constructor
    · refine ⟨hsettled, fun {tip₂ m i n} htip₂ hm₂ hn hne hvalid => ?_⟩
      obtain rfl := Option.some.inj (htip₂.symm.trans htip')
      obtain rfl := Option.some.inj (hm₂.symm.trans hnode')
      have hbetter : tipNode.isBetterThan n = true := by
        by_cases hi : i = t.size
        · exact hloses n (hi ▸ hn) hvalid
        · exact h.isBetterThan_of_plan hadds htip hnode hn hne hi hvalid
      exact hbetter
    · intro tip₂ m tip₃ m' htip₂ hm₂ htip₃ hm₃
      obtain rfl := Option.some.inj (htip₂.symm.trans htip)
      obtain rfl := Option.some.inj (htip₃.symm.trans htip')
      obtain rfl := Option.some.inj (hm₂.symm.trans hnode)
      obtain rfl := Option.some.inj (hm₃.symm.trans hnode')
      exact Or.inl ⟨rfl, rfl⟩
  · -- the new node is the tip
    constructor
    · refine ⟨hsettled, fun {tip₂ m i n} htip₂ hm₂ hn hne hvalid => ?_⟩
      obtain rfl := Option.some.inj (htip₂.symm.trans htip')
      have hbetter := hwins m hm₂
      by_cases hi : i = tip
      · subst hi
        obtain rfl := Option.some.inj (hn.symm.trans hnode')
        exact hbetter
      · exact TreeNode.isBetterThan_trans hbetter
          (h.isBetterThan_of_plan hadds htip hnode hn hi hne hvalid)
    · intro tip₂ m tip₃ m' htip₂ hm₂ htip₃ hm₃
      obtain rfl := Option.some.inj (htip₂.symm.trans htip)
      obtain rfl := Option.some.inj (htip₃.symm.trans htip')
      obtain rfl := Option.some.inj (hm₂.symm.trans hnode)
      exact Or.inr (hwins m' hm₃)

end BlockTree

end PermissionedLedger
