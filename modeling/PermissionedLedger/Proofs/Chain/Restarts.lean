import Mathlib
import PermissionedLedger.Chain.Queries
import PermissionedLedger.Proofs.Chain.Outcomes
import PermissionedLedger.Proofs.Chain.Renumbering

/-!
# Restarts

A chain that is opened on the store of another knows the same blocks and has the same main
chain and the same best state; only orphans are lost. From then on both give the same
answers to the same calls (`Chain.restart_loses_orphans_only`).

The loaded tree may number the blocks in another way, which depends on the order in which the
store lists them (`Chain.Reachable.exists_ofRecords`). `ChainState.Twins` are the two states,
and a call keeps them twins. Nodes may be marked as invalid in another order, so the store
must not depend on the order of writes (`ChainStore.IgnoresOrder`). It may refuse commits,
if only it would refuse both.
-/

namespace PermissionedLedger

open BlockTree
open Time (Instant)

/-! ## What is known of a block -/

/-- What a chain knows of a block. -/
structure BlockInfo where
  /-- digest of the parent -/
  parent : Option Digest
  /-- distance from genesis -/
  height : Nat
  /-- total work -/
  work : Nat
  /-- how far it has been validated -/
  status : BlockStatus
  /-- header of the block -/
  header : Header
  /-- keys in force after it -/
  keys : KeySets

/-- What a tree says of the block with a digest. -/
def BlockTree.info? (t : BlockTree) (hash : Digest) : Option BlockInfo :=
  (t.findNode? hash).map fun n =>
    { parent := (n.parent.bind t.node?).map (·.hash)
      height := n.height
      work := n.work
      status := n.status
      header := n.header
      keys := n.keys }

section Trees

variable {params : Params} {T : Tables} {t t' : BlockTree}

theorem Mirror.info?_eq (h : Mirror params T t) (h' : Mirror params T t') (hash : Digest) :
    t.info? hash = t'.info? hash := by
  rw [info?, info?]
  rcases hfound : t.findNode? hash with _ | n
  · rcases hfound' : t'.findNode? hash with _ | m
    · rfl
    · obtain ⟨j, hm, rfl⟩ := h'.coherent.findNode?_iff.1 hfound'
      obtain ⟨i, n, hn, heq⟩ := h'.exists_node h hm
      rw [← heq, h.coherent.findNode?_eq_some hn] at hfound
      cases hfound
  · obtain ⟨i, hn, rfl⟩ := h.coherent.findNode?_iff.1 hfound
    obtain ⟨j, m, hm, heq⟩ := h.exists_node h' hn
    have hfound' := h'.coherent.findNode?_eq_some hm
    have hfacts := h.facts_eq h' hn hm heq.symm
    have hparent : (n.parent.bind t.node?).map (·.hash) =
        (m.parent.bind t'.node?).map (·.hash) := by
      rcases h.parents_eq h' hn hm heq.symm with ⟨hp, hq⟩ | ⟨p, k, q, l, hp, hk, hq, hl, hsame⟩
      · rw [hp, hq]
        rfl
      · rw [hp, hq, Option.bind_some, Option.bind_some, hk, hl, Option.map_some, Option.map_some,
          hsame]
    rw [← heq, hfound', Option.map_some, Option.map_some, hparent,
      TreeNode.congr_of_facts (·.height) hfacts, TreeNode.congr_of_facts (·.work) hfacts,
      TreeNode.congr_of_facts (·.status) hfacts, TreeNode.congr_of_facts (·.header) hfacts,
      TreeNode.congr_of_facts (·.keys) hfacts]

/-- The main chains are the same. -/
theorem Mirror.history_tip_eq (h : Mirror params T t) (h' : Mirror params T t') {tip tip' : Nat}
    (htip : t.tip? = some tip) (htip' : t'.tip? = some tip') :
    t.history tip = t'.history tip' := by
  obtain ⟨n, hn⟩ := BlockTree.exists_node (h.path.tip_lt htip)
  obtain ⟨m, hm⟩ := BlockTree.exists_node (h'.path.tip_lt htip')
  exact h.history_eq h' hn hm (h.tip_eq h' htip hn htip' hm)

theorem Mirror.mainHash_eq (h : Mirror params T t) (h' : Mirror params T t') (height : Nat) :
    ((t.mainAt? height).bind t.node?).map (·.hash) =
      ((t'.mainAt? height).bind t'.node?).map (·.hash) := by
  obtain ⟨tip, n, htip, -⟩ := h.tip
  obtain ⟨tip', m, htip', -⟩ := h'.tip
  have hmain := h.history_tip_eq h' htip htip'
  have hnode := getElem?_reverse_history h.path htip height
  rw [hmain, getElem?_reverse_history h'.path htip'] at hnode
  have hhash := congrArg (Option.map (·.hash)) hnode
  rw [Option.map_map, Option.map_map] at hhash
  exact hhash.symm

/-- The best state does not depend on how the tree numbers its nodes. -/
theorem Mirror.best_eq {best best' : BestState} (h : Mirror params T t) (h' : Mirror params T t')
    (hbest : BestState.ofTables params T t = .ok best)
    (hbest' : BestState.ofTables params T t' = .ok best') : best = best' := by
  obtain ⟨tip, n, b, htip, hn, hb, rfl⟩ := BestState.ofTables_eq_ok.1 hbest
  obtain ⟨tip', m, b', htip', hm, hb', rfl⟩ := BestState.ofTables_eq_ok.1 hbest'
  have heq := h.tip_eq h' htip hn htip' hm
  rw [← heq] at hb'
  obtain rfl := Option.some.inj (hb.symm.trans hb')
  exact BestState.ofTip_congr (h.facts_eq h' hn hm heq)
    (headers_eq_of_history (h.history_tip_eq h' htip htip')) params b

end Trees

/-! ## Twins -/

/-- A store to which the order of writes does not matter, where it does not matter for what is
stored. -/
def ChainStore.IgnoresOrder (σ : Type) [ChainStore σ] : Prop :=
  ∀ (s : σ) (a b : Batch) (T : Tables), a.Perm b →
    (ChainStore.tables s).tryWriteAll a = .ok T → (ChainStore.tables s).tryWriteAll b = .ok T →
    ChainStore.commit s a = ChainStore.commit s b

theorem MemoryStore.ignoresOrder : ChainStore.IgnoresOrder MemoryStore := by
  intro s a b T _ ha hb
  change s.tables.tryWriteAll a = _ at ha
  change s.tables.tryWriteAll b = _ at hb
  change s.commit a = s.commit b
  rw [MemoryStore.commit, MemoryStore.commit, Tables.firstUnknown?_eq_none ha,
    Tables.firstUnknown?_eq_none hb, ← Tables.eq_writeAll_of_tryWriteAll ha,
    ← Tables.eq_writeAll_of_tryWriteAll hb]

theorem PersistentStore.ignoresOrder : ChainStore.IgnoresOrder PersistentStore := by
  intro s a b T _ ha hb
  change s.tables.tryWriteAll a = _ at ha
  change s.tables.tryWriteAll b = _ at hb
  change s.commit a = s.commit b
  rw [PersistentStore.commit, PersistentStore.commit, ha, hb]

variable {σ : Type} [ChainStore σ] {params : Params} {verify : Verifier} {flags : AddFlags}

namespace ChainState

section Searching

variable {s u : ChainState σ} {pool : OrphanPool} {parent : Digest} {parents : List Digest}
  {now : Instant}

/-- A failure with the orphans of one block ends the search. -/
theorem acceptOrphans_cons_of_error {fault : EngineFault}
    (h : ChainState.acceptAll params verify flags s [] (pool.takeChildren parent now).1 =
      (.error fault, u)) :
    s.acceptOrphans params verify flags now pool (parent :: parents) =
      (.error fault, u, (pool.takeChildren parent now).2) := by
  rw [ChainState.acceptOrphans]
  split
  · next heq =>
    obtain ⟨hfault, rfl⟩ := Prod.mk.inj (heq.symm.trans h)
    rw [Except.error.inj hfault]
  · next heq => cases (Prod.mk.inj (heq.symm.trans h)).1

/-- Otherwise it goes on with those that were accepted. -/
theorem acceptOrphans_cons_of_ok {accepted : List Digest}
    (h : ChainState.acceptAll params verify flags s [] (pool.takeChildren parent now).1 =
      (.ok accepted, u)) :
    s.acceptOrphans params verify flags now pool (parent :: parents) =
      u.acceptOrphans params verify flags now (pool.takeChildren parent now).2
        (accepted ++ parents) := by
  rw [ChainState.acceptOrphans]
  split
  · next heq => cases (Prod.mk.inj (heq.symm.trans h)).1
  · next heq =>
    obtain ⟨haccepted, rfl⟩ := Prod.mk.inj (heq.symm.trans h)
    rw [Except.ok.inj haccepted]

end Searching

/-- Two states of one store, whose trees need not number their nodes in one way. -/
structure Twins (params : Params) (s s' : ChainState σ) : Prop where
  /-- what is stored is the same -/
  store : s'.store = s.store
  /-- one tree shows it -/
  mirror : Mirror params s.tables s.tree
  /-- and so does the other -/
  mirror' : Mirror params s.tables s'.tree
  /-- the main chain can be undone -/
  journaled : Journaled s.tables s.tree
  /-- the best state is the same -/
  best : s'.best = s.best

namespace Twins

variable [LawfulChainStore σ] {s s' : ChainState σ} {b : Block} {blocks rest : List Block}

/-- The same comes of adding a block. -/
theorem accept (hσ : ChainStore.IgnoresOrder σ) (h : Twins params s s') (hb : b.WellFormed)
    (hnew : s.tree.find? b.hash = none) (verify : Verifier) (flags : AddFlags) :
    ∃ r u u', s.accept params verify b flags = (r, u) ∧ s'.accept params verify b flags = (r, u') ∧
      Twins params u u' := by
  rw [ChainState.accept, ChainState.accept, h.store, h.best]
  rcases Plan.ofBlock_agrees (s := ⟨params, verify, s.tables⟩) h.mirror h.mirror' h.journaled hb hnew
    s.best flags with ⟨failure, hplan, hplan'⟩ | ⟨plan, plan', hplan, hplan', hagrees⟩
  · rw [hplan, hplan']
    exact ⟨_, s, s', rfl, rfl, h⟩
  · rw [hplan, hplan']
    obtain ⟨p, parent, keys, hadmits, hselected⟩ := Plan.ofBlock_eq_ok hplan
    obtain ⟨p', parent', keys', hadmits', hselected'⟩ := Plan.ofBlock_eq_ok hplan'
    have hadds := Plan.Adds.mk hb hnew hadmits hselected
    have hadds' := Plan.Adds.mk hb (h.mirror.find?_eq_none h.mirror' hnew) hadmits' hselected'
    have hwrite := hadds'.tryWriteAll_eq_ok h.mirror'
    have hmirror' := h.mirror'.of_plan hadds'
    -- both plans are committed, or both are refused
    rw [← hagrees.effect] at hwrite hmirror'
    simp only [← hσ s.store plan.batch plan'.batch _ hagrees.batch
      (hadds.tryWriteAll_eq_ok h.mirror) hwrite, ← hagrees.verdict]
    rcases hcommit : ChainStore.commit s.store plan.batch with ⟨e | u, store⟩
    · have htables := LawfulChainStore.tables_of_error _ _ _ _ hcommit
      refine ⟨_, _, _, rfl, rfl, rfl, ?_, ?_, ?_, rfl⟩ <;> rw [ChainState.tables, htables]
      · exact h.mirror
      · exact h.mirror'
      · exact h.journaled
    · have htables := LawfulChainStore.tables_of_ok _ _ _ hcommit
      refine ⟨_, _, _, rfl, rfl, rfl, ?_, ?_, ?_, hagrees.best.symm⟩ <;>
        rw [ChainState.tables, htables]
      · exact h.mirror.of_plan hadds
      · exact hmirror'
      · exact h.journaled.of_plan h.mirror hadds

/-- The same comes of several blocks. -/
theorem acceptAll (hσ : ChainStore.IgnoresOrder σ) (h : Twins params s s')
    (hw : Waiting (Block.Checked params verify) s.tree (blocks ++ rest)) (flags : AddFlags)
    (accepted : List Digest) :
    ∃ r u u', ChainState.acceptAll params verify flags s accepted blocks = (r, u) ∧
      ChainState.acceptAll params verify flags s' accepted blocks = (r, u') ∧
      Twins params u u' := by
  induction blocks generalizing s s' accepted with
  | nil => exact ⟨_, s, s', rfl, rfl, h⟩
  | cons b blocks ih =>
    obtain ⟨r, u, u', haccept, haccept', hu⟩ := h.accept hσ
      (hw.holds b (List.mem_cons_self ..)).wellFormed (hw.unknown b (List.mem_cons_self ..)) verify flags
    have hrest := hw.accept haccept
    rw [ChainState.acceptAll, ChainState.acceptAll, haccept, haccept']
    rcases r with (violation | fault) | isTip
    · exact ih hu hrest accepted
    · exact ⟨_, u, u', rfl, rfl, hu⟩
    · exact ih hu hrest _

/-- The same comes of the orphans. -/
theorem acceptOrphans (hσ : ChainStore.IgnoresOrder σ) (h : Twins params s s') {pool : OrphanPool}
    (hw : Waiting (Block.Checked params verify) s.tree pool.blocks) (flags : AddFlags)
    (now : Instant) (k : Nat) (parents : List Digest) :
    ∃ r u u' pool', s.acceptOrphans params verify flags now pool parents = (r, u, pool') ∧
      s'.acceptOrphans params verify flags now (pool.shift k) parents = (r, u', pool'.shift k) ∧
      Twins params u u' := by
  revert s'
  fun_induction ChainState.acceptOrphans params verify flags now s pool parents with
  | case1 s pool =>
    intro s' h
    rw [ChainState.acceptOrphans]
    exact ⟨_, s, s', pool, rfl, rfl, h⟩
  | case2 s pool parent parents taken fault v haccept =>
    intro s' h
    obtain ⟨children, hsub, hperm⟩ := pool.blocks_takeChildren parent now
    obtain ⟨r, u, u', hall, hall', hu⟩ := h.acceptAll hσ
      ((hw.perm hperm).sublist (hsub.append (List.Sublist.refl _))) flags []
    obtain ⟨rfl, rfl⟩ := Prod.mk.inj (haccept.symm.trans hall)
    have htaken := pool.takeChildren_shift k parent now
    refine ⟨_, _, u', taken.2, rfl, ?_, hu⟩
    rw [acceptOrphans_cons_of_error (by rw [htaken]; exact hall'), htaken]
  | case3 s pool parent parents taken accepted v haccept ih =>
    intro s' h
    obtain ⟨children, hsub, hperm⟩ := pool.blocks_takeChildren parent now
    have hw' := (hw.perm hperm).sublist (hsub.append (List.Sublist.refl _))
    obtain ⟨r, u, u', hall, hall', hu⟩ := h.acceptAll hσ hw' flags []
    obtain ⟨rfl, rfl⟩ := Prod.mk.inj (haccept.symm.trans hall)
    obtain ⟨-, hrest⟩ := acceptAll_steps hw' haccept
    obtain ⟨r, w, w', pool', horphans, horphans', htwins⟩ := ih hrest hu
    have htaken := pool.takeChildren_shift k parent now
    refine ⟨r, w, w', pool', horphans, ?_, htwins⟩
    rw [acceptOrphans_cons_of_ok (by rw [htaken]; exact hall'), htaken]
    exact horphans'

end Twins

end ChainState

namespace Chain

/-- Two chains that differ in how their trees number nodes, and from where their pools count. -/
structure Twins (params : Params) (verify : Verifier) (k : Nat) (c c' : Chain σ) : Prop
    extends c.toChainState.Twins params c'.toChainState where
  /-- orphans can be added -/
  orderly : c.Orderly (Block.Checked params verify)
  /-- the same orphans wait -/
  orphans : c'.orphans = c.orphans.shift k
  /-- one has the network -/
  network : c.params = params
  /-- and so does the other -/
  network' : c'.params = params
  /-- one knows what is a valid signature -/
  verifier : c.verify = verify
  /-- and so does the other -/
  verifier' : c'.verify = verify

variable {c c' : Chain σ} {k : Nat} {block : Block} {now : Instant}

/-- The same is checked of a block. -/
theorem Twins.checkNew_eq (h : Twins params verify k c c') (block : Block) (flags : AddFlags)
    (now : Instant) : c'.checkNew block flags now = c.checkNew block flags now := by
  obtain ⟨tip, n, htip, -⟩ := h.mirror.tip
  obtain ⟨tip', m, htip', -⟩ := h.mirror'.tip
  rw [checkNew, checkNew, has, has, h.network, h.network', h.verifier, h.verifier', h.orphans,
    OrphanPool.contains_shift, h.mirror.contains_eq h.mirror',
    Block.checkBounds_congr_of_history h.mirror.path h.mirror'.path htip htip'
      (h.mirror.history_tip_eq h.mirror' htip htip')]

variable [LawfulChainStore σ]

/-- A call does the same to both. -/
theorem Twins.exists_process (hσ : ChainStore.IgnoresOrder σ) (h : Twins params verify k c c')
    (block : Block) (flags : AddFlags) (now : Instant) :
    ∃ r d d', c.process block flags now = (r, d) ∧ c'.process block flags now = (r, d') ∧
      d.toChainState.Twins params d'.toChainState ∧ d'.orphans = d.orphans.shift k ∧
      d'.params = params ∧ d'.verify = verify := by
  rw [Chain.process, Chain.process, h.checkNew_eq]
  rcases hcheckNew : c.checkNew block flags now with violation | u
  · exact ⟨_, _, _, rfl, rfl, h.toTwins, h.orphans, h.network', h.verifier'⟩
  obtain ⟨hnew, -, hcheck⟩ := checkNew_eq_ok hcheckNew
  rw [h.network, h.verifier] at hcheck
  have hchecked : block.Checked params verify := ⟨now, flags, hcheck⟩
  rw [← h.mirror.contains_eq h.mirror', h.network, h.network', h.verifier, h.verifier']
  simp only
  split
  · obtain ⟨r, s, s', haccept, haccept', hs⟩ :=
      h.toTwins.accept hσ hchecked.wellFormed hnew verify flags
    rw [haccept, haccept']
    rcases r with (violation | fault) | isTip
    · exact ⟨_, _, _, rfl, rfl, hs, h.orphans, rfl, rfl⟩
    · exact ⟨_, _, _, rfl, rfl, hs, h.orphans, rfl, rfl⟩
    · have hw := (h.orderly.waiting_cons hchecked hcheckNew).accept haccept
      obtain ⟨r, v, v', pool, horphans, horphans', hv⟩ := hs.acceptOrphans hσ hw flags now k
        [block.hash]
      rw [← h.orphans] at horphans'
      simp only [horphans, horphans']
      rcases r with fault | u
      · exact ⟨_, _, _, rfl, rfl, hv, rfl, rfl, rfl⟩
      · exact ⟨_, _, _, rfl, rfl, hv, rfl, rfl, rfl⟩
  · refine ⟨_, _, _, rfl, rfl, h.toTwins, ?_, rfl, rfl⟩
    rw [h.orphans, OrphanPool.add_shift]

/-- A call gives both the same answer, and keeps them twins. -/
theorem Twins.process (hσ : ChainStore.IgnoresOrder σ) (h : Twins params verify k c c')
    (block : Block) (flags : AddFlags) (now : Instant) :
    (c'.process block flags now).1 = (c.process block flags now).1 ∧
      Twins params verify k (c.process block flags now).2 (c'.process block flags now).2 := by
  obtain ⟨r, d, d', hd, hd', htwins, horphans, hparams', hverify'⟩ :=
    h.exists_process hσ block flags now
  have hchecked : block.check c.params now c.verify flags = .ok () →
      block.Checked params verify := by
    rw [h.network, h.verifier]
    exact fun hcheck => ⟨now, flags, hcheck⟩
  obtain ⟨-, horderly, hparams, hverify⟩ := process_steps h.orderly hchecked hd
  rw [hd, hd']
  exact ⟨rfl, htwins, horderly, horphans, hparams.trans h.network, hparams',
    hverify.trans h.verifier, hverify'⟩

/-! ## Opening a chain anew -/

/-- What several calls answer, one after another. -/
def outcomes (c : Chain σ) : List Call → List (Except EngineFault Outcome)
  | [] => []
  | call :: calls =>
    (c.process call.block call.flags call.now).1 ::
      (c.process call.block call.flags call.now).2.outcomes calls

/-- The chain with an empty pool of orphans. -/
def withoutOrphans (c : Chain σ) : Chain σ := { c with orphans := { c.orphans with held := [] } }

theorem Twins.outcomes_eq (hσ : ChainStore.IgnoresOrder σ) (h : Twins params verify k c c')
    (calls : List Call) : c'.outcomes calls = c.outcomes calls := by
  induction calls generalizing c c' with
  | nil => rfl
  | cons call calls ih =>
    obtain ⟨hanswer, htwins⟩ := h.process hσ call.block call.flags call.now
    rw [outcomes, outcomes, hanswer, ih htwins]

/-- A chain and the one that is opened on its store are twins, but for the orphans. -/
theorem Reachable.twins {allowed : AddFlags → Prop} {store : σ}
    (h : Reachable params verify allowed c)
    (hopen : openStore params verify (.ofLimits c.orphans.capacity c.orphans.lifetime) c.store =
      (.ok c', store)) : Twins params verify c.orphans.turns c' c.withoutOrphans := by
  obtain ⟨-, hparams, hverify⟩ := h.orderly
  obtain ⟨horderly, hparams', hverify'⟩ := orderly_of_openStore hopen
  obtain ⟨htables, hm, hbest⟩ := opened_on_store h.mirror hopen
  obtain ⟨hensure, hstore, -, -, -, -, hpool⟩ := openStore_eq_ok hopen
  obtain ⟨tip, n, -, -, htip⟩ := h.mirror.tip
  rw [ensureGenesis_of_tip htip] at hensure
  obtain ⟨-, rfl⟩ := Prod.mk.inj hensure
  have hcapacity : max c.orphans.capacity 1 = c.orphans.capacity :=
    Nat.max_eq_left c.orphans.capacity_pos
  refine ⟨⟨hstore.symm, ?_, ?_, ?_, h.mirror.best_eq hm h.best_eq hbest⟩, horderly, ?_, hparams',
    hparams, hverify', hverify⟩
  · rw [htables]
    exact hm
  · rw [htables]
    exact h.mirror
  · rw [htables]
    exact h.journaled.of_mirror h.mirror hm
  · simp only [withoutOrphans, hpool, OrphanPool.shift, OrphanPool.ofLimits, hcapacity,
      List.map_nil, Nat.zero_add]

/-- A tree that shows what is stored can stand for the tree of a chain. -/
theorem Reachable.twins_of_mirror {allowed : AddFlags → Prop}
    (h : Reachable params verify allowed c) {t : BlockTree} (hm : Mirror params c.tables t) :
    Twins params verify 0 c { c with tree := t } := by
  obtain ⟨horderly, hparams, hverify⟩ := h.orderly
  exact ⟨⟨rfl, h.mirror, hm, h.journaled, rfl⟩, horderly, c.orphans.shift_zero.symm, hparams,
    hparams, hverify, hverify⟩

/-- A store may list its nodes in any order. The tree that is made of them, lower ones first, says
the same of every block, has the same main chain, and leads to the same answers. -/
theorem Reachable.exists_ofRecords {allowed : AddFlags → Prop} {records : List NodeRecord}
    (h : Reachable params verify allowed c) (hperm : records.Perm c.tables.records)
    (hsorted : records.Pairwise (·.height ≤ ·.height)) :
    ∃ t, BlockTree.ofRecords params c.tables records = .ok t ∧
      (∀ hash, t.info? hash = c.tree.info? hash) ∧
      (∀ height, mainHash? { c with tree := t } height = c.mainHash? height) ∧
      (ChainStore.IgnoresOrder σ →
        ∀ calls, outcomes { c with tree := t } calls = c.outcomes calls) := by
  obtain ⟨t, ht⟩ := h.mirror.exists_ofRecords hperm hsorted
  have hm := h.mirror.of_ofRecords hperm ht
  exact ⟨t, ht, fun hash => hm.info?_eq h.mirror hash,
    fun height => hm.mainHash_eq h.mirror height,
    fun hσ calls => (h.twins_of_mirror hm).outcomes_eq hσ calls⟩

/-- Opening the store of a chain anew loses the orphans and nothing else: the same is known of every
block, the main chain and the best state are the same, and so are the answers to all calls. -/
theorem restart_loses_orphans_only (h : Reachable params verify (fun _ => True) c) :
    ∃ c', openStore params verify (.ofLimits c.orphans.capacity c.orphans.lifetime) c.store =
        (.ok c', c.store) ∧
      (∀ hash, c'.tree.info? hash = c.tree.info? hash) ∧
      (∀ height, c'.mainHash? height = c.mainHash? height) ∧ c'.best = c.best ∧
      (ChainStore.IgnoresOrder σ →
        ∀ calls, c'.outcomes calls = c.withoutOrphans.outcomes calls) := by
  obtain ⟨c', hopen⟩ := h.exists_openStore (.ofLimits c.orphans.capacity c.orphans.lifetime)
  have htwins := h.twins hopen
  exact ⟨c', hopen, fun hash => htwins.mirror.info?_eq htwins.mirror' hash,
    fun height => htwins.mirror.mainHash_eq htwins.mirror' height, htwins.best.symm,
    fun hσ calls => (htwins.outcomes_eq hσ calls).symm⟩

/-- The sample run is opened again in memory. It has switched to another branch and back. -/
theorem restart_sample : ∃ c c' : Chain MemoryStore,
    Reachable Sample.network Sample.trusting (fun _ => True) c ∧ c.tree.size = 4 ∧
      openStore Sample.network Sample.trusting
        (.ofLimits c.orphans.capacity c.orphans.lifetime) c.store = (.ok c', c.store) ∧
      c'.best.hash = Sample.second.hash ∧
      ∀ calls, c'.outcomes calls = c.withoutOrphans.outcomes calls := by
  obtain ⟨c, hreached, hbest, -, hsize, -⟩ := Sample.exists_run (fun _ => True) trivial
  obtain ⟨c', hopen, -, -, hsame, hanswers⟩ := restart_loses_orphans_only hreached
  exact ⟨c, c', hreached, hsize, hopen, hsame ▸ hbest, hanswers MemoryStore.ignoresOrder⟩

end Chain

end PermissionedLedger
