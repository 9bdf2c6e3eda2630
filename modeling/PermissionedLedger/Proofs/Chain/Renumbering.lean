import Mathlib
import PermissionedLedger.Proofs.Chain.Progress
import PermissionedLedger.Proofs.Tree.Histories

/-!
# Trees that number their nodes differently

Trees that show the same tables have the same nodes with the same histories
(`Mirror.history_eq`), and so they lead to the same plans: the forks are at the same blocks
(`Mirror.fork_eq`), the blocks to undo and to attach are the same and with them every write
(`Switch.detach_congr`, `Switch.attach_congr`), and the verdict is the same
(`Plan.ofBlock_agrees`).

Only where a branch is given up, its nodes are marked as invalid in another order. The
tables are the same then as well.
-/

namespace PermissionedLedger

open BlockTree

variable {params : Params} {T : Tables} {t t' : BlockTree}

/-! ## Nodes -/

namespace Mirror

section Nodes

variable {i j : Nat} {n m : TreeNode}

/-- Nodes with one digest differ in the positions of their parents only. -/
theorem facts_eq (h : Mirror params T t) (h' : Mirror params T t') (hn : t.node? i = some n)
    (hm : t'.node? j = some m) (heq : n.hash = m.hash) : n.facts = m.facts := by
  have hrecord := h.toRecord_eq h' hn hm heq
  have hheader : n.header = m.header := congrArg NodeRecord.header hrecord
  have hheight : n.height = m.height := congrArg NodeRecord.height hrecord
  have hstatus : n.status = m.status := congrArg NodeRecord.status hrecord
  rw [TreeNode.facts, TreeNode.facts, heq, hheader, hheight, hstatus,
    (h.work_eq h' hn hm heq).1, h.keys_eq h' hn hm heq]

theorem history_eq (h : Mirror params T t) (h' : Mirror params T t') (hn : t.node? i = some n)
    (hm : t'.node? j = some m) (heq : n.hash = m.hash) : t.history i = t'.history j := by
  induction i, node?_lt hn using lineage_induction generalizing j n m with
  | root i k hk hp =>
    obtain rfl := Option.some.inj (hn.symm.trans hk)
    rcases h.parents_eq h' hn hm heq with ⟨-, hq⟩ | ⟨p, k, q, l, hp', -⟩
    · rw [history_root hn hp, history_root hm hq, h.facts_eq h' hn hm heq]
    · cases hp.symm.trans hp'
  | child i k p hk hp ih =>
    obtain rfl := Option.some.inj (hn.symm.trans hk)
    rcases h.parents_eq h' hn hm heq with ⟨hp', -⟩ | ⟨p', k, q, l, hp', hk', hq, hl, hparents⟩
    · cases hp.symm.trans hp'
    · obtain rfl := Option.some.inj (hp.symm.trans hp')
      rw [history_child hn hp, history_child hm hq, h.facts_eq h' hn hm heq, ih hk' hl hparents]

/-- Nodes of one digest have the same parent. -/
theorem parent_eq_some_iff (h : Mirror params T t) (h' : Mirror params T t') {a b : Nat}
    {k l : TreeNode} (hn : t.node? i = some n) (hm : t'.node? j = some m) (heq : n.hash = m.hash)
    (hk : t.node? a = some k) (hl : t'.node? b = some l) (heq' : k.hash = l.hash) :
    n.parent = some a ↔ m.parent = some b := by
  rcases h.parents_eq h' hn hm heq with ⟨hp, hq⟩ | ⟨p, k', q, l', hp, hk', hq, hl', hparents⟩
  · rw [hp, hq]
    simp
  · rw [hp, hq, Option.some.injEq, Option.some.injEq]
    constructor
    · rintro rfl
      obtain rfl := Option.some.inj (hk'.symm.trans hk)
      exact h'.coherent.eq_of_hash_eq hl' hl (hparents.symm.trans heq')
    · rintro rfl
      obtain rfl := Option.some.inj (hl'.symm.trans hl)
      exact h.coherent.eq_of_hash_eq hk' hk (hparents.trans heq'.symm)

theorem contains_eq (h : Mirror params T t) (h' : Mirror params T t') (hash : Digest) :
    t.contains hash = t'.contains hash := by
  rw [Bool.eq_iff_iff, h.coherent.contains_iff, h'.coherent.contains_iff]
  constructor
  · rintro ⟨i, n, hn, rfl⟩
    exact h.exists_node h' hn
  · rintro ⟨j, m, hm, rfl⟩
    exact h'.exists_node h hm

theorem find?_eq_none (h : Mirror params T t) (h' : Mirror params T t') {hash : Digest}
    (hnew : t.find? hash = none) : t'.find? hash = none := by
  rw [← contains_eq_false_iff] at hnew ⊢
  exact (h.contains_eq h' hash).symm.trans hnew

/-- An ancestor in one tree is one in the other. -/
theorem mem_lineage_of_mem (h : Mirror params T t) (h' : Mirror params T t') {a b : Nat}
    {k l : TreeNode} (hn : t.node? i = some n) (hm : t'.node? j = some m) (heq : n.hash = m.hash)
    (hk : t.node? a = some k) (hl : t'.node? b = some l) (heq' : k.hash = l.hash)
    (ha : a ∈ t.lineage i) : b ∈ t'.lineage j := by
  obtain ⟨b', l', k', hb', hl', hk', hsame⟩ := h'.exists_ancestor h hm hn heq.symm ha
  obtain rfl := Option.some.inj (hk.symm.trans hk')
  obtain rfl := h'.coherent.eq_of_hash_eq hl hl' (heq'.symm.trans hsame.symm)
  exact hb'

/-- The fork of two blocks is the same block in both trees. -/
theorem fork_eq (h : Mirror params T t) (h' : Mirror params T t') {a a' b b' f f' : Nat}
    {na na' nb nb' nf nf' : TreeNode} (ha : t.node? a = some na) (ha' : t'.node? a' = some na')
    (haeq : na.hash = na'.hash) (hb : t.node? b = some nb) (hb' : t'.node? b' = some nb')
    (hbeq : nb.hash = nb'.hash) (hf : t.findFork? a b = some f)
    (hf' : t'.findFork? a' b' = some f') (hnf : t.node? f = some nf)
    (hnf' : t'.node? f' = some nf') : nf.hash = nf'.hash := by
  obtain ⟨hfa, hfb, hlast⟩ := findFork?_spec h.coherent h.path hf
  obtain ⟨hfa', hfb', hlast'⟩ := findFork?_spec h'.coherent h'.path hf'
  -- each fork is an ancestor of the other
  obtain ⟨g, k, hk, hkeq⟩ := h'.exists_node h hnf'
  obtain ⟨g', k', hk', hkeq'⟩ := h.exists_node h' hnf
  have hg : g ∈ t.lineage f :=
    hlast g (h'.mem_lineage_of_mem h ha' ha haeq.symm hnf' hk hkeq.symm hfa')
      (h'.mem_lineage_of_mem h hb' hb hbeq.symm hnf' hk hkeq.symm hfb')
  have hg' : g' ∈ t'.lineage f' :=
    hlast' g' (h.mem_lineage_of_mem h' ha ha' haeq hnf hk' hkeq'.symm hfa)
      (h.mem_lineage_of_mem h' hb hb' hbeq hnf hk' hkeq'.symm hfb)
  have hle := h.coherent.height_le hg hk hnf
  have hle' := h'.coherent.height_le hg' hk' hnf'
  have hheight : k.height = nf'.height :=
    congrArg NodeRecord.height (h.toRecord_eq h' hk hnf' hkeq)
  have hheight' : nf.height = k'.height :=
    congrArg NodeRecord.height (h.toRecord_eq h' hnf hk' hkeq'.symm)
  obtain rfl := h.coherent.eq_of_height_eq hg (mem_lineage_self (node?_lt hnf)) hk hnf (by omega)
  obtain rfl := Option.some.inj (hk.symm.trans hnf)
  exact hkeq

/-- The digests of all descendants of a node. -/
theorem perm_descendants (h : Mirror params T t) (h' : Mirror params T t')
    (hn : t.node? i = some n) (hm : t'.node? j = some m) (heq : n.hash = m.hash) :
    ((t.located (t.descendants i)).map (·.2.hash)).Perm
      ((t'.located (t'.descendants j)).map (·.2.hash)) := by
  have hsub : ∀ {t t' : BlockTree} {i j : Nat} {n m : TreeNode}, Mirror params T t →
      Mirror params T t' → t.node? i = some n → t'.node? j = some m → n.hash = m.hash →
      (t.located (t.descendants i)).map (·.2.hash) ⊆
        (t'.located (t'.descendants j)).map (·.2.hash) := by
    intro t t' i j n m h h' hn hm heq hash hin
    obtain ⟨⟨a, k⟩, hmem, rfl⟩ := List.mem_map.1 hin
    obtain ⟨ha, hk⟩ := mem_located.1 hmem
    obtain ⟨b, l, hl, heq'⟩ := h.exists_node h' hk
    refine List.mem_map.2 ⟨(b, l), mem_located.2 ⟨(mem_descendants (node?_lt hm)).2 ?_, hl⟩, heq'⟩
    exact h.mem_lineage_of_mem h' hk hl heq'.symm hn hm heq
      ((mem_descendants (node?_lt hn)).1 ha)
  have hnodup : ∀ {t : BlockTree} {i : Nat} {n : TreeNode}, Mirror params T t →
      t.node? i = some n → ((t.located (t.descendants i)).map (·.2.hash)).Nodup :=
    fun h hn => h.nodup_hash_located
      (fun _ hj => lt_size_of_mem ((mem_descendants (node?_lt hn)).1 hj)) (descendants_nodup ..)
  exact (List.perm_ext_iff_of_nodup (hnodup h hn) (hnodup h' hm)).2 fun hash =>
    ⟨@hsub t t' i j n m h h' hn hm heq hash, @hsub t' t j i m n h' h hm hn heq.symm hash⟩

end Nodes

end Mirror

/-! ## Switching -/

namespace Switch

variable {verify : Verifier} {flags : AddFlags}

/-- Undoing nodes looks at their facts only. -/
theorem detach_congr {xs ys : List TreeNode} (h : xs.map (·.facts) = ys.map (·.facts))
    (v : CoinView) : detach T v xs = detach T v ys := by
  induction xs generalizing v ys with
  | nil =>
    rw [List.map_nil, eq_comm, List.map_eq_nil_iff] at h
    rw [h]
  | cons x xs ih =>
    obtain ⟨y, ys, rfl, hxy, hrest⟩ := List.map_eq_cons_iff.1 h.symm
    have hblock : storedBlock T x = storedBlock T y :=
      TreeNode.congr_of_facts (storedBlock T) hxy.symm
    have hjournal : storedJournal T x = storedJournal T y :=
      TreeNode.congr_of_facts (storedJournal T) hxy.symm
    have hhash : x.hash = y.hash := TreeNode.congr_of_facts (·.hash) hxy.symm
    have hdetach := fun v => ih hrest.symm v
    rw [detach, detach, hblock, hjournal, hhash]
    simp only [hdetach]

/-- What comes of attaching two branches: the same, but for the position of the node at which it
stops. -/
inductive Attached.Agrees (ps qs : List (Nat × TreeNode)) : Attached → Attached → Prop
  | complete (view : CoinView) (writes : Batch) :
    Agrees ps qs (.complete view writes) (.complete view writes)
  | broken {i j : Nat} {n m : TreeNode} (violation : Violation) (hi : (i, n) ∈ ps)
    (hj : (j, m) ∈ qs) (hash : n.hash = m.hash) :
    Agrees ps qs (.broken i violation) (.broken j violation)

/-- Attaching nodes looks at their facts only. -/
theorem attach_congr {newest : Block} {ps qs : List (Nat × TreeNode)}
    (h : ps.map (·.2.facts) = qs.map (·.2.facts)) {v : CoinView} {r : Attached}
    (hr : attach T params verify flags newest v ps = .ok r) :
    ∃ r', attach T params verify flags newest v qs = .ok r' ∧ Attached.Agrees ps qs r r' := by
  induction ps generalizing v qs r with
  | nil =>
    rw [List.map_nil, eq_comm, List.map_eq_nil_iff] at h
    rw [h]
    rw [attach] at hr
    obtain rfl := Except.ok.inj hr
    exact ⟨_, rfl, .complete v []⟩
  | cons p ps ih =>
    obtain ⟨i, n⟩ := p
    obtain ⟨⟨j, m⟩, qs, rfl, hmn, hrest⟩ := List.map_eq_cons_iff.1 h.symm
    have hfacts : n.facts = m.facts := hmn.symm
    have hblock : blockOf T newest n = blockOf T newest m :=
      TreeNode.congr_of_facts (blockOf T newest) hfacts
    have hconnect : ∀ b, connectNode params verify flags v n b =
        connectNode params verify flags v m b :=
      fun b => TreeNode.congr_of_facts (connectNode params verify flags v · b) hfacts
    have hwrites : ∀ journal, attachWrites n journal = attachWrites m journal :=
      fun journal => TreeNode.congr_of_facts (attachWrites · journal) hfacts
    have hhash : n.hash = m.hash := TreeNode.congr_of_facts (·.hash) hfacts
    rw [attach]
    rcases attach_cons_eq_ok hr with ⟨b, violation, hb, hbroken, rfl⟩ |
      ⟨b, u, journal, more, hb, hok, hmore, rfl⟩
    · rw [hblock] at hb
      rw [hconnect] at hbroken
      refine ⟨.broken j violation, ?_, .broken violation (List.mem_cons_self ..)
        (List.mem_cons_self ..) hhash⟩
      simp only [hb, hbroken, Except.mapError, bind, Except.bind]
      rfl
    · rw [hblock] at hb
      rw [hconnect] at hok
      obtain ⟨more', hmore', hagrees⟩ := ih hrest.symm hmore
      rw [hwrites]
      cases hagrees with
      | complete view writes =>
        refine ⟨_, ?_, .complete _ _⟩
        simp only [hb, hok, hmore', Except.mapError, bind, Except.bind]
        rfl
      | broken violation hi hj hash =>
        refine ⟨_, ?_, .broken violation (List.mem_cons_of_mem _ hi) (List.mem_cons_of_mem _ hj)
          hash⟩
        simp only [hb, hok, hmore', Except.mapError, bind, Except.bind]
        rfl

end Switch

/-! ## Plans -/

namespace Plan

variable {s : Setting} {best : BestState} {block : Block} {flags : AddFlags} {p p' : Nat}
  {parent parent' : TreeNode} {keys : KeySets}

/-- Two plans come to the same, in trees that need not number their nodes in one way. -/
structure Agrees (T : Tables) (a b : Plan) : Prop where
  /-- what is written -/
  batch : a.batch.Perm b.batch
  /-- what is stored afterwards -/
  effect : T.writeAll a.batch = T.writeAll b.batch
  /-- the best state -/
  best : a.best = b.best
  /-- what becomes of the block -/
  verdict : a.verdict = b.verdict

theorem keysAfter_congr (h : Mirror s.params s.tables t) (h' : Mirror s.params s.tables t')
    (hn : t.node? p = some parent) (hn' : t'.node? p' = some parent')
    (heq : parent.hash = parent'.hash) (block : Block) (flags : AddFlags) :
    keysAfter s t p parent block flags = keysAfter s t' p' parent' block flags := by
  obtain ⟨tip, tipNode, htip, htipNode, -⟩ := h.tip
  obtain ⟨tip', tipNode', htip', htipNode', -⟩ := h'.tip
  have hmain := h.history_eq h' htipNode htipNode' (h.tip_eq h' htip htipNode htip' htipNode')
  have hfacts := h.facts_eq h' hn hn' heq
  have hstatus : parent.status = parent'.status := TreeNode.congr_of_facts (·.status) hfacts
  have hkeys : parent.keys = parent'.keys := TreeNode.congr_of_facts (·.keys) hfacts
  rw [keysAfter, keysAfter, hstatus, heq, hkeys, Block.checkPlacement_congr_of_history h.coherent
    h.path h'.coherent h'.path htip htip' hmain hn hn' (h.history_eq h' hn hn' heq)]

theorem facts_newNode_congr (hn : t.node? p = some parent) (hn' : t'.node? p' = some parent')
    (hfacts : parent.facts = parent'.facts) (block : Block) (keys : KeySets) :
    (newNode t block p keys).facts = (newNode t' block p' keys).facts := by
  have hheight : parent.height = parent'.height := TreeNode.congr_of_facts (·.height) hfacts
  have hwork : parent.work = parent'.work := TreeNode.congr_of_facts (·.work) hfacts
  simp only [newNode, child, TreeNode.facts, Option.bind_some, hn, hn', Option.map_some, hheight,
    hwork]

theorem checkFork_congr {tip tip' fork fork' : Nat} {n m : TreeNode} (h : t.MainPath)
    (h' : t'.MainPath) (htip : t.tip? = some tip) (htip' : t'.tip? = some tip')
    (hmain : t.history tip = t'.history tip') (hn : t.node? fork = some n)
    (hm : t'.node? fork' = some m) (hheight : n.height = m.height) (params : Params)
    (hash : Digest) : checkFork params t fork hash = checkFork params t' fork' hash := by
  have hcheckpoint : (t.latestCheckpoint? params).map t.height =
      (t'.latestCheckpoint? params).map t'.height := by
    rw [height_latestCheckpoint?, height_latestCheckpoint?,
      latestCheckpoint?_congr h h' htip htip' hmain]
  have hfork : t.height fork = t'.height fork' := by
    rw [BlockTree.height, BlockTree.height, hn, hm, Option.map_some, Option.map_some, hheight]
  rw [checkFork, checkFork]
  rcases hc : t.latestCheckpoint? params with _ | c <;>
    rcases hc' : t'.latestCheckpoint? params with _ | c' <;> rw [hc, hc'] at hcheckpoint
  · cases hcheckpoint
  · cases hcheckpoint
  · have hpinned : t.height c = t'.height c' := Option.some.inj hcheckpoint
    simp only [hpinned, hfork]

section Selecting

variable {pending : Batch} {id id' : Nat} {node node' : TreeNode} {plan plan' : Plan}
  (h : Mirror s.params (s.tables.writeAll pending) t)
  (h' : Mirror s.params (s.tables.writeAll pending) t') (hn : t.node? id = some node)
  (hn' : t'.node? id' = some node') (heq : node.hash = node'.hash)

include h h' hn hn' heq

/-- The nodes to undo and those to attach have the same facts. -/
theorem paths_agree {tip tip' fork fork' : Nat} (htip : t.tip? = some tip)
    (htip' : t'.tip? = some tip') (hfork : t.findFork? tip id = some fork)
    (hfork' : t'.findFork? tip' id' = some fork') :
    (t.located (t.pathFrom fork tip)).map (·.2.facts) =
        (t'.located (t'.pathFrom fork' tip')).map (·.2.facts) ∧
      (t.located (t.pathFrom fork id)).map (·.2.facts) =
        (t'.located (t'.pathFrom fork' id')).map (·.2.facts) := by
  obtain ⟨tipNode, htipNode⟩ := BlockTree.exists_node (h.path.tip_lt htip)
  obtain ⟨tipNode', htipNode'⟩ := BlockTree.exists_node (h'.path.tip_lt htip')
  have htipEq := h.tip_eq h' htip htipNode htip' htipNode'
  obtain ⟨hforkTip, hforkNew, -⟩ := findFork?_spec h.coherent h.path hfork
  obtain ⟨hforkTip', hforkNew', -⟩ := findFork?_spec h'.coherent h'.path hfork'
  obtain ⟨f, hf⟩ := BlockTree.exists_node (lt_size_of_mem_lineage hforkTip)
  obtain ⟨f', hf'⟩ := BlockTree.exists_node (lt_size_of_mem_lineage hforkTip')
  have hforks := h.history_eq h' hf hf'
    (h.fork_eq h' htipNode htipNode' htipEq hn hn' heq hfork hfork' hf hf')
  exact ⟨map_facts_located_eq hforkTip hforkTip' (h.history_eq h' htipNode htipNode' htipEq) hforks,
    map_facts_located_eq hforkNew hforkNew' (h.history_eq h' hn hn' heq) hforks⟩

/-- A switch to one branch comes to the same. -/
theorem reorganize_agrees {tip tip' fork fork' : Nat} (htip : t.tip? = some tip)
    (htip' : t'.tip? = some tip') (hfork : t.findFork? tip id = some fork)
    (hfork' : t'.findFork? tip' id' = some fork')
    (hplan : reorganize s t best tip fork id node block flags pending = .ok plan)
    (hplan' : reorganize s t' best tip' fork' id' node' block flags pending = .ok plan') :
    Agrees s.tables plan plan' := by
  obtain ⟨hundone, hpath⟩ := paths_agree h h' hn hn' heq htip htip' hfork hfork'
  have hdetach : ∀ v, Switch.detach s.tables v
      ((t.located (t.pathFrom fork tip)).reverse.map (·.2)) =
        Switch.detach s.tables v ((t'.located (t'.pathFrom fork' tip')).reverse.map (·.2)) := by
    refine Switch.detach_congr ?_
    rw [List.map_map, List.map_map, List.map_reverse, List.map_reverse]
    exact congrArg List.reverse hundone
  rw [reorganize] at hplan hplan'
  obtain ⟨-, hplan⟩ := require_bind_eq_ok.1 hplan
  obtain ⟨-, hplan'⟩ := require_bind_eq_ok.1 hplan'
  obtain ⟨⟨view, dropped⟩, hview, hplan⟩ := bind_eq_ok.1 hplan
  obtain ⟨⟨view', dropped'⟩, hview', hplan'⟩ := bind_eq_ok.1 hplan'
  rw [mapError_eq_ok] at hview hview'
  rw [hdetach] at hview
  obtain ⟨rfl, rfl⟩ := Prod.mk.inj (Except.ok.inj (hview.symm.trans hview'))
  obtain ⟨r, hattach, hplan⟩ := bind_eq_ok.1 hplan
  obtain ⟨r', hattach', hplan'⟩ := bind_eq_ok.1 hplan'
  obtain ⟨_, hsame, hagrees⟩ := Switch.attach_congr hpath hattach
  obtain rfl := Except.ok.inj (hsame.symm.trans hattach')
  cases hagrees with
  | complete view writes =>
    obtain rfl := Except.ok.inj hplan
    obtain rfl := Except.ok.inj hplan'
    refine ⟨by simp only [heq, List.Perm.refl], by simp only [heq], ?_, rfl⟩
    refine BestState.ofTip_congr (h.facts_eq h' hn hn' heq) ?_ s.params block
    rw [headers_setTip, headers_setTip, headers_setStatuses, headers_setStatuses]
    exact headers_eq_of_history (h.history_eq h' hn hn' heq)
  | broken violation hi hj hash =>
    obtain rfl := Except.ok.inj hplan
    obtain rfl := Except.ok.inj hplan'
    have hperm := h.perm_descendants h' (mem_located.1 hi).2 (mem_located.1 hj).2 hash
    refine ⟨?_, ?_, rfl, rfl⟩
    · rw [reject_batch, reject_batch]
      exact (hperm.map _).append_left _
    · rw [reject_batch, reject_batch, Tables.writeAll_append, Tables.writeAll_append]
      exact Tables.writeAll_setStatus_congr _ _ fun hash => hperm.mem_iff

/-- It is decided in the same way where a node goes. -/
theorem select_agrees
    (hplan : select s t best id node block flags pending = .ok plan)
    (hplan' : select s t' best id' node' block flags pending = .ok plan') :
    Agrees s.tables plan plan' := by
  obtain ⟨tip, tipNode, htip, htipNode, -⟩ := h.tip
  obtain ⟨tip', tipNode', htip', htipNode', -⟩ := h'.tip
  have htipEq := h.tip_eq h' htip htipNode htip' htipNode'
  have hside : (node.parent ≠ some tip ∧ node.isBetterThan tipNode = false) ↔
      (node'.parent ≠ some tip' ∧ node'.isBetterThan tipNode' = false) := by
    have hbetter : node.isBetterThan tipNode = node'.isBetterThan tipNode' :=
      TreeNode.isBetterThan_congr ⟨(h.work_eq h' hn hn' heq).1, heq⟩
        ⟨(h.work_eq h' htipNode htipNode' htipEq).1, htipEq⟩
    rw [hbetter, Ne, Ne, h.parent_eq_some_iff h' hn hn' heq htipNode htipNode' htipEq]
  obtain ⟨fork, hfork⟩ := h.exists_findFork? (node?_lt htipNode) (node?_lt hn)
  obtain ⟨fork', hfork'⟩ := h'.exists_findFork? (node?_lt htipNode') (node?_lt hn')
  obtain ⟨hforkTip, -, -⟩ := findFork?_spec h.coherent h.path hfork
  obtain ⟨hforkTip', -, -⟩ := findFork?_spec h'.coherent h'.path hfork'
  obtain ⟨f, hf⟩ := BlockTree.exists_node (lt_size_of_mem_lineage hforkTip)
  obtain ⟨f', hf'⟩ := BlockTree.exists_node (lt_size_of_mem_lineage hforkTip')
  have hheight : f.height = f'.height := TreeNode.congr_of_facts (·.height) (h.facts_eq h' hf hf'
    (h.fork_eq h' htipNode htipNode' htipEq hn hn' heq hfork hfork' hf hf'))
  have hcheck : checkFork s.params t fork node.hash = checkFork s.params t' fork' node'.hash :=
    heq ▸ checkFork_congr h.path h'.path htip htip' (h.history_eq h' htipNode htipNode' htipEq)
      hf hf' hheight s.params node.hash
  rw [select, htip, Option.bind_some, htipNode, Option.map_some] at hplan
  rw [select, htip', Option.bind_some, htipNode', Option.map_some] at hplan'
  simp only [hfork, hcheck] at hplan
  simp only [hfork', ← hside] at hplan'
  split at hplan
  · next hstored =>
    rw [if_pos hstored] at hplan'
    obtain rfl := Except.ok.inj hplan
    obtain rfl := Except.ok.inj hplan'
    exact ⟨.refl _, rfl, rfl, rfl⟩
  · next hchosen =>
    rw [if_neg hchosen] at hplan'
    split at hplan
    · next fault hold =>
      rw [hold] at hplan'
      obtain rfl := Except.ok.inj hplan
      obtain rfl := Except.ok.inj hplan'
      exact ⟨.refl _, rfl, rfl, rfl⟩
    · next hnew =>
      rw [hnew] at hplan'
      exact reorganize_agrees h h' hn hn' heq htip htip' hfork hfork' hplan hplan'

end Selecting

/-- A block that may be added under its parent is planned in the same way. -/
theorem Admits.agrees (h : Mirror s.params s.tables t) (h' : Mirror s.params s.tables t')
    (hb : block.WellFormed) (hnew : t.find? block.hash = none)
    (hadmits : Admits s t block flags p parent keys)
    (hadmits' : Admits s t' block flags p' parent' keys) {plan plan' : Plan}
    (hplan : select s (grown t block p keys) best t.size (newNode t block p keys) block flags
      (Plan.pending block (newNode t block p keys) parent.keys) = .ok plan)
    (hplan' : select s (grown t' block p' keys) best t'.size (newNode t' block p' keys) block flags
      (Plan.pending block (newNode t' block p' keys) parent'.keys) = .ok plan') :
    Agrees s.tables plan plan' := by
  have heq : parent.hash = parent'.hash :=
    (hadmits.previous h.coherent).symm.trans (hadmits'.previous h'.coherent)
  have hfacts := h.facts_eq h' hadmits.node hadmits'.node heq
  have hrecord : (newNode t block p keys).toRecord = (newNode t' block p' keys).toRecord :=
    TreeNode.congr_of_facts (·.toRecord)
      (facts_newNode_congr hadmits.node hadmits'.node hfacts block keys)
  have hkeys : parent.keys = parent'.keys := TreeNode.congr_of_facts (·.keys) hfacts
  have hpending : Plan.pending block (newNode t block p keys) parent.keys =
      Plan.pending block (newNode t' block p' keys) parent'.keys := by
    rw [Plan.pending, Plan.pending, hrecord, hkeys]
    rfl
  have hg' := h'.grown hb (h.find?_eq_none h' hnew) hadmits'
  rw [← hpending] at hg' hplan'
  exact select_agrees (h.grown hb hnew hadmits) hg' (node?_grown_size ..) (node?_grown_size ..) rfl
    hplan hplan'

/-- Adding a block is planned in the same way, or it breaks the same rule. -/
theorem ofBlock_agrees (h : Mirror s.params s.tables t) (h' : Mirror s.params s.tables t')
    (hj : Journaled s.tables t) (hb : block.WellFormed) (hnew : t.find? block.hash = none)
    (best : BestState) (flags : AddFlags) :
    (∃ failure, ofBlock s t best block flags = .error failure ∧
      ofBlock s t' best block flags = .error failure) ∨
    ∃ plan plan', ofBlock s t best block flags = .ok plan ∧
      ofBlock s t' best block flags = .ok plan' ∧ Agrees s.tables plan plan' := by
  have hknown := h.contains_eq h' block.header.previous
  rcases hfound : t.find? block.header.previous with _ | p
  · have hfound' := h.find?_eq_none h' hfound
    refine Or.inl ⟨.inconsistent (.parentNotIndexed block.hash), ?_, ?_⟩
    · rw [ofBlock, hfound]
      rfl
    · rw [ofBlock, hfound']
      rfl
  · rw [contains, contains, hfound] at hknown
    obtain ⟨p', hfound'⟩ := Option.isSome_iff_exists.1 hknown.symm
    obtain ⟨parent, hparent, hhash⟩ := h.coherent.find?_iff.1 hfound
    obtain ⟨parent', hparent', hhash'⟩ := h'.coherent.find?_iff.1 hfound'
    have hkeys := keysAfter_congr h h' hparent hparent' (hhash.trans hhash'.symm) block flags
    rcases hk : keysAfter s t p parent block flags with violation | keys
    · rw [hk] at hkeys
      exact Or.inl ⟨_, ofBlock_eq_error hfound hparent hk,
        ofBlock_eq_error hfound' hparent' hkeys.symm⟩
    · rw [hk] at hkeys
      have hadmits := Admits.of_keysAfter hfound hparent hk
      have hadmits' := Admits.of_keysAfter hfound' hparent' hkeys.symm
      obtain ⟨plan, hplan⟩ := exists_select best
        (Plan.pending block (newNode t block p keys) parent.keys) h hj hb hnew hadmits
      obtain ⟨plan', hplan'⟩ := exists_select best
        (Plan.pending block (newNode t' block p' keys) parent'.keys) h' (hj.of_mirror h h') hb
        (h.find?_eq_none h' hnew) hadmits'
      exact Or.inr ⟨plan, plan', hadmits.ofBlock_eq_ok hplan, hadmits'.ofBlock_eq_ok hplan',
        hadmits.agrees h h' hb hnew hadmits' hplan hplan'⟩

end Plan

end PermissionedLedger
