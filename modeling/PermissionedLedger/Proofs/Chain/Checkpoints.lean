import Mathlib
import PermissionedLedger.Proofs.Chain.Attempts
import PermissionedLedger.Proofs.Chain.Progress
import PermissionedLedger.Proofs.Chain.Restarts

/-!
# Checkpoints are final

At the height of a checkpoint only its block can stand, on any branch. And no block becomes
the tip whose branch leaves the main chain below the latest checkpoint that was passed
(`BlockTree.Settled.checkFork_eq_ok`). So the main chain stays as it is up to that checkpoint,
whatever is added (`Plan.Adds.mainHash?_eq`), and whatever was passed stays passed.

What the latest checkpoint is depends on the digests on the main chain alone
(`Params.latestPassed?`). These survive a restart, while the numbers of nodes do not.
-/

namespace PermissionedLedger

open BlockTree Plan
open Time (Instant)

variable {params : Params} {main main' main'' : Nat → Option Digest} {cp : Checkpoint}

/-! ## Checkpoints in order -/

/-- If each of two searches would have stopped where the other did, they stop at the same. -/
theorem eq_of_find? {α : Type} {l : List α} {p q : α → Bool} {a b : α} (ha : l.find? p = some a)
    (hb : l.find? q = some b) (hqa : q a = true) (hpb : p b = true) : a = b := by
  induction l with
  | nil => cases ha
  | cons x l ih =>
    rw [List.find?_cons] at ha hb
    split at ha
    · obtain rfl := Option.some.inj ha
      rw [hqa] at hb
      exact Option.some.inj hb
    · next hp =>
      split at hb
      · obtain rfl := Option.some.inj hb
        rw [hpb] at hp
        cases hp
      · exact ih ha hb

namespace Params

/-- The latest checkpoint that a main chain has passed, which has given digests. -/
def latestPassed? (params : Params) (main : Nat → Option Digest) : Option Checkpoint :=
  params.checkpoints.reverse.find? fun c => main c.height = some c.hash

theorem of_latestPassed? (h : params.latestPassed? main = some cp) :
    cp ∈ params.checkpoints ∧ main cp.height = some cp.hash := by
  rw [latestPassed?] at h
  have hpassed := List.find?_some h
  exact ⟨List.mem_reverse.1 (List.mem_of_find?_eq_some h), of_decide_eq_true hpassed⟩

/-- As they are in ascending order, the latest checkpoint is the highest that was passed. -/
theorem le_latestPassed? (hmem : cp ∈ params.checkpoints) (hpassed : main cp.height = some cp.hash) :
    ∃ last, params.latestPassed? main = some last ∧ cp.height ≤ last.height := by
  rcases hlast : params.latestPassed? main with _ | last
  · have hnone := List.find?_eq_none.1 hlast cp (List.mem_reverse.2 hmem)
    exact absurd (decide_eq_true hpassed) hnone
  · refine ⟨last, rfl, ?_⟩
    obtain ⟨-, before, after, hsplit, hbefore⟩ := List.find?_eq_some_iff_append.1 hlast
    have hsorted := List.pairwise_reverse.2 params.ascending
    rw [hsplit, List.pairwise_append, List.pairwise_cons] at hsorted
    have hin : cp ∈ before ++ last :: after := hsplit ▸ List.mem_reverse.2 hmem
    rcases List.mem_append.1 hin with hin | hin
    · have hnot := hbefore cp hin
      rw [decide_eq_true hpassed] at hnot
      cases hnot
    · rcases List.mem_cons.1 hin with rfl | hin
      · exact Nat.le_refl _
      · exact hsorted.2.1.1 cp hin

/-- What is configured leaves at most one checkpoint at each height. -/
theorem nodup_withCheckpoints (params : Params) (extra : List Checkpoint)
    (distinct : (params.checkpoints.map (·.height)).Nodup) :
    ((params.withCheckpoints extra).checkpoints.map (·.height)).Nodup := by
  refine ((List.mergeSort_perm _ _).map _).nodup_iff.2 ?_
  induction extra using List.reverseRecOn with
  | nil => exact distinct
  | append_singleton extra c ih =>
    rw [List.foldl_append, List.foldl_cons, List.foldl_nil, List.map_append, List.nodup_append]
    refine ⟨ih.sublist (List.filter_sublist.map _), List.nodup_singleton _, ?_⟩
    rintro _ hin _ hc rfl
    obtain ⟨d, hd, heq⟩ := List.mem_map.1 hin
    have hne := of_decide_eq_true (List.mem_filter.1 hd).2
    exact hne (heq.trans (List.mem_singleton.1 hc))

end Params

/-! ## What is kept -/

/-- What a later main chain keeps of an earlier one. -/
structure Finalized (params : Params) (main main' : Nat → Option Digest) : Prop where
  /-- the latest checkpoint is not lower -/
  latest : ∀ {cp}, params.latestPassed? main = some cp →
    ∃ cp', params.latestPassed? main' = some cp' ∧ cp.height ≤ cp'.height
  /-- checkpoints that were passed stay passed -/
  passed : ∀ {cp}, cp ∈ params.checkpoints → main cp.height = some cp.hash →
    main' cp.height = some cp.hash

namespace Finalized

theorem refl : Finalized params main main :=
  ⟨fun h => ⟨_, h, Nat.le_refl _⟩, fun _ h => h⟩

theorem trans (h : Finalized params main main') (h' : Finalized params main' main'') :
    Finalized params main main'' where
  latest := by
    intro cp hcp
    obtain ⟨cp', hcp', hle⟩ := h.latest hcp
    obtain ⟨cp'', hcp'', hle'⟩ := h'.latest hcp'
    exact ⟨cp'', hcp'', hle.trans hle'⟩
  passed := fun hmem hpassed => h'.passed hmem (h.passed hmem hpassed)

/-- It is enough that nothing changes up to the latest checkpoint. -/
theorem of_eq (h : ∀ {cp}, params.latestPassed? main = some cp → ∀ {k}, k ≤ cp.height →
    main' k = main k) : Finalized params main main' where
  latest := by
    intro cp hcp
    obtain ⟨hmem, hpassed⟩ := Params.of_latestPassed? hcp
    have hpassed' : main' cp.height = some cp.hash := (h hcp (Nat.le_refl _)).trans hpassed
    rcases hcp' : params.latestPassed? main' with _ | cp'
    · have hnone := List.find?_eq_none.1 hcp' cp (List.mem_reverse.2 hmem)
      exact absurd (decide_eq_true hpassed') hnone
    · refine ⟨cp', rfl, ?_⟩
      by_contra hlow
      -- a lower one was passed before
      have hold := (h hcp (Nat.le_of_not_le hlow)).symm.trans (Params.of_latestPassed? hcp').2
      obtain rfl := eq_of_find? hcp hcp' (decide_eq_true hpassed') (decide_eq_true hold)
      exact hlow (Nat.le_refl _)
  passed := by
    intro cp hmem hpassed
    obtain ⟨last, hlast, hle⟩ := Params.le_latestPassed? hmem hpassed
    exact (h hlast hle).trans hpassed

end Finalized

/-! ## The main chain of a tree -/

namespace BlockTree

variable {t : BlockTree} {tip : Nat}

/-- The digest on the main chain at a height. -/
def mainHash? (t : BlockTree) (height : Nat) : Option Digest :=
  ((t.mainAt? height).bind t.node?).map (·.hash)

theorem mainAt?_iff (ht : t.Coherent) (hm : t.MainPath) (htip : t.tip? = some tip) {k i : Nat} :
    t.mainAt? k = some i ↔ i ∈ t.lineage tip ∧ ∃ n, t.node? i = some n ∧ n.height = k := by
  rw [mainAt?, ← Array.getElem?_toList, hm tip htip, ht.getElem?_reverse_lineage]

theorem mainHash?_eq_some (ht : t.Coherent) (hm : t.MainPath) (htip : t.tip? = some tip) {i : Nat}
    {n : TreeNode} (hi : i ∈ t.lineage tip) (hn : t.node? i = some n) :
    t.mainHash? n.height = some n.hash := by
  rw [mainHash?, (mainAt?_iff ht hm htip).2 ⟨hi, n, hn, rfl⟩, Option.bind_some, hn, Option.map_some]

theorem exists_of_mainHash? (ht : t.Coherent) (hm : t.MainPath) (htip : t.tip? = some tip)
    {k : Nat} {hash : Digest} (h : t.mainHash? k = some hash) :
    ∃ i n, i ∈ t.lineage tip ∧ t.node? i = some n ∧ n.height = k ∧ n.hash = hash := by
  obtain ⟨n, hbind, hhash⟩ := Option.map_eq_some_iff.1 h
  obtain ⟨i, hi, hn⟩ := Option.bind_eq_some_iff.1 hbind
  obtain ⟨hmem, n', hn', hheight⟩ := (mainAt?_iff ht hm htip).1 hi
  obtain rfl := Option.some.inj (hn.symm.trans hn')
  exact ⟨i, n, hmem, hn, hheight, hhash⟩

/-- The node of the latest checkpoint is that of the checkpoint that was passed last. -/
theorem latestCheckpoint?_iff (ht : t.Coherent) (hm : t.MainPath) (htip : t.tip? = some tip) :
    ((t.latestCheckpoint? params).bind t.node?).map (fun n => (⟨n.height, n.hash⟩ : Checkpoint)) =
      params.latestPassed? t.mainHash? := by
  rw [latestCheckpoint?, Params.latestPassed?]
  induction params.checkpoints.reverse with
  | nil => rfl
  | cons c cs ih =>
    rw [List.findSome?_cons, List.find?_cons]
    rcases hat : t.mainAt? c.height with _ | i
    · have hnone : t.mainHash? c.height = none := by rw [mainHash?, hat]; rfl
      rw [Option.filter_none, hnone, decide_eq_false (Option.some_ne_none _).symm]
      exact ih
    · obtain ⟨hmem, n, hn, hheight⟩ := (mainAt?_iff ht hm htip).1 hat
      have hhash : t.mainHash? c.height = some n.hash := by
        rw [mainHash?, hat, Option.bind_some, hn, Option.map_some]
      rw [Option.filter_some, hn, Option.any_some, hhash]
      by_cases heq : n.hash = c.hash
      · rw [decide_eq_true heq, decide_eq_true (congrArg some heq), if_pos rfl]
        dsimp only
        rw [Option.bind_some, hn, Option.map_some, hheight, heq]
      · rw [decide_eq_false heq, decide_eq_false fun h => heq (Option.some.inj h),
          if_neg Bool.false_ne_true]
        exact ih

end BlockTree

/-! ## Plans -/

namespace Plan

variable {s : Setting} {t : BlockTree} {best : BestState} {block : Block} {flags : AddFlags}
  {plan : Plan} {p : Nat} {parent : TreeNode} {keys : KeySets}

/-- Where the branch of an admitted block leaves the main chain, the latest checkpoint was passed
already. -/
theorem Admits.height_le_fork (hadmits : Admits s t block flags p parent keys)
    (hs : t.Settled s.params) (hm : Mirror s.params s.tables t)
    (hgrown : (grown t block p keys).Coherent) {tip fork : Nat} (htip : t.tip? = some tip)
    (hfork : (grown t block p keys).findFork? tip t.size = some fork)
    (hcp : s.params.latestPassed? t.mainHash? = some cp) :
    cp.height ≤ (grown t block p keys).height fork := by
  have hcheck := hs.checkFork_eq_ok hm hgrown hadmits htip hfork
  have hsame : (grown t block p keys).latestCheckpoint? s.params = t.latestCheckpoint? s.params :=
    latestCheckpoint?_insert hm.path
  obtain ⟨n, hbind, rfl⟩ := Option.map_eq_some_iff.1 <|
    (latestCheckpoint?_iff hm.coherent hm.path htip).trans hcp
  obtain ⟨i, hi, hn⟩ := Option.bind_eq_some_iff.1 hbind
  rw [checkFork, hsame, hi] at hcheck
  have hle := require_eq_ok.1 hcheck
  rw [BlockTree.height, node?_grown_of_some block p keys hn] at hle
  exact hle

/-- The branch of a block that is the tip now leaves the main chain at a fork. -/
theorem Selected.exists_fork {tree : BlockTree} {id tip : Nat} {node : TreeNode} {pending : Batch}
    (h : Selected s tree best id node block flags pending plan) (hok : plan.verdict = .ok true)
    (htip : tree.tip? = some tip) : ∃ fork, tree.findFork? tip id = some fork := by
  cases h with
  | stored => cases hok
  | tooOld => cases hok
  | rejected => cases hok
  | @switched tip' fork tipNode view view' dropped attached htip' hnode better hfork =>
    obtain rfl := Option.some.inj (htip'.symm.trans htip)
    exact ⟨fork, hfork⟩

/-- A plan changes nothing of the main chain up to the latest checkpoint. -/
theorem Adds.mainHash?_eq (hadds : Adds s t best block flags p parent keys plan)
    (hs : t.Settled s.params) (hm : Mirror s.params s.tables t)
    (hcp : s.params.latestPassed? t.mainHash? = some cp) {k : Nat} (hk : k ≤ cp.height) :
    plan.tree.mainHash? k = t.mainHash? k := by
  have hm' := hm.of_plan hadds
  have hgrown := hm.grown hadds.formed hadds.unknown hadds.admits
  obtain ⟨tip, m, htip, htipNode, -⟩ := hm.tip
  obtain ⟨tip', m', htip', -⟩ := hm'.tip
  obtain ⟨i, n, hi, hn, hheight, -⟩ :=
    exists_of_mainHash? hm.coherent hm.path htip (Params.of_latestPassed? hcp).2
  -- the node of the checkpoint is on the new main chain
  have hkept : i ∈ plan.tree.lineage tip' := by
    rcases hadds.tip?_cases hm with ⟨hsame, -⟩ | ⟨hnewest, hverdict⟩
    · obtain rfl := Option.some.inj (htip'.symm.trans (hsame.trans htip))
      exact hadds.mem_lineage (Or.inl ⟨hm.path.tip_lt htip, hi⟩)
    · obtain rfl := Option.some.inj (htip'.symm.trans hnewest)
      obtain ⟨fork, hfork⟩ := hadds.selected.exists_fork hverdict (tip?_grown.trans htip)
      obtain ⟨hforkTip, hforkNew⟩ := hm.fork_mem hgrown.coherent htip hfork
      have hle := hadds.admits.height_le_fork hs hm hgrown.coherent htip hfork hcp
      rw [lineage_grown_size hadds.admits.lt_size] at hforkNew
      have hlt := lt_size_of_mem_lineage hforkTip
      obtain ⟨f, hf⟩ := BlockTree.exists_node hlt
      rw [BlockTree.height, node?_grown_of_some block p keys hf] at hle
      have hbelow := hm.coherent.mem_lineage_of_height_le hi hforkTip hn hf (hheight ▸ hle)
      have hforkParent := (List.mem_cons.1 hforkNew).resolve_left (Nat.ne_of_lt hlt)
      exact hadds.mem_lineage (Or.inr ⟨rfl, mem_lineage_trans hbelow hforkParent⟩)
  -- and so are those below it, which are the only ones at their heights
  have hlen := hm.coherent.length_lineage hn
  obtain ⟨j, hj⟩ : ∃ j, (t.lineage i).reverse[k]? = some j :=
    ⟨_, List.getElem?_eq_getElem (by rw [List.length_reverse]; omega)⟩
  obtain ⟨hjmem, l, hl, rfl⟩ := hm.coherent.getElem?_reverse_lineage.1 hj
  obtain ⟨status, hl', -⟩ := hadds.selected.exists_status (node?_grown_of_some block p keys hl)
  have hjmem' : j ∈ plan.tree.lineage i :=
    hadds.mem_lineage (Or.inl ⟨node?_lt hn, hjmem⟩)
  have hsame : plan.tree.mainHash? l.height = some l.hash :=
    mainHash?_eq_some (n := { l with status }) hm'.coherent hm'.path htip'
      (mem_lineage_trans hjmem' hkept) hl'
  rw [hsame, mainHash?_eq_some hm.coherent hm.path htip (mem_lineage_trans hjmem hi) hl]

theorem Adds.finalized (hadds : Adds s t best block flags p parent keys plan)
    (hs : t.Settled s.params) (hm : Mirror s.params s.tables t) :
    Finalized s.params t.mainHash? plan.tree.mainHash? :=
  .of_eq fun hcp _ hk => hadds.mainHash?_eq hs hm hcp hk

end Plan

/-! ## Runs -/

variable {σ : Type} [ChainStore σ] {verify : Verifier}

/-- Plans keep what was final for an earlier main chain. -/
theorem finalized_keptByPlans :
    KeptByPlans params verify (fun _ => True) fun _ t _ =>
      t.Settled params ∧ Finalized params main t.mainHash? :=
  fun _ _ _ _ _ _ _ _ _ _ hm h _ hadds =>
    ⟨h.1.of_plan hm hadds, h.2.trans (hadds.finalized h.1 hm)⟩

/-- The tree in which the node of a block that is tried would be the newest, and where its branch
leaves the main chain; none if the block may not be added. -/
def Attempt.fork? (params : Params) (verify : Verifier) (flags : AddFlags) (a : Attempt σ) :
    Option (BlockTree × Nat) := do
  let p ← a.state.tree.find? a.block.header.previous
  let parent ← a.state.tree.node? p
  let setting : Setting := ⟨params, verify, a.state.tables⟩
  let keys ← (keysAfter setting a.state.tree p parent a.block flags).toOption
  let tree := grown a.state.tree a.block p keys
  let tip ← a.state.tree.tip?
  let fork ← tree.findFork? tip a.state.tree.size
  return (tree, fork)

namespace Chain

/-- A call, or a restart that keeps the network and what is a valid signature. -/
inductive Follows (params : Params) (verify : Verifier) (c : Chain σ) : Chain σ → Prop
  | processed (block : Block) (flags : AddFlags) (now : Instant) :
      Follows params verify c (c.process block flags now).2
  | restarted {c' : Chain σ} {store' : σ} {capacity : Nat} {lifetime : Int}
      (opens : openStore params verify (.ofLimits capacity lifetime) c.store = (.ok c', store')) :
      Follows params verify c c'

/-- Calls and restarts one after another. -/
abbrev Later (params : Params) (verify : Verifier) : Chain σ → Chain σ → Prop :=
  Relation.ReflTransGen (Follows params verify)

variable [LawfulChainStore σ] {c c' : Chain σ}

theorem checkpoint?_eq (h : Reachable params verify (fun _ => True) c) :
    c.checkpoint? = params.latestPassed? c.mainHash? := by
  obtain ⟨-, rfl, -⟩ := h.orderly
  obtain ⟨tip, n, htip, -⟩ := h.mirror.tip
  exact latestCheckpoint?_iff h.mirror.coherent h.mirror.path htip

/-- All that follows keeps what is final. -/
theorem Reachable.finalized (h : Reachable params verify (fun _ => True) c)
    (hlater : Later params verify c c') :
    Reachable params verify (fun _ => True) c' ∧ Finalized params c.mainHash? c'.mainHash? := by
  induction hlater with
  | refl => exact ⟨h, .refl⟩
  | tail _ hfollows ih =>
    obtain ⟨hreached, hfinal⟩ := ih
    cases hfollows with
    | processed block flags now =>
      refine ⟨.processed hreached trivial, ?_⟩
      exact ((hreached.steps block flags now).keeps finalized_keptByPlans trivial id
        hreached.mirror ⟨hreached.settled, hfinal⟩).2.2
    | restarted opens =>
      refine ⟨.restarted hreached opens, hfinal.trans ?_⟩
      obtain ⟨htables, hm', -⟩ := opened_on_store hreached.mirror opens
      have hsame : ∀ k, mainHash? _ k = mainHash? _ k := hreached.mirror.mainHash_eq hm'
      rw [funext hsame]
      exact .refl

/-- Checkpoints are final. No node stands in the place of another one's block at their heights; the
latest one that was passed is never lower than before, and all that were passed stay passed. A block
that is tried has a branch that leaves the main chain at the latest one or above it. No two
checkpoints have the same height, as configuration leaves them (`Params.nodup_withCheckpoints`). -/
theorem Reachable.checkpoints_final (h : Reachable params verify (fun _ => True) c)
    (distinct : (params.checkpoints.map (·.height)).Nodup) :
    (∀ i n, c.tree.node? i = some n → 0 < n.height →
      ∀ cp ∈ params.checkpoints, cp.height = n.height → n.hash = cp.hash) ∧
    (∀ c', Later params verify c c' →
      (∀ cp ∈ params.checkpoints, c.mainHash? cp.height = some cp.hash →
        c'.mainHash? cp.height = some cp.hash) ∧
      ∀ cp, c.checkpoint? = some cp → ∃ cp', c'.checkpoint? = some cp' ∧ cp.height ≤ cp'.height) ∧
    ∀ block flags now, ∀ a ∈ c.attempts block flags now,
      (∀ cp ∈ params.checkpoints, c.mainHash? cp.height = some cp.hash →
        a.state.tree.mainHash? cp.height = some cp.hash) ∧
      ∀ tree fork, a.fork? params verify flags = some (tree, fork) →
        checkFork params tree fork a.block.hash = .ok () ∧
        ∀ cp, params.latestPassed? a.state.tree.mainHash? = some cp →
          cp.height ≤ tree.height fork := by
  refine ⟨?_, ?_, ?_⟩
  · intro i n hn hpos cp hmem hheight
    obtain ⟨d, hfound⟩ := exists_checkpointAt? hmem
    have hpinned := h.settled.pinned hn hpos (hheight ▸ hfound)
    rw [Params.checkpointAt?] at hfound
    have hd := List.mem_of_find?_eq_some hfound
    have hsame := List.find?_some hfound
    rw [hpinned, List.inj_on_of_nodup_map distinct hd hmem (of_decide_eq_true hsame)]
  · intro c' hlater
    obtain ⟨hreached, hfinal⟩ := h.finalized hlater
    refine ⟨fun cp hmem hpassed => hfinal.passed hmem hpassed, ?_⟩
    rw [checkpoint?_eq h, checkpoint?_eq hreached]
    exact fun cp hcp => hfinal.latest hcp
  · intro block flags now a ha
    obtain ⟨hsteps, hchecked, hnew⟩ := h.of_mem_attempts ha
    obtain ⟨hm, hs, hfinal⟩ :=
      hsteps.keeps finalized_keptByPlans trivial id h.mirror ⟨h.settled, .refl⟩
    refine ⟨fun cp hmem hpassed => hfinal.passed hmem hpassed, fun tree fork hfork => ?_⟩
    simp only [Attempt.fork?, Option.bind_eq_bind, Option.bind_eq_some_iff, Option.pure_def,
      Option.some.injEq, Prod.mk.injEq] at hfork
    obtain ⟨p, hp, parent, hparent, keys, hkeys, tip, htip, fork', hfork, rfl, rfl⟩ := hfork
    rcases hafter : keysAfter ⟨params, verify, a.state.tables⟩ a.state.tree p parent a.block flags
      with violation | keys'
    · rw [hafter] at hkeys
      cases hkeys
    rw [hafter] at hkeys
    obtain rfl := Option.some.inj hkeys
    have hadmits := Admits.of_keysAfter hp hparent hafter
    have hgrown := (hm.grown hchecked.wellFormed hnew hadmits).coherent
    exact ⟨hs.checkFork_eq_ok hm hgrown hadmits htip hfork,
      fun cp hcp => hadmits.height_le_fork hs hm hgrown htip hfork hcp⟩

end Chain

/-! ## A sample checkpoint -/

namespace Sample

/-- The first block is pinned. -/
def pinned : Params :=
  { network with
    checkpoints := [⟨1, first.hash⟩]
    ascending := List.pairwise_singleton .. }

/-- The rival is rejected, so that there is one node over genesis. The second block can be added
over it. -/
def passesFirst (c : Chain MemoryStore) : Bool :=
  c.tree.size = 2 && c.checkpoint? = some ⟨1, first.hash⟩ && c.mainHash? 1 = some first.hash &&
    (c.attempts second {} now).any fun a => (a.fork? pinned trusting {}).isSome

theorem passesFirst_after : (after? pinned now [rival, first]).any passesFirst = true := by
  decide +kernel

end Sample

/-- In the sample the checkpoint is passed and stays so, and the second block has a branch that
leaves the main chain at it or above. -/
theorem Chain.checkpoints_final_after_first : ∃ c c' : Chain MemoryStore, c.tree.size = 2 ∧
    c.checkpoint? = some ⟨1, Sample.first.hash⟩ ∧ c' = (c.process Sample.second {} Sample.now).2 ∧
    c'.mainHash? 1 = some Sample.first.hash ∧
    (∃ cp, c'.checkpoint? = some cp ∧ 1 ≤ cp.height) ∧
    ∃ a ∈ c.attempts Sample.second {} Sample.now, ∃ tree fork,
      a.fork? Sample.pinned Sample.trusting {} = some (tree, fork) ∧ 1 ≤ tree.height fork := by
  obtain ⟨c, store, hopen, hpasses⟩ := Sample.exists_opened Sample.passesFirst_after
  simp only [Sample.passesFirst, Bool.and_eq_true, decide_eq_true_eq, List.any_eq_true] at hpasses
  obtain ⟨⟨⟨hsize, hcheckpoint⟩, hmain⟩, a, ha, hsome⟩ := hpasses
  have hopened : c.Reachable Sample.pinned Sample.trusting fun _ => True := .opened rfl hopen
  have hreached := hopened.submit trivial Sample.now [Sample.rival, Sample.first]
  have hlater : Later Sample.pinned Sample.trusting
      (c.submit Sample.now [Sample.rival, Sample.first])
      ((c.submit Sample.now [Sample.rival, Sample.first]).process Sample.second {} Sample.now).2 :=
    .single (.processed ..)
  obtain ⟨-, hkept, hforks⟩ := hreached.checkpoints_final (List.nodup_singleton _)
  obtain ⟨hpassed, hlatest⟩ := hkept _ hlater
  obtain ⟨⟨tree, fork⟩, hfork⟩ := Option.isSome_iff_exists.1 hsome
  refine ⟨_, _, hsize, hcheckpoint, rfl, hpassed _ (List.mem_singleton_self _) hmain,
    hlatest _ hcheckpoint, a, ha, tree, fork, hfork, ?_⟩
  obtain ⟨hstill, hforkHigh⟩ := hforks _ _ _ a ha
  have hpassed' := hstill _ (List.mem_singleton_self _) hmain
  have hmem : ⟨1, Sample.first.hash⟩ ∈ Sample.pinned.checkpoints := List.mem_singleton_self _
  obtain ⟨last, hlast, hle⟩ := Params.le_latestPassed? hmem hpassed'
  exact hle.trans ((hforkHigh tree fork hfork).2 last hlast)

end PermissionedLedger
