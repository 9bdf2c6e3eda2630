import Mathlib
import PermissionedLedger.Proofs.Chain.BestBranch
import PermissionedLedger.Proofs.Chain.Coverage
import PermissionedLedger.Proofs.Chain.Replay

/-!
# The order of submission

Chains to which the same blocks were submitted agree (`Chain.Agree`): about the tip, the
main chain, the unspent outputs and the keys in force. In which order that was done makes
no difference (`Chain.agree_of_perm`), although it decides which blocks wait, which are
on side branches first, and which are looked at before they lose.

* Where the rules accept all blocks of a branch, the branch is in both trees
  (`Chain.AtRest.exists_counterpart`). Its blocks are admitted under their parents, and
  none of them was overlooked.
* So each of the two tips is in the other tree as well, and is not better than the tip
  there. Then they are the same.

The time has to be before the last instant there is. At that instant a block expires as
soon as it waits, so that a child that comes before its parent is lost
(`Chain.orders_differ_at_last`).
-/

namespace PermissionedLedger

open BlockTree Plan
open Time (Instant)

/-- An instant some seconds later is later, except for the last one. -/
theorem Time.Instant.lt_addSeconds {i : Instant} {delta : Int} (hi : i < Instant.last)
    (hdelta : 0 < delta) : i < i.addSeconds delta := by
  have hmoves : ∀ {seconds : Int} {nanos : Nat} {j : Instant},
      ofUnix? seconds nanos = some j → j.seconds = seconds := by
    intro seconds nanos j h
    rw [ofUnix?] at h
    split at h
    · rw [← Option.some.inj h]
    · cases h
  rw [addSeconds]
  rcases hj : i.addSeconds? delta with _ | j
  · exact hi
  · rw [addSeconds?, if_neg (by omega)] at hj
    refine Or.inl ?_
    rw [Option.getD_some]
    split at hj
    all_goals
      rw [hmoves hj]
      omega

/-- The root is the node of genesis. -/
theorem Mirror.parent_eq_none_iff {params : Params} {T : Tables} {t : BlockTree}
    (hm : Mirror params T t) {i : Nat} {n : TreeNode} (hn : t.node? i = some n) :
    n.parent = none ↔ n.hash = params.genesis.hash := by
  have hroot : ∀ {j k}, t.node? j = some k → k.parent = none → k.hash = params.genesis.hash :=
    fun hk hp => (hm.block_hash hk (hm.root hk hp).1).2.symm
  refine ⟨hroot hn, fun hhash => ?_⟩
  obtain ⟨j, k, -, hk, hp⟩ := exists_root (node?_lt hn)
  obtain rfl := hm.coherent.eq_of_hash_eq hn hk (hhash.trans (hroot hk hp).symm)
  obtain rfl := Option.some.inj (hn.symm.trans hk)
  exact hp

namespace Chain

/-- Two chains have the same tip, main chain, unspent outputs and keys. -/
structure Agree {σ τ : Type} [ChainStore σ] [ChainStore τ] (c : Chain σ) (d : Chain τ) : Prop where
  /-- the tip -/
  hash : c.best.hash = d.best.hash
  /-- its height -/
  height : c.best.height = d.best.height
  /-- the work of the main chain -/
  work : c.best.work = d.best.work
  /-- the keys after it -/
  keys : c.best.keys = d.best.keys
  /-- the main chain as digests -/
  main : ∀ height, c.mainHash? height = d.mainHash? height
  /-- the main chain as blocks -/
  blocks : c.mainBlocks = d.mainBlocks
  /-- the unspent outputs -/
  coins : ∀ o, c.coin? o = d.coin? o

variable {σ τ : Type} [ChainStore σ] [ChainStore τ] {params : Params} {verify : Verifier}
  {now : Instant} {blocks blocks' : List Block} {capacity capacity' : Nat} {c : Chain σ}
  {d : Chain τ}

namespace AtRest

/-- The block of a node other than the root was submitted. -/
theorem offered_of_child (h : c.AtRest params verify now capacity blocks) {i : Nat} {n : TreeNode}
    {b : Block} (hn : c.tree.node? i = some n) (hchild : n.hash ≠ params.genesis.hash)
    (hb : c.tables.blocks[n.hash]? = some b) : Offered params verify now blocks b := by
  rcases h.underway.stored hb with rfl | hoffered
  · exact absurd (h.underway.mirror.block_hash hn hb).2.symm hchild
  · exact hoffered

/-- A node whose branch is accepted can be built on. -/
theorem status_ne_invalid (h : c.AtRest params verify now capacity blocks) {i : Nat} {n : TreeNode}
    (hn : c.tree.node? i = some n)
    (haccepted : Throughout (Block.Accepted params verify) (c.tables.branch c.tree i)) :
    n.status ≠ .invalid :=
  fun hinvalid => h.underway.grounded.refuted hn hinvalid haccepted

/-- A submitted block that may be added under a node has its node there. -/
theorem exists_node_of_admits (h : c.AtRest params verify now capacity blocks)
    (hdistinct : (blocks.map (·.hash)).Nodup) {b : Block} {p : Nat} {parent : TreeNode}
    {keys : KeySets} (hoffered : Offered params verify now blocks b)
    (hchild : b.hash ≠ params.genesis.hash)
    (hadmits : Admits ⟨params, verify, c.tables⟩ c.tree b {} p parent keys) :
    ∃ i n, c.tree.node? i = some n ∧ n.hash = b.hash ∧ n.parent = some p ∧ n.keys = keys ∧
      c.tables.blocks[n.hash]? = some b := by
  have hm := h.underway.mirror
  have hprevious := hadmits.previous hm.coherent
  have hparent : c.tree.contains b.header.previous = true := by
    rw [contains, hadmits.found]
    rfl
  have hknown : c.tree.contains b.hash = true := by
    rcases h.contains_or_refused hoffered hparent with hknown | hrefused
    · exact hknown
    · exact (hrefused.refuses hadmits).elim
  obtain ⟨i, n, hn, hhash⟩ := hm.coherent.contains_iff.1 hknown
  obtain ⟨b', hb, hheader, -⟩ := hm.block hn
  -- no other block with the digest was submitted
  obtain rfl : b' = b := by
    refine List.inj_on_of_nodup_map hdistinct (h.offered_of_child hn (hhash ▸ hchild) hb).1
      hoffered.1 ?_
    rw [(hm.block_hash hn hb).2, hhash]
  rcases hp : n.parent with _ | q
  · exact absurd (hhash ▸ (hm.parent_eq_none_iff hn).1 hp) hchild
  obtain ⟨m, hq⟩ := exists_parent hn hp
  obtain rfl : q = p := by
    refine hm.coherent.eq_of_hash_eq hq hadmits.node ?_
    rw [← hm.linked hn hp hq, ← hheader, hprevious]
  obtain rfl := Option.some.inj (hq.symm.trans hadmits.node)
  obtain ⟨-, hchanges⟩ := h.underway.grounded.authorized hn hp hq hb
  exact ⟨i, n, hn, hhash, hp, Except.ok.inj (hchanges.symm.trans hadmits.keys), hb⟩

/-- A branch that the rules accept is in every tree to which its blocks were submitted. -/
theorem exists_counterpart (hc : c.AtRest params verify now capacity blocks)
    (hd : d.AtRest params verify now capacity' blocks') (hnone : params.checkpoints = [])
    (hsub : blocks ⊆ blocks') (hdistinct : (blocks'.map (·.hash)).Nodup) {i : Nat} {n : TreeNode}
    (hn : c.tree.node? i = some n)
    (haccepted : Throughout (Block.Accepted params verify) (c.tables.branch c.tree i)) :
    ∃ j m, d.tree.node? j = some m ∧ m.hash = n.hash ∧ m.work = n.work ∧ m.keys = n.keys ∧
      d.tables.branch d.tree j = c.tables.branch c.tree i := by
  have hm := hc.underway.mirror
  have hm' := hd.underway.mirror
  induction i, node?_lt hn using lineage_induction generalizing n with
  | root i k hk hp =>
    obtain rfl := Option.some.inj (hn.symm.trans hk)
    obtain ⟨tip, tipNode, -, htipNode, -⟩ := hm'.tip
    obtain ⟨j, m, -, hroot, hq⟩ := exists_root (node?_lt htipNode)
    obtain ⟨hblock, hkeys⟩ := hm.root hn hp
    obtain ⟨hblock', hkeys'⟩ := hm'.root hroot hq
    obtain ⟨hheader, hhash⟩ := hm.block_hash hn hblock
    obtain ⟨hheader', hhash'⟩ := hm'.block_hash hroot hblock'
    refine ⟨j, m, hroot, hhash'.symm.trans hhash, ?_, hkeys'.trans hkeys.symm, ?_⟩
    · rw [(hm.coherent.of_root hn hp).2, (hm'.coherent.of_root hroot hq).2, ← hheader, ← hheader']
    · rw [Tables.branch_of_root hn hp hblock, Tables.branch_of_root hroot hq hblock']
  | child i k p hk hp ih =>
    obtain rfl := Option.some.inj (hn.symm.trans hk)
    obtain ⟨b, hb, hheader, -⟩ := hm.block hn
    obtain ⟨-, hhash⟩ := hm.block_hash hn hb
    obtain ⟨parent, hparent⟩ := exists_parent hn hp
    have hbranch := Tables.branch_of_child hn hp hb
    rw [hbranch] at haccepted ⊢
    have hbelow := (Throughout.cons_iff.1 haccepted).2
    -- the parent is there
    obtain ⟨q, parent', hparent', hparentHash, hwork, hkeys, hsame⟩ := ih hparent hbelow
    have hfound : d.tree.find? b.header.previous = some q := by
      rw [hheader, hm.linked hn hp hparent, ← hparentHash]
      exact hm'.coherent.find?_eq_some hparent'
    have hchild : n.hash ≠ params.genesis.hash := fun heq =>
      nomatch hp.symm.trans ((hm.parent_eq_none_iff hn).2 heq)
    have hoffered := hc.offered_of_child hn hchild hb
    obtain ⟨⟨height, hplaced⟩, hchanges⟩ := hc.underway.grounded.authorized hn hp hparent hb
    -- the block may be added under it
    have hplaced' : b.checkPlacement params d.tree q {} = .ok height := by
      rw [← hplaced]
      refine Block.checkPlacement_congr hnone hm'.coherent hm'.path hm.coherent hm.path hparent'
        hparent ?_ hkeys
      rw [hm'.headers_eq, hm.headers_eq, hsame]
    obtain ⟨j, m, hnode, hnodeHash, hq, hnodeKeys, hb'⟩ := hd.exists_node_of_admits hdistinct
      ⟨hsub hoffered.1, hoffered.2⟩ (hhash.symm ▸ hchild)
      ⟨hfound, hparent', hd.status_ne_invalid hparent' (hsame ▸ hbelow), ⟨height, hplaced'⟩,
        hkeys ▸ hchanges⟩
    have hheader' := (hm'.block_hash hnode hb').1
    refine ⟨j, m, hnode, hnodeHash.trans hhash, ?_, hnodeKeys, ?_⟩
    · rw [(hm.coherent.of_child hn hp hparent).2, (hm'.coherent.of_child hnode hq hparent').2,
        hwork, ← hheader, ← hheader']
    · rw [Tables.branch_of_child hnode hq hb', hsame]

/-- Two trees to which the same blocks were submitted have the same tip if both have the best branch
as their main chain. -/
theorem tip_eq (hc : c.AtRest params verify now capacity blocks)
    (hd : d.AtRest params verify now capacity' blocks') (hnone : params.checkpoints = [])
    (hsub : blocks ⊆ blocks') (hdistinct : (blocks'.map (·.hash)).Nodup)
    (hsub' : blocks' ⊆ blocks) (hdistinct' : (blocks.map (·.hash)).Nodup)
    (helected : c.tree.Elected params) (helected' : d.tree.Elected params) {i j : Nat}
    {n m : TreeNode} (hi : c.tree.tip? = some i) (hn : c.tree.node? i = some n)
    (hj : d.tree.tip? = some j) (hm : d.tree.node? j = some m) :
    m.hash = n.hash ∧ m.work = n.work ∧ m.keys = n.keys ∧
      d.tables.branch d.tree j = c.tables.branch c.tree i := by
  have haccepted := hc.underway.grounded.accepted hi hn
  have haccepted' := hd.underway.grounded.accepted hj hm
  obtain ⟨j', m', hm', hhash, hwork, hkeys, hbranch⟩ :=
    hc.exists_counterpart hd hnone hsub hdistinct hn haccepted
  obtain ⟨i', n', hn', hhash', hwork', -, hbranch'⟩ :=
    hd.exists_counterpart hc hnone hsub' hdistinct' hm haccepted'
  by_cases hsame : j' = j
  · subst hsame
    obtain rfl := Option.some.inj (hm.symm.trans hm')
    exact ⟨hhash, hwork, hkeys, hbranch⟩
  · -- each tip would be better than the other
    have hother : i' ≠ i := by
      rintro rfl
      obtain rfl := Option.some.inj (hn.symm.trans hn')
      exact hsame (hd.underway.mirror.coherent.eq_of_hash_eq hm' hm (hhash.trans hhash'))
    have hbetter := helected'.best hj hm hm' hsame
      (hd.status_ne_invalid hm' (hbranch ▸ haccepted))
    have hbetter' := helected.best hi hn hn' hother
      (hc.status_ne_invalid hn' (hbranch' ▸ haccepted'))
    rw [TreeNode.isBetterThan_congr ⟨rfl, rfl⟩ ⟨hwork, hhash⟩] at hbetter
    rw [TreeNode.isBetterThan_congr ⟨rfl, rfl⟩ ⟨hwork', hhash'⟩,
      TreeNode.isBetterThan_asymm hbetter] at hbetter'
    cases hbetter'

end AtRest

/-- The order in which blocks are submitted to a new chain makes no difference. The blocks have
different digests, the pool can hold all of them, the clock stands still before its last instant, and
the store never fails. -/
theorem agree_of_perm [ReliableChainStore σ] [ReliableChainStore τ] {store store₁ : σ}
    {store' store₁' : τ} {lifetime : Int} (hnone : params.checkpoints = [])
    (hempty : ChainStore.tables store = {}) (hempty' : ChainStore.tables store' = {})
    (hopen : openStore params verify (.ofLimits capacity lifetime) store = (.ok c, store₁))
    (hopen' : openStore params verify (.ofLimits capacity lifetime) store' = (.ok d, store₁'))
    (hclock : now < Instant.last) (hlifetime : 0 < lifetime) (hperm : blocks.Perm blocks')
    (hdistinct : (blocks.map (·.hash)).Nodup) (hroom : blocks.length ≤ capacity)
    (hx : (c.submit now blocks).tree.ExactWork) (hx' : (d.submit now blocks').tree.ExactWork) :
    (c.submit now blocks).Agree (d.submit now blocks') := by
  have hlasting := Time.Instant.lt_addSeconds hclock hlifetime
  have hdistinct' := (hperm.map (·.hash)).nodup_iff.1 hdistinct
  have hc := atRest_submit hempty hopen hnone hlasting hdistinct hroom
  have hd := atRest_submit hempty' hopen' hnone hlasting hdistinct' (hperm.length_eq ▸ hroom)
  have hopened : c.Reachable params verify fun flags => flags = {} := .opened hempty hopen
  have hopened' : d.Reachable params verify fun flags => flags = {} := .opened hempty' hopen'
  have hreached := hopened.submit rfl now blocks
  have hreached' := hopened'.submit rfl now blocks'
  obtain ⟨i, n, hi, hn, hhash, hheight, hwork, hkeys⟩ := hreached.best_isTipOf
  obtain ⟨j, m, hj, hm, hhash', hheight', hwork', hkeys'⟩ := hreached'.best_isTipOf
  obtain ⟨hsame, hsameWork, hsameKeys, hbranch⟩ := hc.tip_eq hd hnone
    (fun b hb => hperm.subset hb) hdistinct' (fun b hb => hperm.symm.subset hb) hdistinct
    (hreached.elected hx) (hreached'.elected hx') hi hn hj hm
  have hblocks : (c.submit now blocks).mainBlocks = (d.submit now blocks').mainBlocks := by
    rw [mainBlocks_eq hreached.mirror hi, mainBlocks_eq hreached'.mirror hj, hbranch]
  refine ⟨?_, ?_, ?_, ?_, fun height => ?_, hblocks, fun o => ?_⟩
  · rw [hhash, hhash', hsame]
  · have hlen := congrArg List.length hbranch
    rw [hreached.mirror.length_branch hn, hreached'.mirror.length_branch hm] at hlen
    omega
  · rw [hwork, hwork', hsameWork]
  · rw [hkeys, hkeys', hsameKeys]
  · rw [← map_hash_mainBlocks hreached.mirror, ← map_hash_mainBlocks hreached'.mirror, hblocks]
  · rw [coin?, coin?]
    refine (hc.underway.grounded.accurate.coins hi o).trans ?_
    rw [← hbranch]
    exact (hd.underway.grounded.accurate.coins hj o).symm

/-- The blocks of the sample run lead to the second block in both orders. -/
theorem agree_of_sample_orders : ∃ (c : Chain MemoryStore) (store : MemoryStore),
    openStore Sample.network Sample.trusting (.ofLimits 4 3600) ({} : MemoryStore) =
      (.ok c, store) ∧
    (c.submit Sample.now [Sample.first, Sample.rival, Sample.second]).best.hash =
      Sample.second.hash ∧
    (c.submit Sample.now [Sample.first, Sample.rival, Sample.second]).Agree
      (c.submit Sample.now [Sample.second, Sample.rival, Sample.first]) := by
  have hruns := Sample.ends_runs
  simp only [Bool.and_eq_true, decide_eq_true_eq] at hruns
  obtain ⟨⟨hdistinct, hends⟩, hends'⟩ := hruns
  obtain ⟨c, store, hopen, hends⟩ := Sample.exists_opened hends
  obtain ⟨d, store', hopen', hends'⟩ := Sample.exists_opened hends'
  obtain ⟨hc, rfl⟩ := Prod.mk.inj (hopen.symm.trans hopen')
  obtain rfl := Except.ok.inj hc
  obtain ⟨hbest, -, -, hx, -⟩ := Sample.of_endsWith hends
  obtain ⟨-, -, -, hx', -⟩ := Sample.of_endsWith hends'
  exact ⟨c, store, hopen, hbest, agree_of_perm rfl rfl rfl hopen hopen' (by decide) (by decide)
    (List.reverse_perm _).symm hdistinct (by decide) hx hx'⟩

end Chain

/-! ## The end of time -/

namespace Sample

/-- The sample network, where no block may be ahead of the clock. -/
def punctual : Params := { network with maxTimeOffset := 0 }

/-- At the last instant the second block is lost if it comes first. -/
theorem ends_last : (decide ([first, second].map (·.hash)).Nodup &&
    (after? punctual .last [first, second]).any (endsWith second 3) &&
    (after? punctual .last [second, first]).any (endsWith first 2)) = true := by
  decide +kernel

end Sample

/-- At the last instant the order of submission does make a difference. -/
theorem Chain.orders_differ_at_last : ∃ (c : Chain MemoryStore) (store : MemoryStore),
    Sample.punctual.checkpoints = [] ∧
    openStore Sample.punctual Sample.trusting (.ofLimits 4 3600) ({} : MemoryStore) =
      (.ok c, store) ∧
    ([Sample.first, Sample.second].map (·.hash)).Nodup ∧
    (c.submit .last [Sample.first, Sample.second]).tree.ExactWork ∧
    (c.submit .last [Sample.second, Sample.first]).tree.ExactWork ∧
    (c.submit .last [Sample.first, Sample.second]).tables.CollisionFree ∧
    (c.submit .last [Sample.first, Sample.second]).best.hash = Sample.second.hash ∧
    (c.submit .last [Sample.second, Sample.first]).best.hash = Sample.first.hash ∧
    ¬ (c.submit .last [Sample.first, Sample.second]).Agree
      (c.submit .last [Sample.second, Sample.first]) := by
  have hruns := Sample.ends_last
  simp only [Bool.and_eq_true, decide_eq_true_eq] at hruns
  obtain ⟨⟨hdistinct, hends⟩, hends'⟩ := hruns
  obtain ⟨c, store, hopen, hends⟩ := Sample.exists_opened hends
  obtain ⟨d, store', hopen', hends'⟩ := Sample.exists_opened hends'
  obtain ⟨hc, rfl⟩ := Prod.mk.inj (hopen.symm.trans hopen')
  obtain rfl := Except.ok.inj hc
  obtain ⟨hbest, -, -, hx, hfree⟩ := Sample.of_endsWith hends
  obtain ⟨hbest', -, -, hx', -⟩ := Sample.of_endsWith hends'
  refine ⟨c, store, rfl, hopen, hdistinct, hx, hx', hfree, hbest, hbest', fun hagree => ?_⟩
  have heq := hagree.hash
  rw [hbest, hbest'] at heq
  exact (List.nodup_cons.1 hdistinct).1 (List.mem_singleton.2 heq.symm)

end PermissionedLedger
