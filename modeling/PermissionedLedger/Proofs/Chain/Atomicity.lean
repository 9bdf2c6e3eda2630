import Mathlib
import PermissionedLedger.Proofs.Chain.Runs

/-!
# Adding a block is all or nothing

What remains of an attempt to add a block to a reachable chain, or to one that is in the
middle of a call:

* **the engine fails** — nothing has changed (`ChainState.Unchanged`), be it that the plan
  could not be made or that the store refused its batch;
* **a rule is broken** — the main chain and all that is stored for it are the same
  (`ChainState.KeepsMain`). Either nothing at all has changed, or the block is known now,
  as one of the descendants of a block that does not pass, and all of these are marked as
  invalid in the tree and in the store (`ChainState.Condemned`).

The exit that stores a block and rejects it without a mark, a branch that leaves the main
chain below the latest checkpoint, is never taken.

The tree is not touched before the commit. To insert the node first, and to remove it if
the engine fails, comes to the same (`ChainState.acceptInPlace_eq`), so that all of this holds
of it too (`Chain.Reachable.acceptInPlace_failures`).
-/

namespace PermissionedLedger

open BlockTree Plan
open Time (Instant)

variable {σ : Type} [ChainStore σ] {params : Params} {verify : Verifier} {flags : AddFlags}

/-! ## What may remain -/

namespace ChainState

variable {s s' s'' : ChainState σ}

/-- Nothing has changed, apart from how the store does what it does. -/
structure Unchanged (s s' : ChainState σ) : Prop where
  /-- the tree is the same -/
  tree : s'.tree = s.tree
  /-- so is the best state -/
  best : s'.best = s.best
  /-- so is what is stored -/
  tables : s'.tables = s.tables

/-- The main chain is the same, and what is stored for it alone. -/
structure KeepsMain (s s' : ChainState σ) : Prop where
  /-- its nodes -/
  main : s'.tree.main = s.tree.main
  /-- the best state -/
  best : s'.best = s.best
  /-- the stored tip -/
  tip : s'.tables.tip = s.tables.tip
  /-- unspent outputs -/
  coins : s'.tables.coins = s.tables.coins
  /-- journals -/
  journals : s'.tables.journals = s.tables.journals

theorem Unchanged.keepsMain (h : s.Unchanged s') : s.KeepsMain s' := by
  constructor <;> simp only [h.tree, h.best, h.tables]

/-- A block was added under its parent, as a descendant of a node whose block does not pass. All
that descends from that node is invalid, and nothing else has changed. -/
structure Condemned (params : Params) (verify : Verifier) (flags : AddFlags) (block : Block)
    (violation : Violation) (failed : Nat) (s s' : ChainState σ) : Prop where
  /-- there is one more node -/
  size : s'.tree.size = s.tree.size + 1
  /-- it is found by the digest of the block, the others as before -/
  find : ∀ hash, s'.tree.find? hash =
    if hash = block.hash then some s.tree.size else s.tree.find? hash
  /-- it is the node of the block under its parent; the keys after it are stored if they differ -/
  added : ∃ p parent keys, s.tree.find? block.header.previous = some p ∧
    s.tree.node? p = some parent ∧
    s'.tree.node? s.tree.size =
      some { s.tree.child block.header (some p) .unvalidated keys with status := .invalid } ∧
    s'.tables.keys = if keys = parent.keys then s.tables.keys
      else s.tables.keys.insert block.hash keys
  /-- its branch passes the node that failed -/
  above : failed ∈ s'.tree.lineage s.tree.size
  /-- that node is not on the main chain -/
  aside : failed ∉ s'.tree.main
  /-- its block was not known to be invalid, and breaks the rule -/
  broken : ∃ n b view, n.status ≠ .invalid ∧
    s'.tree.node? failed = some { n with status := .invalid } ∧
    s'.tables.blocks[n.hash]? = some b ∧
    Switch.connectNode params verify flags view n b = .error (.rule violation)
  /-- other nodes are invalid if they descend from it, and else as before -/
  others : ∀ {i n}, s.tree.node? i = some n → s'.tree.node? i =
    some (if failed ∈ s'.tree.lineage i then { n with status := .invalid } else n)
  /-- the block is stored -/
  blocks : s'.tables.blocks = s.tables.blocks.insert block.hash block
  /-- nodes are stored as they are -/
  records : ∀ hash, s'.tables.nodes[hash]? = (s'.tree.findNode? hash).map (·.toRecord)

end ChainState

/-! ## Changing the tree in place -/

/-- A node that was inserted last can be removed again, as if nothing had been. -/
theorem BlockTree.removeNewest_grown {T : Tables} {t : BlockTree} {block : Block}
    (hm : Mirror params T t) (hnew : t.find? block.hash = none) (p : Nat) (keys : KeySets) :
    (Plan.grown t block p keys).removeNewest t.size = t := by
  have hmain : t.size ∉ t.main := by
    obtain ⟨tip, -, htip, -⟩ := hm.tip
    intro hin
    rw [← Array.mem_toList_iff, hm.path tip htip, List.mem_reverse] at hin
    exact Nat.lt_irrefl _ (lt_size_of_mem_lineage hin)
  have hnodes : (Plan.grown t block p keys).nodes.pop = t.nodes := Array.pop_push ..
  have hbyHash : (Plan.grown t block p keys).byHash.erase block.hash = t.byHash := by
    apply Std.ExtTreeMap.ext_getElem?
    intro hash
    rw [getElem?_erase_eq]
    split
    · next heq => exact heq ▸ hnew.symm
    · next hne =>
      change (t.byHash.insert block.hash t.size)[hash]? = _
      rw [getElem?_insert_eq, if_neg hne]
  have hnode := node?_grown_size t block p keys
  rw [removeNewest, if_pos ⟨size_grown.symm, hmain⟩]
  cases t
  simp only [hnode] at hnodes hbyHash ⊢
  congr

/-- Adds a block under a known parent. Its node is inserted before it is decided where it goes, and
removed if the engine fails. -/
def ChainState.acceptInPlace (s : ChainState σ) (params : Params) (verify : Verifier)
    (block : Block) (flags : AddFlags) : Except Failure Bool × ChainState σ :=
  let setting : Setting := ⟨params, verify, s.tables⟩
  match (s.tree.find? block.header.previous).bind fun p => (s.tree.node? p).map fun n => (p, n) with
  | none => (.error (.inconsistent (.parentNotIndexed block.hash)), s)
  | some (p, parent) =>
    match keysAfter setting s.tree p parent block flags with
    | .error violation => (.error (.rule violation), s)
    | .ok keys =>
      let id := s.tree.size
      let node := newNode s.tree block p keys
      let s := { s with tree := Plan.grown s.tree block p keys }
      match select setting s.tree s.best id node block flags (pending block node parent.keys) with
      | .error fault => (.error (.engine fault), { s with tree := s.tree.removeNewest id })
      | .ok plan =>
        match ChainStore.commit s.store plan.batch with
        | (.error e, store) =>
          (.error (.engine (.store e)), { s with store, tree := s.tree.removeNewest id })
        | (.ok (), store) =>
          (plan.verdict.mapError .rule, { store, tree := plan.tree, best := plan.best })

/-- It does not matter whether the node is inserted first. -/
theorem ChainState.acceptInPlace_eq {s : ChainState σ} {block : Block}
    (hm : Mirror params s.tables s.tree) (hnew : s.tree.find? block.hash = none) :
    s.acceptInPlace params verify block flags = s.accept params verify block flags := by
  have hremove := removeNewest_grown hm hnew
  rw [acceptInPlace, accept, Plan.ofBlock]
  rcases (s.tree.find? block.header.previous).bind fun p =>
    (s.tree.node? p).map fun n => (p, n) with _ | ⟨p, parent⟩
  · rfl
  rcases hkeys : keysAfter ⟨params, verify, s.tables⟩ s.tree p parent block flags with _ | keys
  · simp only [hkeys]
    rfl
  simp only [hkeys, hremove]
  -- what is decided about the tree with the node is the same
  rw [Plan.grown, newNode]
  rcases hplan : select ⟨params, verify, s.tables⟩
    (s.tree.insert block.header (some p) .unvalidated keys) s.best s.tree.size
    (s.tree.child block.header (some p) .unvalidated keys) block flags
    (pending block (s.tree.child block.header (some p) .unvalidated keys) parent.keys) with _ | plan
  · simp only [hplan, Except.mapError, bind, Except.bind]
  · rcases hcommit : ChainStore.commit s.store plan.batch with ⟨_ | _, _⟩
    · simp only [hplan, hcommit, Except.mapError, bind, Except.bind]
    · simp only [hplan, hcommit, Except.mapError, bind, Except.bind]

/-! ## Failing to accept -/

namespace ChainState

variable {s s' : ChainState σ} {block : Block} {violation : Violation}

section Plans

variable {plan : Plan} {p : Nat} {parent : TreeNode} {keys : KeySets}

/-- A switch that is given up keeps the main chain. -/
theorem keepsMain_of_reject {node : TreeNode} {failed : Nat}
    (htables : s'.tables = s.tables.writeAll (reject (Plan.grown s.tree block p keys) s.best
      (pending block node parent.keys) failed violation).batch)
    (htree : s'.tree = (reject (Plan.grown s.tree block p keys) s.best
      (pending block node parent.keys) failed violation).tree)
    (hbest : s'.best = s.best) : s.KeepsMain s' := by
  rw [writeAll_reject_eq, Tables.writeAll_pending] at htables
  constructor
  case main =>
    rw [htree]
    exact main_setStatuses ..
  case best => exact hbest
  case tip => rw [htables]
  case coins => rw [htables]
  case journals => rw [htables]

/-- A plan without success keeps the main chain, and condemns the block. -/
theorem condemned_of_plan (hm : Mirror params s.tables s.tree) (hs : s.tree.Settled params)
    (hadds : Adds ⟨params, verify, s.tables⟩ s.tree s.best block flags p parent keys plan)
    (herror : plan.verdict = .error violation) (htables : s'.tables = s.tables.writeAll plan.batch)
    (htree : s'.tree = plan.tree) (hbest : s'.best = plan.best) :
    s.KeepsMain s' ∧ ∃ failed, s.Condemned params verify flags block violation failed s' := by
  have hm' : Mirror params s'.tables s'.tree := by
    rw [htables, htree]
    exact hm.of_plan hadds
  obtain ⟨hb, hnew, hadmits, hplan⟩ := hadds
  have hgrown := hm.grown hb hnew hadmits
  have hfind := hplan.find?_eq
  cases hplan with
  | stored => cases herror
  | switched => cases herror
  | tooOld htip hnode better hfork old =>
    -- a checkpoint pins the branch below it to the main chain
    rw [hs.checkFork_eq_ok hm hgrown.coherent hadmits htip hfork] at old
    cases old
  | @rejected tip fork failed tipNode view dropped _ htip hnode better hfork hdetach hbroken =>
    obtain rfl := Except.error.inj herror
    refine ⟨keepsMain_of_reject htables htree hbest, failed, ?_⟩
    obtain ⟨n, b, view', hmem, hstored, hbreaks⟩ := Switch.exists_of_attach_broken hbroken
    obtain ⟨-, hn⟩ := mem_located.1 hmem
    obtain ⟨habove, haside⟩ :=
      Switch.mem_lineage_of_broken hgrown.coherent hgrown.path hfork hbroken
    have hfailed := lt_size_of_mem_lineage habove
    have hline : ∀ i, s'.tree.lineage i = (Plan.grown s.tree block p keys).lineage i := fun i =>
      htree ▸ lineage_reject i
    -- the nodes afterwards
    have hnode' : ∀ {i m}, (Plan.grown s.tree block p keys).node? i = some m → s'.tree.node? i =
        some (if failed ∈ s'.tree.lineage i then { m with status := .invalid } else m) := by
      intro i m hm
      rw [hline, htree, node?_reject hfailed hm]
    rw [writeAll_reject_eq, Tables.writeAll_pending] at htables
    constructor
    case size => rw [htree, reject, size_setStatuses, size_grown]
    case find => exact fun hash => by rw [htree, hfind, find?_grown]
    case added =>
      refine ⟨p, parent, keys, hadmits.found, hadmits.node, ?_, by rw [htables]; rfl⟩
      rw [hnode' (node?_grown_size ..), if_pos (hline _ ▸ habove)]
      rfl
    case above => exact hline _ ▸ habove
    case aside =>
      rw [htree, reject, main_setStatuses, ← Array.mem_toList_iff, hgrown.path tip htip,
        List.mem_reverse]
      exact haside
    case broken =>
      refine ⟨n, b, view', fun hinvalid => ?_, ?_, by rw [htables]; exact hstored, hbreaks⟩
      · -- the parent of the new block was usable, and so is all that it descends from
        have hnewest := (hs.grown hm hadmits).invalid_of_mem_lineage habove
          (node?_grown_size s.tree block p keys) hn hinvalid
        cases hnewest
      · rw [hnode' hn, if_pos (hline _ ▸ mem_lineage_self hfailed)]
    case others => exact fun hm => hnode' (node?_grown_of_some block p keys hm)
    case blocks => rw [htables]
    case records => exact hm'.nodes

end Plans

/-- What remains where a block is not accepted. -/
theorem accept_error [LawfulChainStore σ] {failure : Failure} (hm : Mirror params s.tables s.tree)
    (hs : s.tree.Settled params) (hb : block.WellFormed) (hnew : s.tree.find? block.hash = none)
    (h : s.accept params verify block flags = (.error failure, s')) :
    s.Unchanged s' ∨ ∃ violation, failure = .rule violation ∧ s.KeepsMain s' ∧
      ∃ failed, s.Condemned params verify flags block violation failed s' := by
  rcases accept_cases h with ⟨plan, hplan, htables, htree, hbest, hr⟩ | ⟨_, -, htables, htree, hbest⟩
  · right
    obtain ⟨p, parent, keys, hadmits, hselected⟩ := Plan.ofBlock_eq_ok hplan
    rcases hverdict : plan.verdict with violation | isTip
    · rw [hverdict] at hr
      exact ⟨violation, Except.error.inj hr,
        condemned_of_plan hm hs ⟨hb, hnew, hadmits, hselected⟩ hverdict htables htree hbest⟩
    · rw [hverdict] at hr
      cases hr
  · exact Or.inl ⟨htree, hbest, htables⟩

/-- What remains of either kind of failure. -/
theorem accept_failures [LawfulChainStore σ] {r : Except Failure Bool}
    (hm : Mirror params s.tables s.tree) (hs : s.tree.Settled params) (hb : block.WellFormed)
    (hnew : s.tree.find? block.hash = none) (h : s.accept params verify block flags = (r, s')) :
    (∀ fault, r = .error (.engine fault) → s.Unchanged s') ∧
    ∀ violation, r = .error (.rule violation) → s.KeepsMain s' ∧
      (s.Unchanged s' ∨
        ∃ failed, s.Condemned params verify flags block violation failed s') := by
  constructor
  · rintro fault rfl
    rcases accept_error hm hs hb hnew h with hsame | ⟨violation, hrule, -⟩
    · exact hsame
    · cases hrule
  · rintro violation rfl
    rcases accept_error hm hs hb hnew h with hsame | ⟨violation', hrule, hmain, hcondemned⟩
    · exact ⟨hsame.keepsMain, Or.inl hsame⟩
    · obtain rfl := Failure.rule.inj hrule
      exact ⟨hmain, Or.inr hcondemned⟩

end ChainState

/-! ## Runs -/

theorem settled_keptByPlans {allowed : AddFlags → Prop} :
    KeptByPlans params verify allowed fun _ t _ => t.Settled params :=
  fun _ _ _ _ _ _ _ _ _ _ hm h _ hadds => h.of_plan hm hadds

theorem settled_keptByLoading : KeptByLoading params fun _ t _ => t.Settled params :=
  fun _ _ _ _ _ hm hm' _ h => h.of_mirror hm hm'

namespace Chain

variable [LawfulChainStore σ] {c : Chain σ} {allowed : AddFlags → Prop}

theorem Reachable.settled (h : Reachable params verify allowed c) : c.tree.Settled params :=
  (h.invariant params.elected_genesis.toSettled settled_keptByPlans settled_keptByLoading).2

/-- At every moment of a call the tree shows what is stored, and validation is consistent. -/
theorem Reachable.settled_of_steps (h : Reachable params verify allowed c) {s : ChainState σ}
    (hs : ChainState.Steps (Block.Checked params verify) params verify flags c.toChainState s) :
    Mirror params s.tables s.tree ∧ s.tree.Settled params := by
  have hplans : KeptByPlans params verify (fun _ => True) fun _ t _ => t.Settled params :=
    settled_keptByPlans
  exact hs.keeps hplans trivial id h.mirror h.settled

/-- At every moment of a run, a block that is not known yet is added wholly or not at all. A failure
of the engine changes nothing. Where a rule is broken, the main chain is the same, and either nothing
has changed or the block is known, invalid, and descends from the node that failed. -/
theorem Reachable.accept_all_or_nothing (h : Reachable params verify (fun _ => True) c)
    {earlier : AddFlags} {s s' : ChainState σ}
    (hs : ChainState.Steps (Block.Checked params verify) params verify earlier c.toChainState s)
    {block : Block} (hchecked : block.Checked params verify)
    (hnew : s.tree.contains block.hash = false) {r : Except Failure Bool}
    (haccept : s.accept params verify block flags = (r, s')) :
    (∀ fault, r = .error (.engine fault) → s.Unchanged s') ∧
    (∀ violation, r = .error (.rule violation) → s.KeepsMain s' ∧
      (s.Unchanged s' ∨
        ∃ failed, s.Condemned params verify flags block violation failed s')) := by
  obtain ⟨hm, hsettled⟩ := h.settled_of_steps hs
  exact ChainState.accept_failures hm hsettled hchecked.wellFormed (contains_eq_false_iff.1 hnew) haccept

/-- The same where the node is inserted before it is decided where the block goes. -/
theorem Reachable.acceptInPlace_failures (h : Reachable params verify (fun _ => True) c)
    {earlier : AddFlags} {s s' : ChainState σ}
    (hs : ChainState.Steps (Block.Checked params verify) params verify earlier c.toChainState s)
    {block : Block} (hchecked : block.Checked params verify)
    (hnew : s.tree.contains block.hash = false) {r : Except Failure Bool}
    (haccept : s.acceptInPlace params verify block flags = (r, s')) :
    (∀ fault, r = .error (.engine fault) → s.Unchanged s') ∧
    (∀ violation, r = .error (.rule violation) → s.KeepsMain s' ∧
      (s.Unchanged s' ∨
        ∃ failed, s.Condemned params verify flags block violation failed s')) := by
  obtain ⟨hm, hsettled⟩ := h.settled_of_steps hs
  have hunknown := contains_eq_false_iff.1 hnew
  rw [ChainState.acceptInPlace_eq hm hunknown] at haccept
  exact ChainState.accept_failures hm hsettled hchecked.wellFormed hunknown haccept

end Chain

/-! ## A branch that fails late -/

namespace Sample

/-- A block over genesis that spends what does not exist. -/
def stray : Block := block network.genesis.header [coinbase 1 1, spend (coinbase 9 9)]

/-- A block over it, with nothing wrong about itself. -/
def heir : Block := block stray.header [coinbase 2 1]

/-- Whether adding a block breaks a rule, and what becomes of the nodes. -/
def fails (block : Block) (statuses : List BlockStatus) (s : ChainState MemoryStore) : Bool :=
  match s.accept network trusting block {} with
  | (.error (.rule _), s') => decide (s'.tree.nodes.toList.map (·.status) = statuses)
  | _ => false

/-- The first block is the tip, so that the stray one is only stored at first. -/
theorem ends_stray : (decide (heir.check network now trusting {} = .ok ()) &&
    (after? network now [first, stray]).any fun c => c.tree.size = 3 &&
      c.tree.contains heir.hash = false &&
      fails heir [.valid, .valid, .invalid, .invalid] c.toChainState) = true := by
  decide +kernel

end Sample

/-- In the sample network a block is stored on a side branch though it spends what does not exist,
and fails when another block makes its branch the better one. -/
theorem Chain.condemned_after_run : ∃ (c : Chain MemoryStore) (s' : ChainState MemoryStore)
    (violation : Violation) (failed : Nat), c.tree.size = 3 ∧
    c.accept Sample.network Sample.trusting Sample.heir {} = (.error (.rule violation), s') ∧
    s'.tree.nodes.toList.map (·.status) = [.valid, .valid, .invalid, .invalid] ∧
    c.KeepsMain s' ∧
    c.Condemned Sample.network Sample.trusting {} Sample.heir violation failed s' := by
  obtain ⟨hchecked, hends⟩ := Bool.and_eq_true_iff.1 Sample.ends_stray
  obtain ⟨c, store, hopen, hends⟩ := Sample.exists_opened hends
  have hopened : c.Reachable Sample.network Sample.trusting fun _ => True := .opened rfl hopen
  have hreached := hopened.submit trivial Sample.now [Sample.first, Sample.stray]
  generalize c.submit Sample.now [Sample.first, Sample.stray] = d at hends hreached
  simp only [Bool.and_eq_true, decide_eq_true_eq] at hchecked hends
  obtain ⟨⟨hsize, hnew⟩, hfails⟩ := hends
  rw [Sample.fails] at hfails
  split at hfails
  · next violation s' haccept =>
    have hstatuses := of_decide_eq_true hfails
    have hnow : ChainState.Steps (Block.Checked Sample.network Sample.trusting) Sample.network
        Sample.trusting {} d.toChainState d.toChainState := .refl
    obtain ⟨-, hrule⟩ := hreached.accept_all_or_nothing hnow ⟨_, _, hchecked⟩ hnew haccept
    obtain ⟨hmain, hsame | ⟨failed, hcondemned⟩⟩ := hrule violation rfl
    · -- there are four nodes now
      have hlen := congrArg List.length hstatuses
      rw [hsame.tree, List.length_map, Array.length_toList, ← BlockTree.size, hsize] at hlen
      cases hlen
    · exact ⟨d, s', violation, failed, hsize, haccept, hstatuses, hmain, hcondemned⟩
  · cases hfails

end PermissionedLedger
