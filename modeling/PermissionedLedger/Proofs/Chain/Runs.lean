import Mathlib
import PermissionedLedger.Proofs.Chain.Opening
import PermissionedLedger.Proofs.Chain.Pool
import PermissionedLedger.Proofs.Tree.Histories

/-!
# Runs of a chain

Whatever a call does to a chain, it does in steps (`ChainState.Step`): a block that was
checked and is not known is added by the plan for it, or a commit is refused and nothing
changes. `Chain.process_steps` takes a call apart.

`Chain.Reachable` are the chains that calls and restarts lead to. What holds of genesis,
and is kept by plans and by loading the tree anew, holds of all of them
(`Chain.Reachable.invariant`).
-/

namespace PermissionedLedger

open BlockTree
open Time (Instant)

variable {σ : Type} [ChainStore σ] {params : Params} {verify : Verifier} {flags : AddFlags}
  {P : Block → Prop}

/-- A block passed the checks that need nothing else, at some time. -/
def Block.Checked (params : Params) (verify : Verifier) (b : Block) : Prop :=
  ∃ now flags, b.check params now verify flags = .ok ()

theorem Block.Checked.wellFormed {b : Block} (h : b.Checked params verify) : b.WellFormed := by
  obtain ⟨now, flags, hcheck⟩ := h
  exact Block.wellFormed_of_check hcheck

theorem Block.Checked.work_pos {b : Block} (h : b.Checked params verify) :
    0 < Work.work b.header.bits := by
  obtain ⟨now, flags, hcheck⟩ := h
  exact Block.work_pos_of_check hcheck

namespace ChainState

/-- The tables of the store. -/
abbrev tables (s : ChainState σ) : Tables := ChainStore.tables s.store

/-- One change of a chain: a block of which `P` holds is added, or nothing but the store changes,
which holds the same as before. -/
inductive Step (P : Block → Prop) (params : Params) (verify : Verifier) (flags : AddFlags)
    (s : ChainState σ) : ChainState σ → Prop
  | added {block : Block} {plan : Plan} {store : σ} (hP : P block)
      (unknown : s.tree.find? block.hash = none)
      (planned : Plan.ofBlock ⟨params, verify, s.tables⟩ s.tree s.best block flags = .ok plan)
      (committed : ChainStore.tables store = s.tables.writeAll plan.batch) :
      Step P params verify flags s ⟨store, plan.tree, plan.best⟩
  | refused {store : σ} (kept : ChainStore.tables store = s.tables) :
      Step P params verify flags s { s with store }

/-- Several changes one after another. -/
abbrev Steps (P : Block → Prop) (params : Params) (verify : Verifier) (flags : AddFlags) :
    ChainState σ → ChainState σ → Prop :=
  Relation.ReflTransGen (Step P params verify flags)

/-- What accepting a block can do. -/
theorem accept_cases [LawfulChainStore σ] {s s' : ChainState σ} {block : Block}
    {r : Except Failure Bool} (h : s.accept params verify block flags = (r, s')) :
    (∃ plan, Plan.ofBlock ⟨params, verify, s.tables⟩ s.tree s.best block flags = .ok plan ∧
      s'.tables = s.tables.writeAll plan.batch ∧ s'.tree = plan.tree ∧ s'.best = plan.best ∧
      r = plan.verdict.mapError .rule) ∨
    (∃ failure, r = .error failure ∧ s'.tables = s.tables ∧ s'.tree = s.tree ∧
      s'.best = s.best) := by
  rw [accept] at h
  split at h
  · obtain ⟨rfl, rfl⟩ := Prod.mk.inj h
    exact Or.inr ⟨_, rfl, rfl, rfl, rfl⟩
  · next plan hplan =>
    split at h
    · next hcommit =>
      obtain ⟨rfl, rfl⟩ := Prod.mk.inj h
      exact Or.inr ⟨_, rfl, LawfulChainStore.tables_of_error _ _ _ _ hcommit, rfl, rfl⟩
    · next hcommit =>
      obtain ⟨rfl, rfl⟩ := Prod.mk.inj h
      exact Or.inl ⟨plan, hplan, LawfulChainStore.tables_of_ok _ _ _ hcommit, rfl, rfl, rfl⟩

/-- Accepting a block is a step. -/
theorem accept_step [LawfulChainStore σ] {s s' : ChainState σ} {block : Block}
    {r : Except Failure Bool} (hP : P block) (hnew : s.tree.find? block.hash = none)
    (h : s.accept params verify block flags = (r, s')) : Step P params verify flags s s' := by
  obtain ⟨store, tree, best⟩ := s'
  rcases accept_cases h with ⟨plan, hplan, htables, rfl, rfl, -⟩ | ⟨failure, -, htables, rfl, rfl⟩
  · exact .added hP hnew hplan htables
  · exact .refused htables

end ChainState

/-! ## Which blocks are known -/

theorem Plan.find?_grown {t : BlockTree} (block : Block) (p : Nat) (keys : KeySets)
    (hash : Digest) : (Plan.grown t block p keys).find? hash =
      if hash = block.hash then some t.size else t.find? hash :=
  find?_insert hash

theorem Plan.Selected.find?_eq {s : Plan.Setting} {tree : BlockTree} {best : BestState} {id : Nat}
    {node : TreeNode} {block : Block} {pending : Batch} {plan : Plan}
    (h : Plan.Selected s tree best id node block flags pending plan) (hash : Digest) :
    plan.tree.find? hash = tree.find? hash := by
  cases h with
  | stored => rfl
  | tooOld => rfl
  | rejected => exact find?_setStatuses ..
  | switched => exact (find?_setTip ..).trans (find?_setStatuses ..)

/-- A plan makes its block known, and no other. -/
theorem Plan.find?_of_ofBlock {s : Plan.Setting} {t : BlockTree} {best : BestState} {block : Block}
    {plan : Plan} (h : Plan.ofBlock s t best block flags = .ok plan) (hash : Digest) :
    plan.tree.find? hash = if hash = block.hash then some t.size else t.find? hash := by
  obtain ⟨p, parent, keys, -, hplan⟩ := Plan.ofBlock_eq_ok h
  exact (hplan.find?_eq hash).trans (Plan.find?_grown block p keys hash)

/-- Blocks that can be added: `P` holds of each, none is known, and no two have one digest. -/
structure Waiting (P : Block → Prop) (t : BlockTree) (blocks : List Block) : Prop where
  /-- what is known of each -/
  holds : ∀ b ∈ blocks, P b
  /-- none is in the tree -/
  unknown : ∀ b ∈ blocks, t.find? b.hash = none
  /-- they differ -/
  distinct : (blocks.map (·.hash)).Nodup

namespace Waiting

variable {t : BlockTree} {blocks blocks' : List Block} {b : Block}

theorem nil : Waiting P t [] :=
  ⟨fun _ h => (nomatch h), fun _ h => (nomatch h), List.nodup_nil⟩

theorem sublist (h : Waiting P t blocks) (hsub : blocks'.Sublist blocks) : Waiting P t blocks' :=
  ⟨fun b hb => h.holds b (hsub.subset hb), fun b hb => h.unknown b (hsub.subset hb),
    h.distinct.sublist (hsub.map _)⟩

theorem perm (h : Waiting P t blocks) (hperm : blocks'.Perm blocks) : Waiting P t blocks' :=
  ⟨fun b hb => h.holds b (hperm.subset hb), fun b hb => h.unknown b (hperm.subset hb),
    (hperm.map _).nodup_iff.2 h.distinct⟩

theorem imp {Q : Block → Prop} (h : Waiting P t blocks) (hPQ : ∀ b, P b → Q b) :
    Waiting Q t blocks :=
  ⟨fun b hb => hPQ b (h.holds b hb), h.unknown, h.distinct⟩

theorem cons (h : Waiting P t blocks) (hb : P b) (hnew : t.find? b.hash = none)
    (hother : b.hash ∉ blocks.map (·.hash)) : Waiting P t (b :: blocks) :=
  ⟨List.forall_mem_cons.2 ⟨hb, h.holds⟩, List.forall_mem_cons.2 ⟨hnew, h.unknown⟩,
    List.nodup_cons.2 ⟨hother, h.distinct⟩⟩

/-- After the first was tried, the others wait still. -/
theorem accept [LawfulChainStore σ] {s s' : ChainState σ} {r : Except Failure Bool}
    (hw : Waiting P s.tree (b :: blocks)) (h : s.accept params verify b flags = (r, s')) :
    Waiting P s'.tree blocks := by
  have hdistinct := List.nodup_cons.1 hw.distinct
  refine ⟨fun c hc => hw.holds c (List.mem_cons_of_mem _ hc), fun c hc => ?_, hdistinct.2⟩
  have hunknown := hw.unknown c (List.mem_cons_of_mem _ hc)
  rcases ChainState.accept_cases h with ⟨plan, hplan, -, htree, -⟩ | ⟨_, -, -, htree, -⟩
  · have hne : c.hash ≠ b.hash := fun heq => hdistinct.1 (List.mem_map.2 ⟨c, hc, heq⟩)
    rw [htree, Plan.find?_of_ofBlock hplan, if_neg hne]
    exact hunknown
  · rw [htree]
    exact hunknown

end Waiting

/-! ## Calls -/

namespace ChainState

variable [LawfulChainStore σ] {s s' : ChainState σ}

theorem acceptAll_steps {accepted : List Digest} {blocks rest : List Block}
    {r : Except EngineFault (List Digest)} (hw : Waiting P s.tree (blocks ++ rest))
    (h : acceptAll params verify flags s accepted blocks = (r, s')) :
    Steps P params verify flags s s' ∧ Waiting P s'.tree rest := by
  induction blocks generalizing s accepted with
  | nil =>
    obtain ⟨-, rfl⟩ := Prod.mk.inj h
    exact ⟨.refl, hw⟩
  | cons b blocks ih =>
    rw [acceptAll] at h
    rw [List.cons_append] at hw
    have hP := hw.holds b (List.mem_cons_self ..)
    have hnew := hw.unknown b (List.mem_cons_self ..)
    rcases haccept : s.accept params verify b flags with ⟨r', u⟩
    have hstep := accept_step hP hnew haccept
    have hu := hw.accept haccept
    rw [haccept] at h
    rcases r' with (violation | fault) | isTip
    · obtain ⟨hsteps, hrest⟩ := ih hu h
      exact ⟨.head hstep hsteps, hrest⟩
    · obtain ⟨-, rfl⟩ := Prod.mk.inj h
      exact ⟨.single hstep, hu.sublist (List.sublist_append_right ..)⟩
    · obtain ⟨hsteps, hrest⟩ := ih hu h
      exact ⟨.head hstep hsteps, hrest⟩

theorem acceptOrphans_steps {now : Instant} {pool pool' : OrphanPool} {parents : List Digest}
    {r : Except EngineFault Unit} (hw : Waiting P s.tree pool.blocks) (hn : pool.Named)
    (h : s.acceptOrphans params verify flags now pool parents = (r, s', pool')) :
    Steps P params verify flags s s' ∧ Waiting P s'.tree pool'.blocks ∧ pool'.Named := by
  fun_induction ChainState.acceptOrphans params verify flags now s pool parents with
  | case1 s pool =>
    obtain ⟨-, rfl, rfl⟩ := h
    exact ⟨.refl, hw, hn⟩
  | case2 s pool parent parents taken fault u haccept =>
    obtain ⟨-, rfl, rfl⟩ := h
    obtain ⟨children, hsub, hperm⟩ := pool.blocks_takeChildren parent now
    obtain ⟨hsteps, hrest⟩ := acceptAll_steps
      ((hw.perm hperm).sublist (hsub.append (List.Sublist.refl _))) haccept
    exact ⟨hsteps, hrest, hn.takeChildren⟩
  | case3 s pool parent parents taken accepted u haccept ih =>
    obtain ⟨children, hsub, hperm⟩ := pool.blocks_takeChildren parent now
    obtain ⟨hsteps, hrest⟩ := acceptAll_steps
      ((hw.perm hperm).sublist (hsub.append (List.Sublist.refl _))) haccept
    obtain ⟨hsteps', hrest', hn'⟩ := ih hrest hn.takeChildren h
    exact ⟨hsteps.trans hsteps', hrest', hn'⟩

end ChainState

/-- What may be known of a chain between calls. -/
structure Chain.Orderly (P : Block → Prop) (c : Chain σ) : Prop where
  /-- orphans can be added -/
  waiting : Waiting P c.tree c.orphans.blocks
  /-- and are held under their digests -/
  named : c.orphans.Named

namespace Chain

variable [LawfulChainStore σ] {c c' : Chain σ} {block : Block} {now : Instant}

theorem checkNew_eq_ok {τ : Type} {c : Chain τ} (h : c.checkNew block flags now = .ok ()) :
    c.tree.find? block.hash = none ∧ c.orphans.contains block.hash = false ∧
      block.check c.params now c.verify flags = .ok () := by
  rw [checkNew] at h
  obtain ⟨hknown, h⟩ := require_bind_eq_ok.1 h
  obtain ⟨_, hcheck, -⟩ := bind_eq_ok.1 h
  obtain ⟨htree, hpool⟩ := Bool.or_eq_false_iff.1 hknown
  exact ⟨BlockTree.contains_eq_false_iff.1 htree, hpool, hcheck⟩

/-- A new block can be added, and the orphans after it. -/
theorem Orderly.waiting_cons {τ : Type} {c : Chain τ} (hc : c.Orderly P) (hP : P block)
    (hcheck : c.checkNew block flags now = .ok ()) :
    Waiting P c.tree (block :: c.orphans.blocks) := by
  obtain ⟨hnew, hpool, -⟩ := checkNew_eq_ok hcheck
  apply hc.waiting.cons hP hnew
  rw [← OrphanPool.contains_iff hc.named, hpool]
  exact Bool.false_ne_true

/-- A call changes a chain in steps. -/
theorem process_steps {block : Block} {flags : AddFlags} {now : Instant}
    {r : Except EngineFault Outcome} (hc : c.Orderly P)
    (hP : block.check c.params now c.verify flags = .ok () → P block)
    (h : c.process block flags now = (r, c')) :
    ChainState.Steps P c.params c.verify flags c.toChainState c'.toChainState ∧ c'.Orderly P ∧
      c'.params = c.params ∧ c'.verify = c.verify := by
  rw [process] at h
  split at h
  · obtain ⟨-, rfl⟩ := Prod.mk.inj h
    exact ⟨.refl, hc, rfl, rfl⟩
  · next hcheckNew =>
    obtain ⟨hnew, hpool, hcheck⟩ := checkNew_eq_ok hcheckNew
    have hw := hc.waiting_cons (hP hcheck) hcheckNew
    split at h
    · split at h
      · next violation s haccept =>
        obtain ⟨-, rfl⟩ := Prod.mk.inj h
        exact ⟨.single (ChainState.accept_step (hP hcheck) hnew haccept),
          ⟨hw.accept haccept, hc.named⟩, rfl, rfl⟩
      · next fault s haccept =>
        obtain ⟨-, rfl⟩ := Prod.mk.inj h
        exact ⟨.single (ChainState.accept_step (hP hcheck) hnew haccept),
          ⟨hw.accept haccept, hc.named⟩, rfl, rfl⟩
      · next isTip s haccept =>
        have hstep := ChainState.accept_step (hP hcheck) hnew haccept
        split at h
        · next s' orphans horphans =>
          obtain ⟨-, rfl⟩ := Prod.mk.inj h
          obtain ⟨hsteps, hw', hn'⟩ :=
            ChainState.acceptOrphans_steps (hw.accept haccept) hc.named horphans
          exact ⟨.head hstep hsteps, ⟨hw', hn'⟩, rfl, rfl⟩
        · next fault s' orphans horphans =>
          obtain ⟨-, rfl⟩ := Prod.mk.inj h
          obtain ⟨hsteps, hw', hn'⟩ :=
            ChainState.acceptOrphans_steps (hw.accept haccept) hc.named horphans
          exact ⟨.head hstep hsteps, ⟨hw', hn'⟩, rfl, rfl⟩
    · obtain ⟨-, rfl⟩ := Prod.mk.inj h
      refine ⟨.refl, ⟨?_, hc.named.add⟩, rfl, rfl⟩
      obtain ⟨kept, hkept, hblocks⟩ := OrphanPool.blocks_add hpool now
      have hw' : Waiting P c.tree (block :: kept) := hw.sublist (hkept.cons_cons block)
      change Waiting P c.tree (c.orphans.add block now).blocks
      rw [hblocks]
      exact hw'.perm (List.perm_append_singleton ..)

end Chain

/-! ## Reachable chains -/

/-- The chains that are opened on an empty store, and that calls and restarts lead to. Restarts keep
the network and what is a valid signature; orphans are lost. -/
inductive Chain.Reachable (params : Params) (verify : Verifier) (allowed : AddFlags → Prop) :
    Chain σ → Prop
  | opened {store store' : σ} {capacity : Nat} {lifetime : Int} {c : Chain σ}
      (empty : ChainStore.tables store = {})
      (opens : Chain.openStore params verify (.ofLimits capacity lifetime) store =
        (.ok c, store')) : Reachable params verify allowed c
  | processed {c : Chain σ} {block : Block} {flags : AddFlags} {now : Instant}
      (reached : Reachable params verify allowed c) (allows : allowed flags) :
      Reachable params verify allowed (c.process block flags now).2
  | restarted {c c' : Chain σ} {store' : σ} {capacity : Nat} {lifetime : Int}
      (reached : Reachable params verify allowed c)
      (opens : Chain.openStore params verify (.ofLimits capacity lifetime) c.store =
        (.ok c', store')) : Reachable params verify allowed c'

/-- The best state over genesis. -/
def Params.genesisBest (params : Params) : BestState :=
  .ofTip params.genesisTree params 0 params.genesisNode params.genesis

section Invariants

variable {allowed : AddFlags → Prop} {I : Tables → BlockTree → BestState → Prop}

/-- Plans with allowed flags keep what holds of a chain. -/
def KeptByPlans (params : Params) (verify : Verifier) (allowed : AddFlags → Prop)
    (I : Tables → BlockTree → BestState → Prop) : Prop :=
  ∀ ⦃T t best block flags plan p parent keys⦄, allowed flags → Mirror params T t → I T t best →
    Block.Checked params verify block →
    Plan.Adds ⟨params, verify, T⟩ t best block flags p parent keys plan →
    I (T.writeAll plan.batch) plan.tree plan.best

/-- Plans for blocks of which `P` holds keep what holds of a chain. -/
def KeptByPlansFor (P : Block → Prop) (params : Params) (verify : Verifier) (flags : AddFlags)
    (I : Tables → BlockTree → BestState → Prop) : Prop :=
  ∀ ⦃T t best block plan p parent keys⦄, P block → Mirror params T t → I T t best →
    Plan.Adds ⟨params, verify, T⟩ t best block flags p parent keys plan →
    I (T.writeAll plan.batch) plan.tree plan.best

/-- Loading the tree anew keeps what holds of a chain. -/
def KeptByLoading (params : Params) (I : Tables → BlockTree → BestState → Prop) : Prop :=
  ∀ ⦃T t t' best best'⦄, Mirror params T t → Mirror params T t' →
    BestState.ofTables params T t' = .ok best' → I T t best → I T t' best'

theorem ChainState.Step.keepsFor {s s' : ChainState σ} (hI : KeptByPlansFor P params verify flags I)
    (hP : ∀ {b}, P b → b.Checked params verify) (hs : Step P params verify flags s s')
    (hm : Mirror params s.tables s.tree) (h : I s.tables s.tree s.best) :
    Mirror params s'.tables s'.tree ∧ I s'.tables s'.tree s'.best := by
  cases hs with
  | @added block plan store hblock unknown planned committed =>
    obtain ⟨p, parent, keys, hadmits, hplan⟩ := Plan.ofBlock_eq_ok planned
    rw [ChainState.tables, committed]
    have hadds := Plan.Adds.mk (hP hblock).wellFormed unknown hadmits hplan
    exact ⟨hm.of_plan hadds, hI hblock hm h hadds⟩
  | refused kept =>
    rw [ChainState.tables, kept]
    exact ⟨hm, h⟩

theorem ChainState.Steps.keepsFor {s s' : ChainState σ}
    (hI : KeptByPlansFor P params verify flags I) (hP : ∀ {b}, P b → b.Checked params verify)
    (hs : Steps P params verify flags s s') (hm : Mirror params s.tables s.tree)
    (h : I s.tables s.tree s.best) :
    Mirror params s'.tables s'.tree ∧ I s'.tables s'.tree s'.best := by
  induction hs with
  | refl => exact ⟨hm, h⟩
  | tail _ hstep ih => exact hstep.keepsFor hI hP ih.1 ih.2

theorem ChainState.Steps.keeps {s s' : ChainState σ} (hI : KeptByPlans params verify allowed I)
    (hallowed : allowed flags) (hP : ∀ {b}, P b → b.Checked params verify)
    (hs : Steps P params verify flags s s') (hm : Mirror params s.tables s.tree)
    (h : I s.tables s.tree s.best) :
    Mirror params s'.tables s'.tree ∧ I s'.tables s'.tree s'.best := by
  have hplans : KeptByPlansFor P params verify flags I :=
    fun _ _ _ _ _ _ _ _ hb hm h hadds => hI hallowed hm h (hP hb) hadds
  exact hs.keepsFor hplans hP hm h

namespace Chain

variable {c c' : Chain σ} {store store' : σ} {pool : OrphanPool} {capacity : Nat} {lifetime : Int}

/-- A chain that is opened on the store of another holds the same, loaded anew. -/
theorem opened_on_store (hm : Mirror params c.tables c.tree)
    (h : openStore params verify pool c.store = (.ok c', store')) :
    c'.tables = c.tables ∧ Mirror params c.tables c'.tree ∧
      BestState.ofTables params c.tables c'.tree = .ok c'.best := by
  obtain ⟨tip, n, -, -, htip⟩ := hm.tip
  obtain ⟨hensure, hstore, htree, hbest, -⟩ := openStore_eq_ok h
  rw [ensureGenesis_of_tip htip] at hensure
  obtain ⟨-, rfl⟩ := Prod.mk.inj hensure
  exact ⟨congrArg ChainStore.tables hstore, hm.of_ofTables htree, hbest⟩

theorem orderly_of_openStore (h : openStore params verify (.ofLimits capacity lifetime) store =
    (.ok c, store')) : c.Orderly P ∧ c.params = params ∧ c.verify = verify := by
  obtain ⟨-, -, -, -, hparams, hverify, hpool⟩ := openStore_eq_ok h
  refine ⟨⟨?_, ?_⟩, hparams, hverify⟩
  · rw [hpool, OrphanPool.blocks_ofLimits]
    exact .nil
  · rw [hpool]
    exact OrphanPool.named_ofLimits _ _

variable [LawfulChainStore σ]

/-- A chain that is opened on an empty store is that of genesis, loaded anew. -/
theorem opened_on_empty (hempty : ChainStore.tables store = {})
    (h : openStore params verify pool store = (.ok c, store')) :
    c.tables = params.genesisTables ∧ Mirror params c.tables c.tree ∧
      BestState.ofTables params c.tables c.tree = .ok c.best := by
  obtain ⟨hensure, hstore, htree, hbest, -⟩ := openStore_eq_ok h
  have htables := tables_of_ensureGenesis hempty hensure
  rw [ChainState.tables, hstore]
  refine ⟨htables, ?_, hbest⟩
  rw [htables] at htree ⊢
  exact params.mirror_genesis.of_ofTables htree

namespace Reachable

theorem orderly (h : Reachable params verify allowed c) :
    c.Orderly (Block.Checked params verify) ∧ c.params = params ∧ c.verify = verify := by
  induction h with
  | opened empty opens => exact orderly_of_openStore opens
  | @processed c block flags now reached allows ih =>
    obtain ⟨hc, hparams, hverify⟩ := ih
    have hchecked : block.check c.params now c.verify flags = .ok () →
        block.Checked params verify := by
      rw [hparams, hverify]
      exact fun hcheck => ⟨now, flags, hcheck⟩
    obtain ⟨-, hc', hparams', hverify'⟩ := process_steps hc hchecked rfl
    exact ⟨hc', hparams'.trans hparams, hverify'.trans hverify⟩
  | restarted reached opens ih => exact orderly_of_openStore opens

/-- A call on a reachable chain changes it in steps. -/
theorem steps (h : Reachable params verify allowed c) (block : Block) (flags : AddFlags)
    (now : Instant) :
    ChainState.Steps (Block.Checked params verify) params verify flags c.toChainState
      (c.process block flags now).2.toChainState := by
  obtain ⟨hc, rfl, rfl⟩ := h.orderly
  exact (process_steps hc (fun hcheck => ⟨now, flags, hcheck⟩) rfl).1

/-- What holds of genesis and is kept by plans and by loading holds of every reachable chain. -/
theorem invariant (h : Reachable params verify allowed c)
    (genesis : I params.genesisTables params.genesisTree params.genesisBest)
    (plans : KeptByPlans params verify allowed I) (loading : KeptByLoading params I) :
    Mirror params c.tables c.tree ∧ I c.tables c.tree c.best := by
  induction h with
  | opened empty opens =>
    obtain ⟨htables, hm, hbest⟩ := opened_on_empty empty opens
    rw [htables] at hm hbest ⊢
    exact ⟨hm, loading params.mirror_genesis hm hbest genesis⟩
  | @processed c block flags now reached allows ih =>
    exact (reached.steps block flags now).keeps plans allows id ih.1 ih.2
  | restarted reached opens ih =>
    obtain ⟨htables, hm, hbest⟩ := opened_on_store ih.1 opens
    rw [htables]
    exact ⟨hm, loading ih.1 hm hbest ih.2⟩

theorem mirror (h : Reachable params verify allowed c) : Mirror params c.tables c.tree := by
  refine (h.invariant (I := fun _ _ _ => True) trivial ?_ ?_).1
  · intro T t best block flags plan p parent keys _ _ _ _ _
    trivial
  · intro T t t' best best' _ _ _ _
    trivial

end Reachable

end Chain

end Invariants

/-- Several blocks are submitted one after another, at one time and with all rules in force. -/
def Chain.submit (c : Chain σ) (now : Instant) (blocks : List Block) : Chain σ :=
  blocks.foldl (fun c block => (c.process block {} now).2) c

theorem Chain.Reachable.submit {allowed : AddFlags → Prop} {c : Chain σ}
    (h : Reachable params verify allowed c) (hallowed : allowed {}) (now : Instant)
    (blocks : List Block) : Reachable params verify allowed (c.submit now blocks) := by
  induction blocks generalizing c with
  | nil => exact h
  | cons block blocks ih => exact ih (.processed h hallowed)

/-! ## The best state -/

/-- The best state is that of the tip. -/
def BestState.IsTipOf (best : BestState) (t : BlockTree) : Prop :=
  ∃ tip n, t.tip? = some tip ∧ t.node? tip = some n ∧ best.hash = n.hash ∧
    best.height = n.height ∧ best.work = n.work ∧ best.keys = n.keys

/-- The best state is determined by the tables and the tree. -/
theorem BestState.ofTables_eq_ok {T : Tables} {t : BlockTree} {best : BestState} :
    BestState.ofTables params T t = .ok best ↔ ∃ tip n b, t.tip? = some tip ∧
      t.node? tip = some n ∧ T.blocks[n.hash]? = some b ∧ best = .ofTip t params tip n b := by
  rw [BestState.ofTables]
  constructor
  · intro h
    split at h
    · cases h
    · next tip n htip =>
      obtain ⟨tip', htip', hmap⟩ := Option.bind_eq_some_iff.1 htip
      obtain ⟨n', hn', heq⟩ := Option.map_eq_some_iff.1 hmap
      obtain ⟨rfl, rfl⟩ := Prod.mk.inj heq
      split at h
      · cases h
      · next b hb => exact ⟨tip', n', b, htip', hn', hb, (Except.ok.inj h).symm⟩
  · rintro ⟨tip, n, b, htip, hn, hb, rfl⟩
    rw [htip, Option.bind_some, hn, Option.map_some]
    simp only [hb]

theorem BestState.isTipOf_of_ofTables {T : Tables} {t : BlockTree} {best : BestState}
    (h : BestState.ofTables params T t = .ok best) : best.IsTipOf t := by
  obtain ⟨tip, n, b, htip, hn, -, rfl⟩ := BestState.ofTables_eq_ok.1 h
  exact ⟨tip, n, htip, hn, rfl, rfl, rfl, rfl⟩

/-- The best state of a plan is what would be loaded. -/
theorem best_keptByPlans {allowed : AddFlags → Prop} :
    KeptByPlans params verify allowed fun T t best =>
      BestState.ofTables params T t = .ok best := by
  intro T t best block flags plan p parent keys _ hm hbest _ hadds
  have hblocks := hadds.getElem?_blocks
  obtain ⟨hb, hnew, hadmits, hplan⟩ := hadds
  obtain ⟨tip, n, b, htip, hn, hstored, rfl⟩ := BestState.ofTables_eq_ok.1 hbest
  have hgrown := hm.grown hb hnew hadmits
  have hn' := Plan.node?_grown_of_some block p keys hn
  have hold := hm.coherent.hash_ne hn hnew
  have hheaders : (Plan.grown t block p keys).headers tip = t.headers tip :=
    headers_insert_of_lt (node?_lt hn)
  have hstored' : (T.writeAll plan.batch).blocks[n.hash]? = some b := by
    rw [hblocks, if_neg hold, hstored]
  rw [BestState.ofTables_eq_ok]
  cases hplan with
  | stored => exact ⟨tip, n, b, htip, hn', hstored',
      BestState.ofTip_congr rfl hheaders.symm params b⟩
  | tooOld => exact ⟨tip, n, b, htip, hn', hstored',
      BestState.ofTip_congr rfl hheaders.symm params b⟩
  | @rejected _ _ failed =>
    refine ⟨tip, if tip ∈ (Plan.grown t block p keys).descendants failed then
      { n with status := .invalid } else n, b, ?_, ?_, ?_, ?_⟩
    · exact Plan.tip?_reject.trans htip
    · rw [Plan.reject, node?_setStatuses, hn', Option.map_some]
    · split <;> exact hstored'
    · have hsame : BestState.ofTip t params tip n b =
          .ofTip ((Plan.grown t block p keys).setStatuses
            ((Plan.grown t block p keys).descendants failed) .invalid) params tip n b :=
        BestState.ofTip_congr rfl ((headers_setStatuses ..).trans hheaders).symm params b
      rw [Plan.reject, hsame]
      split <;> rfl
  | @switched _ fork =>
    refine ⟨t.size, if t.size ∈ (Plan.grown t block p keys).pathFrom fork t.size then
      { Plan.newNode t block p keys with status := .valid } else Plan.newNode t block p keys,
      block, ?_, ?_, ?_, ?_⟩
    · exact tip?_setStatuses_setTip hgrown.coherent hgrown.path Plan.size_grown_lt
    · rw [node?_setTip, node?_setStatuses, Plan.node?_grown_size, Option.map_some]
    · have hnode : (Plan.newNode t block p keys).hash = block.hash := rfl
      rw [hblocks, if_pos]
      split <;> rfl
    · split <;> rfl

theorem best_keptByLoading : KeptByLoading params fun T t best =>
    BestState.ofTables params T t = .ok best :=
  fun _ _ _ _ _ _ _ hbest _ => hbest

theorem Params.genesisBest_eq (params : Params) :
    BestState.ofTables params params.genesisTables params.genesisTree = .ok params.genesisBest := by
  rw [BestState.ofTables_eq_ok]
  exact ⟨0, _, params.genesis, params.tip?_genesisTree, params.node?_genesisTree.2 ⟨rfl, rfl⟩,
    params.stored_genesisTables.2 ⟨rfl, rfl⟩, rfl⟩

namespace Chain.Reachable

variable [LawfulChainStore σ] {allowed : AddFlags → Prop} {c : Chain σ}

/-- The best state of a reachable chain is what would be loaded. -/
theorem best_eq (h : Reachable params verify allowed c) :
    BestState.ofTables params c.tables c.tree = .ok c.best :=
  (h.invariant params.genesisBest_eq best_keptByPlans best_keptByLoading).2

theorem best_isTipOf (h : Reachable params verify allowed c) : c.best.IsTipOf c.tree :=
  BestState.isTipOf_of_ofTables h.best_eq

end Chain.Reachable

/-! ## A sample run

Two blocks over genesis compete, and a block over the first of them spends what it
created. The rival takes the place of the first block for its smaller digest, and the
first block comes back with the second one. -/

namespace Sample

/-- The network for local testing, where coins can be spent after one block. -/
def network : Params := { Network.regtestParams with medianTimeBlocks := 1, coinbaseMaturity := 1 }

/-- Every signature is valid. -/
def trusting : Verifier := fun _ _ _ => true

/-- The key that signs blocks. -/
def key : PublicKey := (network.genesisKeys.validating.toList.head?).getD .zero

/-- A coinbase that pays to the key. -/
def coinbase (height : Nat) (tag : UInt8) : Transaction where
  version := 1
  inputs := [⟨.null, .coinbase (Bytes.ofNatLE 8 height ++ [tag]), finalSequence⟩]
  outputs := [⟨0, .payToKey key⟩]
  lockTime := 0

/-- A transaction that spends the first output of another, and pays to the key again. -/
def spend (tx : Transaction) : Transaction where
  version := 1
  inputs := [⟨tx.outPoint 0, .signatures [⟨key, []⟩], finalSequence⟩]
  outputs := [⟨0, .payToKey key⟩]
  lockTime := 0

/-- A block ten minutes after its parent. -/
def block (parent : Header) (transactions : List Transaction) : Block where
  header :=
    { version := 1
      previous := parent.hash
      merkleRoot := Merkle.root (transactions.map (·.hash))
      time := parent.time.addSeconds 600
      bits := parent.bits
      nonce := 0
      size := UInt32.ofNat (transactions.map (·.size)).sum
      validator := key
      signature := [] }
  transactions

/-- A block over genesis. -/
def first : Block := block network.genesis.header [coinbase 1 2]

/-- Another, with a smaller digest. -/
def rival : Block := block network.genesis.header [coinbase 1 3]

/-- A block over the first that spends its coinbase. -/
def second : Block := block first.header [coinbase 2 2, spend (coinbase 1 2)]

/-- A day after genesis. -/
def now : Instant := network.genesisTime.addSeconds 86400

/-- A chain in memory after given blocks. -/
def after? (params : Params) (now : Instant) (blocks : List Block) : Option (Chain MemoryStore) :=
  match Chain.openStore params trusting (.ofLimits 4 3600) ({} : MemoryStore) with
  | (.ok c, _) => some (c.submit now blocks)
  | (.error _, _) => none

/-- The digests of all stored transactions. -/
def storedHashes (T : Tables) : List Digest :=
  T.blocks.toList.flatMap fun entry => entry.2.transactions.map (·.hash)

/-- How a run ends: with a block on top, a number of nodes, work that is exact, and no two
transactions of one digest. -/
def endsWith (tip : Block) (size : Nat) (c : Chain MemoryStore) : Bool :=
  c.best.hash = tip.hash && decide (c.tables.blocks[tip.hash]? = some tip) &&
    c.tree.size = size &&
    (List.range size).all (fun i => c.tree.exactWork i < Work.bound) &&
    decide (storedHashes c.tables).Nodup

/-- The blocks are different. It does not matter whether the second block comes last or first. -/
theorem ends_runs : (decide ([first, rival, second].map (·.hash)).Nodup &&
    (after? network now [first, rival, second]).any (endsWith second 4) &&
    (after? network now [second, rival, first]).any (endsWith second 4)) = true := by
  decide +kernel

theorem exists_opened {params : Params} {now : Instant} {blocks : List Block}
    {p : Chain MemoryStore → Bool} (h : (after? params now blocks).any p = true) :
    ∃ c store, Chain.openStore params trusting (.ofLimits 4 3600) ({} : MemoryStore) =
      (.ok c, store) ∧ p (c.submit now blocks) = true := by
  obtain ⟨d, hd, hp⟩ := (Option.any_eq_true _ _).1 h
  rw [after?] at hd
  split at hd
  · next c store hopen =>
    obtain rfl := Option.some.inj hd
    exact ⟨c, store, hopen, hp⟩
  · cases hd

theorem collisionFree_of_nodup {T : Tables} (h : (storedHashes T).Nodup) : T.CollisionFree := by
  intro hash hash' b b' hb hb' tx htx tx' htx' heq
  have hmem : ∀ {hash : Digest} {b : Block} {tx : Transaction}, T.blocks[hash]? = some b →
      tx ∈ b.transactions →
      tx ∈ T.blocks.toList.flatMap fun entry => entry.2.transactions := by
    intro hash b tx hb htx
    exact List.mem_flatMap.2 ⟨(hash, b), Std.ExtTreeMap.mem_toList_iff_getElem?_eq_some.2 hb, htx⟩
  rw [storedHashes, ← List.map_flatMap] at h
  exact List.inj_on_of_nodup_map h (hmem hb htx) (hmem hb' htx') heq

theorem of_endsWith {tip : Block} {size : Nat} {c : Chain MemoryStore}
    (h : endsWith tip size c = true) : c.best.hash = tip.hash ∧
      c.tables.blocks[tip.hash]? = some tip ∧ c.tree.size = size ∧ c.tree.ExactWork ∧
      c.tables.CollisionFree := by
  simp only [endsWith, Bool.and_eq_true, decide_eq_true_eq, List.all_eq_true, List.mem_range] at h
  obtain ⟨⟨⟨⟨hbest, hblock⟩, hsize⟩, hwork⟩, hnodup⟩ := h
  refine ⟨hbest, hblock, hsize, fun i => ?_, collisionFree_of_nodup hnodup⟩
  by_cases hi : i < size
  · exact hwork i hi
  · rw [exactWork_of_size_le (by omega)]
    exact Nat.two_pow_pos 256

theorem exists_run (allowed : AddFlags → Prop) (hallowed : allowed {}) :
    ∃ c : Chain MemoryStore, c.Reachable network trusting allowed ∧ c.best.hash = second.hash ∧
      c.tables.blocks[second.hash]? = some second ∧ c.tree.size = 4 ∧ c.tree.ExactWork ∧
      c.tables.CollisionFree := by
  obtain ⟨c, store, hopen, hends⟩ := exists_opened
    (Bool.and_eq_true_iff.1 (Bool.and_eq_true_iff.1 ends_runs).1).2
  have hopened : c.Reachable network trusting allowed := .opened rfl hopen
  exact ⟨c.submit now [first, rival, second], hopened.submit hallowed now _, of_endsWith hends⟩

end Sample

end PermissionedLedger
