import Mathlib
import PermissionedLedger.Proofs.Chain.Runs

/-!
# The best branch

The main chain of every reachable chain is the best branch that is not known to be
invalid, whatever blocks arrived in which order, whatever flags they came with, and
whenever the store refused a commit or was opened anew. No call replaces the tip by a
node that is not better.

It is assumed that the work of every branch is exact. Where it is not, a child may have
no more work than its parent.
-/

namespace PermissionedLedger

open BlockTree
open Time (Instant)

variable {σ : Type} [ChainStore σ] {params : Params} {verify : Verifier} {t : BlockTree}

/-! ## Work -/

namespace Plan

variable {s : Setting} {best : BestState} {block : Block} {flags : AddFlags} {plan : Plan}
  {p : Nat} {parent : TreeNode} {keys : KeySets}

/-- Work that is exact in the tree of a plan was exact with the new node. -/
theorem Selected.exactWork {tree : BlockTree} {id : Nat} {node : TreeNode} {pending : Batch}
    (h : Selected s tree best id node block flags pending plan) (hx : plan.tree.ExactWork) :
    tree.ExactWork := by
  intro i
  have hi := hx i
  cases h with
  | stored => exact hi
  | tooOld => exact hi
  | rejected =>
    simp only [reject] at hi
    rw [exactWork_setStatuses] at hi
    exact hi
  | switched =>
    rw [exactWork_setTip, exactWork_setStatuses] at hi
    exact hi

end Plan

/-! ## Runs -/

/-- Plans keep the main chain the best branch as long as work is exact. -/
theorem elected_keptByPlans {allowed : AddFlags → Prop} :
    KeptByPlans params verify allowed fun _ t _ => t.ExactWork → t.Elected params := by
  intro T t best block flags plan p parent keys _ hm h hchecked hadds hx
  have hgrown := hadds.selected.exactWork hx
  exact (Elected.of_plan (h (ExactWork.of_insert hgrown)) hm hadds hchecked.work_pos hgrown).1

/-- From a given tree on, plans only improve the tip. -/
theorem improves_keptByPlans {allowed : AddFlags → Prop} (t₀ : BlockTree) :
    KeptByPlans params verify allowed fun _ t _ =>
      t.ExactWork → t.Elected params ∧ t₀.TipImproves t := by
  intro T t best block flags plan p parent keys _ hm h hchecked hadds hx
  have hgrown := hadds.selected.exactWork hx
  obtain ⟨helected, himproves⟩ := h (ExactWork.of_insert hgrown)
  obtain ⟨helected', himproves'⟩ := Elected.of_plan helected hm hadds hchecked.work_pos hgrown
  obtain ⟨tip, n, htip, hn, -⟩ := hm.tip
  exact ⟨helected', himproves.trans himproves' htip hn⟩

theorem elected_keptByLoading :
    KeptByLoading params fun _ t _ => t.ExactWork → t.Elected params := by
  intro T t t' best best' hm hm' _ h hx
  exact (h (hx.of_mirror hm' hm)).of_mirror hm hm'

namespace Chain

variable [LawfulChainStore σ] {c : Chain σ} {allowed : AddFlags → Prop}

/-- The main chain of a reachable chain is the best branch. -/
theorem Reachable.elected (h : Reachable params verify allowed c) (hx : c.tree.ExactWork) :
    c.tree.Elected params :=
  (h.invariant (fun _ => params.elected_genesis) elected_keptByPlans elected_keptByLoading).2 hx

/-- A call replaces the tip by better ones only. -/
theorem Reachable.tipImproves_process (h : Reachable params verify allowed c) {block : Block}
    {flags : AddFlags} {now : Instant} (hx : (c.process block flags now).2.tree.ExactWork) :
    c.tree.TipImproves (c.process block flags now).2.tree := by
  have hstart : c.tree.ExactWork → c.tree.Elected params ∧ c.tree.TipImproves c.tree :=
    fun hx => ⟨h.elected hx, TipImproves.refl _⟩
  have hkept : KeptByPlans params verify (fun _ => True) _ := improves_keptByPlans c.tree
  exact (((h.steps block flags now).keeps hkept trivial id h.mirror hstart).2 hx).2

/-- Opening the store anew keeps the tip. -/
theorem Reachable.tipImproves_restart (h : Reachable params verify allowed c) {c' : Chain σ}
    {pool : OrphanPool} {store : σ}
    (hopen : openStore params verify pool c.store = (.ok c', store)) :
    c.tree.TipImproves c'.tree := by
  obtain ⟨-, hm', -⟩ := opened_on_store h.mirror hopen
  intro tip m tip' m' htip hm htip' hm''
  have heq := h.mirror.tip_eq hm' htip hm htip' hm''
  exact Or.inl ⟨(h.mirror.work_eq hm' hm hm'' heq).1.symm, heq.symm⟩

/-- In every reachable chain, all nodes of the main chain are valid, what descends from an invalid
node is invalid, and the tip is better than all other nodes that are not invalid. A call or a
restart keeps the tip or replaces it by a better one. -/
theorem Reachable.best_branch (h : Reachable params verify (fun _ => True) c)
    (hx : c.tree.ExactWork) :
    (∀ i ∈ c.tree.main, ∃ n, c.tree.node? i = some n ∧ n.status = .valid) ∧
    (∀ i j n m, j ∈ c.tree.lineage i → c.tree.node? i = some n → c.tree.node? j = some m →
      m.status = .invalid → n.status = .invalid) ∧
    (∃ tip m, c.tree.tip? = some tip ∧ c.tree.node? tip = some m ∧ c.best.hash = m.hash ∧
      ∀ i n, c.tree.node? i = some n → i ≠ tip → n.status ≠ .invalid →
        m.isBetterThan n = true) ∧
    (∀ block flags now, (c.process block flags now).2.tree.ExactWork →
      c.tree.TipImproves (c.process block flags now).2.tree) ∧
    (∀ capacity lifetime c' store,
      openStore params verify (.ofLimits capacity lifetime) c.store = (.ok c', store) →
      c.tree.TipImproves c'.tree) := by
  have helected := h.elected hx
  obtain ⟨tip, m, htip, hm, hbest, -⟩ := h.best_isTipOf
  refine ⟨fun i hi => ?_, fun i j n k hj hn hk hinvalid => ?_, ⟨tip, m, htip, hm, hbest, ?_⟩, ?_, ?_⟩
  · rw [← Array.mem_toList_iff, h.mirror.path tip htip, List.mem_reverse] at hi
    obtain ⟨n, hn⟩ := BlockTree.exists_node (lt_size_of_mem_lineage hi)
    exact ⟨n, hn, helected.main_valid htip hi hn⟩
  · exact helected.toSettled.invalid_of_mem_lineage hj hn hk hinvalid
  · exact fun i n hn hne hvalid => helected.best htip hm hn hne hvalid
  · exact fun block flags now hx' => h.tipImproves_process hx'
  · exact fun capacity lifetime c' store hopen => h.tipImproves_restart hopen

/-- After the sample run the second block is better than its rival and than its parent, which are
the tips before. -/
theorem best_branch_after_run : ∃ c : Chain MemoryStore, c.best.hash = Sample.second.hash ∧
    c.tree.size = 4 ∧ ∃ tip m, c.tree.tip? = some tip ∧ c.tree.node? tip = some m ∧
      c.best.hash = m.hash ∧ ∀ i n, c.tree.node? i = some n → i ≠ tip → n.status ≠ .invalid →
        m.isBetterThan n = true := by
  obtain ⟨c, hc, hbest, -, hsize, hx, -⟩ := Sample.exists_run (fun _ => True) trivial
  exact ⟨c, hbest, hsize, (hc.best_branch hx).2.2.1⟩

end Chain

end PermissionedLedger
