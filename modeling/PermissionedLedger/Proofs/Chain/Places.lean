import Mathlib
import PermissionedLedger.Proofs.Chain.Grounds
import PermissionedLedger.Proofs.Tree.Placed

/-!
# Places on a chain

A chain adds a node after its block passed the rules for its place, switches to another
branch or not, and may be loaded anew, which numbers the nodes differently. None of this
changes that a node was placed. So where no block was trusted, all nodes of a chain are
placed (`Chain.Reachable.placed`), and what follows for branches of placed nodes holds of
all its branches.
-/

namespace PermissionedLedger

open BlockTree Plan

variable {params : Params} {verify : Verifier}

/-- A plan keeps nodes placed, and places the one that it adds. -/
theorem placed_keptByPlans :
    KeptByPlans params verify (fun flags => flags.fastAdd = false) fun _ t _ =>
      ∀ i, t.Placed params i := by
  intro T t best block flags plan p parent keys hflags hm h _ hadds
  obtain ⟨-, -, hadmits, hplan⟩ := hadds
  obtain ⟨height, hcheck⟩ := hadmits.placed
  have hgrown : ∀ i, (Plan.grown t block p keys).Placed params i :=
    placed_insert h (.of_check hm.coherent (node?_lt hadmits.node) hflags hcheck _ _)
  intro i
  cases hplan with
  | stored => exact hgrown i
  | tooOld => exact hgrown i
  | rejected => exact (hgrown i).setStatuses _ _
  | switched => exact ((hgrown i).setStatuses _ _).setTip _

/-- Nodes are still placed where they are loaded. -/
theorem placed_keptByLoading : KeptByLoading params fun _ t _ => ∀ i, t.Placed params i := by
  intro T t t' best best' hm hm' _ h j
  refine Placed.of_same t fun n' p' hn' hp' => ?_
  obtain ⟨i, n, hn, heq⟩ := hm'.exists_node hm hn'
  have hheader : n.header = n'.header := congrArg NodeRecord.header (hm.toRecord_eq hm' hn hn' heq)
  rcases hm.parents_eq hm' hn hn' heq with ⟨-, hroot⟩ | ⟨p, k, q, l, hp, hk, hq, hl, hparents⟩
  · cases hp'.symm.trans hroot
  · obtain rfl := Option.some.inj (hp'.symm.trans hq)
    have hheaders : t.headers p = t'.headers p' := by
      rw [hm.headers_eq, hm'.headers_eq, hm.branch_eq hm' hk hl hparents]
    exact ⟨i, n, p, h i, hn, hp, hheader, hheaders⟩

/-- Where no block was trusted, all nodes were added after the rules for their places were
checked. -/
theorem Chain.Reachable.placed {σ : Type} [ChainStore σ] [LawfulChainStore σ] {c : Chain σ}
    (h : Reachable params verify (fun flags => flags.fastAdd = false) c) (i : Nat) :
    c.tree.Placed params i := by
  have hgenesis : ∀ i, params.genesisTree.Placed params i := by
    intro i n p hn hp
    obtain ⟨-, rfl⟩ := params.node?_genesisTree.1 hn
    cases hp
  exact (h.invariant (I := fun _ t _ => ∀ i, t.Placed params i) hgenesis placed_keptByPlans
    placed_keptByLoading).2 i

end PermissionedLedger
