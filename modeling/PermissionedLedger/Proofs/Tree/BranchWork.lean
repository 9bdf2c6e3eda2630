import Mathlib
import PermissionedLedger.Proofs.Tree.Preference
import PermissionedLedger.Proofs.Tree.Queries
import PermissionedLedger.Proofs.Work.Effort

/-!
# Work is counted exactly

Along a branch work is added up, and the sum stops short of the bound (`Work.total`). So a node has
the smaller one of the exact sum and the greatest number below the bound
(`BlockTree.Coherent.work_eq_min`). As long as the exact sum stays below the bound, it is the work
of the node, and every block with a positive target adds something to it
(`BlockTree.work_exact`).
-/

namespace PermissionedLedger

namespace BlockTree

open Work

/-- The work of a positive target `t` is the whole part of `2 ^ 256 / (t + 1)`, in words of 256 bits
as well, which none of the steps exceeds. Harder targets stand for more work, and all other forms
for none. As long as the work of the blocks of a branch adds up to less than the bound, the node has
the sum of it, and with a positive target more than its parent. -/
theorem work_exact :
    (∀ bits t, target? bits = some t → 0 < t →
      work bits = bound / (t + 1) ∧ 1 ≤ work bits ∧
      t + 1 < bound ∧ (bound - 1 - t) / (t + 1) + 1 < bound ∧
      (wordWork (.ofNat 256 t)).toNat = work bits) ∧
    (∀ bits bits' t t', target? bits = some t → target? bits' = some t' → 0 < t → t ≤ t' →
      work bits' ≤ work bits) ∧
    (∀ bits, (∀ t, target? bits = some t → t = 0) → work bits = 0) ∧
    ∀ tree : BlockTree, tree.Built → ∀ i n, tree.node? i = some n →
      ((tree.lineageNodes i).map fun m => work m.header.bits).sum < bound →
      n.work = ((tree.lineageNodes i).map fun m => work m.header.bits).sum ∧
      ∀ p m t, n.parent = some p → tree.node? p = some m →
        target? n.header.bits = some t → 0 < t → m.work < n.work := by
  refine ⟨fun bits t h hpos => ?_, fun bits bits' t t' => work_anti, fun bits => work_eq_zero,
    fun tree hbuilt i n hn hexact => ?_⟩
  · have ht := succ_lt_bound_of_target? h
    rw [work_of_target? h hpos, toNat_wordWork hpos ht, sub_div_succ ht]
    exact ⟨rfl, quotient_pos ht, ht, quotient_lt hpos, rfl⟩
  · obtain ⟨hcoherent, -⟩ := hbuilt.invariant
    refine ⟨hcoherent.work_eq_of_lt hn hexact, fun p m t hp hm ht hpos => ?_⟩
    refine hcoherent.work_lt hn hexact hp hm ?_
    rw [work_of_target? ht hpos]
    exact quotient_pos (succ_lt_bound_of_target? ht)

/-! ## A branch of two blocks -/

namespace WorkSample

/-- A header with a compact target. -/
def header (bits : UInt32) : Header := { ForkSample.header 0 with bits }

/-- A block of the easiest target of all, and one of a harder target over it. -/
def branch : BlockTree :=
  (({} : BlockTree).insert (header 0x2100ffff) none .valid default).insert (header 0x1d00ffff)
    (some 0) .valid default

theorem built_branch : branch.Built :=
  .insert (.insert .empty rfl (by decide)) (by decide +kernel) (by decide)

end WorkSample

/-- Nearly all digests are below the easiest target, which makes its work one. -/
theorem work_exact_of_two_blocks :
    target? 0x2100ffff = some (0xffff * 256 ^ 30) ∧ work 0x2100ffff = 1 ∧
    target? 0x1d00ffff = some (0xffff * 256 ^ 26) ∧ work 0x2100ffff ≤ work 0x1d00ffff ∧
    target? 0x04923456 = none ∧ work 0x04923456 = 0 ∧
    ∃ n m, WorkSample.branch.node? 1 = some n ∧ WorkSample.branch.node? 0 = some m ∧
      n.work = 4295032834 ∧ m.work < n.work := by
  obtain ⟨hwork, hanti, hzero, hbranch⟩ := work_exact
  have heasy : target? 0x2100ffff = some (0xffff * 256 ^ 30) := by decide
  have hhard : target? 0x1d00ffff = some (0xffff * 256 ^ 26) := by decide
  have hnegative : target? 0x04923456 = none := by decide
  refine ⟨heasy, (hwork _ _ heasy (by decide)).1.trans (by decide), hhard,
    hanti _ _ _ _ hhard heasy (by decide) (by decide), hnegative,
    hzero _ fun t ht => absurd (hnegative.symm.trans ht) (by simp), ?_⟩
  have hsum : ((WorkSample.branch.lineageNodes 1).map fun m => work m.header.bits).sum =
      4295032834 := by
    decide +kernel
  obtain ⟨hexact, hgrows⟩ := hbranch _ WorkSample.built_branch 1 _ rfl (hsum ▸ by decide)
  exact ⟨_, _, rfl, rfl, hexact.trans hsum, hgrows 0 _ _ rfl rfl hhard (by decide)⟩

end BlockTree

end PermissionedLedger
