import Mathlib
import PermissionedLedger.Proofs.Tree.Placed

/-!
# Median times

The times of blocks may go back from one to the next. The median of the latest ones does
not (`BlockTree.medianTime_mono`), because each block is later than the median before it.

The median is at least a given time if no more than half of the times are earlier
(`BlockTree.le_median_iff`). A time that comes in above the median does not add to the
earlier ones, and one that leaves only takes from them, so their number does not grow
(`BlockTree.median_take_le`). This holds for windows of all sizes, full or not.
-/

namespace PermissionedLedger.BlockTree

open Time (Instant)

variable {params : Params} {t : BlockTree} {a i j p : Nat} {n : TreeNode}

/-! ## Windows -/

/-- In ascending order, an element is at least a time if no more elements are earlier than come
before it. -/
theorem le_getElem_iff {sorted : List Instant} (hsorted : sorted.Pairwise (· ≤ ·)) {k : Nat}
    (hk : k < sorted.length) {v : Instant} :
    v ≤ sorted[k] ↔ sorted.countP (· < v) ≤ k := by
  induction sorted generalizing k with
  | nil => cases hk
  | cons first rest ih =>
    obtain ⟨hfirst, hrest⟩ := List.pairwise_cons.1 hsorted
    -- from a first element that is not earlier, none is
    have hnone : v ≤ first → rest.countP (· < v) = 0 := by
      intro hle
      rw [List.countP_eq_zero]
      intro time htime
      rw [decide_eq_true_eq, Instant.not_lt]
      exact Instant.le_trans hle (hfirst time htime)
    rw [List.countP_cons]
    cases k with
    | zero =>
      rw [List.getElem_cons_zero, ← Instant.not_lt]
      by_cases hlt : first < v
      · simp [hlt]
      · simp [hlt, hnone (Instant.not_lt.1 hlt)]
    | succ k =>
      rw [List.getElem_cons_succ, ih hrest (Nat.lt_of_succ_lt_succ hk)]
      by_cases hlt : first < v
      · simp [hlt]
      · simp [hlt, hnone (Instant.not_lt.1 hlt)]

/-- The median is at least a time if no more than half of the times are earlier. -/
theorem le_median_iff {times : List Instant} (h : times ≠ []) {v : Instant} :
    v ≤ median times ↔ times.countP (· < v) ≤ times.length / 2 := by
  have hsorted : (times.mergeSort fun a b => a ≤ b).Pairwise (· ≤ ·) :=
    List.pairwise_mergeSort' (· ≤ ·) times
  have hperm := List.mergeSort_perm times fun a b => decide (a ≤ b)
  have hpos := List.length_pos_iff.2 h
  rw [median, List.length_mergeSort,
    List.getElem?_eq_getElem (by rw [List.length_mergeSort]; omega), Option.getD_some,
    le_getElem_iff hsorted, hperm.countP_eq]

/-- The median of the latest times does not go back when a time above it comes in. -/
theorem median_take_le {times : List Instant} (h : times ≠ []) {count : Nat} (hcount : 0 < count)
    {time : Instant} (hlater : median (times.take count) < time) :
    median (times.take count) ≤ median ((time :: times).take count) := by
  obtain ⟨before, rfl⟩ := Nat.exists_eq_add_one.2 hcount
  have hwindow : times.take (before + 1) ≠ [] := by
    rw [ne_eq, List.take_eq_nil_iff]
    simpa using h
  have hhalf := (le_median_iff hwindow).1 (Instant.le_refl _)
  have hleaves : (times.take before).countP (· < median (times.take (before + 1))) ≤
      (times.take (before + 1)).countP (· < median (times.take (before + 1))) :=
    (List.take_sublist_take_left (Nat.le_succ before)).countP_le
  have hlength : (times.take (before + 1)).length ≤ (time :: times.take before).length := by
    rw [List.length_cons, List.length_take, List.length_take]
    omega
  rw [List.take_succ_cons, le_median_iff (List.cons_ne_nil _ _), List.countP_cons_of_neg]
  · omega
  · rw [decide_eq_true_eq]
    exact Instant.lt_asymm hlater

/-! ## Branches -/

/-- The median time at a placed block is not before that at its parent. -/
theorem Placed.medianTime_le (h : t.Placed params i) (hn : t.node? i = some n)
    (hp : n.parent = some p) :
    t.medianTime p params.medianTimeBlocks ≤ t.medianTime i params.medianTimeBlocks := by
  obtain ⟨m, hm⟩ := exists_parent hn hp
  obtain ⟨rest, hrest⟩ := headers_eq_cons hm
  have hlater := h.median_lt hn hp
  rw [medianTime_eq, List.map_take] at hlater ⊢
  rw [medianTime_eq, List.map_take, headers_child hn hp, List.map_cons]
  refine median_take_le ?_ (by omega) hlater
  rw [hrest]
  exact List.cons_ne_nil _ _

/-- Where all blocks of a branch were placed, the median time at each of them is not before that at
its parent, nor at any of its ancestors. -/
theorem medianTime_mono (h : ∀ j ∈ t.lineage i, t.Placed params j) (hj : j ∈ t.lineage i) :
    (∀ p, t.parent? j = some p →
      t.medianTime p params.medianTimeBlocks ≤ t.medianTime j params.medianTimeBlocks) ∧
    ∀ a, t.Ancestor a j →
      t.medianTime a params.medianTimeBlocks ≤ t.medianTime j params.medianTimeBlocks := by
  have hstep : ∀ j p, j ∈ t.lineage i → t.parent? j = some p →
      t.medianTime p params.medianTimeBlocks ≤ t.medianTime j params.medianTimeBlocks := by
    intro j p hj hparent
    obtain ⟨n, hn, hp⟩ := Option.bind_eq_some_iff.1 hparent
    exact (h j hj).medianTime_le hn hp
  refine ⟨fun p => hstep j p hj, ?_⟩
  rintro a ⟨links, hlinks⟩
  induction links generalizing j with
  | zero =>
    obtain ⟨n, -, rfl⟩ := Option.map_eq_some_iff.1 hlinks
    exact Instant.le_refl _
  | succ links ih =>
    obtain ⟨p, hparent, hrest⟩ := Option.bind_eq_some_iff.1 hlinks
    have hp : p ∈ t.lineage i := by
      obtain ⟨n, hn, hp⟩ := Option.bind_eq_some_iff.1 hparent
      refine mem_lineage_trans ?_ hj
      obtain ⟨m, hm⟩ := exists_parent hn hp
      rw [lineage_child hn hp]
      exact List.mem_cons_of_mem _ (mem_lineage_self (node?_lt hm))
    exact Instant.le_trans (ih hp hrest) (hstep j p hj hparent)

/-- On a branch whose last block is earlier than the one before, the median of three times does not
go back, neither there nor from its root on. -/
theorem medianTime_mono_of_earlier_block : ∃ t, Grown BranchSample.network t ∧
    (t.headers 3).map (·.time.seconds) = [900, 1200, 600, 0] ∧
    t.medianTime 2 3 ≤ t.medianTime 3 3 ∧ t.medianTime 0 3 ≤ t.medianTime 3 3 := by
  obtain ⟨t, hgrown, hlineage, hparent, -, htimes⟩ := BranchSample.exists_branch
  have hplaced : ∀ j ∈ t.lineage 3, t.Placed BranchSample.network j := fun j _ => hgrown.placed j
  have hroot : t.Ancestor 0 3 := ancestor_iff.2 (by simp [hlineage])
  obtain ⟨hparents, hancestors⟩ := medianTime_mono hplaced (show 3 ∈ t.lineage 3 by simp [hlineage])
  exact ⟨t, hgrown, htimes, hparents 2 hparent, hancestors 0 hroot⟩

end PermissionedLedger.BlockTree
