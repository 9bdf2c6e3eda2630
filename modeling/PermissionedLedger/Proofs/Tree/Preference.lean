import Mathlib
import PermissionedLedger.Proofs.Tree.Branches

/-!
# Which branch is preferred

`TreeNode.isBetterThan` is a strict order, and total on nodes with different digests:
more work is better, and of equal work the smaller digest.

Work is added up along a branch, but stops short of `Work.bound` (`Coherent.work_eq_min`). Where no
branch reaches the bound (`BlockTree.ExactWork`), a child whose own work is positive is better
than its parent (`isBetterThan_of_parent`).
-/

namespace PermissionedLedger

theorem Bytes.toNatLE_inj : ∀ {as bs : Bytes}, as.length = bs.length →
    Bytes.toNatLE as = Bytes.toNatLE bs → as = bs
  | [], [], _, _ => rfl
  | a :: as, b :: bs, hlen, h => by
    simp only [Bytes.toNatLE] at h
    have ha := a.toNat_lt
    have hb := b.toNat_lt
    have hhead : a.toNat = b.toNat := by omega
    have htail := Bytes.toNatLE_inj (Nat.succ.inj hlen) (show toNatLE as = toNatLE bs by omega)
    rw [UInt8.toNat_inj.1 hhead, htail]

/-- Digests are their values. -/
theorem Digest.value_inj {a b : Digest} (h : a.value = b.value) : a = b :=
  Digest.toList_inj (Bytes.toNatLE_inj (by rw [length_toList, length_toList]) h)

namespace TreeNode

variable {a b c : TreeNode}

theorem isBetterThan_iff : a.isBetterThan b = true ↔
    b.work < a.work ∨ a.work = b.work ∧ a.hash.value < b.hash.value := by
  simp [isBetterThan]

theorem isBetterThan_trans (hab : a.isBetterThan b = true) (hbc : b.isBetterThan c = true) :
    a.isBetterThan c = true := by
  rw [isBetterThan_iff] at *
  omega

theorem isBetterThan_asymm (hab : a.isBetterThan b = true) : b.isBetterThan a = false := by
  rw [Bool.eq_false_iff]
  intro hba
  rw [isBetterThan_iff] at hab hba
  omega

/-- Of two nodes with different digests one is better. -/
theorem isBetterThan_of_not (hne : a.hash ≠ b.hash) (h : a.isBetterThan b = false) :
    b.isBetterThan a = true := by
  rw [Bool.eq_false_iff, ne_eq, isBetterThan_iff] at h
  rw [isBetterThan_iff]
  have hvalue : a.hash.value ≠ b.hash.value := fun heq => hne (Digest.value_inj heq)
  omega

/-- Only work and digest matter. -/
theorem isBetterThan_congr {a' b' : TreeNode} (ha : a'.work = a.work ∧ a'.hash = a.hash)
    (hb : b'.work = b.work ∧ b'.hash = b.hash) : a'.isBetterThan b' = a.isBetterThan b := by
  rw [isBetterThan, isBetterThan, ha.1, ha.2, hb.1, hb.2]

end TreeNode

namespace BlockTree

variable {t : BlockTree}

/-- The exact work of the branch that ends at a node. -/
def exactWork (t : BlockTree) (i : Nat) : Nat :=
  ((t.lineageNodes i).map fun n => Work.work n.header.bits).sum

/-- The exact work of every branch is below the bound. -/
def ExactWork (t : BlockTree) : Prop := ∀ i, t.exactWork i < Work.bound

theorem exactWork_of_child {i p : Nat} {n : TreeNode} (hn : t.node? i = some n)
    (hp : n.parent = some p) : t.exactWork i = Work.work n.header.bits + t.exactWork p := by
  rw [exactWork, exactWork, lineageNodes, lineageNodes, lineage_child hn hp]
  simp [hn]

/-- Work grows up to the greatest number below the bound and no further. -/
theorem Coherent.work_eq_min (ht : t.Coherent) {i : Nat} {n : TreeNode} (hn : t.node? i = some n) :
    n.work = min (t.exactWork i) (Work.bound - 1) := by
  induction i, node?_lt hn using lineage_induction generalizing n with
  | root i m hm hp =>
    rw [hn] at hm
    obtain rfl := Option.some.inj hm
    have hexact : t.exactWork i = Work.work n.header.bits := by
      rw [exactWork, lineageNodes, lineage_root hn hp]
      simp [hn]
    rw [(ht.of_root hn hp).2, Work.total, hexact, Nat.zero_add]
  | child i m p hm hp ih =>
    rw [hn] at hm
    obtain rfl := Option.some.inj hm
    obtain ⟨k, hk⟩ := exists_parent hn hp
    rw [(ht.of_child hn hp hk).2, ih hk, exactWork_of_child hn hp, Work.total]
    omega

/-- Work that does not reach the bound is exact. -/
theorem Coherent.work_eq_of_lt (ht : t.Coherent) {i : Nat} {n : TreeNode} (hn : t.node? i = some n)
    (hlt : t.exactWork i < Work.bound) : n.work = t.exactWork i :=
  (ht.work_eq_min hn).trans (Nat.min_eq_left (Nat.le_sub_one_of_lt hlt))

/-- Until the bound is reached, a child with work of its own has more than its parent. -/
theorem Coherent.work_lt (ht : t.Coherent) {i p : Nat} {n m : TreeNode} (hn : t.node? i = some n)
    (hlt : t.exactWork i < Work.bound) (hp : n.parent = some p) (hm : t.node? p = some m)
    (hpos : 0 < Work.work n.header.bits) : m.work < n.work := by
  rw [exactWork_of_child hn hp] at hlt
  rw [ht.work_eq_min hn, ht.work_eq_min hm, exactWork_of_child hn hp]
  omega

/-- A child with work of its own is better than its parent. -/
theorem isBetterThan_of_parent (ht : t.Coherent) (hx : t.ExactWork) {i p : Nat} {n m : TreeNode}
    (hn : t.node? i = some n) (hp : n.parent = some p) (hm : t.node? p = some m)
    (hpos : 0 < Work.work n.header.bits) : n.isBetterThan m = true :=
  TreeNode.isBetterThan_iff.2 (.inl (ht.work_lt hn (hx i) hp hm hpos))

/-- Trees with the same parents and headers have the same exact work. -/
theorem exactWork_congr {t' : BlockTree} {i : Nat} (hline : t'.lineage i = t.lineage i)
    (h : ∀ j ∈ t.lineage i, (t'.node? j).map (·.header) = (t.node? j).map (·.header)) :
    t'.exactWork i = t.exactWork i := by
  have hmap : ∀ (s : BlockTree) (l : List Nat),
      (l.filterMap s.node?).map (fun n => Work.work n.header.bits) =
        (l.filterMap fun j => (s.node? j).map (·.header)).map fun header =>
          Work.work header.bits := by
    intro s l
    rw [List.map_filterMap, List.map_filterMap]
    refine List.filterMap_congr fun j _ => ?_
    rcases s.node? j with _ | n <;> rfl
  rw [exactWork, exactWork, lineageNodes, lineageNodes, hline, hmap, hmap, List.filterMap_congr h]

theorem exactWork_setStatuses {ids : List Nat} {status : BlockStatus} {i : Nat} :
    (t.setStatuses ids status).exactWork i = t.exactWork i := by
  refine exactWork_congr (lineage_setStatuses ids status i) fun j _ => ?_
  rw [node?_setStatuses]
  rcases t.node? j with _ | n
  · rfl
  · rw [Option.map_some, Option.map_some, Option.map_some]
    split <;> rfl

theorem exactWork_setTip {i j : Nat} : (t.setTip i).exactWork j = t.exactWork j :=
  exactWork_congr (lineage_setTip i j) fun _ _ => rfl

theorem exactWork_of_size_le {i : Nat} (h : t.size ≤ i) : t.exactWork i = 0 := by
  rw [exactWork, lineageNodes, lineage_of_none (by simpa [node?, size] using h)]
  rfl

/-- Work that is exact with a new node was exact without it. -/
theorem ExactWork.of_insert {header : Header} {parent : Option Nat} {status : BlockStatus}
    {keys : KeySets} (hx : (t.insert header parent status keys).ExactWork) : t.ExactWork := by
  intro i
  by_cases hi : i < t.size
  · have hsame : (t.insert header parent status keys).exactWork i = t.exactWork i := by
      refine exactWork_congr (lineage_insert_of_lt hi) fun j hj => ?_
      rw [node?_insert_of_lt (lt_size_of_mem_lineage hj)]
    rw [← hsame]
    exact hx i
  · rw [exactWork_of_size_le (Nat.le_of_not_lt hi)]
    exact Nat.two_pow_pos 256

end BlockTree

end PermissionedLedger
