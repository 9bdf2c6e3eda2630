import Mathlib
import PermissionedLedger.Proofs.Tree.Histories

/-!
# What parent links determine

A tree is *built* (`BlockTree.Built`) by adding nodes, taking the newest one back, changing
statuses and moving the tip, in any order. The main chain makes some of its queries
shorter and answers none of them: whatever was built, all of them say what following
parent links says (`BlockTree.climb?`, `BlockTree.ByParents`).

Taking a node back leaves what the invariants of a tree need
(`Coherent.removeNewest`, `MainPath.removeNewest`), because it was the parent of no other
node and not on the main chain.
-/

namespace PermissionedLedger.BlockTree

variable {t : BlockTree} {a b i : Nat} {n : TreeNode}

/-! ## Following parent links -/

/-- The parent of a node. -/
def parent? (t : BlockTree) (i : Nat) : Option Nat := (t.node? i).bind (·.parent)

/-- Follows a number of parent links, from a node that is known. -/
def climb? (t : BlockTree) : Nat → Nat → Option Nat
  | 0, i => (t.node? i).map fun _ => i
  | k + 1, i => (t.parent? i).bind (t.climb? k)

/-- Parent links lead from a node to another, or it is that node itself. -/
def Ancestor (t : BlockTree) (a i : Nat) : Prop := ∃ k, t.climb? k i = some a

/-- The walk to the root meets what parent links lead to. -/
theorem getElem?_lineage (t : BlockTree) (i k : Nat) : (t.lineage i)[k]? = t.climb? k i := by
  induction k generalizing i with
  | zero =>
    rcases hn : t.node? i with _ | n
    · rw [lineage_of_none hn, climb?, hn]
      rfl
    · obtain ⟨rest, hrest⟩ := lineage_eq_cons hn
      rw [hrest, climb?, hn]
      rfl
  | succ k ih =>
    rcases hn : t.node? i with _ | n
    · rw [lineage_of_none hn, climb?, parent?, hn]
      rfl
    · rw [climb?, parent?, hn, Option.bind_some]
      rcases hp : n.parent with _ | p
      · rw [lineage_root hn hp]
        rfl
      · rw [lineage_child hn hp, List.getElem?_cons_succ, Option.bind_some, ih]

theorem ancestor_iff : t.Ancestor a i ↔ a ∈ t.lineage i := by
  rw [Ancestor, List.mem_iff_getElem?]
  exact exists_congr fun k => by rw [getElem?_lineage]

theorem height_eq (hn : t.node? i = some n) : t.height i = n.height := by
  rw [height, hn]
  rfl

/-- Read from the root, a walk has at each height what as many links lead to as the node is
higher. -/
theorem Coherent.getElem?_reverse_lineage_eq (ht : t.Coherent) (hn : t.node? i = some n) {k : Nat}
    (hk : k ≤ n.height) : (t.lineage i).reverse[k]? = t.climb? (n.height - k) i := by
  have hlen := ht.length_lineage hn
  rw [List.getElem?_reverse (by omega), getElem?_lineage, hlen]
  congr 1

/-- A node has as many ancestors as it is high. -/
theorem Coherent.climb?_eq_none (ht : t.Coherent) (hn : t.node? i = some n) :
    t.climb? (n.height + 1) i = none := by
  rw [← getElem?_lineage, List.getElem?_eq_none]
  rw [ht.length_lineage hn]

/-- Every walk ends at a root. -/
theorem exists_root_of_mem (h : a ∈ t.lineage i) :
    ∃ r, t.parent? r = none ∧ r ∈ t.lineage a := by
  have ha := lt_size_of_mem_lineage h
  clear h
  induction a, ha using lineage_induction with
  | root j m hm hp =>
    refine ⟨j, ?_, mem_lineage_self (node?_lt hm)⟩
    rw [parent?, hm, Option.bind_some, hp]
  | child j m p hm hp ih =>
    obtain ⟨r, hr, hmem⟩ := ih
    refine ⟨r, hr, ?_⟩
    rw [lineage_child hm hp]
    exact List.mem_cons_of_mem _ hmem

/-! ## Taking a node back -/

/-- What remains when the newest node is taken back. -/
theorem node?_removeNewest (h : i + 1 = t.size ∧ i ∉ t.main) (j : Nat) :
    (t.removeNewest i).node? j = if j = i then none else t.node? j := by
  have hsize : t.nodes.size = i + 1 := h.1.symm
  rw [removeNewest, if_pos h]
  simp only [node?, Array.getElem?_pop, hsize, Nat.add_sub_cancel]
  by_cases hlt : j < i
  · rw [if_pos hlt, if_neg (Nat.ne_of_lt hlt)]
  · rw [if_neg hlt]
    split
    · rfl
    · rw [Array.getElem?_eq_none (by omega)]

/-- All that remains was there before. -/
theorem node?_of_removeNewest (h : i + 1 = t.size ∧ i ∉ t.main) {j : Nat}
    (hn : (t.removeNewest i).node? j = some n) : t.node? j = some n ∧ j < i := by
  rw [node?_removeNewest h] at hn
  split at hn
  · cases hn
  · have hlt := node?_lt hn
    have hsize := h.1
    exact ⟨hn, by omega⟩

theorem find?_removeNewest (h : i + 1 = t.size ∧ i ∉ t.main) (hn : t.node? i = some n)
    (hash : Digest) :
    (t.removeNewest i).find? hash = if n.hash = hash then none else t.find? hash := by
  rw [removeNewest, if_pos h]
  simp only [find?, hn, Std.ExtTreeMap.getElem?_erase, Std.LawfulEqCmp.compare_eq_iff_eq]

theorem lineage_removeNewest (h : i + 1 = t.size ∧ i ∉ t.main) {j : Nat} (hj : j < i) :
    (t.removeNewest i).lineage j = t.lineage j := by
  refine lineage_congr i (fun k hk => ?_) hj
  rw [node?_removeNewest h, if_neg (Nat.ne_of_lt hk)]

theorem headers_removeNewest (h : i + 1 = t.size ∧ i ∉ t.main) {j : Nat} (hj : j < i) :
    (t.removeNewest i).headers j = t.headers j := by
  rw [headers, headers, lineageNodes, lineageNodes, lineage_removeNewest h hj]
  refine congrArg (List.map _) (List.filterMap_congr fun k hk => ?_)
  have hle := le_of_mem_lineage hk
  rw [node?_removeNewest h, if_neg (by omega)]

theorem Coherent.removeNewest (ht : t.Coherent) (i : Nat) : (t.removeNewest i).Coherent := by
  by_cases h : i + 1 = t.size ∧ i ∉ t.main
  swap
  · rw [BlockTree.removeNewest, if_neg h]
    exact ht
  obtain ⟨last, hlast⟩ := exists_node (show i < t.size by omega)
  exact
    { find?_iff := by
        intro hash j
        rw [find?_removeNewest h hlast]
        constructor
        · intro hfind
          split at hfind
          · cases hfind
          · next hne =>
            obtain ⟨m, hm, hhash⟩ := ht.find?_iff.1 hfind
            have hji : j ≠ i := by
              rintro rfl
              rw [hlast] at hm
              obtain rfl := Option.some.inj hm
              exact hne hhash
            exact ⟨m, by rw [node?_removeNewest h, if_neg hji, hm], hhash⟩
        · rintro ⟨m, hm, rfl⟩
          obtain ⟨hm, hlt⟩ := node?_of_removeNewest h hm
          rw [if_neg, ht.find?_eq_some hm]
          intro heq
          exact Nat.ne_of_gt hlt (ht.eq_of_hash_eq hlast hm heq)
      hash_eq := fun hn => ht.hash_eq (node?_of_removeNewest h hn).1
      of_root := fun hn hp => ht.of_root (node?_of_removeNewest h hn).1 hp
      of_child := fun hn hp hm =>
        ht.of_child (node?_of_removeNewest h hn).1 hp (node?_of_removeNewest h hm).1 }

theorem MainPath.removeNewest (hm : t.MainPath) (i : Nat) : (t.removeNewest i).MainPath := by
  by_cases h : i + 1 = t.size ∧ i ∉ t.main
  swap
  · rw [BlockTree.removeNewest, if_neg h]
    exact hm
  have hmain : (t.removeNewest i).main = t.main := by
    rw [BlockTree.removeNewest, if_pos h]
  intro tip htip
  rw [tip?, hmain] at htip
  have hlt : tip < t.size := hm.tip_lt htip
  have hne : tip ≠ i := by
    rintro rfl
    exact h.2 (Array.mem_of_back? htip)
  rw [hmain, lineage_removeNewest h (by omega)]
  exact hm tip htip

/-! ## Built trees -/

/-- The trees that arise from nothing. A node that is added has a digest that is not known, and is
a root or stands under a node that is known. -/
inductive Built : BlockTree → Prop
  | empty : Built {}
  | insert {t : BlockTree} {header : Header} {parent : Option Nat} {status : BlockStatus}
      {keys : KeySets} (built : Built t) (new : t.find? header.hash = none)
      (known : ∀ p ∈ parent, p < t.size) : Built (t.insert header parent status keys)
  | removeNewest {t : BlockTree} (built : Built t) (i : Nat) : Built (t.removeNewest i)
  | setStatus {t : BlockTree} (built : Built t) (i : Nat) (status : BlockStatus) :
      Built (t.setStatus i status)
  | setTip {t : BlockTree} {i : Nat} (built : Built t) (known : i < t.size) : Built (t.setTip i)

theorem mainPath_empty : MainPath {} := by
  intro tip htip
  cases htip

/-- Built trees are coherent, and their main chain is the walk from the tip. -/
theorem Built.invariant (h : t.Built) : t.Coherent ∧ t.MainPath := by
  induction h with
  | empty => exact ⟨.empty, mainPath_empty⟩
  | insert _ new known ih => exact ⟨ih.1.insert new known, ih.2.insert⟩
  | removeNewest _ i ih => exact ⟨ih.1.removeNewest i, ih.2.removeNewest i⟩
  | setStatus _ i status ih =>
    exact ⟨ih.1.setStatuses [i] status, ih.2.setStatuses [i] status⟩
  | setTip _ known ih => exact ⟨ih.1.setTip _, ih.2.setTip ih.1 known⟩

/-! ## Queries -/

/-- What the queries of a tree answer, in terms of parent links. -/
structure ByParents (t : BlockTree) : Prop where
  /-- the main chain is the path from a root to the tip -/
  main : ∀ {tip}, t.tip? = some tip → ∃ n, t.node? tip = some n ∧ t.main.size = n.height + 1 ∧
    t.climb? (n.height + 1) tip = none ∧ ∀ k ≤ n.height, t.mainAt? k = t.climb? (n.height - k) tip
  /-- every node of it stands at its height -/
  mainAt : ∀ {k i}, t.mainAt? k = some i → ∃ n, t.node? i = some n ∧ n.height = k
  /-- an ancestor is found by following as many links as it is lower -/
  ancestor : ∀ {i n}, t.node? i = some n → ∀ k, t.ancestor? i k =
    if k ≤ n.height then t.climb? (n.height - k) i else none
  /-- it is there, and stands at the height asked for -/
  ancestorAt : ∀ {i n}, t.node? i = some n → ∀ k ≤ n.height,
    ∃ a m, t.ancestor? i k = some a ∧ t.node? a = some m ∧ m.height = k
  /-- the fork of two nodes is the highest that is an ancestor of both or one of them -/
  fork : ∀ {a b f}, t.findFork? a b = some f ↔ t.Ancestor f a ∧ t.Ancestor f b ∧
    ∀ c, t.Ancestor c a → t.Ancestor c b → t.height c ≤ t.height f
  /-- there is none for nodes over different roots -/
  noFork : ∀ {a b}, t.findFork? a b = none ↔
    ¬ ∃ r, t.parent? r = none ∧ t.Ancestor r a ∧ t.Ancestor r b
  /-- the path from the fork has the nodes after it -/
  path : ∀ {a b f}, t.findFork? a b = some f → ∀ j,
    j ∈ t.pathFrom f b ↔ t.Ancestor j b ∧ t.height f < t.height j
  /-- one of each height, in ascending order -/
  pathHeights : ∀ {a b f}, t.findFork? a b = some f →
    (t.pathFrom f b).map t.height = List.range' (t.height f + 1) (t.height b - t.height f)
  /-- the descendants of a node are those from which parent links lead to it, each listed once -/
  descendants : ∀ {i}, i < t.size →
    (t.descendants i).Nodup ∧ ∀ j, j ∈ t.descendants i ↔ t.Ancestor i j
  /-- the target required after a node is the same with every tip -/
  nextBits : ∀ {tip}, tip < t.size → ∀ schedule i,
    (t.setTip tip).nextBits schedule i = t.nextBits schedule i
  /-- so is the median of times -/
  medianTime : ∀ {tip}, tip < t.size → ∀ i count,
    (t.setTip tip).medianTime i count = t.medianTime i count

namespace Coherent

/-- The main chain is found by following links from the tip. -/
theorem mainAt?_eq (ht : t.Coherent) (hm : t.MainPath) {tip : Nat} (htip : t.tip? = some tip)
    (hn : t.node? tip = some n) {k : Nat} (hk : k ≤ n.height) :
    t.mainAt? k = t.climb? (n.height - k) tip := by
  rw [mainAt?, ← Array.getElem?_toList, hm tip htip, ht.getElem?_reverse_lineage_eq hn hk]

theorem size_main (ht : t.Coherent) (hm : t.MainPath) {tip : Nat} (htip : t.tip? = some tip)
    (hn : t.node? tip = some n) : t.main.size = n.height + 1 := by
  rw [← Array.length_toList, hm tip htip, List.length_reverse, ht.length_lineage hn]

/-- A node that the main chain has at a height stands there. -/
theorem height_of_mainAt? (ht : t.Coherent) (hm : t.MainPath) {k : Nat}
    (h : t.mainAt? k = some i) : ∃ n, t.node? i = some n ∧ n.height = k := by
  obtain ⟨tip, htip⟩ : ∃ tip, t.tip? = some tip := by
    rcases htip : t.tip? with _ | tip
    · rw [tip?, Array.back?_eq_none_iff] at htip
      rw [mainAt?, htip] at h
      cases h
    · exact ⟨tip, rfl⟩
  rw [mainAt?, ← Array.getElem?_toList, hm tip htip] at h
  exact (ht.getElem?_reverse_lineage.1 h).2

/-- The ancestor of a node at a height is found by following links. -/
theorem ancestor?_eq_climb? (ht : t.Coherent) (hm : t.MainPath) (hn : t.node? i = some n)
    (k : Nat) : t.ancestor? i k = if k ≤ n.height then t.climb? (n.height - k) i else none := by
  rw [ancestor?_eq ht hm]
  split
  · next hk => exact ht.getElem?_reverse_lineage_eq hn hk
  · next hk =>
    have hlen := ht.length_lineage hn
    rw [List.getElem?_eq_none]
    rw [List.length_reverse]
    omega

/-- The ancestor of a node at a height that is not above it exists. -/
theorem exists_ancestor? (ht : t.Coherent) (hm : t.MainPath) (hn : t.node? i = some n) {k : Nat}
    (hk : k ≤ n.height) :
    ∃ a m, t.ancestor? i k = some a ∧ t.node? a = some m ∧ m.height = k := by
  have hlen := ht.length_lineage hn
  obtain ⟨a, ha⟩ : ∃ a, t.ancestor? i k = some a := by
    rw [ancestor?_eq ht hm]
    exact ⟨_, List.getElem?_eq_getElem (by rw [List.length_reverse]; omega)⟩
  obtain ⟨-, m, hnode, hheight⟩ := (ancestor?_eq_some ht hm).1 ha
  exact ⟨a, m, ha, hnode, hheight⟩

/-- The fork is the highest common ancestor. -/
theorem findFork?_iff (ht : t.Coherent) (hm : t.MainPath) {f : Nat} :
    t.findFork? a b = some f ↔ f ∈ t.lineage a ∧ f ∈ t.lineage b ∧
      ∀ c, c ∈ t.lineage a → c ∈ t.lineage b → t.height c ≤ t.height f := by
  constructor
  · intro h
    obtain ⟨hfa, hfb, hlast⟩ := findFork?_spec ht hm h
    refine ⟨hfa, hfb, fun c hca hcb => ?_⟩
    obtain ⟨k, hk⟩ := exists_node (lt_size_of_mem_lineage hca)
    obtain ⟨m, hm⟩ := exists_node (lt_size_of_mem_lineage hfa)
    rw [height_eq hk, height_eq hm]
    exact ht.height_le (hlast c hca hcb) hk hm
  · rintro ⟨hfa, hfb, hhighest⟩
    obtain ⟨g, hg⟩ := exists_findFork? ht hm hfa hfb
    obtain ⟨hga, hgb, hlast⟩ := findFork?_spec ht hm hg
    obtain ⟨m, hf⟩ := exists_node (lt_size_of_mem_lineage hfa)
    obtain ⟨k, hk⟩ := exists_node (lt_size_of_mem_lineage hga)
    have hle := ht.height_le (hlast f hfa hfb) hf hk
    have hge := hhighest g hga hgb
    rw [height_eq hf, height_eq hk] at hge
    rw [hg, ht.eq_of_height_eq hfa hga hf hk (Nat.le_antisymm hle hge)]

/-- Two nodes have a fork if they have a root in common. -/
theorem findFork?_eq_none (ht : t.Coherent) (hm : t.MainPath) : t.findFork? a b = none ↔
    ¬ ∃ r, t.parent? r = none ∧ r ∈ t.lineage a ∧ r ∈ t.lineage b := by
  rw [Option.eq_none_iff_forall_ne_some]
  constructor
  · rintro hnone ⟨r, -, hra, hrb⟩
    obtain ⟨f, hf⟩ := exists_findFork? ht hm hra hrb
    exact hnone f hf
  · intro hroots f hf
    obtain ⟨hfa, hfb, -⟩ := findFork?_spec ht hm hf
    obtain ⟨r, hr, hmem⟩ := exists_root_of_mem hfa
    exact hroots ⟨r, hr, mem_lineage_trans hmem hfa, mem_lineage_trans hmem hfb⟩

/-- The heights on a walk go down to the root one by one. -/
theorem map_height_lineage (ht : t.Coherent) (hn : t.node? i = some n) :
    (t.lineage i).reverse.map t.height = List.range' 0 (n.height + 1) := by
  refine List.ext_getElem? fun k => ?_
  rw [List.getElem?_map]
  by_cases hk : k < n.height + 1
  · have hlt : k < (t.lineage i).reverse.length := by
      rw [List.length_reverse, ht.length_lineage hn]
      exact hk
    have hat := List.getElem?_eq_getElem hlt
    obtain ⟨-, m, hm, hheight⟩ := ht.getElem?_reverse_lineage.1 hat
    rw [hat, Option.map_some, height_eq hm, hheight, List.getElem?_range' hk]
    congr 1
    omega
  · rw [List.getElem?_eq_none, List.getElem?_eq_none, Option.map_none]
    · rw [List.length_range']
      omega
    · rw [List.length_reverse, ht.length_lineage hn]
      omega

/-- The path from an ancestor has one node of each height above it, in ascending order. -/
theorem map_height_pathFrom (ht : t.Coherent) {f : Nat} (hf : f ∈ t.lineage i) :
    (t.pathFrom f i).map t.height =
      List.range' (t.height f + 1) (t.height i - t.height f) := by
  obtain ⟨n, hn⟩ := exists_node (lt_size_of_mem hf)
  obtain ⟨m, hm⟩ := exists_node (lt_size_of_mem_lineage hf)
  have hle := ht.height_le hf hm hn
  have hsplit : List.range' 0 (n.height + 1) =
      List.range' 0 (m.height + 1) ++ List.range' (m.height + 1) (n.height - m.height) := by
    rw [show n.height + 1 = (m.height + 1) + (n.height - m.height) by omega,
      ← List.range'_append_1, Nat.zero_add]
  have hall := ht.map_height_lineage hn
  rw [lineage_eq_pathFrom_append hf, List.reverse_append, List.reverse_reverse, List.map_append,
    ht.map_height_lineage hm, hsplit] at hall
  rw [height_eq hn, height_eq hm, List.append_cancel_left hall]

/-- What comes after an ancestor on a walk is what is higher. -/
theorem mem_pathFrom (ht : t.Coherent) {f j : Nat} (hf : f ∈ t.lineage i) :
    j ∈ t.pathFrom f i ↔ j ∈ t.lineage i ∧ t.height f < t.height j := by
  obtain ⟨m, hm⟩ := exists_node (lt_size_of_mem_lineage hf)
  constructor
  · intro hj
    have hheight : t.height j ∈ (t.pathFrom f i).map t.height := List.mem_map_of_mem hj
    rw [ht.map_height_pathFrom hf, List.mem_range'_1] at hheight
    exact ⟨mem_lineage_of_mem_pathFrom hf hj, by omega⟩
  · rintro ⟨hj, hlt⟩
    obtain ⟨k, hk⟩ := exists_node (lt_size_of_mem_lineage hj)
    rw [lineage_eq_pathFrom_append hf, List.mem_append, List.mem_reverse] at hj
    refine hj.resolve_right fun hbelow => ?_
    have hle := ht.height_le hbelow hk hm
    rw [height_eq hm, height_eq hk] at hlt
    omega

theorem nextBits_setTip (ht : t.Coherent) (hm : t.MainPath) {tip : Nat} (htip : tip < t.size)
    (schedule : Work.Schedule) (i : Nat) :
    (t.setTip tip).nextBits schedule i = t.nextBits schedule i := by
  rcases hn : t.node? i with _ | n
  · rw [nextBits, nextBits, node?_setTip, hn]
  · rw [nextBits_eq (ht.setTip tip) (hm.setTip ht htip) schedule hn, nextBits_eq ht hm schedule hn,
      headers_setTip]

end Coherent

/-- Whatever was built, queries are answered by parent links. -/
theorem Built.byParents (h : t.Built) : t.ByParents := by
  obtain ⟨ht, hm⟩ := h.invariant
  exact
    { main := fun {tip} htip => by
        obtain ⟨n, hn⟩ := exists_node (hm.tip_lt htip)
        exact ⟨n, hn, ht.size_main hm htip hn, ht.climb?_eq_none hn,
          fun k hk => ht.mainAt?_eq hm htip hn hk⟩
      mainAt := fun hat => ht.height_of_mainAt? hm hat
      ancestor := fun hn k => ht.ancestor?_eq_climb? hm hn k
      ancestorAt := fun hn k hk => ht.exists_ancestor? hm hn hk
      fork := by
        simp only [ancestor_iff]
        exact ht.findFork?_iff hm
      noFork := by
        simp only [ancestor_iff]
        exact ht.findFork?_eq_none hm
      path := fun hf j => by
        rw [ancestor_iff]
        exact ht.mem_pathFrom (findFork?_spec ht hm hf).2.1
      pathHeights := fun hf => ht.map_height_pathFrom (findFork?_spec ht hm hf).2.1
      descendants := fun hi => ⟨descendants_nodup _ _, fun j => by
        rw [ancestor_iff]
        exact mem_descendants hi⟩
      nextBits := fun htip schedule i => ht.nextBits_setTip hm htip schedule i
      medianTime := fun _ i count => by rw [medianTime_eq, medianTime_eq, headers_setTip] }

/-! ## A fork -/

namespace ForkSample

/-- A header with a tag. -/
def header (tag : UInt64) : Header where
  version := 1
  previous := .zero
  merkleRoot := .zero
  time := .epoch
  bits := 0
  nonce := tag
  size := 0
  validator := .zero
  signature := []

/-- Adds a node and makes it the tip, if it is new and its parent is known. -/
def grow? (t : BlockTree) (node : UInt64 × Option Nat) : Option BlockTree :=
  if t.find? (header node.1).hash = none ∧ ∀ p ∈ node.2, p < t.size then
    some ((t.insert (header node.1) node.2 .valid (.ofLists [] [] [] [])).setTip t.size)
  else none

theorem built_foldlM {nodes : List (UInt64 × Option Nat)} {t' : BlockTree} (h : t.Built)
    (hfold : nodes.foldlM grow? t = some t') : t'.Built := by
  induction nodes generalizing t with
  | nil => exact Option.some.inj hfold ▸ h
  | cons node rest ih =>
    obtain ⟨next, hnext, hrest⟩ := Option.bind_eq_some_iff.1 hfold
    rw [grow?, Option.ite_none_right_eq_some] at hnext
    obtain ⟨⟨hnew, hknown⟩, hnext⟩ := hnext
    obtain rfl := Option.some.inj hnext
    refine ih (.setTip (.insert h hnew hknown) ?_) hrest
    rw [size_insert]
    exact Nat.lt_succ_self _

end ForkSample

/-- Two branches over one root, of which the tip changes from the second to the first, and the
newest node is taken back. -/
theorem byParents_of_fork : ∃ t : BlockTree, t.Built ∧ t.size = 4 ∧ t.tip? = some 1 ∧
    t.findFork? 1 3 = some 0 ∧ t.ByParents := by
  have hfound : (([(0, none), (1, some 0), (2, some 0), (3, some 2), (4, some 3)].foldlM
      ForkSample.grow? {}).any fun t => 1 < t.size ∧
        let t := (t.setTip 1).removeNewest 4
        t.size = 4 ∧ t.tip? = some 1 ∧ t.findFork? 1 3 = some 0) = true := by
    decide +kernel
  obtain ⟨t, hfold, hends⟩ := (Option.any_eq_true _ _).1 hfound
  obtain ⟨hknown, hsize, htip, hfork⟩ := of_decide_eq_true hends
  have hbuilt : ((t.setTip 1).removeNewest 4).Built :=
    .removeNewest (.setTip (ForkSample.built_foldlM .empty hfold) hknown) 4
  exact ⟨_, hbuilt, hsize, htip, hfork, hbuilt.byParents⟩

end PermissionedLedger.BlockTree
