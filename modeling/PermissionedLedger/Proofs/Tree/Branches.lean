import Mathlib
import PermissionedLedger.Proofs.Tree.Lineage

/-!
# Branches and the main chain

The operations of a tree that take a short cut, in terms of walks towards the root:

* **the main chain** — it is the walk from its tip (`MainPath`), `setTip` moves it to
  another walk (`main_setTip`), and looking it up by height finds ancestors
  (`ancestor?_eq`);
* **the fork of two branches** — an ancestor of both, and below no other
  (`findFork?_spec`); the walk from a tip splits there (`lineage_eq_pathFrom_append`);
* **the nodes above a node** — those whose walk passes it (`mem_descendants`).
-/

namespace PermissionedLedger.BlockTree

variable {t : BlockTree}

/-- What follows a node on a walk is the rest of the walk from that node. -/
theorem lineage_eq_of_append {i f : Nat} {as bs : List Nat} (h : t.lineage i = as ++ f :: bs) :
    t.lineage f = f :: bs := by
  induction as generalizing i with
  | nil =>
    have hmem : f ∈ t.lineage i := by
      rw [h]
      exact List.mem_cons_self ..
    obtain ⟨n, hn⟩ := exists_node (lt_size_of_mem hmem)
    obtain ⟨rest, hrest⟩ := lineage_eq_cons hn
    rw [hrest] at h
    obtain ⟨rfl, -⟩ := List.cons.inj h
    rw [hrest]
    exact h
  | cons a as ih =>
    have hmem : f ∈ t.lineage i := by
      rw [h]
      exact List.mem_append_right _ (List.mem_cons_self ..)
    obtain ⟨n, hn⟩ := exists_node (lt_size_of_mem hmem)
    rcases hp : n.parent with _ | p
    · rw [lineage_root hn hp] at h
      have := congrArg List.length h
      simp at this
    · rw [lineage_child hn hp] at h
      exact ih (List.cons.inj h).2

/-! ## The main chain -/

/-- The main chain is the walk from its tip, read from the root. -/
def MainPath (t : BlockTree) : Prop :=
  ∀ tip, t.tip? = some tip → t.main.toList = (t.lineage tip).reverse

theorem tip?_of_main {tip : Nat} (h : tip < t.size)
    (hmain : t.main.toList = (t.lineage tip).reverse) : t.tip? = some tip := by
  obtain ⟨n, hn⟩ := exists_node h
  obtain ⟨rest, hrest⟩ := lineage_eq_cons hn
  rw [tip?, Array.back?_eq_getElem?, ← Array.getElem?_toList, ← Array.length_toList,
    ← List.getLast?_eq_getElem?, hmain, hrest, List.reverse_cons, List.getLast?_concat]

/-- Looking a node up at its own height tells whether it is on the main chain. -/
theorem isInMain_iff (ht : t.Coherent) (hm : t.MainPath) {tip : Nat} (htip : t.tip? = some tip)
    {i : Nat} : t.isInMain i = true ↔ i ∈ t.lineage tip := by
  rw [isInMain]
  rcases hn : t.node? i with _ | n
  · simp only [Bool.false_eq_true, false_iff]
    intro hmem
    obtain ⟨m, hm⟩ := exists_node (lt_size_of_mem_lineage hmem)
    rw [hm] at hn
    cases hn
  · simp only [decide_eq_true_eq]
    rw [mainAt?, ← Array.getElem?_toList, hm tip htip, ht.getElem?_reverse_lineage]
    constructor
    · rintro ⟨hmem, -⟩
      exact hmem
    · intro hmem
      exact ⟨hmem, n, hn, rfl⟩

@[simp] theorem size_setTip (i : Nat) : (t.setTip i).size = t.size := rfl

@[simp] theorem node?_setTip (i j : Nat) : (t.setTip i).node? j = t.node? j := rfl

@[simp] theorem find?_setTip (i : Nat) (hash : Digest) : (t.setTip i).find? hash = t.find? hash :=
  rfl

@[simp] theorem lineage_setTip (i j : Nat) : (t.setTip i).lineage j = t.lineage j :=
  lineage_congr (j + 1) (fun k _ => by rw [node?_setTip]) (Nat.lt_succ_self j)

theorem Coherent.setTip (ht : t.Coherent) (i : Nat) : (t.setTip i).Coherent :=
  ⟨ht.find?_iff, ht.hash_eq, ht.of_root, ht.of_child⟩

/-- The main chain becomes the walk from the new tip. -/
theorem main_setTip (ht : t.Coherent) (hm : t.MainPath) (i : Nat) :
    (t.setTip i).main.toList = (t.lineage i).reverse := by
  have hsplit := List.takeWhile_append_dropWhile (p := (!t.isInMain ·)) (l := t.lineage i)
  have hgoal : (t.setTip i).main.toList =
      t.main.toList.take (((((t.lineage i).find? t.isInMain).bind t.node?).map (·.height + 1)).getD
        0) ++ ((t.lineage i).takeWhile (!t.isInMain ·)).reverse := by
    simp [BlockTree.setTip]
  rw [hgoal]
  rcases hfind : (t.lineage i).find? t.isInMain with _ | f
  · -- nothing of the main chain stays
    have hall := List.find?_eq_none.1 hfind
    have htake : (t.lineage i).takeWhile (!t.isInMain ·) = t.lineage i :=
      List.takeWhile_eq_self_iff.2 fun j hj => by simp [hall j hj]
    rw [htake]
    rfl
  · obtain ⟨hf, as, bs, heq, hbefore⟩ := List.find?_eq_some_iff_append.1 hfind
    obtain ⟨tip, htip⟩ : ∃ tip, t.tip? = some tip := by
      rcases htip : t.tip? with _ | tip
      · have hempty : t.main = #[] := by
          rw [tip?, Array.back?_eq_none_iff] at htip
          exact htip
        simp only [isInMain, mainAt?, hempty] at hf
        split at hf <;> simp at hf
      · exact ⟨tip, rfl⟩
    have hmem := (isInMain_iff ht hm htip).1 hf
    obtain ⟨n, hn⟩ := exists_node (lt_size_of_mem_lineage hmem)
    obtain ⟨front, hfront⟩ := lineage_suffix hmem
    have hlen := ht.length_lineage hn
    have hkept : t.main.toList.take (n.height + 1) = (t.lineage f).reverse := by
      rw [hm tip htip, ← hfront, List.reverse_append, ← hlen, ← List.length_reverse]
      exact List.take_left
    have htake : (t.lineage i).takeWhile (!t.isInMain ·) = as := by
      rw [heq, List.takeWhile_append_of_pos (fun j hj => hbefore j hj)]
      simp [hf]
    have hline : t.lineage i = as ++ t.lineage f := by
      rw [heq, lineage_eq_of_append heq]
    rw [htake, Option.bind_some, hn, Option.map_some, Option.getD_some, hkept, hline,
      List.reverse_append]

theorem tip?_setTip (ht : t.Coherent) (hm : t.MainPath) {i : Nat} (hi : i < t.size) :
    (t.setTip i).tip? = some i :=
  tip?_of_main hi (by rw [main_setTip ht hm, lineage_setTip])

theorem MainPath.setTip (hm : t.MainPath) (ht : t.Coherent) {i : Nat} (hi : i < t.size) :
    (t.setTip i).MainPath := by
  intro tip htip
  rw [tip?_setTip ht hm hi] at htip
  obtain rfl := Option.some.inj htip
  rw [main_setTip ht hm, lineage_setTip]

/-- A tip is a node. -/
theorem MainPath.tip_lt (hm : t.MainPath) {tip : Nat} (htip : t.tip? = some tip) :
    tip < t.size := by
  by_contra hge
  have hempty := hm tip htip
  rw [lineage_of_none (by simpa [node?, size] using hge), List.reverse_nil] at hempty
  rw [tip?, Array.back?_eq_getElem?, ← Array.getElem?_toList, hempty] at htip
  cases htip

theorem MainPath.insert (hm : t.MainPath) {header : Header} {parent : Option Nat}
    {status : BlockStatus} {keys : KeySets} : (t.insert header parent status keys).MainPath := by
  intro tip htip
  have htip : t.tip? = some tip := htip
  rw [lineage_insert_of_lt (hm.tip_lt htip)]
  exact hm tip htip

theorem main_setStatuses (ids : List Nat) (status : BlockStatus) :
    (t.setStatuses ids status).main = t.main := by
  induction ids generalizing t with
  | nil => rfl
  | cons i ids ih => exact ih

theorem MainPath.setStatuses (hm : t.MainPath) (ids : List Nat) (status : BlockStatus) :
    (t.setStatuses ids status).MainPath := by
  intro tip htip
  rw [tip?, main_setStatuses] at htip
  rw [main_setStatuses, lineage_setStatuses]
  exact hm tip htip

/-- Where the tip goes, whatever becomes of statuses. -/
theorem tip?_setStatuses_setTip (ht : t.Coherent) (hm : t.MainPath) {ids : List Nat}
    {status : BlockStatus} {i : Nat} (hi : i < t.size) :
    ((t.setStatuses ids status).setTip i).tip? = some i :=
  tip?_setTip (ht.setStatuses ids status) (hm.setStatuses ids status)
    (hi.trans_eq (size_setStatuses ids status).symm)

/-- The main chain shows the walk from each of its nodes. -/
theorem mainAt?_of_isInMain (ht : t.Coherent) (hm : t.MainPath) {i k : Nat} {n : TreeNode}
    (hn : t.node? i = some n) (hin : t.isInMain i = true) (hk : k ≤ n.height) :
    t.mainAt? k = (t.lineage i).reverse[k]? := by
  obtain ⟨tip, htip⟩ : ∃ tip, t.tip? = some tip := by
    rcases htip : t.tip? with _ | tip
    · rw [tip?, Array.back?_eq_none_iff] at htip
      simp [isInMain, mainAt?, htip, hn] at hin
    · exact ⟨tip, rfl⟩
  obtain ⟨front, hfront⟩ := lineage_suffix ((isInMain_iff ht hm htip).1 hin)
  have hlen := ht.length_lineage hn
  rw [mainAt?, ← Array.getElem?_toList, hm tip htip, ← hfront, List.reverse_append,
    List.getElem?_append_left]
  rw [List.length_reverse]
  omega

/-- The first node of a walk that is not above a height stands there. -/
theorem find?_lineage_of_le (ht : t.Coherent) {i k : Nat} {n : TreeNode} (hn : t.node? i = some n)
    (hk : k ≤ n.height) :
    (t.lineage i).find? (fun j => (t.node? j).any (·.height ≤ k)) =
      (t.lineage i).reverse[k]? := by
  induction i, node?_lt hn using lineage_induction generalizing n with
  | root i m hm hp =>
    obtain rfl := Option.some.inj (hn.symm.trans hm)
    have hzero : n.height = 0 := (ht.of_root hn hp).1
    obtain rfl : k = 0 := by omega
    rw [lineage_root hn hp]
    simp [hn, hzero]
  | child i m p hm hp ih =>
    obtain rfl := Option.some.inj (hn.symm.trans hm)
    obtain ⟨m, hm⟩ := exists_parent hn hp
    have hheight := (ht.of_child hn hp hm).1
    have hlen := ht.length_lineage hm
    rw [lineage_child hn hp, List.reverse_cons]
    by_cases hlow : n.height ≤ k
    · rw [List.find?_cons_of_pos (by simpa [hn] using hlow), List.getElem?_append_right]
      · rw [List.length_reverse, show k - (t.lineage p).length = 0 by omega]
        rfl
      · rw [List.length_reverse]
        omega
    · rw [List.find?_cons_of_neg (by simpa [hn] using hlow), ih hm (by omega),
        List.getElem?_append_left]
      rw [List.length_reverse]
      omega

/-- The short cut through the main chain leads to the ancestor that the walk passes. -/
theorem ancestor?_eq (ht : t.Coherent) (hm : t.MainPath) (i k : Nat) :
    t.ancestor? i k = (t.lineage i).reverse[k]? := by
  rw [ancestor?]
  rcases hn : t.node? i with _ | n
  · rw [lineage_of_none hn]
    rfl
  simp only [Option.bind_eq_bind, Option.bind_some]
  split
  · next hlt =>
    rw [List.getElem?_eq_none]
    rw [List.length_reverse, ht.length_lineage hn]
    exact hlt
  next hge =>
  split
  · next hin => exact mainAt?_of_isInMain ht hm hn hin (Nat.not_lt.1 hge)
  · exact find?_lineage_of_le ht hn (Nat.not_lt.1 hge)

/-- The ancestor at a height is the node of the walk that stands there. -/
theorem ancestor?_eq_some (ht : t.Coherent) (hm : t.MainPath) {a i k : Nat} :
    t.ancestor? i k = some a ↔ a ∈ t.lineage i ∧ ∃ n, t.node? a = some n ∧ n.height = k := by
  rw [ancestor?_eq ht hm, ht.getElem?_reverse_lineage]

/-- The ancestor at a height passes all ancestors up to that height. -/
theorem mem_lineage_ancestor? (ht : t.Coherent) (hm : t.MainPath) {a c i k : Nat} {n : TreeNode}
    (ha : t.ancestor? i k = some a) (hc : c ∈ t.lineage i) (hn : t.node? c = some n)
    (hk : n.height ≤ k) : c ∈ t.lineage a := by
  obtain ⟨hmem, m, hm, rfl⟩ := (ancestor?_eq_some ht hm).1 ha
  exact ht.mem_lineage_of_height_le hc hmem hn hm hk

/-! ## Forks -/

/-- Two walks of one length pass a common node at the same place. -/
theorem Coherent.mem_zip_lineage (ht : t.Coherent) {a b c : Nat} (ha : c ∈ t.lineage a)
    (hb : c ∈ t.lineage b) (hlen : (t.lineage a).length = (t.lineage b).length) :
    (c, c) ∈ (t.lineage a).zip (t.lineage b) := by
  obtain ⟨n, hn⟩ := exists_node (lt_size_of_mem_lineage ha)
  have h₁ := ht.getElem?_reverse_lineage.2 ⟨ha, n, hn, rfl⟩
  have h₂ := ht.getElem?_reverse_lineage.2 ⟨hb, n, hn, rfl⟩
  have hat : ((t.lineage a).reverse.zip (t.lineage b).reverse)[n.height]? = some (c, c) :=
    List.getElem?_zip_eq_some.2 ⟨h₁, h₂⟩
  rw [List.zip, ← List.reverse_zipWith hlen] at hat
  exact List.mem_reverse.1 (List.mem_of_getElem? hat)

/-- The fork of two nodes is an ancestor of both, and passes all their common ancestors. -/
theorem findFork?_spec (ht : t.Coherent) (hm : t.MainPath) {a b f : Nat}
    (h : t.findFork? a b = some f) :
    f ∈ t.lineage a ∧ f ∈ t.lineage b ∧
      ∀ c, c ∈ t.lineage a → c ∈ t.lineage b → c ∈ t.lineage f := by
  simp only [findFork?, Option.bind_eq_bind, Option.bind_eq_some_iff, Option.pure_def,
    Option.some.injEq] at h
  obtain ⟨na, hna, nb, hnb, a', ha', b', hb', ⟨x, y⟩, hfind, rfl⟩ := h
  obtain ⟨hamem, ma, hma, hma'⟩ := (ancestor?_eq_some ht hm).1 ha'
  obtain ⟨hbmem, mb, hmb, hmb'⟩ := (ancestor?_eq_some ht hm).1 hb'
  obtain ⟨hxy, as, bs, hzip, hbefore⟩ := List.find?_eq_some_iff_append.1 hfind
  obtain rfl : x = y := by simpa using hxy
  have hmem : (x, x) ∈ (t.lineage a').zip (t.lineage b') := by
    rw [hzip]
    exact List.mem_append_right _ (List.mem_cons_self ..)
  obtain ⟨hxa, hxb⟩ := List.of_mem_zip hmem
  refine ⟨mem_lineage_trans hxa hamem, mem_lineage_trans hxb hbmem, fun c hca hcb => ?_⟩
  obtain ⟨n, hn⟩ := exists_node (lt_size_of_mem_lineage hca)
  have hle : n.height ≤ min na.height nb.height :=
    Nat.le_min.2 ⟨ht.height_le hca hn hna, ht.height_le hcb hn hnb⟩
  have hlen : (t.lineage a').length = (t.lineage b').length := by
    rw [ht.length_lineage hma, ht.length_lineage hmb, hma', hmb']
  have hpair := ht.mem_zip_lineage (mem_lineage_ancestor? ht hm ha' hca hn hle)
    (mem_lineage_ancestor? ht hm hb' hcb hn hle) hlen
  rw [hzip] at hpair
  have hfirst : t.lineage a' = as.map Prod.fst ++ x :: bs.map Prod.fst := by
    rw [← List.map_fst_zip (le_of_eq hlen), hzip, List.map_append, List.map_cons]
  rw [lineage_eq_of_append hfirst]
  rcases List.mem_append.1 hpair with hin | hin
  · have := hbefore _ hin
    simp at this
  · exact List.mem_map_of_mem (f := Prod.fst) hin

/-- Two nodes with a common ancestor have a fork. -/
theorem exists_findFork? (ht : t.Coherent) (hm : t.MainPath) {a b c : Nat} (hca : c ∈ t.lineage a)
    (hcb : c ∈ t.lineage b) : ∃ f, t.findFork? a b = some f := by
  obtain ⟨na, hna⟩ := exists_node (lt_size_of_mem hca)
  obtain ⟨nb, hnb⟩ := exists_node (lt_size_of_mem hcb)
  obtain ⟨n, hn⟩ := exists_node (lt_size_of_mem_lineage hca)
  have hat : ∀ {i m}, t.node? i = some m → min na.height nb.height ≤ m.height →
      ∃ a', t.ancestor? i (min na.height nb.height) = some a' := by
    intro i m hi hle
    have hlen := ht.length_lineage hi
    rw [ancestor?_eq ht hm]
    exact ⟨_, List.getElem?_eq_getElem (by rw [List.length_reverse]; omega)⟩
  obtain ⟨a', ha'⟩ := hat hna (Nat.min_le_left ..)
  obtain ⟨b', hb'⟩ := hat hnb (Nat.min_le_right ..)
  obtain ⟨hamem, ma, hma, hma'⟩ := (ancestor?_eq_some ht hm).1 ha'
  obtain ⟨hbmem, mb, hmb, hmb'⟩ := (ancestor?_eq_some ht hm).1 hb'
  have hle : n.height ≤ min na.height nb.height :=
    Nat.le_min.2 ⟨ht.height_le hca hn hna, ht.height_le hcb hn hnb⟩
  have hlen : (t.lineage a').length = (t.lineage b').length := by
    rw [ht.length_lineage hma, ht.length_lineage hmb, hma', hmb']
  have hpair := ht.mem_zip_lineage (mem_lineage_ancestor? ht hm ha' hca hn hle)
    (mem_lineage_ancestor? ht hm hb' hcb hn hle) hlen
  rcases hfork : t.findFork? a b with _ | f
  · simp only [findFork?, hna, hnb, ha', hb', Option.bind_eq_bind, Option.bind_some,
      Option.pure_def, Option.bind_eq_none_iff, reduceCtorEq, imp_false] at hfork
    have hnone := Option.eq_none_iff_forall_ne_some.2 hfork
    have := List.find?_eq_none.1 hnone (c, c) hpair
    simp at this
  · exact ⟨f, rfl⟩

/-- A walk goes down to an ancestor, and from there on. -/
theorem lineage_eq_pathFrom_append {f i : Nat} (h : f ∈ t.lineage i) :
    t.lineage i = (t.pathFrom f i).reverse ++ t.lineage f := by
  obtain ⟨n, hn⟩ := exists_node (lt_size_of_mem_lineage h)
  obtain ⟨front, hfront⟩ := lineage_suffix h
  obtain ⟨rest, hrest⟩ := lineage_eq_cons hn
  have hnodup : (front ++ t.lineage f).Nodup := hfront ▸ lineage_nodup t i
  have hf : f ∉ front := by
    intro hin
    rw [hrest] at hnodup
    exact (List.nodup_append.1 hnodup).2.2 f hin f (List.mem_cons_self ..) rfl
  have hne : ∀ j ∈ front, (decide (j ≠ f)) = true := by
    intro j hj
    exact decide_eq_true fun heq => hf (heq ▸ hj)
  rw [pathFrom, List.reverse_reverse]
  conv_rhs => rw [← hfront, List.takeWhile_append_of_pos hne, hrest]
  rw [List.takeWhile_cons_of_neg (by simp), List.append_nil, ← hrest, hfront]

theorem pathFrom_nodup (f i : Nat) : (t.pathFrom f i).Nodup :=
  List.nodup_reverse.2 ((lineage_nodup t i).sublist (List.takeWhile_sublist _))

theorem mem_lineage_of_mem_pathFrom {f i j : Nat} (h : f ∈ t.lineage i) (hj : j ∈ t.pathFrom f i) :
    j ∈ t.lineage i := by
  rw [lineage_eq_pathFrom_append h]
  exact List.mem_append_left _ (List.mem_reverse.2 hj)

/-- What comes after an ancestor does not lead to it. -/
theorem notMem_lineage_of_mem_pathFrom {f i j : Nat} (h : f ∈ t.lineage i)
    (hj : j ∈ t.pathFrom f i) : j ∉ t.lineage f := by
  intro hin
  have hnodup := lineage_nodup t i
  rw [lineage_eq_pathFrom_append h] at hnodup
  exact (List.nodup_append.1 hnodup).2.2 j (List.mem_reverse.2 hj) j hin rfl

/-! ## Descendants -/

/-- What was found of the descendants of a node, once another node was looked at. -/
def descend (t : BlockTree) (found : List Nat) (child : Nat) : List Nat :=
  ((t.node? child).bind (·.parent)).elim found fun parent =>
    if parent ∈ found then child :: found else found

theorem descendants_eq (t : BlockTree) (i : Nat) : t.descendants i =
    ((List.range' (i + 1) (t.size - (i + 1))).foldl t.descend [i]).reverse := by
  rw [descendants]
  congr 2
  funext found child
  rw [descend]
  rcases (t.node? child).bind (·.parent) with _ | p
  · rfl
  · rfl

/-- Descendants are found in the order of their positions. -/
theorem descendants_sublist (t : BlockTree) (i : Nat) :
    (t.descendants i).Sublist (List.range' i (t.size - (i + 1) + 1)) := by
  rw [descendants_eq]
  generalize t.size - (i + 1) = k
  induction k with
  | zero => exact List.Sublist.refl _
  | succ k ih =>
    rw [List.range'_1_concat, List.foldl_concat, List.range'_1_concat, descend]
    rcases (t.node? (i + 1 + k)).bind (·.parent) with _ | p
    · exact ih.trans (List.sublist_append_left ..)
    · rw [Option.elim_some]
      split
      · rw [List.reverse_cons, show i + (k + 1) = i + 1 + k by omega]
        exact ih.append (List.Sublist.refl _)
      · exact ih.trans (List.sublist_append_left ..)

theorem descendants_nodup (t : BlockTree) (i : Nat) : (t.descendants i).Nodup :=
  (descendants_sublist t i).nodup List.nodup_range'

/-- Where all descendants before a position are found, that position is taken in if it is one. -/
theorem mem_descend {found : List Nat} {i k : Nat} (hik : i < k) (hk : k < t.size)
    (hfound : ∀ j, j ∈ found ↔ i ∈ t.lineage j ∧ j < k) (j : Nat) :
    j ∈ t.descend found k ↔ i ∈ t.lineage j ∧ j < k + 1 := by
  obtain ⟨n, hn⟩ := exists_node hk
  -- the walk from the position goes on from its parent, which was looked at before
  have hnewest : i ∈ t.lineage k ↔ ∃ p, n.parent = some p ∧ p ∈ found := by
    rcases hp : n.parent with _ | p
    · simp [lineage_root hn hp, Nat.ne_of_lt hik]
    · simp [lineage_child hn hp, Nat.ne_of_lt hik, hfound, parent_lt_of_node? hn hp]
  have hdescend : j ∈ t.descend found k ↔ j ∈ found ∨ (j = k ∧ i ∈ t.lineage k) := by
    rw [descend, hn, Option.bind_some, hnewest]
    rcases n.parent with _ | p
    · simp
    · by_cases hp : p ∈ found
      · simp [hp, or_comm]
      · simp [hp]
  have hlast : j < k + 1 ↔ j < k ∨ j = k := by omega
  rw [hdescend, hfound, hlast, and_or_left]
  refine or_congr_right ⟨?_, ?_⟩
  · rintro ⟨rfl, hmem⟩
    exact ⟨hmem, rfl⟩
  · rintro ⟨hmem, rfl⟩
    exact ⟨rfl, hmem⟩

/-- After some of the positions, all descendants among them are found. -/
theorem mem_foldl_descend {i k : Nat} (hk : i + 1 + k ≤ t.size) (j : Nat) :
    j ∈ (List.range' (i + 1) k).foldl t.descend [i] ↔ i ∈ t.lineage j ∧ j < i + 1 + k := by
  induction k generalizing j with
  | zero =>
    rw [List.range'_zero, List.foldl_nil, List.mem_singleton]
    constructor
    · rintro rfl
      exact ⟨mem_lineage_self (by omega), by omega⟩
    · rintro ⟨hmem, hlt⟩
      have hle := le_of_mem_lineage hmem
      omega
  | succ k ih =>
    rw [List.range'_1_concat, List.foldl_concat]
    exact mem_descend (by omega) (by omega) (ih (by omega)) j

/-- The descendants of a node are the nodes whose walk passes it. -/
theorem mem_descendants {i j : Nat} (hi : i < t.size) :
    j ∈ t.descendants i ↔ i ∈ t.lineage j := by
  rw [descendants_eq, List.mem_reverse, mem_foldl_descend (by omega)]
  constructor
  · rintro ⟨hmem, -⟩
    exact hmem
  · intro hmem
    have hlt := lt_size_of_mem hmem
    exact ⟨hmem, by omega⟩

end PermissionedLedger.BlockTree
