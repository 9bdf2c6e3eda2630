import Mathlib
import PermissionedLedger.Chain.Tree

/-!
# Walks towards the root

What `BlockTree.lineage` walks through, and what the nodes on the way have in
common:

* **one walk inside another** — the walk from an ancestor ends every walk that
  passes it (`lineage_suffix`), so two walks that meet stay together;
* **heights as positions** — in a tree whose nodes count their ancestors
  (`Coherent`), the walk read from the root holds at every position the node of
  that height (`getElem?_reverse_lineage`).

Both hold in any tree that is built by `insert` and `setStatus`, which change
nothing about the walks that exist (`lineage_insert_of_lt`, `lineage_setStatuses`).
-/

namespace PermissionedLedger.BlockTree

variable {t : BlockTree}

/-! ## Following parents -/

theorem node?_lt {i : Nat} {n : TreeNode} (h : t.node? i = some n) : i < t.size :=
  (Array.getElem?_eq_some_iff.1 h).1

theorem exists_node {i : Nat} (h : i < t.size) : ∃ n, t.node? i = some n :=
  ⟨_, Array.getElem?_eq_getElem h⟩

/-- Parents stand before their children. -/
theorem parent_lt_of_node? {i p : Nat} {n : TreeNode} (h : t.node? i = some n)
    (hp : n.parent = some p) : p < i := by
  obtain ⟨hlt, hn⟩ := Array.getElem?_eq_some_iff.1 h
  exact t.parent_lt i hlt p (by rw [hn]; exact hp)

theorem exists_parent {i p : Nat} {n : TreeNode} (h : t.node? i = some n)
    (hp : n.parent = some p) : ∃ m, t.node? p = some m :=
  exists_node (Nat.lt_trans (parent_lt_of_node? h hp) (node?_lt h))

theorem lineage_of_none {i : Nat} (h : t.node? i = none) : t.lineage i = [] := by
  have hge : ¬ i < t.nodes.size := by simpa [node?] using h
  rw [lineage, dif_neg hge]

theorem lineage_root {i : Nat} {n : TreeNode} (h : t.node? i = some n) (hp : n.parent = none) :
    t.lineage i = [i] := by
  obtain ⟨hlt, hn⟩ := Array.getElem?_eq_some_iff.1 h
  rw [lineage, dif_pos hlt]
  split
  · next p hsome =>
    rw [hn, hp] at hsome
    cases hsome
  · rfl

theorem lineage_child {i p : Nat} {n : TreeNode} (h : t.node? i = some n)
    (hp : n.parent = some p) : t.lineage i = i :: t.lineage p := by
  obtain ⟨hlt, hn⟩ := Array.getElem?_eq_some_iff.1 h
  rw [lineage, dif_pos hlt]
  split
  · next q hsome =>
    rw [hn, hp] at hsome
    obtain rfl := Option.some.inj hsome
    rfl
  · next hnone =>
    rw [hn, hp] at hnone
    cases hnone

/-- A walk starts with its node. -/
theorem lineage_eq_cons {i : Nat} {n : TreeNode} (h : t.node? i = some n) :
    ∃ rest, t.lineage i = i :: rest := by
  rcases hp : n.parent with _ | p
  · exact ⟨[], lineage_root h hp⟩
  · exact ⟨_, lineage_child h hp⟩

theorem mem_lineage_self {i : Nat} (h : i < t.size) : i ∈ t.lineage i := by
  obtain ⟨n, hn⟩ := exists_node h
  obtain ⟨rest, hrest⟩ := lineage_eq_cons hn
  rw [hrest]
  exact List.mem_cons_self ..

/-- Walks are followed by induction: from a root, or from a child whose parent is done. -/
theorem lineage_induction {motive : (i : Nat) → i < t.size → Prop}
    (root : ∀ i n (hn : t.node? i = some n), n.parent = none → motive i (node?_lt hn))
    (child : ∀ i n p (hn : t.node? i = some n) (hp : n.parent = some p),
      motive p (Nat.lt_trans (parent_lt_of_node? hn hp) (node?_lt hn)) → motive i (node?_lt hn))
    (i : Nat) (h : i < t.size) : motive i h := by
  induction i using Nat.strong_induction_on with
  | _ i ih =>
    obtain ⟨n, hn⟩ := exists_node h
    rcases hp : n.parent with _ | p
    · exact root i n hn hp
    · have hlt := parent_lt_of_node? hn hp
      exact child i n p hn hp (ih p hlt (Nat.lt_trans hlt h))

theorem le_of_mem_lineage {a b : Nat} (h : a ∈ t.lineage b) : a ≤ b := by
  by_cases hb : b < t.size
  · induction b, hb using lineage_induction with
    | root i n hn hp =>
      rw [lineage_root hn hp, List.mem_singleton] at h
      omega
    | child i n p hn hp ih =>
      rw [lineage_child hn hp] at h
      rcases List.mem_cons.1 h with rfl | h
      · exact Nat.le_refl _
      · exact Nat.le_trans (ih h) (Nat.le_of_lt (parent_lt_of_node? hn hp))
  · rw [lineage_of_none (by simpa [node?, size] using hb)] at h
    cases h

/-- Only the walk from a node passes anything. -/
theorem lt_size_of_mem {a b : Nat} (h : a ∈ t.lineage b) : b < t.size := by
  by_contra hb
  rw [lineage_of_none (by simpa [node?, size] using hb)] at h
  cases h

theorem lt_size_of_mem_lineage {a b : Nat} (h : a ∈ t.lineage b) : a < t.size :=
  Nat.lt_of_le_of_lt (le_of_mem_lineage h) (lt_size_of_mem h)

/-- The walk from an ancestor ends every walk that passes it. -/
theorem lineage_suffix {a b : Nat} (h : a ∈ t.lineage b) : t.lineage a <:+ t.lineage b := by
  have hb := lt_size_of_mem h
  induction b, hb using lineage_induction with
  | root i n hn hp =>
    rw [lineage_root hn hp, List.mem_singleton] at h
    rw [h]
  | child i n p hn hp ih =>
    have hcons := lineage_child hn hp
    rw [hcons] at h
    rcases List.mem_cons.1 h with rfl | h
    · exact List.suffix_refl _
    · rw [hcons]
      exact (ih h).trans (List.suffix_cons _ _)

theorem mem_lineage_trans {a b c : Nat} (hab : a ∈ t.lineage b) (hbc : b ∈ t.lineage c) :
    a ∈ t.lineage c :=
  (lineage_suffix hbc).subset hab

/-- A walk that goes on to an ancestor comes there from a child. -/
theorem exists_child_of_mem_lineage {a b : Nat} (h : a ∈ t.lineage b) (hne : a ≠ b) :
    ∃ k n, k ∈ t.lineage b ∧ t.node? k = some n ∧ n.parent = some a := by
  induction b, lt_size_of_mem h using lineage_induction with
  | root i n hn hp =>
    rw [lineage_root hn hp, List.mem_singleton] at h
    exact absurd h hne
  | child i n p hn hp ih =>
    have hcons := lineage_child hn hp
    by_cases hap : a = p
    · subst hap
      exact ⟨i, n, mem_lineage_self (node?_lt hn), hn, hp⟩
    · rw [hcons] at h
      have hrest := (List.mem_cons.1 h).resolve_left hne
      obtain ⟨k, m, hk, hm, hparent⟩ := ih hrest hap
      exact ⟨k, m, hcons ▸ List.mem_cons_of_mem _ hk, hm, hparent⟩

/-- A walk never comes back to a node. -/
theorem lineage_nodup (t : BlockTree) (i : Nat) : (t.lineage i).Nodup := by
  by_cases hi : i < t.size
  · induction i, hi using lineage_induction with
    | root i n hn hp =>
      rw [lineage_root hn hp]
      exact List.nodup_singleton _
    | child i n p hn hp ih =>
      rw [lineage_child hn hp]
      refine List.nodup_cons.2 ⟨fun hmem => ?_, ih⟩
      have := le_of_mem_lineage hmem
      have := parent_lt_of_node? hn hp
      omega
  · rw [lineage_of_none (by simpa [node?, size] using hi)]
    exact List.nodup_nil

/-! ## Trees with the same parents -/

/-- Walks depend on the parents only. -/
theorem lineage_congr {t t' : BlockTree} (bound : Nat)
    (h : ∀ i, i < bound → (t'.node? i).map (·.parent) = (t.node? i).map (·.parent)) {i : Nat}
    (hi : i < bound) : t'.lineage i = t.lineage i := by
  induction i using Nat.strong_induction_on with
  | _ i ih =>
    have hsame := h i hi
    rcases hn : t.node? i with _ | n
    · rw [hn, Option.map_none, Option.map_eq_none_iff] at hsame
      rw [lineage_of_none hn, lineage_of_none hsame]
    · rw [hn, Option.map_some, Option.map_eq_some_iff] at hsame
      obtain ⟨n', hn', hparent⟩ := hsame
      rcases hp : n.parent with _ | p
      · rw [lineage_root hn hp, lineage_root hn' (by rw [hparent, hp])]
      · have hlt := parent_lt_of_node? hn hp
        rw [lineage_child hn hp, lineage_child hn' (by rw [hparent, hp]),
          ih p hlt (Nat.lt_trans hlt hi)]

/-! ## One more node -/

section Insert

variable {header : Header} {parent : Option Nat} {status : BlockStatus} {keys : KeySets}

theorem node?_insert (i : Nat) : (t.insert header parent status keys).node? i =
    if i = t.size then some (t.child header parent status keys) else t.node? i := by
  rw [node?, insert, Array.getElem?_push]
  rfl

theorem node?_insert_size : (t.insert header parent status keys).node? t.size =
    some (t.child header parent status keys) := by
  rw [node?_insert, if_pos rfl]

theorem node?_insert_of_lt {i : Nat} (h : i < t.size) :
    (t.insert header parent status keys).node? i = t.node? i := by
  rw [node?_insert, if_neg (Nat.ne_of_lt h)]

theorem node?_insert_of_some {i : Nat} {n : TreeNode} (h : t.node? i = some n) :
    (t.insert header parent status keys).node? i = some n :=
  (node?_insert_of_lt (node?_lt h)).trans h

/-- A node is the new one or was there before. -/
theorem node?_insert_cases {i : Nat} {n : TreeNode}
    (h : (t.insert header parent status keys).node? i = some n) :
    (i = t.size ∧ n = t.child header parent status keys) ∨ t.node? i = some n := by
  rw [node?_insert] at h
  split at h
  · next hi => exact Or.inl ⟨hi, (Option.some.inj h).symm⟩
  · exact Or.inr h

theorem parent_child_eq_some {p : Nat} :
    (t.child header parent status keys).parent = some p ↔ parent = some p ∧ p < t.size := by
  rw [child, Option.filter_eq_some_iff, decide_eq_true_iff]

@[simp] theorem size_insert : (t.insert header parent status keys).size = t.size + 1 := by
  simp [size, insert]

theorem find?_insert (hash : Digest) : (t.insert header parent status keys).find? hash =
    if hash = header.hash then some t.size else t.find? hash := by
  rw [find?, insert, Std.ExtTreeMap.getElem?_insert]
  by_cases hh : hash = header.hash
  · rw [if_pos hh, if_pos (Std.LawfulEqCmp.compare_eq_iff_eq.2 hh.symm)]
  · rw [if_neg hh, if_neg fun h => hh (Std.LawfulEqCmp.compare_eq_iff_eq.1 h).symm]
    rfl

theorem contains_insert_self : (t.insert header parent status keys).contains header.hash = true := by
  rw [contains, find?_insert, if_pos rfl]
  rfl

theorem contains_insert_of_contains {hash : Digest} (h : t.contains hash = true) :
    (t.insert header parent status keys).contains hash = true := by
  rw [contains, find?_insert]
  split
  · rfl
  · exact h

/-- Where headers name the parents, and the new one does, all of them do. -/
theorem linked_insert
    (h : ∀ {i n p m}, t.node? i = some n → n.parent = some p → t.node? p = some m →
      n.header.previous = m.hash)
    (hnew : ∀ {p m}, parent = some p → t.node? p = some m → header.previous = m.hash)
    {i p : Nat} {n m : TreeNode} (hn : (t.insert header parent status keys).node? i = some n)
    (hp : n.parent = some p) (hm : (t.insert header parent status keys).node? p = some m) :
    n.header.previous = m.hash := by
  rcases node?_insert_cases hn with ⟨-, rfl⟩ | hn
  · obtain ⟨hparent, hlt⟩ := parent_child_eq_some.1 hp
    exact hnew hparent (node?_insert_of_lt hlt ▸ hm)
  · obtain ⟨k, hk⟩ := exists_parent hn hp
    obtain rfl := Option.some.inj (hm.symm.trans (node?_insert_of_some hk))
    exact h hn hp hk

/-- A new node changes no walk that exists. -/
theorem lineage_insert_of_lt {i : Nat} (h : i < t.size) :
    (t.insert header parent status keys).lineage i = t.lineage i :=
  lineage_congr t.size (fun _ hj => by rw [node?_insert_of_lt hj]) h

/-- The walk from a new node goes on from its parent. -/
theorem lineage_insert_size {p : Nat} (h : p < t.size) :
    (t.insert header (some p) status keys).lineage t.size = t.size :: t.lineage p := by
  rw [lineage_child node?_insert_size (parent_child_eq_some.2 ⟨rfl, h⟩), lineage_insert_of_lt h]

end Insert

/-! ## Other statuses -/

@[simp] theorem size_setStatus (i : Nat) (status : BlockStatus) :
    (t.setStatus i status).size = t.size := by
  simp [size, setStatus]

theorem node?_setStatus (i j : Nat) (status : BlockStatus) :
    (t.setStatus i status).node? j =
      (t.node? j).map fun n => if j = i then { n with status } else n := by
  simp only [node?, setStatus, Array.getElem?_modify]
  by_cases h : i = j
  · subst h
    simp
  · simp [h, Ne.symm h]

/-- Setting the status that a node has changes nothing. -/
theorem setStatus_self {i : Nat} {n : TreeNode} {status : BlockStatus} (h : t.node? i = some n)
    (hstatus : n.status = status) : t.setStatus i status = t := by
  have hnodes : t.nodes.modify i (fun n => { n with status }) = t.nodes := by
    refine Array.ext (Array.size_modify ..) fun j hj hj' => ?_
    rw [Array.getElem_modify]
    split
    · next hij =>
      subst hij
      obtain ⟨hlt, hn⟩ := Array.getElem?_eq_some_iff.1 h
      rw [hn, ← hstatus]
    · rfl
  cases t
  simp only [setStatus] at hnodes ⊢
  congr

@[simp] theorem size_setStatuses (ids : List Nat) (status : BlockStatus) :
    (t.setStatuses ids status).size = t.size := by
  induction ids generalizing t with
  | nil => rfl
  | cons i ids ih => exact ih.trans (size_setStatus i status)

/-- Statuses change for the given positions and nothing else changes. -/
theorem node?_setStatuses (ids : List Nat) (status : BlockStatus) (j : Nat) :
    (t.setStatuses ids status).node? j =
      (t.node? j).map fun n => if j ∈ ids then { n with status } else n := by
  induction ids generalizing t with
  | nil => simp [setStatuses]
  | cons i ids ih =>
    have hstep : t.setStatuses (i :: ids) status = (t.setStatus i status).setStatuses ids status :=
      rfl
    rw [hstep, ih, node?_setStatus]
    rcases t.node? j with _ | n
    · rfl
    · by_cases hi : j = i <;> by_cases hids : j ∈ ids <;> simp [hi, hids]

/-- Nothing but the status of a node is new. -/
theorem exists_of_node?_setStatuses {ids : List Nat} {status : BlockStatus} {i : Nat}
    {n : TreeNode} (h : (t.setStatuses ids status).node? i = some n) :
    ∃ m, t.node? i = some m ∧ n = { m with status := n.status } := by
  rw [node?_setStatuses, Option.map_eq_some_iff] at h
  obtain ⟨m, hm, rfl⟩ := h
  refine ⟨m, hm, ?_⟩
  split <;> rfl

@[simp] theorem find?_setStatuses (ids : List Nat) (status : BlockStatus) (hash : Digest) :
    (t.setStatuses ids status).find? hash = t.find? hash := by
  induction ids generalizing t with
  | nil => rfl
  | cons i ids ih => exact ih

theorem lineage_setStatuses (ids : List Nat) (status : BlockStatus) (i : Nat) :
    (t.setStatuses ids status).lineage i = t.lineage i := by
  refine lineage_congr (i + 1) (fun j _ => ?_) (Nat.lt_succ_self i)
  rw [node?_setStatuses]
  rcases t.node? j with _ | n
  · rfl
  · by_cases hj : j ∈ ids <;> simp [hj]

/-! ## Nodes that fit their parents -/

/-- Positions can be looked up by digest, and height and work of every node are those of its
parent and its own. -/
structure Coherent (t : BlockTree) : Prop where
  /-- a digest leads to the one node that carries it -/
  find?_iff : ∀ {hash i}, t.find? hash = some i ↔ ∃ n, t.node? i = some n ∧ n.hash = hash
  /-- digests are those of the headers -/
  hash_eq : ∀ {i n}, t.node? i = some n → n.hash = n.header.hash
  /-- nothing comes before a root -/
  of_root : ∀ {i n}, t.node? i = some n → n.parent = none →
    n.height = 0 ∧ n.work = Work.total 0 (Work.work n.header.bits)
  /-- a child adds itself to what comes before it -/
  of_child : ∀ {i n p m}, t.node? i = some n → n.parent = some p → t.node? p = some m →
    n.height = m.height + 1 ∧ n.work = Work.total m.work (Work.work n.header.bits)

namespace Coherent

theorem empty : Coherent {} where
  find?_iff := by
    intro hash i
    simp [find?, node?]
  hash_eq := by
    intro i n h
    simp [node?] at h
  of_root := by
    intro i n h
    simp [node?] at h
  of_child := by
    intro i n p m h
    simp [node?] at h

theorem find?_eq_some (ht : t.Coherent) {i : Nat} {n : TreeNode} (h : t.node? i = some n) :
    t.find? n.hash = some i :=
  ht.find?_iff.2 ⟨n, h, rfl⟩

/-- Nodes have other digests than one that is not known. -/
theorem hash_ne (ht : t.Coherent) {i : Nat} {n : TreeNode} {hash : Digest}
    (h : t.node? i = some n) (hnew : t.find? hash = none) : n.hash ≠ hash := by
  rintro rfl
  cases (ht.find?_eq_some h).symm.trans hnew

theorem findNode?_eq_some (ht : t.Coherent) {i : Nat} {n : TreeNode} (h : t.node? i = some n) :
    t.findNode? n.hash = some n := by
  rw [findNode?, ht.find?_eq_some h]
  exact h

theorem findNode?_iff (ht : t.Coherent) {hash : Digest} {n : TreeNode} :
    t.findNode? hash = some n ↔ ∃ i, t.node? i = some n ∧ n.hash = hash := by
  constructor
  · intro h
    obtain ⟨i, hi, hn⟩ := Option.bind_eq_some_iff.1 h
    obtain ⟨m, hm, hhash⟩ := ht.find?_iff.1 hi
    rw [hm] at hn
    obtain rfl := Option.some.inj hn
    exact ⟨i, hm, hhash⟩
  · rintro ⟨i, hi, rfl⟩
    exact ht.findNode?_eq_some hi

/-- Two nodes with one digest are one node. -/
theorem eq_of_hash_eq (ht : t.Coherent) {i j : Nat} {n m : TreeNode} (hn : t.node? i = some n)
    (hm : t.node? j = some m) (h : n.hash = m.hash) : i = j := by
  have hi := ht.find?_eq_some hn
  rw [h, ht.find?_eq_some hm] at hi
  exact (Option.some.inj hi).symm

theorem contains_iff (ht : t.Coherent) {hash : Digest} :
    t.contains hash = true ↔ ∃ i n, t.node? i = some n ∧ n.hash = hash := by
  rw [contains, Option.isSome_iff_exists]
  exact exists_congr fun i => ht.find?_iff

/-- The height is the number of ancestors. -/
theorem length_lineage (ht : t.Coherent) {i : Nat} {n : TreeNode} (h : t.node? i = some n) :
    (t.lineage i).length = n.height + 1 := by
  induction i, node?_lt h using lineage_induction generalizing n with
  | root i m hm hp =>
    rw [h] at hm
    obtain rfl := Option.some.inj hm
    rw [lineage_root h hp, (ht.of_root h hp).1]
    rfl
  | child i m p hm hp ih =>
    rw [h] at hm
    obtain rfl := Option.some.inj hm
    obtain ⟨k, hk⟩ := exists_parent h hp
    rw [lineage_child h hp, List.length_cons, ih hk, (ht.of_child h hp hk).1]

/-- A walk read from the root holds at every position the node of that height. -/
theorem getElem?_reverse_lineage (ht : t.Coherent) {a b k : Nat} :
    (t.lineage b).reverse[k]? = some a ↔
      a ∈ t.lineage b ∧ ∃ n, t.node? a = some n ∧ n.height = k := by
  have hpos : ∀ {a n}, a ∈ t.lineage b → t.node? a = some n →
      (t.lineage b).reverse[n.height]? = some a := by
    intro a n hmem hn
    obtain ⟨front, hfront⟩ := lineage_suffix hmem
    obtain ⟨rest, hrest⟩ := lineage_eq_cons hn
    have hlen := ht.length_lineage hn
    rw [hrest, List.length_cons] at hlen
    have hheight : n.height = rest.reverse.length := by
      rw [List.length_reverse]
      omega
    rw [← hfront, hrest, List.reverse_append, List.reverse_cons, List.append_assoc,
      List.getElem?_append_right (by omega), hheight, Nat.sub_self]
    rfl
  constructor
  · intro h
    have hmem : a ∈ t.lineage b := List.mem_reverse.1 (List.mem_of_getElem? h)
    obtain ⟨n, hn⟩ := exists_node (lt_size_of_mem_lineage hmem)
    refine ⟨hmem, n, hn, ?_⟩
    have hnodup : (t.lineage b).reverse.Nodup := (List.nodup_reverse).2 (lineage_nodup t b)
    have hlt : k < (t.lineage b).reverse.length := (List.getElem?_eq_some_iff.1 h).1
    exact ((List.getElem?_inj hlt hnodup).1 (h.trans (hpos hmem hn).symm)).symm
  · rintro ⟨hmem, n, hn, rfl⟩
    exact hpos hmem hn

/-- On one walk there is one node of each height. -/
theorem eq_of_height_eq (ht : t.Coherent) {a b c : Nat} {n m : TreeNode} (ha : a ∈ t.lineage c)
    (hb : b ∈ t.lineage c) (hn : t.node? a = some n) (hm : t.node? b = some m)
    (h : n.height = m.height) : a = b := by
  have h₁ := ht.getElem?_reverse_lineage.2 ⟨ha, n, hn, rfl⟩
  have h₂ := ht.getElem?_reverse_lineage.2 ⟨hb, m, hm, rfl⟩
  rw [h, h₂] at h₁
  exact (Option.some.inj h₁).symm

/-- Of two nodes on one walk, the lower is an ancestor of the other. -/
theorem mem_lineage_of_height_le (ht : t.Coherent) {a b c : Nat} {n m : TreeNode}
    (ha : a ∈ t.lineage c) (hb : b ∈ t.lineage c) (hn : t.node? a = some n)
    (hm : t.node? b = some m) (h : n.height ≤ m.height) : a ∈ t.lineage b := by
  have hlen := ht.length_lineage hm
  have hlt : n.height < (t.lineage b).reverse.length := by
    rw [List.length_reverse]
    omega
  obtain ⟨a', ha'⟩ : ∃ a', (t.lineage b).reverse[n.height]? = some a' :=
    ⟨_, List.getElem?_eq_getElem hlt⟩
  obtain ⟨hmem, n', hn', hheight⟩ := ht.getElem?_reverse_lineage.1 ha'
  obtain rfl := ht.eq_of_height_eq ha (mem_lineage_trans hmem hb) hn hn' hheight.symm
  exact hmem

/-- An ancestor is no higher. -/
theorem height_le (ht : t.Coherent) {a b : Nat} {n m : TreeNode} (h : a ∈ t.lineage b)
    (hn : t.node? a = some n) (hm : t.node? b = some m) : n.height ≤ m.height := by
  have hle := (lineage_suffix h).length_le
  rw [ht.length_lineage hn, ht.length_lineage hm] at hle
  omega

/-- A node whose digest is new can be inserted as a root or under a node. -/
theorem insert (ht : t.Coherent) {header : Header} {parent : Option Nat} {status : BlockStatus}
    {keys : KeySets} (hnew : t.find? header.hash = none) (hparent : ∀ p ∈ parent, p < t.size) :
    (t.insert header parent status keys).Coherent where
  find?_iff := by
    intro hash i
    rw [find?_insert]
    split
    · next hh =>
      constructor
      · intro hi
        obtain rfl := Option.some.inj hi
        exact ⟨_, node?_insert_size, hh.symm⟩
      · rintro ⟨n, hn, hhash⟩
        rcases node?_insert_cases hn with ⟨rfl, -⟩ | hn
        · rfl
        · exact absurd (hhash.trans hh) (ht.hash_ne hn hnew)
    · next hh =>
      rw [ht.find?_iff]
      constructor
      · rintro ⟨n, hn, hhash⟩
        exact ⟨n, node?_insert_of_some hn, hhash⟩
      · rintro ⟨n, hn, hhash⟩
        rcases node?_insert_cases hn with ⟨-, rfl⟩ | hn
        · exact absurd hhash.symm hh
        · exact ⟨n, hn, hhash⟩
  hash_eq := by
    intro i n hn
    rcases node?_insert_cases hn with ⟨-, rfl⟩ | hn
    · rfl
    · exact ht.hash_eq hn
  of_root := by
    intro i n hn hp
    rcases node?_insert_cases hn with ⟨-, rfl⟩ | hn
    · rcases parent with _ | p
      · simp [child]
      · cases hp.symm.trans (parent_child_eq_some.2 ⟨rfl, hparent p rfl⟩)
    · exact ht.of_root hn hp
  of_child := by
    intro i n p m hn hp hm
    rcases node?_insert_cases hn with ⟨-, rfl⟩ | hn
    · obtain ⟨hp, hlt⟩ := parent_child_eq_some.1 hp
      rw [node?_insert_of_lt hlt] at hm
      simp [child, hp, hm]
    · obtain ⟨k, hk⟩ := exists_parent hn hp
      obtain rfl := Option.some.inj (hm.symm.trans (node?_insert_of_some hk))
      exact ht.of_child hn hp hk

/-- The new node is found by its digest, and the others as before. -/
theorem findNode?_insert (ht : t.Coherent) {header : Header} {parent : Option Nat}
    {status : BlockStatus} {keys : KeySets} (hash : Digest) :
    (t.insert header parent status keys).findNode? hash =
      if hash = header.hash then some (t.child header parent status keys)
      else t.findNode? hash := by
  rw [BlockTree.findNode?, find?_insert]
  split
  · exact node?_insert_size
  · rw [BlockTree.findNode?]
    rcases hfind : t.find? hash with _ | i
    · rfl
    · obtain ⟨n, hn, -⟩ := ht.find?_iff.1 hfind
      exact node?_insert_of_lt (node?_lt hn)

theorem setStatuses (ht : t.Coherent) (ids : List Nat) (status : BlockStatus) :
    (t.setStatuses ids status).Coherent where
  find?_iff := by
    intro hash i
    rw [find?_setStatuses, ht.find?_iff]
    constructor
    · rintro ⟨n, hn, hhash⟩
      exact ⟨_, by rw [node?_setStatuses, hn, Option.map_some], by split <;> exact hhash⟩
    · rintro ⟨n, hn, hhash⟩
      obtain ⟨m, hm, heq⟩ := exists_of_node?_setStatuses hn
      rw [heq] at hhash
      exact ⟨m, hm, hhash⟩
  hash_eq := by
    intro i n hn
    obtain ⟨m, hm, heq⟩ := exists_of_node?_setStatuses hn
    have hhash := ht.hash_eq hm
    rw [heq]
    exact hhash
  of_root := by
    intro i n hn hp
    obtain ⟨m, hm, heq⟩ := exists_of_node?_setStatuses hn
    rw [heq] at hp
    have hroot := ht.of_root hm hp
    rw [heq]
    exact hroot
  of_child := by
    intro i n p k hn hp hk
    obtain ⟨m, hm, heq⟩ := exists_of_node?_setStatuses hn
    obtain ⟨l, hl, heq'⟩ := exists_of_node?_setStatuses hk
    rw [heq] at hp
    have hstep := ht.of_child hm hp hl
    rw [heq, heq']
    exact hstep

/-- A new status is found under the digest of its node. -/
theorem findNode?_setStatuses_singleton (ht : t.Coherent) {i : Nat} {n : TreeNode}
    (hn : t.node? i = some n) (status : BlockStatus) (hash : Digest) :
    (t.setStatuses [i] status).findNode? hash =
      (t.findNode? hash).map fun m => if hash = n.hash then { m with status } else m := by
  rw [BlockTree.findNode?, BlockTree.findNode?, find?_setStatuses]
  rcases hfind : t.find? hash with _ | j
  · rfl
  · obtain ⟨m, hm, hhash⟩ := ht.find?_iff.1 hfind
    have hsame : j ∈ [i] ↔ hash = n.hash := by
      rw [List.mem_singleton, ← hhash]
      constructor
      · rintro rfl
        rw [Option.some.inj (hm.symm.trans hn)]
      · exact ht.eq_of_hash_eq hm hn
    rw [Option.bind_some, Option.bind_some, node?_setStatuses, hm, Option.map_some,
      Option.map_some]
    simp only [hsame]

end Coherent

end PermissionedLedger.BlockTree
