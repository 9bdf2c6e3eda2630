import Mathlib
import PermissionedLedger.Proofs.Chain.ForkChoice

/-!
# Loading a tree

A tree that is loaded from tables shows what they hold, in whatever order the records are
added (`Mirror.of_ofRecords`). The new tree may number its nodes in another way than the
one that wrote the tables. But both show the same tables, and so they have the same nodes with the same work and statuses (`Mirror.work_eq`), the same
branches (`Mirror.branch_eq`), and the same main chain (`BlockTree.Elected.of_mirror`).
-/

namespace PermissionedLedger

open BlockTree

variable {params : Params} {T : Tables} {t t' : BlockTree}

/-! ## Adding the records -/

namespace BlockTree

variable {r : NodeRecord} {parent : Option Nat} {keys : KeySets}

/-- The parent that is found for a record is the node that its header names. -/
theorem exists_of_parentOf (ht : t.Coherent) (h : t.parentOf r = .ok parent) {p : Nat}
    (hp : parent = some p) : ∃ m, t.node? p = some m ∧ r.header.previous = m.hash := by
  subst hp
  rw [parentOf] at h
  split at h
  · cases h
  · split at h
    · next q hq =>
      obtain rfl := Option.some.inj (Except.ok.inj h)
      obtain ⟨m, hm, heq⟩ := ht.find?_iff.1 hq
      exact ⟨m, hm, heq.symm⟩
    · cases h

/-- The keys that are found for a record are those stored, or else those of its parent. -/
theorem keysOf_eq_ok (h : t.keysOf T r parent = .ok keys) : T.keys[r.hash]? = some keys ∨
    T.keys[r.hash]? = none ∧ ∃ p m, parent = some p ∧ t.node? p = some m ∧ m.keys = keys := by
  rw [keysOf] at h
  split at h
  · next ks hks =>
    obtain rfl := Except.ok.inj h
    exact Or.inl hks
  · next m hnone hbind =>
    obtain rfl := Except.ok.inj h
    obtain ⟨p, hp, hm⟩ := Option.bind_eq_some_iff.1 hbind
    exact Or.inr ⟨hnone, p, m, hp, hm, rfl⟩
  · cases h

end BlockTree

/-- The tree holds given records, as the tables do. -/
structure Loaded (T : Tables) (done : List NodeRecord) (t : BlockTree) : Prop where
  /-- nodes fit their parents -/
  coherent : t.Coherent
  /-- there is no main chain yet -/
  main : t.main = #[]
  /-- every record has its node -/
  exists_node : ∀ r ∈ done, ∃ i n, t.node? i = some n ∧ n.toRecord = r
  /-- every node has its record -/
  record : ∀ {i n}, t.node? i = some n → n.toRecord ∈ done
  /-- the header names the parent -/
  linked : ∀ {i n p m}, t.node? i = some n → n.parent = some p → t.node? p = some m →
    n.header.previous = m.hash
  /-- keys are those stored, or else those of the parent -/
  keys : ∀ {i n}, t.node? i = some n → T.keys[n.hash]? = some n.keys ∨
    T.keys[n.hash]? = none ∧ ∃ p m, n.parent = some p ∧ t.node? p = some m ∧ m.keys = n.keys

namespace Loaded

theorem empty (T : Tables) : Loaded T [] {} where
  coherent := .empty
  main := rfl
  exists_node := fun _ h => nomatch h
  record := by
    intro i n h
    simp [node?] at h
  linked := by
    intro i n p m h
    simp [node?] at h
  keys := by
    intro i n h
    simp [node?] at h

/-- Adding a record whose digest is new and that of its header. -/
theorem addRecord {done : List NodeRecord} {r : NodeRecord} (h : Loaded T done t)
    (hash : r.hash = r.header.hash) (hnew : ∀ r' ∈ done, r'.hash ≠ r.hash)
    (hadd : BlockTree.addRecord T t r = .ok t') : Loaded T (done ++ [r]) t' := by
  rw [BlockTree.addRecord] at hadd
  obtain ⟨parent, hparent, hadd⟩ := bind_eq_ok.1 hadd
  obtain ⟨keys, hkeys, hadd⟩ := bind_eq_ok.1 hadd
  obtain ⟨hheight, hadd⟩ := require_bind_eq_ok.1 hadd
  obtain rfl := Except.ok.inj hadd
  have hunknown : t.find? r.header.hash = none := by
    rcases hfind : t.find? r.header.hash with _ | i
    · rfl
    · obtain ⟨n, hn, heq⟩ := h.coherent.find?_iff.1 hfind
      exact absurd (heq.trans hash.symm) (hnew _ (h.record hn))
  have hrecord : (t.child r.header parent r.status keys).toRecord = r := by
    cases r
    simp only [TreeNode.toRecord, NodeRecord.mk.injEq]
    exact ⟨hash.symm, rfl, hheight, rfl⟩
  constructor
  case coherent =>
    refine h.coherent.insert hunknown fun p hp => ?_
    obtain ⟨m, hm, -⟩ := exists_of_parentOf h.coherent hparent hp
    exact node?_lt hm
  case main => exact h.main
  case exists_node =>
    intro r' hr'
    rcases List.mem_append.1 hr' with hr' | hr'
    · obtain ⟨i, n, hn, heq⟩ := h.exists_node r' hr'
      exact ⟨i, n, node?_insert_of_some hn, heq⟩
    · obtain rfl := List.mem_singleton.1 hr'
      exact ⟨t.size, _, node?_insert_size, hrecord⟩
  case record =>
    intro i n hn
    rcases node?_insert_cases hn with ⟨-, rfl⟩ | hn
    · exact List.mem_append_right _ (List.mem_singleton.2 hrecord)
    · exact List.mem_append_left _ (h.record hn)
  case linked =>
    refine linked_insert h.linked fun hp hm => ?_
    obtain ⟨k, hk, hprev⟩ := exists_of_parentOf h.coherent hparent hp
    obtain rfl := Option.some.inj (hm.symm.trans hk)
    exact hprev
  case keys =>
    intro i n hn
    rcases node?_insert_cases hn with ⟨-, rfl⟩ | hn
    · have hfound := keysOf_eq_ok hkeys
      rw [hash] at hfound
      rcases hfound with hks | ⟨hnone, p, m, hp, hm, hks⟩
      · exact Or.inl hks
      · exact Or.inr ⟨hnone, p, m, parent_child_eq_some.2 ⟨hp, node?_lt hm⟩,
          node?_insert_of_some hm, hks⟩
    · rcases h.keys hn with hks | ⟨hnone, p, m, hp, hm, hks⟩
      · exact Or.inl hks
      · exact Or.inr ⟨hnone, p, m, hp, node?_insert_of_some hm, hks⟩

/-- Adding records one after another. -/
theorem foldlM {done todo : List NodeRecord} (h : Loaded T done t)
    (hash : ∀ r ∈ todo, r.hash = r.header.hash) (hnodup : ((done ++ todo).map (·.hash)).Nodup)
    (hadd : todo.foldlM (BlockTree.addRecord T) t = .ok t') : Loaded T (done ++ todo) t' := by
  induction todo generalizing done t with
  | nil =>
    obtain rfl := Except.ok.inj hadd
    rw [List.append_nil]
    exact h
  | cons r todo ih =>
    rw [List.foldlM_cons] at hadd
    obtain ⟨u, hu, hadd⟩ := bind_eq_ok.1 hadd
    have happ : done ++ r :: todo = (done ++ [r]) ++ todo := by simp
    have hnew : ∀ r' ∈ done, r'.hash ≠ r.hash := by
      intro r' hr' heq
      rw [List.map_append, List.nodup_append] at hnodup
      exact hnodup.2.2 _ (List.mem_map_of_mem hr') _ (List.mem_map_of_mem (List.mem_cons_self ..))
        heq
    rw [happ] at hnodup ⊢
    exact ih (h.addRecord (hash r (List.mem_cons_self ..)) hnew hu)
      (fun r' hr' => hash r' (List.mem_cons_of_mem _ hr')) hnodup hadd

end Loaded

/-! ## All records -/

namespace Mirror

/-- Records are stored under their digests. -/
theorem hash_of_record (h : Mirror params T t) {hash : Digest} {r : NodeRecord}
    (hr : T.nodes[hash]? = some r) : r.hash = hash := by
  rw [h.nodes, Option.map_eq_some_iff] at hr
  obtain ⟨n, hn, rfl⟩ := hr
  obtain ⟨i, -, heq⟩ := h.coherent.findNode?_iff.1 hn
  exact heq

theorem mem_records {r : NodeRecord} (h : Mirror params T t) :
    r ∈ T.records ↔ T.nodes[r.hash]? = some r := by
  rw [Tables.records, List.mem_map]
  constructor
  · rintro ⟨⟨hash, r'⟩, hmem, rfl⟩
    have hsome := Std.ExtTreeMap.mem_toList_iff_getElem?_eq_some.1 hmem
    rwa [h.hash_of_record hsome]
  · intro hsome
    exact ⟨(r.hash, r), Std.ExtTreeMap.mem_toList_iff_getElem?_eq_some.2 hsome, rfl⟩

theorem nodup_records (h : Mirror params T t) : (T.records.map (·.hash)).Nodup := by
  have hkeys : ∀ e ∈ T.nodes.toList, e.2.hash = e.1 := fun _ hmem =>
    h.hash_of_record (Std.ExtTreeMap.mem_toList_iff_getElem?_eq_some.1 hmem)
  rw [Tables.records, List.map_map]
  have hsame : T.nodes.toList.map ((fun r : NodeRecord => r.hash) ∘ fun e => e.2) =
      T.nodes.toList.map Prod.fst := List.map_congr_left hkeys
  rw [hsame, List.Nodup, List.pairwise_map]
  exact T.nodes.distinct_keys_toList.imp fun hne heq =>
    hne (Std.LawfulEqCmp.compare_eq_iff_eq.2 heq)

/-- What holds of the nodes of one tree of the tables. -/
theorem exists_of_record (h : Mirror params T t) {r : NodeRecord} (hr : T.nodes[r.hash]? = some r) :
    ∃ i n, t.node? i = some n ∧ n.toRecord = r := by
  rw [h.nodes, Option.map_eq_some_iff] at hr
  obtain ⟨n, hn, heq⟩ := hr
  obtain ⟨i, hi, -⟩ := h.coherent.findNode?_iff.1 hn
  exact ⟨i, n, hi, heq⟩

end Mirror

namespace Loaded

variable {done : List NodeRecord}

/-- Every node has its counterpart in a tree that there is. -/
theorem exists_counterpart (hl : Loaded T done t') (h : Mirror params T t)
    (hdone : ∀ {r}, r ∈ done ↔ T.nodes[r.hash]? = some r) {i : Nat} {n : TreeNode}
    (hn : t'.node? i = some n) : ∃ j m, t.node? j = some m ∧ m.toRecord = n.toRecord :=
  h.exists_of_record (hdone.1 (hl.record hn))

/-- Every node of that tree is found by its digest. -/
theorem exists_find? (hl : Loaded T done t') (h : Mirror params T t)
    (hdone : ∀ {r}, r ∈ done ↔ T.nodes[r.hash]? = some r) {i : Nat} {n : TreeNode}
    (hn : t.node? i = some n) :
    ∃ j m, t'.find? n.hash = some j ∧ t'.node? j = some m ∧ m.toRecord = n.toRecord := by
  obtain ⟨j, m, hm, hrecord⟩ := hl.exists_node n.toRecord (hdone.2 (h.findNode? hn))
  have heq : m.hash = n.hash := congrArg NodeRecord.hash hrecord
  exact ⟨j, m, heq ▸ hl.coherent.find?_eq_some hm, hm, hrecord⟩

theorem contains (hl : Loaded T done t') (h : Mirror params T t)
    (hdone : ∀ {r}, r ∈ done ↔ T.nodes[r.hash]? = some r) {hash : Digest}
    (hin : t.contains hash = true) : t'.contains hash = true := by
  obtain ⟨i, m, hm, rfl⟩ := h.coherent.contains_iff.1 hin
  obtain ⟨j, -, hfind, -⟩ := hl.exists_find? h hdone hm
  exact Option.isSome_iff_exists.2 ⟨j, hfind⟩

/-- Nodes are stored as they are. -/
theorem nodes (hl : Loaded T done t') (h : Mirror params T t)
    (hdone : ∀ {r}, r ∈ done ↔ T.nodes[r.hash]? = some r) (hash : Digest) :
    T.nodes[hash]? = (t'.findNode? hash).map (·.toRecord) := by
  rcases hT : T.nodes[hash]? with _ | r
  · rcases hfind : t'.findNode? hash with _ | m
    · rfl
    · obtain ⟨i, hm, rfl⟩ := hl.coherent.findNode?_iff.1 hfind
      cases hT.symm.trans (hdone.1 (hl.record hm))
  · obtain rfl := h.hash_of_record hT
    obtain ⟨i, m, hm, rfl⟩ := hl.exists_node r (hdone.2 hT)
    have hfind := hl.coherent.findNode?_eq_some hm
    exact (congrArg (Option.map (·.toRecord)) hfind).symm

/-- The only root is genesis, whose keys are stored. -/
theorem root (hl : Loaded T done t') (h : Mirror params T t)
    (hdone : ∀ {r}, r ∈ done ↔ T.nodes[r.hash]? = some r) {i : Nat} {n : TreeNode}
    (hn : t'.node? i = some n) (hp : n.parent = none) :
    T.blocks[n.hash]? = some params.genesis ∧ n.keys = params.genesisKeys := by
  obtain ⟨j, m, hm, hrecord⟩ := hl.exists_counterpart h hdone hn
  have hhash : m.hash = n.hash := congrArg NodeRecord.hash hrecord
  have hheight : m.height = n.height := congrArg NodeRecord.height hrecord
  have hroot : m.parent = none := by
    rcases hq : m.parent with _ | q
    · rfl
    · obtain ⟨l, hl'⟩ := exists_parent hm hq
      have hsucc := (h.coherent.of_child hm hq hl').1
      have hzero := (hl.coherent.of_root hn hp).1
      omega
  obtain ⟨hblock, hkeys⟩ := h.root hm hroot
  have hstored : T.keys[n.hash]? = some n.keys := by
    rcases hl.keys hn with hks | ⟨-, p, l, hq, -, -⟩
    · exact hks
    · cases hp.symm.trans hq
  have hstored' : T.keys[m.hash]? = some m.keys := by
    rcases h.keys hm with hks | ⟨-, p, l, hq, -, -⟩
    · exact hks
    · cases hroot.symm.trans hq
  rw [hhash] at hblock hstored'
  exact ⟨hblock, (Option.some.inj (hstored.symm.trans hstored')).trans hkeys⟩

/-- Once its tip is set, a tree that holds all records shows what the tables hold. -/
theorem mirror (hl : Loaded T done t') (h : Mirror params T t)
    (hdone : ∀ {r}, r ∈ done ↔ T.nodes[r.hash]? = some r) {tip : Nat} {n : TreeNode}
    (hn : t'.node? tip = some n) (htip : T.tip = some n.hash) :
    Mirror params T (t'.setTip tip) := by
  have hpath : t'.MainPath := by
    intro i hi
    rw [tip?, hl.main] at hi
    cases hi
  constructor
  case coherent => exact hl.coherent.setTip tip
  case path => exact hpath.setTip hl.coherent (node?_lt hn)
  case nodes => exact hl.nodes h hdone
  case block =>
    intro i m hm
    obtain ⟨j, k, hk, hrecord⟩ := hl.exists_counterpart h hdone hm
    obtain ⟨b, hb, hheader, hwf, hheight⟩ := h.block hk
    have hhash : k.hash = m.hash := congrArg NodeRecord.hash hrecord
    have hsame : k.header = m.header := congrArg NodeRecord.header hrecord
    have hrepeats : k.height = m.height := congrArg NodeRecord.height hrecord
    exact ⟨b, hhash ▸ hb, hheader.trans hsame, hwf, hrepeats ▸ hheight⟩
  case linked => exact hl.linked
  case root => exact hl.root h hdone
  case keys => exact hl.keys
  case blocks_known => exact fun hb => hl.contains h hdone (h.blocks_known hb)
  case keys_known => exact fun hks => hl.contains h hdone (h.keys_known hks)
  case tip => exact ⟨tip, n, tip?_setTip hl.coherent hpath (node?_lt hn), hn, htip⟩

end Loaded

namespace Mirror

/-- The digest of a record is that of its header. -/
theorem hash_eq_of_record (h : Mirror params T t) {r : NodeRecord}
    (hr : T.nodes[r.hash]? = some r) : r.hash = r.header.hash := by
  obtain ⟨i, n, hn, rfl⟩ := h.exists_of_record hr
  exact h.coherent.hash_eq hn

section Records

variable {records : List NodeRecord}

theorem mem_records_of_perm (h : Mirror params T t) (hperm : records.Perm T.records)
    {r : NodeRecord} : r ∈ records ↔ T.nodes[r.hash]? = some r :=
  hperm.mem_iff.trans h.mem_records

theorem nodup_of_perm (h : Mirror params T t) (hperm : records.Perm T.records) :
    (records.map (·.hash)).Nodup :=
  (hperm.map (·.hash)).nodup_iff.2 h.nodup_records

/-- A tree to which all records were added holds them. -/
theorem loaded (h : Mirror params T t) (hperm : records.Perm T.records)
    (hload : records.foldlM (BlockTree.addRecord T) {} = .ok t') : Loaded T records t' :=
  (Loaded.empty T).foldlM (fun _ hr => h.hash_eq_of_record ((h.mem_records_of_perm hperm).1 hr))
    (h.nodup_of_perm hperm) hload

/-- A tree shows what the tables hold if it is loaded from their records, whatever their order. -/
theorem of_ofRecords (h : Mirror params T t) (hperm : records.Perm T.records)
    (hload : BlockTree.ofRecords params T records = .ok t') : Mirror params T t' := by
  rw [BlockTree.ofRecords] at hload
  obtain ⟨u, hu, hload⟩ := bind_eq_ok.1 hload
  obtain ⟨-, hload⟩ := require_bind_eq_ok.1 hload
  have hloaded := h.loaded hperm hu
  split at hload
  · cases hload
  · next hash htip =>
    split at hload
    · cases hload
    · next tip hfind =>
      obtain rfl := Except.ok.inj hload
      obtain ⟨n, hn, rfl⟩ := hloaded.coherent.find?_iff.1 hfind
      exact hloaded.mirror h (h.mem_records_of_perm hperm) hn htip

end Records

/-- A tree that is loaded shows what the tables hold. -/
theorem of_ofTables (h : Mirror params T t) (hload : BlockTree.ofTables params T = .ok t') :
    Mirror params T t' :=
  h.of_ofRecords (List.mergeSort_perm ..) hload

/-! ## Trees of the same tables -/

/-- Nodes with one digest have the same work. -/
theorem work_eq (h : Mirror params T t) (h' : Mirror params T t') {i j : Nat} {n m : TreeNode}
    (hn : t.node? i = some n) (hm : t'.node? j = some m) (heq : n.hash = m.hash) :
    n.work = m.work ∧ t.exactWork i = t'.exactWork j := by
  induction i, node?_lt hn using lineage_induction generalizing j n m with
  | root i k hk hp =>
    obtain rfl := Option.some.inj (hn.symm.trans hk)
    have hheader : n.header = m.header := congrArg NodeRecord.header (h.toRecord_eq h' hn hm heq)
    rcases h.parents_eq h' hn hm heq with ⟨-, hq⟩ | ⟨p, k, q, l, hp', -⟩
    · refine ⟨by rw [(h.coherent.of_root hn hp).2, (h'.coherent.of_root hm hq).2, hheader], ?_⟩
      rw [exactWork, exactWork, lineageNodes, lineageNodes, lineage_root hn hp, lineage_root hm hq]
      simp [hn, hm, hheader]
    · cases hp.symm.trans hp'
  | child i k p hk hp ih =>
    obtain rfl := Option.some.inj (hn.symm.trans hk)
    have hheader : n.header = m.header := congrArg NodeRecord.header (h.toRecord_eq h' hn hm heq)
    rcases h.parents_eq h' hn hm heq with ⟨hp', -⟩ | ⟨p', k, q, l, hp', hk', hq, hl, hparents⟩
    · cases hp.symm.trans hp'
    · obtain rfl := Option.some.inj (hp.symm.trans hp')
      obtain ⟨ihwork, ihexact⟩ := ih hk' hl hparents
      refine ⟨by rw [(h.coherent.of_child hn hp hk').2, (h'.coherent.of_child hm hq hl).2, ihwork,
        hheader], ?_⟩
      rw [exactWork_of_child hn hp, exactWork_of_child hm hq, ihexact, hheader]

/-- Nodes with one digest have the same keys. -/
theorem keys_eq (h : Mirror params T t) (h' : Mirror params T t') {i j : Nat} {n m : TreeNode}
    (hn : t.node? i = some n) (hm : t'.node? j = some m) (heq : n.hash = m.hash) :
    n.keys = m.keys := by
  induction i, node?_lt hn using lineage_induction generalizing j n m with
  | root i k hk hp =>
    obtain rfl := Option.some.inj (hn.symm.trans hk)
    rcases h.parents_eq h' hn hm heq with ⟨-, hq⟩ | ⟨p, k, q, l, hp', -⟩
    · rw [(h.root hn hp).2, (h'.root hm hq).2]
    · cases hp.symm.trans hp'
  | child i k p hk hp ih =>
    obtain rfl := Option.some.inj (hn.symm.trans hk)
    rcases h.keys hn with hstored | ⟨hnone, p', k, hp', hk', hkeys⟩ <;>
      rcases h'.keys hm with hstored' | ⟨hnone', q', l, hq', hl', hkeys'⟩
    · rw [heq, hstored'] at hstored
      exact (Option.some.inj hstored).symm
    · rw [heq, hnone'] at hstored
      cases hstored
    · rw [heq, hstored'] at hnone
      cases hnone
    · -- neither changes the keys of its parent
      obtain rfl := Option.some.inj (hp.symm.trans hp')
      rcases h.parents_eq h' hn hm heq with ⟨hp', -⟩ | ⟨p', k', q, l', hp', hk₁, hq, hl₁, hparents⟩
      · cases hp.symm.trans hp'
      · obtain rfl := Option.some.inj (hp.symm.trans hp')
        obtain rfl := Option.some.inj (hq'.symm.trans hq)
        obtain rfl := Option.some.inj (hk'.symm.trans hk₁)
        obtain rfl := Option.some.inj (hl'.symm.trans hl₁)
        rw [← hkeys, ← hkeys', ih hk' hl' hparents]

/-- Trees of the same tables have the same tip. -/
theorem tip_eq (h : Mirror params T t) (h' : Mirror params T t') {i j : Nat} {n m : TreeNode}
    (hi : t.tip? = some i) (hn : t.node? i = some n) (hj : t'.tip? = some j)
    (hm : t'.node? j = some m) : n.hash = m.hash := by
  obtain ⟨i', n', hi', hn', hstored⟩ := h.tip
  obtain ⟨j', m', hj', hm', hstored'⟩ := h'.tip
  obtain rfl := Option.some.inj (hi.symm.trans hi')
  obtain rfl := Option.some.inj (hj.symm.trans hj')
  obtain rfl := Option.some.inj (hn.symm.trans hn')
  obtain rfl := Option.some.inj (hm.symm.trans hm')
  exact Option.some.inj (hstored.symm.trans hstored')

/-- Ancestors in one tree are ancestors in any other. -/
theorem exists_ancestor (h : Mirror params T t) (h' : Mirror params T t') {i j a : Nat}
    {n m : TreeNode} (hn : t.node? i = some n) (hm : t'.node? j = some m) (heq : n.hash = m.hash)
    (ha : a ∈ t'.lineage j) : ∃ b k l, b ∈ t.lineage i ∧ t.node? b = some k ∧
      t'.node? a = some l ∧ k.hash = l.hash := by
  induction j, node?_lt hm using lineage_induction generalizing i n m with
  | root j k hk hp =>
    rw [lineage_root hk hp, List.mem_singleton] at ha
    subst ha
    exact ⟨i, n, m, mem_lineage_self (node?_lt hn), hn, hm, heq⟩
  | child j k p hk hp ih =>
    rw [hm] at hk
    obtain rfl := Option.some.inj hk
    rw [lineage_child hm hp] at ha
    rcases List.mem_cons.1 ha with rfl | ha
    · exact ⟨i, n, m, mem_lineage_self (node?_lt hn), hn, hm, heq⟩
    · rcases h.parents_eq h' hn hm heq with ⟨-, hp'⟩ | ⟨q, r, p', l, hq, hr, hp', hl, hparents⟩
      · cases hp.symm.trans hp'
      · obtain rfl := Option.some.inj (hp.symm.trans hp')
        obtain ⟨b, k, l', hb, hrest⟩ := ih hr hl hparents ha
        refine ⟨b, k, l', ?_, hrest⟩
        rw [lineage_child hn hq]
        exact List.mem_cons_of_mem _ hb

end Mirror

theorem BlockTree.ExactWork.of_mirror (hx : t.ExactWork) (h : Mirror params T t)
    (h' : Mirror params T t') : t'.ExactWork := by
  intro j
  by_cases hj : j < t'.size
  · obtain ⟨m, hm⟩ := BlockTree.exists_node hj
    obtain ⟨i, n, hn, heq⟩ := h'.exists_node h hm
    rw [← (h.work_eq h' hn hm heq).2]
    exact hx i
  · rw [exactWork_of_size_le (Nat.le_of_not_lt hj)]
    exact Nat.two_pow_pos 256

namespace BlockTree

theorem status_eq_of_mirror (h : Mirror params T t) (h' : Mirror params T t') {i j : Nat}
    {n m : TreeNode} (hn : t.node? i = some n) (hm : t'.node? j = some m) (heq : n.hash = m.hash) :
    n.status = m.status :=
  congrArg NodeRecord.status (h.toRecord_eq h' hn hm heq)

/-- All trees of the same tables agree about what validation has found out. -/
theorem Settled.of_mirror (hs : t.Settled params) (h : Mirror params T t)
    (h' : Mirror params T t') : t'.Settled params := by
  obtain ⟨tip, tipNode, htip, htipNode, -⟩ := h.tip
  constructor
  case main_valid =>
    intro tip' j m htip' hj hm
    obtain ⟨k, hk⟩ := BlockTree.exists_node (h'.path.tip_lt htip')
    obtain ⟨i, n, l, hi, hn, hl, heq⟩ := h.exists_ancestor h' htipNode hk
      (h.tip_eq h' htip htipNode htip' hk) hj
    rw [hm] at hl
    obtain rfl := Option.some.inj hl
    rw [← status_eq_of_mirror h h' hn hm heq]
    exact hs.main_valid htip hi hn
  case closed =>
    intro j m q l hm hq hl hinvalid
    obtain ⟨i, n, hn, heq⟩ := h'.exists_node h hm
    obtain ⟨p, k, hk, heq'⟩ := h'.exists_node h hl
    rw [← status_eq_of_mirror h h' hn hm heq]
    rw [← status_eq_of_mirror h h' hk hl heq'] at hinvalid
    rcases h.parents_eq h' hn hm heq with ⟨-, hq'⟩ | ⟨r, k', q', l', hr, hk', hq', hl', hparents⟩
    · cases hq.symm.trans hq'
    · obtain rfl := Option.some.inj (hq.symm.trans hq')
      obtain rfl := Option.some.inj (hl.symm.trans hl')
      obtain rfl := h.coherent.eq_of_hash_eq hk' hk (hparents.trans heq'.symm)
      exact hs.closed hn hr hk hinvalid
  case pinned =>
    intro j m c hm hpos hc
    obtain ⟨i, n, hn, heq⟩ := h'.exists_node h hm
    have hheight : n.height = m.height :=
      congrArg NodeRecord.height (h.toRecord_eq h' hn hm heq)
    rw [← heq]
    exact hs.pinned hn (hheight ▸ hpos) (hheight ▸ hc)

/-- All trees of the same tables have the best branch as their main chain if one has. -/
theorem Elected.of_mirror (he : t.Elected params) (h : Mirror params T t)
    (h' : Mirror params T t') : t'.Elected params := by
  obtain ⟨tip, tipNode, htip, htipNode, -⟩ := h.tip
  refine ⟨he.toSettled.of_mirror h h', fun {tip' k j m} htip' hk hm hne hvalid => ?_⟩
  obtain ⟨i, n, hn, heq⟩ := h'.exists_node h hm
  have htipEq := h.tip_eq h' htip htipNode htip' hk
  rw [← status_eq_of_mirror h h' hn hm heq] at hvalid
  have hother : i ≠ tip := by
    rintro rfl
    rw [htipNode] at hn
    obtain rfl := Option.some.inj hn
    exact hne (h'.coherent.eq_of_hash_eq hm hk (heq.symm.trans htipEq))
  rw [← he.best htip htipNode hn hother hvalid]
  exact TreeNode.isBetterThan_congr ⟨(h.work_eq h' htipNode hk htipEq).1.symm, htipEq.symm⟩
    ⟨(h.work_eq h' hn hm heq).1.symm, heq.symm⟩

end BlockTree

end PermissionedLedger
