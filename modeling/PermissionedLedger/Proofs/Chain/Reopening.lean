import Mathlib
import PermissionedLedger.Proofs.Chain.Progress

/-!
# Reopening a store

What a chain has written can always be read again (`Chain.exists_openStore`). Records may
be added in any order in which heights ascend (`Mirror.exists_ofRecords`), so that the record
of a parent is there before those of its children (`Loaded.exists_foldlM`). The keys of a node are stored, or are those of its
parent; its height follows that of its parent; and the root of the tree that wrote the
records is genesis.
-/

namespace PermissionedLedger

open BlockTree

variable {params : Params} {verify : Verifier} {T : Tables} {t u : BlockTree}

/-! ## Adding the records -/

namespace Loaded

variable {done todo : List NodeRecord}

/-- The record of a node can be added after that of its parent. -/
theorem exists_addRecord (h : Loaded T done u) (hm : Mirror params T t) {i : Nat} {n : TreeNode}
    (hn : t.node? i = some n)
    (hparent : ∀ p m, n.parent = some p → t.node? p = some m → m.toRecord ∈ done) :
    ∃ u', BlockTree.addRecord T u n.toRecord = .ok u' := by
  rw [BlockTree.addRecord]
  rcases hp : n.parent with _ | p
  · have hheight := (hm.coherent.of_root hn hp).1
    have hkeys : T.keys[n.hash]? = some n.keys := by
      rcases hm.keys hn with hkeys | ⟨-, p, m, hp', -⟩
      · exact hkeys
      · cases hp.symm.trans hp'
    have hroot : u.parentOf n.toRecord = .ok none := by
      rw [parentOf, if_pos]
      exact hheight
    have hks : u.keysOf T n.toRecord none = .ok n.keys := by
      simp only [keysOf, TreeNode.toRecord, hkeys]
    refine ⟨_, bind_eq_ok.2 ⟨_, hroot, bind_eq_ok.2 ⟨_, hks, require_bind_eq_ok.2 ⟨?_, rfl⟩⟩⟩⟩
    exact hheight.symm
  · obtain ⟨m, hm'⟩ := exists_parent hn hp
    have hheight := (hm.coherent.of_child hn hp hm').1
    -- the parent in the tree that is loaded
    obtain ⟨q, k, hk, hrecord⟩ := h.exists_node _ (hparent p m hp hm')
    have hkheight : k.height = m.height := congrArg NodeRecord.height hrecord
    have hfind : u.find? n.header.previous = some q := by
      have hkhash : k.hash = m.hash := congrArg NodeRecord.hash hrecord
      rw [hm.linked hn hp hm', ← hkhash]
      exact h.coherent.find?_eq_some hk
    have hchild : u.parentOf n.toRecord = .ok (some q) := by
      have hpos : n.toRecord.height ≠ 0 := by
        change n.height ≠ 0
        omega
      have hfind' : u.find? n.toRecord.header.previous = some q := hfind
      rw [parentOf, if_neg hpos, hfind']
    obtain ⟨ks, hks⟩ : ∃ ks, u.keysOf T n.toRecord (some q) = .ok ks := by
      rw [keysOf, Option.bind_some, hk]
      rcases T.keys[n.toRecord.hash]? with _ | ks
      · exact ⟨_, rfl⟩
      · exact ⟨_, rfl⟩
    refine ⟨_, bind_eq_ok.2 ⟨_, hchild, bind_eq_ok.2 ⟨_, hks, require_bind_eq_ok.2 ⟨?_, rfl⟩⟩⟩⟩
    simp only [child, Option.bind_some, hk, Option.map_some, Option.getD_some, hkheight]
    exact hheight.symm

/-- Records can be added in ascending order of height. -/
theorem exists_foldlM (h : Loaded T done u) (hm : Mirror params T t)
    (hrecords : ∀ {r}, r ∈ done ++ todo ↔ T.nodes[r.hash]? = some r)
    (hnodup : ((done ++ todo).map (·.hash)).Nodup)
    (hsorted : todo.Pairwise (·.height ≤ ·.height)) :
    ∃ u', todo.foldlM (BlockTree.addRecord T) u = .ok u' := by
  induction todo generalizing done u with
  | nil => exact ⟨u, rfl⟩
  | cons r todo ih =>
    obtain ⟨hleast, hlater⟩ := List.pairwise_cons.1 hsorted
    have hr : T.nodes[r.hash]? = some r := hrecords.1 (by simp)
    obtain ⟨i, n, hn, rfl⟩ := hm.exists_of_record hr
    -- the record of the parent has a smaller height, so it is not one of those to come
    obtain ⟨u', hu'⟩ := h.exists_addRecord hm hn fun p m hp hm' => by
      have hheight : n.height = m.height + 1 := (hm.coherent.of_child hn hp hm').1
      have hmem : m.toRecord ∈ done ++ n.toRecord :: todo := hrecords.2 (hm.findNode? hm')
      rcases List.mem_append.1 hmem with hdone | hnext
      · exact hdone
      · have hle : n.height ≤ m.height := by
          rcases List.mem_cons.1 hnext with heq | hin
          · exact (congrArg NodeRecord.height heq).ge
          · exact hleast _ hin
        omega
    have happ : done ++ n.toRecord :: todo = (done ++ [n.toRecord]) ++ todo := by simp
    have hnew : ∀ r' ∈ done, r'.hash ≠ n.toRecord.hash := by
      intro r' hr' heq
      rw [List.map_append, List.nodup_append] at hnodup
      exact hnodup.2.2 _ (List.mem_map_of_mem hr') _ (List.mem_map_of_mem (List.mem_cons_self ..))
        heq
    rw [happ] at hnodup hrecords
    obtain ⟨w, hw⟩ := ih (h.addRecord (hm.coherent.hash_eq hn) hnew hu') hrecords hnodup hlater
    rw [List.foldlM_cons]
    exact ⟨w, bind_eq_ok.2 ⟨u', hu', hw⟩⟩

/-- Genesis is found once all records were added. -/
theorem any_genesis (h : Loaded T done u) (hm : Mirror params T t)
    (hdone : ∀ {r}, r ∈ done ↔ T.nodes[r.hash]? = some r) :
    (u.findNode? params.genesisHash).any (·.height = 0) = true := by
  obtain ⟨tip, tipNode, -, htipNode, -⟩ := hm.tip
  obtain ⟨r, root, -, hroot, hnone⟩ := exists_root (node?_lt htipNode)
  have hgenesis : root.hash = params.genesisHash :=
    ((hm.block_hash hroot (hm.root hroot hnone).1).2).symm
  obtain ⟨j, m, hfind, hm', hrecord⟩ := h.exists_find? hm hdone hroot
  have hheight : m.height = root.height := congrArg NodeRecord.height hrecord
  rw [← hgenesis, BlockTree.findNode?, hfind, Option.bind_some, hm', Option.any_some, hheight,
    (hm.coherent.of_root hroot hnone).1]
  rfl

end Loaded

/-! ## Loading -/

/-- What a tree shows can be loaded, in any order in which heights ascend. -/
theorem Mirror.exists_ofRecords {records : List NodeRecord} (hm : Mirror params T t)
    (hperm : records.Perm T.records) (hsorted : records.Pairwise (·.height ≤ ·.height)) :
    ∃ t', BlockTree.ofRecords params T records = .ok t' := by
  have hmem : ∀ {r}, r ∈ records ↔ T.nodes[r.hash]? = some r := hm.mem_records_of_perm hperm
  rw [BlockTree.ofRecords]
  obtain ⟨u, hu⟩ := (Loaded.empty T).exists_foldlM hm hmem (hm.nodup_of_perm hperm) hsorted
  have hloaded := hm.loaded hperm hu
  obtain ⟨tip, tipNode, -, htipNode, htip⟩ := hm.tip
  obtain ⟨j, -, hfind, -⟩ := hloaded.exists_find? hm hmem htipNode
  refine ⟨u.setTip j, bind_eq_ok.2 ⟨u, hu, require_bind_eq_ok.2 ⟨hloaded.any_genesis hm hmem, ?_⟩⟩⟩
  simp only [htip, hfind]
  rfl

/-- What a tree shows can be loaded. -/
theorem Mirror.exists_ofTables (hm : Mirror params T t) :
    ∃ t', BlockTree.ofTables params T = .ok t' :=
  hm.exists_ofRecords (List.mergeSort_perm ..) (pairwise_mergeSort_by NodeRecord.height _)

/-- So can the best state. -/
theorem Mirror.exists_best (hm : Mirror params T t) :
    ∃ best, BestState.ofTables params T t = .ok best := by
  obtain ⟨tip, n, htip, hn, -⟩ := hm.tip
  obtain ⟨b, hb, -⟩ := hm.block hn
  refine ⟨.ofTip t params tip n b, ?_⟩
  rw [BestState.ofTables, htip, Option.bind_some, hn, Option.map_some]
  simp only [hb]

section Opening

variable {σ : Type} [ChainStore σ] {store store' : σ}

/-- A store that holds what a tree shows can be opened. -/
theorem Chain.exists_openStore (verify : Verifier) (pool : OrphanPool)
    (hensure : ensureGenesis params store = (.ok (), store'))
    (hm : Mirror params (ChainStore.tables store') t) :
    ∃ c, openStore params verify pool store = (.ok c, store') := by
  obtain ⟨u, hu⟩ := hm.exists_ofTables
  obtain ⟨best, hbest⟩ := (hm.of_ofTables hu).exists_best
  have hload : ChainState.load params store' = .ok ⟨store', u, best⟩ := by
    rw [ChainState.load]
    exact bind_eq_ok.2 ⟨u, hu, bind_eq_ok.2 ⟨best, hbest, rfl⟩⟩
  rw [openStore, hensure]
  simp only [hload]
  exact ⟨_, rfl⟩

/-- The store of a chain can be opened, and stays as it is. -/
theorem Chain.exists_openStore_of_mirror (verify : Verifier) (pool : OrphanPool)
    (hm : Mirror params (ChainStore.tables store) t) :
    ∃ c, openStore params verify pool store = (.ok c, store) := by
  obtain ⟨tip, n, -, -, htip⟩ := hm.tip
  exact exists_openStore verify pool (ensureGenesis_of_tip htip) hm

/-- An empty store that is reliable can be opened. -/
theorem Chain.exists_openStore_of_empty [ReliableChainStore σ] (params : Params)
    (verify : Verifier) (pool : OrphanPool) (hempty : ChainStore.tables store = {}) :
    ∃ c store', openStore params verify pool store = (.ok c, store') := by
  have hwrite : (ChainStore.tables store).tryWriteAll params.genesisWrites =
      .ok ((ChainStore.tables store).writeAll params.genesisWrites) := by
    refine Tables.tryWriteAll_eq_ok fun hash status hin => ?_
    -- genesis sets no status
    rw [Params.genesisWrites] at hin
    rcases List.mem_append.1 hin with hin | hin
    · rcases List.mem_append.1 hin with hin | hin
      · cases List.mem_singleton.1 hin
      · obtain ⟨o, ⟨coin, heq⟩ | heq⟩ := Tables.mem_writes hin
        · cases heq
        · cases heq
    · simp at hin
  have hcommits := ReliableChainStore.commits store _ _ hwrite
  rcases hcommit : ChainStore.commit store params.genesisWrites with ⟨r, store'⟩
  obtain rfl : r = .ok () := by
    rw [hcommit] at hcommits
    exact hcommits
  have hensure : ensureGenesis params store = (.ok (), store') := by
    rw [ensureGenesis, hempty]
    simp only [Params.genesisBatch_empty, hcommit]
  have hm := params.mirror_genesis
  rw [← tables_of_ensureGenesis hempty hensure] at hm
  obtain ⟨c, hc⟩ := exists_openStore verify pool hensure hm
  exact ⟨c, store', hc⟩

end Opening

end PermissionedLedger
