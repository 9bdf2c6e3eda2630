import Mathlib
import PermissionedLedger.Proofs.Chain.Ledger

/-!
# Opening a chain

An empty store is given genesis (`Params.genesisTables`), and the tree over it has one
node (`Params.genesisTree`). Everything that plans keep holds there.

A store that has a tip is left as it is. Either way, the tree of an opened chain shows
what the store holds then (`Chain.openStore_eq_ok`, `Mirror.of_ofTables`).
-/

namespace PermissionedLedger

open CoinView BlockTree

/-! ## Genesis -/

namespace Params

variable (params : Params)

/-- What there is to spend after genesis. -/
def genesisView : CoinView := (⟨∅, ∅⟩ : CoinView).addOutputs genesisCoinbase 0

/-- The writes that put genesis into an empty store. -/
def genesisWrites : Batch :=
  [.putNode ⟨params.genesisHash, params.genesis.header, 0, .valid⟩] ++ genesisView.writes ++
    [.putJournal params.genesisHash [], .putKeys params.genesisHash params.genesisKeys,
      .setTip params.genesisHash, .putBlock params.genesis]

/-- The tables of a store that holds nothing but genesis. -/
def genesisTables : Tables := Tables.writeAll {} params.genesisWrites

/-- The tree over these tables. -/
def genesisTree : BlockTree :=
  (BlockTree.insert {} params.genesis.header none .valid params.genesisKeys).setTip 0

/-- Its node. -/
def genesisNode : TreeNode :=
  BlockTree.child {} params.genesis.header none .valid params.genesisKeys

theorem genesisBatch_empty : params.genesisBatch ∅ = .ok params.genesisWrites := by
  rw [genesisBatch]
  simp only [Block.connect_genesis]
  rfl

/-- Genesis is written around its coins. -/
theorem genesisTables_eq : params.genesisTables =
    { blocks := (∅ : Std.ExtTreeMap Digest Block).insert params.genesisHash params.genesis
      nodes := (∅ : Std.ExtTreeMap Digest NodeRecord).insert params.genesisHash
        ⟨params.genesisHash, params.genesis.header, 0, .valid⟩
      coins := params.genesisTables.coins
      journals := (∅ : Std.ExtTreeMap Digest Journal).insert params.genesisHash []
      keys := (∅ : Std.ExtTreeMap Digest KeySets).insert params.genesisHash params.genesisKeys
      tip := some params.genesisHash } := by
  rw [genesisTables, genesisWrites, Tables.writeAll_append, Tables.writeAll_append,
    Tables.writeAll_writes_eq]
  rfl

theorem tip_genesisTables : params.genesisTables.tip = some params.genesisHash := by
  rw [genesisTables_eq]

theorem blocks_genesisTables :
    params.genesisTables.blocks = (∅ : Std.ExtTreeMap Digest Block).insert params.genesisHash
      params.genesis := by
  rw [genesisTables_eq]

/-- No other block is stored. -/
theorem stored_genesisTables {hash : Digest} {b : Block} :
    params.genesisTables.blocks[hash]? = some b ↔
      hash = params.genesisHash ∧ b = params.genesis := by
  rw [blocks_genesisTables, getElem?_insert_eq]
  split
  · next heq => simp [heq, eq_comm]
  · next hne => simp [hne]

theorem nodes_genesisTables :
    params.genesisTables.nodes = (∅ : Std.ExtTreeMap Digest NodeRecord).insert params.genesisHash
      ⟨params.genesisHash, params.genesis.header, 0, .valid⟩ := by
  rw [genesisTables_eq]

theorem journals_genesisTables :
    params.genesisTables.journals = (∅ : Std.ExtTreeMap Digest Journal).insert params.genesisHash
      [] := by
  rw [genesisTables_eq]

theorem keys_genesisTables :
    params.genesisTables.keys = (∅ : Std.ExtTreeMap Digest KeySets).insert params.genesisHash
      params.genesisKeys := by
  rw [genesisTables_eq]

theorem coins_genesisTables (o : OutPoint) :
    params.genesisTables.coins[o]? = genesisView.lookup? o := by
  rw [genesisTables, genesisWrites, Tables.writeAll_append, Tables.writeAll_append]
  have hbase : genesisView.base = (∅ : CoinMap) := rfl
  exact Tables.coins_writeAll_writes hbase o

/-! ## The tree over genesis -/

theorem coherent_insert_genesis :
    (BlockTree.insert {} params.genesis.header none .valid params.genesisKeys).Coherent := by
  refine Coherent.empty.insert ?_ fun p hp => by cases hp
  simp [find?]

theorem mainPath_insert_genesis :
    (BlockTree.insert {} params.genesis.header none .valid params.genesisKeys).MainPath := by
  intro tip htip
  cases htip

theorem node?_genesisTree {i : Nat} {n : TreeNode} :
    params.genesisTree.node? i = some n ↔ i = 0 ∧ n = params.genesisNode := by
  rw [genesisTree, node?_setTip, node?_insert]
  have hsize : ({} : BlockTree).size = 0 := rfl
  rw [hsize]
  split
  · next hi =>
    rw [Option.some.injEq]
    exact ⟨fun h => ⟨hi, h.symm⟩, fun h => h.2.symm⟩
  · next hi =>
    constructor
    · intro h
      simp [node?] at h
    · rintro ⟨rfl, -⟩
      exact absurd rfl hi

theorem tip?_genesisTree : params.genesisTree.tip? = some 0 :=
  tip?_setTip params.coherent_insert_genesis params.mainPath_insert_genesis (by simp)

theorem mirror_genesis : Mirror params params.genesisTables params.genesisTree := by
  have hcoherent : params.genesisTree.Coherent := params.coherent_insert_genesis.setTip 0
  have hnode : params.genesisTree.node? 0 = some params.genesisNode :=
    params.node?_genesisTree.2 ⟨rfl, rfl⟩
  have hknown : params.genesisTree.contains params.genesisHash = true :=
    hcoherent.contains_iff.2 ⟨0, _, hnode, rfl⟩
  have hchild : ∀ {i n p}, params.genesisTree.node? i = some n → n.parent ≠ some p := by
    intro i n p hn hp
    obtain ⟨-, rfl⟩ := params.node?_genesisTree.1 hn
    cases hp
  constructor
  case coherent => exact hcoherent
  case path =>
    exact params.mainPath_insert_genesis.setTip params.coherent_insert_genesis (by simp)
  case nodes =>
    intro hash
    have hfind : params.genesisTree.findNode? hash =
        if hash = params.genesisHash then some params.genesisNode
        else ({} : BlockTree).findNode? hash :=
      Coherent.empty.findNode?_insert hash
    rw [nodes_genesisTables, getElem?_insert_eq, hfind]
    split
    · rfl
    · simp [findNode?, find?]
  case block =>
    intro i n hn
    obtain ⟨-, rfl⟩ := params.node?_genesisTree.1 hn
    exact ⟨params.genesis, params.stored_genesisTables.2 ⟨rfl, rfl⟩, rfl,
      Block.wellFormed_genesis params, Block.coinbaseHeight?_genesis params⟩
  case linked =>
    intro i n p m hn hp
    exact absurd hp (hchild hn)
  case root =>
    intro i n hn hp
    obtain ⟨-, rfl⟩ := params.node?_genesisTree.1 hn
    exact ⟨params.stored_genesisTables.2 ⟨rfl, rfl⟩, rfl⟩
  case keys =>
    intro i n hn
    obtain ⟨-, rfl⟩ := params.node?_genesisTree.1 hn
    rw [keys_genesisTables, getElem?_insert_eq]
    exact Or.inl (if_pos rfl)
  case blocks_known =>
    intro hash b hb
    exact (params.stored_genesisTables.1 hb).1 ▸ hknown
  case keys_known =>
    intro hash ks hks
    rw [keys_genesisTables, getElem?_insert_eq] at hks
    split at hks
    · next heq => exact heq ▸ hknown
    · simp at hks
  case tip => exact ⟨0, _, params.tip?_genesisTree, hnode, params.tip_genesisTables⟩

theorem branch_genesis : params.genesisTables.branch params.genesisTree 0 = [params.genesis] :=
  Tables.branch_of_root (params.node?_genesisTree.2 ⟨rfl, rfl⟩) rfl
    (params.stored_genesisTables.2 ⟨rfl, rfl⟩)

/-- There is no other branch than that of genesis. -/
theorem elected_genesis : params.genesisTree.Elected params where
  main_valid := by
    intro tip i n _ _ hn
    obtain ⟨-, rfl⟩ := params.node?_genesisTree.1 hn
    rfl
  closed := by
    intro i n p m hn hp
    obtain ⟨-, rfl⟩ := params.node?_genesisTree.1 hn
    cases hp
  pinned := by
    intro i n c hn hpos
    obtain ⟨-, rfl⟩ := params.node?_genesisTree.1 hn
    cases hpos
  best := by
    intro tip m i n htip _ hn hne
    obtain rfl := Option.some.inj (htip.symm.trans params.tip?_genesisTree)
    exact absurd (params.node?_genesisTree.1 hn).1 hne

theorem accurate_genesis : Accurate params.genesisTables params.genesisTree := by
  have htip : ∀ {tip}, params.genesisTree.tip? = some tip →
      params.genesisTables.branch params.genesisTree tip = [params.genesis] := by
    intro tip h
    obtain rfl := Option.some.inj (h.symm.trans params.tip?_genesisTree)
    exact params.branch_genesis
  constructor
  case fits =>
    intro tip h
    rw [htip h]
    exact Throughout.cons_iff.2 ⟨Block.fits_genesis params, Throughout.nil⟩
  case coins =>
    intro tip h o
    rw [htip h, coins_genesisTables]
    rfl
  case journals =>
    intro tip h b older hs
    rw [htip h] at hs
    rcases List.suffix_cons_iff.1 hs with heq | hs
    · obtain ⟨rfl, rfl⟩ := List.cons.inj heq
      rw [journals_genesisTables, getElem?_insert_eq]
      exact if_pos rfl
    · cases List.suffix_nil.1 hs
  case journals_main =>
    intro tip hash journal h hj
    obtain rfl := Option.some.inj (h.symm.trans params.tip?_genesisTree)
    rw [journals_genesisTables, getElem?_insert_eq] at hj
    split at hj
    · next heq =>
      have hnode : params.genesisTree.node? 0 = some params.genesisNode :=
        params.node?_genesisTree.2 ⟨rfl, rfl⟩
      exact ⟨0, _, mem_lineage_self (node?_lt hnode), hnode, heq.symm⟩
    · simp at hj

theorem verified_genesis (verify : Verifier) :
    Verified params verify params.genesisTables params.genesisTree := by
  intro i n hn _
  obtain ⟨rfl, rfl⟩ := params.node?_genesisTree.1 hn
  rw [branch_genesis]
  exact Throughout.cons_iff.2 ⟨Or.inl ⟨rfl, rfl⟩, Throughout.nil⟩

end Params

/-! ## Opening -/

section Opening

variable {σ : Type} [ChainStore σ] {params : Params} {verify : Verifier}
  {orphans : OrphanPool} {store store' : σ}

/-- An empty store holds genesis afterwards. -/
theorem tables_of_ensureGenesis [LawfulChainStore σ] (hempty : ChainStore.tables store = {})
    (h : ensureGenesis params store = (.ok (), store')) :
    ChainStore.tables store' = params.genesisTables := by
  rw [ensureGenesis, hempty] at h
  simp only [Params.genesisBatch_empty] at h
  split at h
  · next hcommit =>
    obtain ⟨-, rfl⟩ := Prod.mk.inj h
    rw [LawfulChainStore.tables_of_ok _ _ _ hcommit, hempty]
    rfl
  · cases (Prod.mk.inj h).1

/-- A store with a tip stays as it is. -/
theorem ensureGenesis_of_tip {hash : Digest} (htip : (ChainStore.tables store).tip = some hash) :
    ensureGenesis params store = (.ok (), store) := by
  rw [ensureGenesis, htip]

theorem ChainState.load_eq_ok {s : ChainState σ} (h : ChainState.load params store = .ok s) :
    s.store = store ∧ BlockTree.ofTables params (ChainStore.tables store) = .ok s.tree ∧
      BestState.ofTables params (ChainStore.tables store) s.tree = .ok s.best := by
  rw [ChainState.load] at h
  obtain ⟨tree, htree, h⟩ := bind_eq_ok.1 h
  obtain ⟨best, hbest, h⟩ := bind_eq_ok.1 h
  obtain rfl := Except.ok.inj h
  exact ⟨rfl, htree, hbest⟩

theorem Chain.openStore_eq_ok {c : Chain σ} (h : Chain.openStore params verify orphans store = (.ok c, store')) :
    ensureGenesis params store = (.ok (), store') ∧ c.store = store' ∧
      BlockTree.ofTables params (ChainStore.tables store') = .ok c.tree ∧
      BestState.ofTables params (ChainStore.tables store') c.tree = .ok c.best ∧
      c.params = params ∧ c.verify = verify ∧ c.orphans = orphans := by
  rw [Chain.openStore] at h
  split at h
  · cases (Prod.mk.inj h).1
  · next s hensure =>
    split at h
    · cases (Prod.mk.inj h).1
    · next state hload =>
      obtain ⟨hc, rfl⟩ := Prod.mk.inj h
      obtain rfl := Except.ok.inj hc
      obtain ⟨hstore, htree, hbest⟩ := ChainState.load_eq_ok hload
      exact ⟨hensure, hstore, htree, hbest, rfl, rfl, rfl⟩

end Opening

end PermissionedLedger
