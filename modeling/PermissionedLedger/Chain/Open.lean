import PermissionedLedger.Chain.Process
import PermissionedLedger.Network.Genesis

/-!
# Opening a chain

A chain is opened on a store. An empty store first gets the genesis block. The
tree is then rebuilt from the stored nodes in ascending order of height: work is
added up again, and keys are those stored for a node or else those of its parent.
Orphans are not stored.

Opening fails if the store refuses the genesis block, or if what it holds is not a
chain of the network.
-/

namespace PermissionedLedger

variable {σ : Type} [ChainStore σ]

/-- What an empty store is given: everything that belongs to the genesis block. -/
def Params.genesisBatch (params : Params) (coins : CoinMap) : Except Inconsistency Batch :=
  let genesis := params.genesis
  let hash := genesis.hash
  match CoinView.connect ⟨coins, ∅⟩ genesis 0 with
  | (.error cause, _, _) => .error cause
  | (.ok (), view, journal) =>
    .ok <| [.putNode ⟨hash, genesis.header, 0, .valid⟩] ++ view.writes ++
      [.putJournal hash journal, .putKeys hash params.genesisKeys, .setTip hash, .putBlock genesis]

/-- Gives a store the genesis block if it is empty. -/
def ensureGenesis (params : Params) (store : σ) : Except EngineFault Unit × σ :=
  match (ChainStore.tables store).tip with
  | some _ => (.ok (), store)
  | none =>
    match params.genesisBatch (ChainStore.tables store).coins with
    | .error cause => (.error (.inconsistent cause), store)
    | .ok batch =>
      match ChainStore.commit store batch with
      | (.ok (), store) => (.ok (), store)
      | (.error e, store) => (.error (.store e), store)

/-- All stored nodes. -/
def Tables.records (tables : Tables) : List NodeRecord := tables.nodes.toList.map (·.2)

namespace BlockTree

/-- The parent of a stored node; only nodes of height zero have none. -/
def parentOf (t : BlockTree) (record : NodeRecord) : Except Inconsistency (Option Nat) :=
  if record.height = 0 then .ok none
  else
    match t.find? record.header.previous with
    | some parent => .ok (some parent)
    | none => .error (.parentUnknown record.hash)

/-- The keys in force after a stored node. -/
def keysOf (t : BlockTree) (tables : Tables) (record : NodeRecord) (parent : Option Nat) :
    Except Inconsistency KeySets :=
  match tables.keys[record.hash]?, parent.bind t.node? with
  | some keys, _ => .ok keys
  | none, some node => .ok node.keys
  | none, none => .error (.rootWithoutKeys record.hash)

/-- Adds a stored node. -/
def addRecord (tables : Tables) (t : BlockTree) (record : NodeRecord) :
    Except Inconsistency BlockTree := do
  let parent ← t.parentOf record
  let keys ← t.keysOf tables record parent
  require ((t.child record.header parent record.status keys).height = record.height)
    (.heightMismatch record.height record.hash)
  return t.insert record.header parent record.status keys

/-- The tree of stored nodes that are added one after another, with the stored tip. -/
def ofRecords (params : Params) (tables : Tables) (records : List NodeRecord) :
    Except Inconsistency BlockTree := do
  let t ← records.foldlM (addRecord tables) {}
  let genesis := params.genesisHash
  require ((t.findNode? genesis).any (·.height = 0) = true)
    (.genesisMissing params.network genesis)
  match tables.tip with
  | none => .error .noStoredTip
  | some hash =>
    match t.find? hash with
    | none => .error (.tipUnknown hash)
    | some tip => return t.setTip tip

/-- The tree of all stored nodes. Parents come before their children; otherwise the order does not
matter, and here it is that of the digests. -/
def ofTables (params : Params) (tables : Tables) : Except Inconsistency BlockTree :=
  ofRecords params tables (tables.records.mergeSort fun a b => a.height ≤ b.height)

end BlockTree

/-- The best state of a tree, whose tip has to be stored. -/
def BestState.ofTables (params : Params) (tables : Tables) (tree : BlockTree) :
    Except Inconsistency BestState :=
  match tree.tip?.bind fun tip => (tree.node? tip).map fun node => (tip, node) with
  | none => .error .noTip
  | some (tip, node) =>
    match tables.blocks[node.hash]? with
    | none => .error (.tipWithoutBlock node.hash)
    | some block => .ok (.ofTip tree params tip node block)

/-- The chain that a store holds. -/
def ChainState.load (params : Params) (store : σ) : Except Inconsistency (ChainState σ) := do
  let tables := ChainStore.tables store
  let tree ← BlockTree.ofTables params tables
  let best ← BestState.ofTables params tables tree
  return { store, tree, best }

/-- Opens a chain. The store may have changed even if that fails. -/
def Chain.openStore (params : Params) (verify : Verifier) (orphans : OrphanPool) (store : σ) :
    Except EngineFault (Chain σ) × σ :=
  match ensureGenesis params store with
  | (.error fault, store) => (.error fault, store)
  | (.ok (), store) =>
    match ChainState.load params store with
    | .error cause => (.error (.inconsistent cause), store)
    | .ok state => (.ok { state with params, verify, orphans }, store)

end PermissionedLedger
