import PermissionedLedger.Store.ChainStore
import PermissionedLedger.Wire.Ledger

/-!
# The file of a persistent store

A persistent store is kept as one file: its tables one after another, each as the
list of its entries, in the format of `Codec`. An empty file is an empty store.
-/

namespace PermissionedLedger

namespace Wire

open Codec

/-- A height. -/
def height : Codec Nat := number 8

/-- A table: its entries in ascending order of their keys. -/
def table {κ ν : Type} [Ord κ] [Std.TransOrd κ] (key : Codec κ) (value : Codec ν) :
    Codec (Std.ExtTreeMap κ ν) :=
  (list (pair key value)).map (fun entries => .ofList entries) fun t => t.toList

/-- A set of keys, in ascending order. -/
def keySet : Codec KeySet := (list publicKey).map (fun ks => .ofList ks) fun ks => ks.toList

/-- Key sets, role by role. -/
def keySets : Codec KeySets :=
  (pair keySet (pair keySet (pair keySet keySet))).map (fun v => ⟨v.1, v.2.1, v.2.2.1, v.2.2.2⟩)
    fun s => (s.root, s.provisioning, s.issuing, s.validating)

/-- An unspent output. -/
def coin : Codec Coin :=
  (pair txOutput (pair height bool)).map (fun v => ⟨v.1, v.2.1, v.2.2⟩)
    fun c => (c.output, c.height, c.isCoinbase)

/-- A spent output. -/
def spentCoin : Codec SpentCoin :=
  (pair outPoint coin).map (fun v => ⟨v.1, v.2⟩) fun s => (s.outPoint, s.coin)

/-- A status. -/
def status : Codec BlockStatus := union BlockStatus.tag fun n => BlockStatus.all[n]?.map const

/-- A node of the tree. -/
def node : Codec NodeRecord :=
  (pair digest (pair header (pair height status))).map (fun v => ⟨v.1, v.2.1, v.2.2.1, v.2.2.2⟩)
    fun n => (n.hash, n.header, n.height, n.status)

/-- All tables; the tip is a list of at most one digest. -/
def tables : Codec Tables :=
  (pair (list digest) (pair (table digest block) (pair (table digest node)
    (pair (table outPoint coin) (pair (table digest (list spentCoin))
      (table digest keySets)))))).map
    (fun (tip, blocks, nodes, coins, journals, keys) =>
      { tip := tip.head?, blocks, nodes, coins, journals, keys })
    fun t => (t.tip.toList, t.blocks, t.nodes, t.coins, t.journals, t.keys)

end Wire

namespace PersistentStore

/-- The file of a store. -/
def image (s : PersistentStore) : Bytes := Wire.tables.encode s.tables

/-- The store that a file holds. -/
def ofImage? (file : Bytes) : Option PersistentStore :=
  if file = [] then some {}
  else (Wire.tables.decode file).map fun v => ⟨v.1⟩

end PersistentStore

end PermissionedLedger
