import PermissionedLedger.Store.Image

/-!
# A store of databases

A persistent store as an environment of databases keeps it. A database is a table of byte strings
that knows nothing of their meaning: a value is encoded when it is put, and decoded each time it
is read.

* Blocks, nodes, journals and key sets stand under the digests of their blocks.
* An unspent output stands under `OutPoint.keyBytes`, and what it belongs to is read back from
  there.
* The best tip stands as it is, under a key of its own.

A batch is written in a transaction, which is given up with the first write that fails. A status
is changed by reading the node and putting it back, under the digest that it carries.

What is asked of a store (`StoreCall`) is asked of every kind of store in the same way. A store in
memory is not left meanwhile, and databases are found as they were left, so that neither changes
when it is opened again. A `PersistentStore` is read from its file.
-/

namespace PermissionedLedger

/-- A table of byte strings. -/
abbrev Database := Std.ExtTreeMap Bytes Bytes

/-- Why databases cannot do what is asked. -/
inductive DatabaseError where
  /-- the store cannot -/
  | store (e : StoreError)
  /-- the bytes of a value cannot be decoded -/
  | serialization
  deriving DecidableEq

namespace Database

variable {α : Type}

/-- The value that bytes encode. What follows it is ignored. -/
def read (c : Codec α) (bytes : Bytes) : Except DatabaseError α :=
  match c.decode bytes with
  | some (a, _) => .ok a
  | none => .error .serialization

/-- The value under a key, if there is one. -/
def get? (db : Database) (c : Codec α) (key : Bytes) : Except DatabaseError (Option α) :=
  match db[key]? with
  | some bytes => (read c bytes).map some
  | none => .ok none

/-- Puts a value under a key. -/
def put (db : Database) (c : Codec α) (key : Bytes) (a : α) : Database :=
  db.insert key (c.encode a)

end Database

/-- The databases of a store. -/
structure Databases where
  /-- blocks -/
  blocks : Database := ∅
  /-- tree nodes -/
  nodes : Database := ∅
  /-- unspent outputs of the best chain -/
  coins : Database := ∅
  /-- journals of the blocks of the best chain -/
  journals : Database := ∅
  /-- key sets after the blocks that changed them -/
  keys : Database := ∅
  /-- the best tip -/
  properties : Database := ∅

/-- What a key of `OutPoint.keyBytes` refers to. -/
def OutPoint.ofKeyBytes (key : Bytes) : Except DatabaseError OutPoint :=
  if h : key.length = 36 then
    .ok ⟨⟨⟨(key.take 32).toArray, by simp [h]⟩⟩, .ofNat (Bytes.toNatBE (key.drop 32))⟩
  else .error (.store (.corrupt s!"utxo key has {key.length} bytes"))

namespace Databases

/-- The key of the best tip. -/
def tipKey : Bytes := Utf8.encode "best_tip".toList

/-! ## Reading -/

/-- The best tip, if there is one. -/
def tip (d : Databases) : Except DatabaseError (Option Digest) :=
  match d.properties[tipKey]? with
  | none => .ok none
  | some bytes =>
    match Digest.ofBytes? bytes with
    | some hash => .ok (some hash)
    | none => .error (.store (.corrupt "best tip is not 32 bytes"))

/-- A block. -/
def block? (d : Databases) (hash : Digest) : Except DatabaseError (Option Block) :=
  d.blocks.get? Wire.block hash.toList

/-- A node. -/
def node? (d : Databases) (hash : Digest) : Except DatabaseError (Option NodeRecord) :=
  d.nodes.get? Wire.node hash.toList

/-- All nodes, in the order of their keys. -/
def allNodes (d : Databases) : Except DatabaseError (List NodeRecord) :=
  d.nodes.toList.mapM fun e => Database.read Wire.node e.2

/-- An unspent output. -/
def coin? (d : Databases) (o : OutPoint) : Except DatabaseError (Option Coin) :=
  d.coins.get? Wire.coin o.keyBytes

/-- An unspent output with what it belongs to. -/
def readCoin (e : Bytes × Bytes) : Except DatabaseError (OutPoint × Coin) := do
  let o ← OutPoint.ofKeyBytes e.1
  let coin ← Database.read Wire.coin e.2
  return (o, coin)

/-- All unspent outputs. -/
def allCoins (d : Databases) : Except DatabaseError CoinMap :=
  (d.coins.toList.mapM readCoin).map fun entries => .ofList entries

/-- The journal of a block. -/
def journal? (d : Databases) (hash : Digest) : Except DatabaseError (Option Journal) :=
  d.journals.get? (Codec.list Wire.spentCoin) hash.toList

/-- The key sets after a block. -/
def keys? (d : Databases) (hash : Digest) : Except DatabaseError (Option KeySets) :=
  d.keys.get? Wire.keySets hash.toList

/-! ## Writing -/

/-- Puts a node under its digest. -/
def putNode (d : Databases) (node : NodeRecord) : Databases :=
  { d with nodes := d.nodes.put Wire.node node.hash.toList node }

/-- One write, which may fail. -/
def write (d : Databases) : Write → Except DatabaseError Databases
  | .putBlock block => .ok { d with blocks := d.blocks.put Wire.block block.hash.toList block }
  | .putNode node => .ok (d.putNode node)
  | .setStatus hash status => do
    match ← d.node? hash with
    | some node => return d.putNode { node with status }
    | none => throw (.store (.nodeNotFound hash))
  | .putCoin o coin => .ok { d with coins := d.coins.put Wire.coin o.keyBytes coin }
  | .deleteCoin o => .ok { d with coins := d.coins.erase o.keyBytes }
  | .putJournal hash spent =>
    .ok { d with journals := d.journals.put (Codec.list Wire.spentCoin) hash.toList spent }
  | .deleteJournal hash => .ok { d with journals := d.journals.erase hash.toList }
  | .putKeys hash keys => .ok { d with keys := d.keys.put Wire.keySets hash.toList keys }
  | .setTip hash => .ok { d with properties := d.properties.insert tipKey hash.toList }

/-- A batch, one write after another, up to the first that fails. -/
def writeAll (d : Databases) : Batch → Except DatabaseError Databases
  | [] => .ok d
  | w :: batch => do
    let d ← d.write w
    d.writeAll batch

/-- Commits a batch in a transaction that is given up at the first write that fails. -/
def commit (d : Databases) (batch : Batch) : Except DatabaseError Unit × Databases :=
  match d.writeAll batch with
  | .ok d' => (.ok (), d')
  | .error e => (.error e, d)

end Databases

/-! ## Calls -/

/-- What is asked of a store. -/
inductive StoreCall where
  /-- commit a batch -/
  | commit (batch : Batch)
  /-- leave the store, and open it again where it outlives that -/
  | reopen

namespace StoreCall

/-- Makes calls in order, of a store that commits and is opened again in some way. The results are
those of the commits. There are none if the store cannot be opened again. -/
def performAll {σ ε : Type} (commit : σ → Batch → Except ε Unit × σ) (open? : σ → Option σ)
    (s : σ) : List StoreCall → Option (List (Except ε Unit) × σ)
  | [] => some ([], s)
  | .commit batch :: calls =>
    let (result, s) := commit s batch
    (performAll commit open? s calls).map fun (results, s) => (result :: results, s)
  | .reopen :: calls => do
    let s ← open? s
    performAll commit open? s calls

/-- All that is to be written. -/
def writes : List StoreCall → Batch
  | [] => []
  | .commit batch :: calls => batch ++ writes calls
  | .reopen :: calls => writes calls

end StoreCall

/-- A persistent store is opened again from its file. -/
def PersistentStore.reopen? (s : PersistentStore) : Option PersistentStore := ofImage? s.image

end PermissionedLedger
