import PermissionedLedger.Store.Tables

/-!
# Stores

A store answers from its tables and commits batches, wholly or not at all.

* `MemoryStore` looks for a write that cannot succeed before it touches anything.
* `PersistentStore` applies the writes one by one to a copy, and gives the copy up
  at the first write that fails.

Only a status for an unknown node can fail. A store may refuse commits for reasons
of its own; `LawfulChainStore` says what a commit that succeeds or fails leaves
behind, and nothing about when it fails.
-/

namespace PermissionedLedger

/-- Why a store cannot do what is asked. -/
inductive StoreError where
  /-- a status was to be set for a node that is not stored -/
  | nodeNotFound (hash : Digest)
  /-- a stored value is not what it should be -/
  | corrupt (what : String)
  deriving DecidableEq

/-- The wording of a store error. -/
def StoreError.message : StoreError → String
  | .nodeNotFound hash => s!"Chain node not found: {hash.text}"
  | .corrupt what => s!"Stored value is corrupt: {what}"

/-- A place where a chain is kept. -/
class ChainStore (σ : Type) where
  /-- what is stored -/
  tables : σ → Tables
  /-- commits a batch; the result is that of the commit, and the store afterwards -/
  commit : σ → Batch → Except StoreError Unit × σ

/-- A commit that succeeds has the effect of its writes in order; one that fails has none. -/
class LawfulChainStore (σ : Type) [ChainStore σ] : Prop where
  /-- after success -/
  tables_of_ok : ∀ (s s' : σ) (batch : Batch), ChainStore.commit s batch = (.ok (), s') →
    ChainStore.tables s' = (ChainStore.tables s).writeAll batch
  /-- after failure -/
  tables_of_error : ∀ (s s' : σ) (batch : Batch) (e : StoreError),
    ChainStore.commit s batch = (.error e, s') → ChainStore.tables s' = ChainStore.tables s

/-! ## Checking first -/

/-- The first write of a batch that sets the status of a node neither stored nor put earlier in
the batch. -/
def Tables.firstUnknown? (t : Tables) : (earlier : List Digest) → Batch → Option Digest
  | _, [] => none
  | earlier, .putNode node :: batch => t.firstUnknown? (node.hash :: earlier) batch
  | earlier, .setStatus hash _ :: batch =>
    if hash ∈ earlier ∨ hash ∈ t.nodes then t.firstUnknown? earlier batch else some hash
  | earlier, _ :: batch => t.firstUnknown? earlier batch

/-- A store held in memory. -/
structure MemoryStore where
  /-- what is stored -/
  tables : Tables := {}
  deriving Inhabited

/-- Commits a batch if no write of it can fail. -/
def MemoryStore.commit (s : MemoryStore) (batch : Batch) : Except StoreError Unit × MemoryStore :=
  match s.tables.firstUnknown? [] batch with
  | some hash => (.error (.nodeNotFound hash), s)
  | none => (.ok (), ⟨s.tables.writeAll batch⟩)

instance : ChainStore MemoryStore := ⟨MemoryStore.tables, MemoryStore.commit⟩

/-! ## One by one -/

/-- One write, which may fail. -/
def Tables.tryWrite (t : Tables) (w : Write) : Except StoreError Tables :=
  match w with
  | .setStatus hash _ => if hash ∈ t.nodes then .ok (t.write w) else .error (.nodeNotFound hash)
  | _ => .ok (t.write w)

/-- A batch, one write after another, up to the first that fails. -/
def Tables.tryWriteAll : Tables → Batch → Except StoreError Tables
  | t, [] => .ok t
  | t, w :: batch =>
    match t.tryWrite w with
    | .ok next => next.tryWriteAll batch
    | .error e => .error e

/-- A store that outlives the process that opened it. -/
structure PersistentStore where
  /-- what is stored -/
  tables : Tables := {}
  deriving Inhabited

/-- Commits a batch in a transaction that is given up at the first write that fails. -/
def PersistentStore.commit (s : PersistentStore) (batch : Batch) :
    Except StoreError Unit × PersistentStore :=
  match s.tables.tryWriteAll batch with
  | .ok tables => (.ok (), ⟨tables⟩)
  | .error e => (.error e, s)

instance : ChainStore PersistentStore := ⟨PersistentStore.tables, PersistentStore.commit⟩

end PermissionedLedger
