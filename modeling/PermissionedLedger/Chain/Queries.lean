import PermissionedLedger.Chain.Process
import PermissionedLedger.Rules.Placement

/-!
# Questions to a chain
-/

namespace PermissionedLedger.Chain

variable {σ : Type} [ChainStore σ]

/-- Whether a block waits for its parent. -/
def hasOrphan (c : Chain σ) (hash : Digest) : Bool := c.orphans.contains hash

/-- The block whose parent is missing, of those that lead to an orphan. -/
def orphanRoot (c : Chain σ) (hash : Digest) : Digest := c.orphans.rootOf hash

/-- How far a block has been validated. -/
def status? (c : Chain σ) (hash : Digest) : Option BlockStatus :=
  (c.tree.findNode? hash).map (·.status)

/-- A stored block, on any branch. -/
def block? (c : Chain σ) (hash : Digest) : Option Block := (ChainStore.tables c.store).blocks[hash]?

/-- The block of the main chain at a height. -/
def mainHash? (c : Chain σ) (height : Nat) : Option Digest :=
  ((c.tree.mainAt? height).bind c.tree.node?).map (·.hash)

/-- The latest checkpoint that the main chain has passed. -/
def checkpoint? (c : Chain σ) : Option Checkpoint :=
  ((c.tree.latestCheckpoint? c.params).bind c.tree.node?).map fun n => ⟨n.height, n.hash⟩

/-- The compact target that the next block of the main chain has to carry. -/
def nextBits (c : Chain σ) : Except Inconsistency UInt32 :=
  match c.tree.tip? with
  | some tip => .ok (c.tree.nextBits c.params.pow tip)
  | none => .error .noTip

/-- An unspent output of the main chain. -/
def coin? (c : Chain σ) (o : OutPoint) : Option Coin := (ChainStore.tables c.store).coins[o]?

/-- The height of the main chain, with several of its unspent outputs. -/
def coins (c : Chain σ) (os : List OutPoint) : Nat × List (Option Coin) :=
  (c.best.height, os.map c.coin?)

end PermissionedLedger.Chain
