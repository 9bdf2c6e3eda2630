import PermissionedLedger.Chain.Switch
import PermissionedLedger.Governance.Authority
import PermissionedLedger.Rules.Placement

/-!
# Plans

Adding a block under a known parent is first planned, without changing anything. A
plan is a batch for the store together with the tree and the best state that hold
once it is committed; either all of it takes effect or nothing.

A block becomes the tip if it extends the tip, or if its branch is preferred to the
main chain. It then has to pass the checks against the unspent outputs, and so has
every block of its branch that never did. If one does not, that block and all that
descend from it are marked as invalid, and the main chain stays. Any other block is
only stored.
-/

namespace PermissionedLedger

open Time (Instant)

/-- The tip of the main chain at one moment. -/
structure BestState where
  /-- digest of the block -/
  hash : Digest
  /-- its height -/
  height : Nat
  /-- its compact target -/
  bits : UInt32
  /-- its encoded size -/
  blockSize : Nat
  /-- the number of its transactions -/
  transactionCount : Nat
  /-- total work of the main chain -/
  work : Nat
  /-- its time -/
  time : Instant
  /-- median of its time and those of its closest ancestors -/
  medianTime : Instant
  /-- keys in force after it -/
  keys : KeySets

/-- The best state whose tip is the node at a position. -/
def BestState.ofTip (tree : BlockTree) (params : Params) (id : Nat) (node : TreeNode)
    (block : Block) : BestState where
  hash := node.hash
  height := node.height
  bits := node.header.bits
  blockSize := block.size
  transactionCount := block.transactions.length
  work := node.work
  time := node.header.time
  medianTime := tree.medianTime id params.medianTimeBlocks
  keys := node.keys

/-- A change of the chain that takes effect as a whole. -/
structure Plan where
  /-- what is committed -/
  batch : Batch
  /-- the tree afterwards -/
  tree : BlockTree
  /-- the best state afterwards -/
  best : BestState
  /-- whether the block is the tip afterwards, or the rule for which it was not accepted -/
  verdict : Except Violation Bool

namespace Plan

/-- Everything that stays the same while a plan is made. -/
structure Setting where
  /-- the network -/
  params : Params
  /-- what is a valid signature -/
  verify : Verifier
  /-- what is stored -/
  tables : Tables

/-- A switch to a branch is given up at a node that breaks a rule: it is marked as invalid, and so
is all that descends from it. -/
def reject (tree : BlockTree) (best : BestState) (pending : Batch) (failed : Nat)
    (violation : Violation) : Plan :=
  let invalid := tree.descendants failed
  { batch := pending ++ (tree.located invalid).map fun (_, n) => .setStatus n.hash .invalid
    tree := tree.setStatuses invalid .invalid
    best
    verdict := .error violation }

/-- The main chain moves from the tip to the node at a position, whose block is the newest.
`pending` is what the store is owed for it. -/
def reorganize (s : Setting) (tree : BlockTree) (best : BestState) (tip fork id : Nat)
    (node : TreeNode) (block : Block) (flags : AddFlags) (pending : Batch) :
    Except EngineFault Plan := do
  let path := tree.pathFrom fork id
  require (path ≠ []) (.inconsistent .nothingToAttach)
  let undone := (tree.located (tree.pathFrom fork tip)).reverse.map (·.2)
  let (view, dropped) ← (Switch.detach s.tables ⟨s.tables.coins, ∅⟩ undone).mapError .inconsistent
  match ← Switch.attach s.tables s.params s.verify flags block view (tree.located path) with
  | .broken failed violation => return reject tree best pending failed violation
  | .complete view attached =>
    let tree := (tree.setStatuses path .valid).setTip id
    return {
      batch := pending ++ dropped ++ attached ++ view.writes ++ [.setTip node.hash]
      tree
      best := .ofTip tree s.params id node block
      verdict := .ok true }

/-- The fork of a branch lies below the latest checkpoint. -/
def checkFork (params : Params) (tree : BlockTree) (fork : Nat) (hash : Digest) :
    Except PlacementFault Unit :=
  match tree.latestCheckpoint? params with
  | some checkpoint =>
    require (tree.height checkpoint ≤ tree.height fork)
      (.switchesBelowCheckpoint hash (tree.height fork) (tree.height checkpoint))
  | none => .ok ()

/-- Decides where the newest node of the tree goes. -/
def select (s : Setting) (tree : BlockTree) (best : BestState) (id : Nat) (node : TreeNode)
    (block : Block) (flags : AddFlags) (pending : Batch) : Except EngineFault Plan :=
  match tree.tip?.bind fun tip => (tree.node? tip).map fun n => (tip, n) with
  | none => .error (.inconsistent .noTip)
  | some (tip, tipNode) =>
    if node.parent ≠ some tip ∧ node.isBetterThan tipNode = false then
      .ok ⟨pending, tree, best, .ok false⟩
    else
      match tree.findFork? tip id with
      | none => .error (.inconsistent .noCommonAncestor)
      | some fork =>
        match checkFork s.params tree fork node.hash with
        | .error fault => .ok ⟨pending, tree, best, .error (.placement fault)⟩
        | .ok () => reorganize s tree best tip fork id node block flags pending

/-- What the store is owed for a new node: its block, its record, and the keys in force after it
where they differ from those of the parent. -/
def pending (block : Block) (node : TreeNode) (parentKeys : KeySets) : Batch :=
  [.putBlock block, .putNode node.toRecord] ++
    if node.keys = parentKeys then [] else [.putKeys node.hash node.keys]

/-- The keys in force after a block, if its place under a parent is allowed. -/
def keysAfter (s : Setting) (tree : BlockTree) (parent : Nat) (parentNode : TreeNode)
    (block : Block) (flags : AddFlags) : Except Violation KeySets := do
  require (parentNode.status.isUsable = true)
    (.placement (.extendsInvalid block.hash parentNode.hash))
  let _ ← (block.checkPlacement s.params tree parent flags).mapError .placement
  parentNode.keys.applyBlock s.params (if flags.fastAdd then none else some s.verify) block

/-- Plans the addition of a block. -/
def ofBlock (s : Setting) (tree : BlockTree) (best : BestState) (block : Block)
    (flags : AddFlags) : Except Failure Plan := do
  let hash := block.hash
  match (tree.find? block.header.previous).bind fun p => (tree.node? p).map fun n => (p, n) with
  | none => .error (.inconsistent (.parentNotIndexed hash))
  | some (parent, parentNode) =>
    let keys ← (keysAfter s tree parent parentNode block flags).mapError .rule
    let node := tree.child block.header (some parent) .unvalidated keys
    let tree' := tree.insert block.header (some parent) .unvalidated keys
    (select s tree' best tree.size node block flags (pending block node parentNode.keys)).mapError
      .engine

end Plan

end PermissionedLedger
