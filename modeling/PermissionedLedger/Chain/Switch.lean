import PermissionedLedger.Chain.Tree
import PermissionedLedger.Rules.Spending

/-!
# Switching branches

Moving the tip of the main chain to another branch undoes the blocks after the
fork, tip first, and connects those of the other branch in ascending order. All of
it happens in a view of the unspent outputs, and comes to a list of writes.

* `detach` undoes blocks with the journals that were stored when they were
  connected, and drops those journals.
* `attach` checks blocks and connects them. A block that has been on the main
  chain before is not checked again. Where a block breaks a rule, the result names
  its node.
-/

namespace PermissionedLedger

namespace BlockTree

/-- The nodes at positions, together with these. -/
def located (t : BlockTree) (ids : List Nat) : List (Nat × TreeNode) :=
  ids.filterMap fun id => (t.node? id).map fun n => (id, n)

end BlockTree

namespace Switch

/-- The stored block of a node. -/
def storedBlock (tables : Tables) (node : TreeNode) : Except Inconsistency Block :=
  match tables.blocks[node.hash]? with
  | some block => .ok block
  | none => .error (.blockNotStored node.hash)

/-- The stored journal of a node of the main chain. -/
def storedJournal (tables : Tables) (node : TreeNode) : Except Inconsistency Journal :=
  match tables.journals[node.hash]? with
  | some journal => .ok journal
  | none => .error (.journalMissing node.hash)

/-- Undoes the blocks of nodes in the given order. -/
def detach (tables : Tables) :
    CoinView → List TreeNode → Except Inconsistency (CoinView × Batch)
  | view, [] => .ok (view, [])
  | view, node :: nodes => do
    let block ← storedBlock tables node
    let journal ← storedJournal tables node
    match view.disconnect block journal with
    | (.error cause, _) => .error cause
    | (.ok (), view) =>
      let (view, writes) ← detach tables view nodes
      return (view, .deleteJournal node.hash :: writes)

/-- What comes of attaching a branch. -/
inductive Attached where
  /-- all blocks are connected; the view after them, and their journals and statuses -/
  | complete (view : CoinView) (writes : Batch)
  /-- the block of a node breaks a rule -/
  | broken (id : Nat) (violation : Violation)

/-- What a node that is attached owes to the store, besides unspent outputs. -/
def attachWrites (node : TreeNode) (journal : Journal) : Batch :=
  .putJournal node.hash journal ::
    if node.status = .valid then [] else [.setStatus node.hash .valid]

/-- The block of a node; that of the last node is not stored yet. -/
def blockOf (tables : Tables) (newest : Block) (node : TreeNode) : Except Inconsistency Block :=
  if node.hash = newest.hash then .ok newest else storedBlock tables node

/-- Connects the block of a node. One that was on the main chain before is trusted, one that is
invalid is refused. -/
def connectNode (params : Params) (verify : Verifier) (flags : AddFlags) (view : CoinView)
    (node : TreeNode) (block : Block) : Except Failure (CoinView × Journal) :=
  match node.status with
  | .invalid => .error (.rule (.placement (.knownInvalid node.hash)))
  | .valid => block.connect node.height params view verify { flags with fastAdd := true }
  | .unvalidated => block.connect node.height params view verify flags

/-- Connects the blocks of nodes in the given order, up to the first that breaks a rule. -/
def attach (tables : Tables) (params : Params) (verify : Verifier) (flags : AddFlags)
    (newest : Block) : CoinView → List (Nat × TreeNode) → Except EngineFault Attached
  | view, [] => .ok (.complete view [])
  | view, (id, node) :: nodes => do
    let block ← (blockOf tables newest node).mapError .inconsistent
    match connectNode params verify flags view node block with
    | .error (.rule violation) => return .broken id violation
    | .error (.engine fault) => .error fault
    | .ok (view, journal) =>
      match ← attach tables params verify flags newest view nodes with
      | .complete view writes => return .complete view (attachWrites node journal ++ writes)
      | broken => return broken

end Switch

end PermissionedLedger
