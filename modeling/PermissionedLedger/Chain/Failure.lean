import PermissionedLedger.Network.Params
import PermissionedLedger.Rules.Violation
import PermissionedLedger.Store.ChainStore

/-!
# Failures

Adding a block can fail in three ways: the block breaks a rule, the store refuses a
commit, or what is stored does not fit together. Only the first is the fault of the
block.
-/

namespace PermissionedLedger

/-- How what is stored does not fit together. -/
inductive Inconsistency where
  | unavailable (tx : Digest) (previous : OutPoint) (isSpent : Bool)
  | journalLength (block : Digest) (entries spends : Nat)
  | journalExhausted
  | journalMismatch (entry input : OutPoint)
  | journalMissing (block : Digest)
  | noTip
  | noStoredTip
  | tipWithoutBlock (block : Digest)
  | tipUnknown (block : Digest)
  | parentUnknown (block : Digest)
  | parentNotIndexed (block : Digest)
  | rootWithoutKeys (block : Digest)
  | heightMismatch (height : Nat) (block : Digest)
  | genesisMissing (network : Network) (genesis : Digest)
  | noCommonAncestor
  | blockNotStored (block : Digest)
  | nothingToAttach
  deriving DecidableEq

/-- The wording. -/
def Inconsistency.message : Inconsistency → String
  | unavailable tx previous isSpent =>
    let state := if isSpent then "Spent" else "Missing"
    s!"connecting {tx.brief} spends {previous.text} in state {state}"
  | journalLength block entries spends =>
    s!"spend journal of block {block.brief} has {entries} entries, block spends {spends}"
  | journalExhausted => "spend journal exhausted"
  | journalMismatch entry input =>
    s!"spend journal entry {entry.text} does not match input {input.text}"
  | journalMissing block => s!"main-chain block {block.brief} has no spend journal"
  | noTip => "block index has no tip"
  | noStoredTip => "store has no best tip"
  | tipWithoutBlock block => s!"best tip {block.brief} has no stored block"
  | tipUnknown block => s!"best tip {block.brief} is not a stored block"
  | parentUnknown block => s!"stored block {block.brief} has no known parent"
  | parentNotIndexed block => s!"parent of {block.brief} is not indexed"
  | rootWithoutKeys block => s!"root block {block.brief} has no admin key snapshot"
  | heightMismatch height block =>
    s!"stored height {height} of block {block.brief} does not match its ancestry"
  | genesisMissing network genesis =>
    s!"store does not contain the {network.name} genesis block {genesis.brief}"
  | noCommonAncestor => "branches share no ancestor"
  | blockNotStored block => s!"indexed block {block.brief} is not stored"
  | nothingToAttach => "reorganization with nothing to attach"

/-- What can go wrong through no fault of a block. -/
inductive EngineFault where
  /-- what is stored does not fit together -/
  | inconsistent (cause : Inconsistency)
  /-- the store refused a commit -/
  | store (error : StoreError)
  deriving DecidableEq

/-- The wording. -/
def EngineFault.message : EngineFault → String
  | inconsistent cause => s!"assertion failed: {cause.message}"
  | store error => s!"store error: {error.message}"

/-- Why a block was not added. -/
inductive Failure where
  /-- it breaks a rule -/
  | rule (violation : Violation)
  /-- it could not be processed -/
  | engine (fault : EngineFault)
  deriving DecidableEq

namespace Failure

/-- The failure of not fitting together. -/
abbrev inconsistent (cause : Inconsistency) : Failure := .engine (.inconsistent cause)

/-- The wording. -/
def message : Failure → String
  | rule violation => violation.message
  | engine fault => fault.message

end Failure

end PermissionedLedger
