import PermissionedLedger.Chain.Tree
import PermissionedLedger.Rules.Standalone

/-!
# The place of a block in the tree

The checks that need the ancestors of a block: its height, its target, its time,
its signer, and the checkpoints.

A checkpoint is *passed* once the main chain contains its block. From then on no
block may be earlier than it, or lower, or easier than difficulty can have become
since (`Block.checkBounds` needs no parent and looks at time and difficulty;
`Block.checkPlacement` looks at the rest).

Where there is a signer policy, a key may sign only so many blocks in a row and
only so large a share of the latest ones (`SignerPolicy.check`).
-/

namespace PermissionedLedger

-- checks are decided by the core library, whatever else is imported
attribute [local instance (high)] instDecidableEqBool

namespace BlockTree

/-- The latest checkpoint that the main chain has passed. -/
def latestCheckpoint? (t : BlockTree) (params : Params) : Option Nat :=
  params.checkpoints.reverse.findSome? fun c =>
    (t.mainAt? c.height).filter fun id => (t.node? id).any (·.hash = c.hash)

end BlockTree

/-- The limits on a single signer, for a block by `key` at a height whose ancestors were signed by
`signers`, the parent first. They apply once there are as many blocks as are examined. -/
def SignerPolicy.check (policy : SignerPolicy) (signers : List PublicKey) (key : PublicKey)
    (height : Nat) : Except PlacementFault Unit :=
  if height < policy.window.toNat then .ok ()
  else do
    let recent := signers.take (policy.window.toNat - 1)
    let trailing := 1 + (recent.takeWhile (· = key)).length
    let signed := 1 + recent.countP (· = key)
    require (trailing ≤ policy.maxTrailing.toNat)
      (.tooManyInRow key trailing policy.maxTrailing.toNat)
    require (UInt64.ofNat signed * 100 ≤ policy.window * policy.maxSharePercent)
      (.tooLargeShare key signed policy.window.toNat policy.maxSharePercent.toNat)

namespace Block

/-- The block is neither earlier than the latest checkpoint, nor easier than difficulty can have
become since; the latter may be waived together with the proof of work. -/
def checkBounds (b : Block) (params : Params) (t : BlockTree) (flags : AddFlags) :
    Except PlacementFault Unit :=
  match (t.latestCheckpoint? params).bind t.node? with
  | none => .ok ()
  | some checkpoint => do
    let pinned := checkpoint.header
    require (pinned.time ≤ b.header.time) (.beforeCheckpointTime b.header.time pinned.time)
    if flags.skipWork then return ()
    let elapsed := b.header.time.secondsSince pinned.time
    let reachable := params.pow.easiest pinned.bits elapsed
    let target (bits : UInt32) := (Work.target? bits).getD params.pow.limit
    require (target b.header.bits ≤ target reachable)
      (.easierThanReachable b.header.bits reachable)

/-- The coinbase repeats the height. -/
def checkHeight (b : Block) (height : Nat) : Except PlacementFault Unit :=
  match b.coinbaseHeight? with
  | some encoded => require (encoded = height) (.heightMismatch encoded height)
  | none => .error (.heightMissing height)

/-- The target is the one required, and the block is later than the median of its ancestors. -/
def checkHeader (b : Block) (params : Params) (t : BlockTree) (parent : Nat) :
    Except PlacementFault Unit := do
  let required := t.nextBits params.pow parent
  require (b.header.bits = required) (.bitsMismatch b.header.bits required)
  let median := t.medianTime parent params.medianTimeBlocks
  require (median < b.header.time) (.notAfterMedian b.header.time median)

/-- The block is the one that a checkpoint pins at its height, if any does, and is not below the
latest checkpoint. -/
def checkCheckpoints (b : Block) (params : Params) (t : BlockTree) (height : Nat) :
    Except PlacementFault Unit := do
  match params.checkpointAt? height with
  | some pinned => require (pinned.hash = b.hash) (.notCheckpoint height b.hash pinned.hash)
  | none => pure ()
  match t.latestCheckpoint? params with
  | some id => require (t.height id ≤ height) (.forksBelowCheckpoint height (t.height id))
  | none => pure ()

/-- The signer is authorized by the keys in force at the parent, and within the limits of the
signer policy. -/
def checkSigner (b : Block) (params : Params) (t : BlockTree) (parent height : Nat) :
    Except PlacementFault Unit := do
  let key := b.header.validator
  require ((t.node? parent).any (·.keys.contains .validating key) = true) (.unauthorized key)
  match params.signerPolicy with
  | some policy =>
    policy.check ((t.lineageNodes parent).map (·.header.validator)) key height
  | none => pure ()

/-- The rules for a block under a parent. The result is the height of the block. -/
def checkPlacement (b : Block) (params : Params) (t : BlockTree) (parent : Nat)
    (flags : AddFlags) : Except PlacementFault Nat := do
  let height := t.height parent + 1
  b.checkHeight height
  if flags.fastAdd then
    b.checkCheckpoints params t height
  else
    b.checkHeader params t parent
    b.checkCheckpoints params t height
    requireAll (fun tx => require (tx.isFinal height b.header.time = true)
      (.notFinal tx.hash height)) b.transactions
    b.checkSigner params t parent height
  return height

end Block

end PermissionedLedger
