import PermissionedLedger.Governance.KeySets
import PermissionedLedger.Time.Instant
import PermissionedLedger.Transaction.Basic
import PermissionedLedger.Work.Schedule

/-!
# Network parameters

Everything that the nodes of one network have to agree on: limits, difficulty,
money, the keys in force at genesis, and the blocks pinned by checkpoints.

The subsidy of a block halves at fixed intervals and ends after sixty-three of
them (`Params.subsidy`). Checkpoints are in ascending order of height
(`Params.ascending`), and those that are added are put in their places
(`Params.withCheckpoints`).
-/

namespace PermissionedLedger

open Time (Instant)

-- powers are those of the core library, whatever else is imported
attribute [local instance (high)] instPowNat

/-- The networks a node can run on. -/
inductive Network where
  /-- production -/
  | mainnet
  /-- public testing -/
  | testnet
  /-- local testing, with trivial work and well-known keys -/
  | regtest
  deriving DecidableEq

namespace Network

instance : Inhabited Network := ⟨.testnet⟩

/-- All networks. -/
def all : List Network := [.mainnet, .testnet, .regtest]

/-- The network as it is written. -/
def name : Network → String
  | .mainnet => "mainnet"
  | .testnet => "testnet"
  | .regtest => "regtest"

/-- The network of a name in small letters. -/
def ofName? (s : String) : Option Network := all.find? (·.name = s)

/-- The network of a name in letters of any case, or what is wrong with the name. -/
def ofText (s : String) : Except String Network :=
  let small := s.map Char.toLower
  match ofName? small with
  | some n => .ok n
  | none => .error s!"unknown network: {small}"

end Network

/-- A block pinned at a height. -/
structure Checkpoint where
  /-- pinned height -/
  height : Nat
  /-- digest required there -/
  hash : Digest
  deriving DecidableEq

/-- What is sorted by a number is in ascending order of it. -/
theorem pairwise_mergeSort_by {α : Type} (f : α → Nat) (l : List α) :
    (l.mergeSort fun a b => f a ≤ f b).Pairwise fun a b => f a ≤ f b := by
  have htrans : ∀ a b c : α, decide (f a ≤ f b) = true → decide (f b ≤ f c) = true →
      decide (f a ≤ f c) = true := by
    simp only [decide_eq_true_eq]
    omega
  have htotal : ∀ a b : α, (decide (f a ≤ f b) || decide (f b ≤ f a)) = true := by
    simp only [Bool.or_eq_true, decide_eq_true_eq]
    omega
  exact (List.pairwise_mergeSort htrans htotal l).imp fun h => of_decide_eq_true h

/-- How much of the recent chain one key may sign. The products that are compared are 64-bit
words. -/
structure SignerPolicy where
  /-- number of latest blocks examined, the candidate included -/
  window : UInt64
  /-- the share of them one key may have signed, in percent -/
  maxSharePercent : UInt64
  /-- the number of blocks in a row one key may sign -/
  maxTrailing : UInt64
  deriving DecidableEq

/-- The constants of a network. -/
structure Params where
  /-- the network described -/
  network : Network
  /-- second of the genesis block -/
  genesisTimestamp : Int
  /-- difficulty -/
  pow : Work.Schedule
  /-- blocks until a coinbase output can be spent -/
  coinbaseMaturity : Nat
  /-- subsidy of the first block -/
  baseSubsidy : Amount
  /-- blocks between halvings of the subsidy -/
  halvingInterval : Nat
  /-- largest size of an encoded block -/
  maxBlockSize : Nat
  /-- largest number of transactions in a block -/
  maxBlockTransactions : Nat
  /-- largest size of an encoded transaction -/
  maxTxSize : Nat
  /-- most signature checks in a block -/
  maxBlockSigOps : Nat
  /-- most signature checks in a transaction -/
  maxTxSigOps : Nat
  /-- largest fee of a transaction -/
  maxTxFee : Amount
  /-- largest total of the fees of a block -/
  maxBlockFee : Amount
  /-- oldest block version accepted -/
  minBlockVersion : UInt32
  /-- different authorized signatures that a governance transaction needs -/
  signatureThreshold : Nat
  /-- limits on single signers, where there are any -/
  signerPolicy : Option SignerPolicy
  /-- keys in force at genesis -/
  genesisKeys : KeySets
  /-- the blocks that are pinned -/
  checkpoints : List Checkpoint
  /-- checkpoints stand in ascending order of height -/
  ascending : checkpoints.Pairwise (·.height ≤ ·.height)
  /-- seconds that a block may be ahead of the clock -/
  maxTimeOffset : Int
  /-- number of blocks whose median time bounds that of the next -/
  medianTimeBlocks : Nat

namespace Params

/-- Adds checkpoints one after another, each in place of one at the same height, and puts all in
order. -/
def withCheckpoints (p : Params) (extra : List Checkpoint) : Params :=
  { p with
    checkpoints := (extra.foldl (fun cs c => cs.filter (·.height ≠ c.height) ++ [c])
      p.checkpoints).mergeSort fun a b => a.height ≤ b.height
    ascending := pairwise_mergeSort_by Checkpoint.height _ }

/-- The checkpoint at a height. -/
def checkpointAt? (p : Params) (height : Nat) : Option Checkpoint :=
  p.checkpoints.find? (·.height = height)

/-- The number of halvings after which there is no subsidy. -/
def lastHalving : Nat := 63

/-- The coins that a block at a height may create. -/
def subsidy (p : Params) (height : Nat) : Amount :=
  let halvings := height / max p.halvingInterval 1
  if lastHalving ≤ halvings then 0 else Int64.ofInt (p.baseSubsidy.toInt / 2 ^ halvings)

/-- The time of the genesis block; the start of Unix time if the constant is out of range. -/
def genesisTime (p : Params) : Instant := (Instant.ofUnix? p.genesisTimestamp 0).getD .epoch

end Params

end PermissionedLedger
