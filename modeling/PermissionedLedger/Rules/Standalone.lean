import PermissionedLedger.Governance.Shape
import PermissionedLedger.Network.Params
import PermissionedLedger.Rules.Finality
import PermissionedLedger.Wire.Ledger

/-!
# Blocks and transactions by themselves

The checks that need nothing but the block, the parameters of the network and the
time: sizes, values, the shape of the coinbase and of locks, the work and the
signature of the header, and that header and transactions belong together.
-/

namespace PermissionedLedger

open Time (Instant)

-- sums start from the zero of the core library, whatever else is imported
attribute [local instance (high)] Zero.ofOfNat0

/-- What a caller waives when a block is added. -/
structure AddFlags where
  /-- the block is known to be good: only its height, the checkpoints and the existence of what it
  spends are checked -/
  fastAdd : Bool := false
  /-- the digest need not meet the target -/
  skipWork : Bool := false
  deriving DecidableEq, Inhabited

namespace Lock

/-- A multisig lock asks for at least one and at most all of its keys, which are different and
not too many. -/
def check : Lock → Except TransactionFault Unit
  | .multiSig required keys => do
    require (required ≠ 0 ∧ required.toNat ≤ keys.length ∧ keys.length ≤ maxMultisigKeys)
      (.multisigThreshold required.toNat keys.length)
    require keys.Nodup .multisigRepeatsKey
  | _ => .ok ()

end Lock

namespace Transaction

/-- Every value is in range, as is their sum with what came before, and every lock is well
formed. -/
def checkOutputs : (before : Int) → List TxOutput → Except TransactionFault Unit
  | _, [] => .ok ()
  | before, out :: outs => do
    require (0 ≤ out.value.toInt) (.negativeOutput out.value)
    require (out.value.toInt ≤ maxAmount.toInt) (.outputTooLarge out.value)
    require (before + out.value.toInt ≤ maxAmount.toInt) .outputTotalTooLarge
    out.lock.check
    checkOutputs (before + out.value.toInt) outs

/-- No output is spent twice. -/
def checkDistinctInputs (tx : Transaction) : Except TransactionFault Unit :=
  match firstRepeat? [] (tx.inputs.map (·.previous)) with
  | some previous => .error (.repeatedInput previous)
  | none => .ok ()

/-- A coinbase carries data of a sensible length and has no part in governance. -/
def checkCoinbase (tx : Transaction) : Except TransactionFault Unit :=
  match tx.inputs.head?.map TxInput.unlock with
  | some (.coinbase data) => do
    require (minCoinbaseData ≤ data.length ∧ data.length ≤ maxCoinbaseData)
      (.coinbaseDataLength data.length)
    require (tx.hasGovernanceOutputs = false) .coinbaseGovernance
  | _ => .error .signedCoinbase

/-- An ordinary input refers to something and carries signatures. -/
def checkOrdinaryInput (input : TxInput) : Except TransactionFault Unit := do
  require (input.previous.isNull = false) .nullInput
  require (input.unlock.isCoinbase = false) (.coinbaseDataOnInput input.previous)

/-- What distinguishes a coinbase from an ordinary transaction. -/
def checkKind (tx : Transaction) : Except Violation Unit :=
  if tx.isCoinbase then tx.checkCoinbase.mapError .transaction
  else do
    (requireAll checkOrdinaryInput tx.inputs).mapError .transaction
    tx.checkGovernance.mapError (.governance tx.hash)

/-- Inputs and outputs exist, the size is within the limit, and so are the values. -/
def checkParts (tx : Transaction) (params : Params) : Except TransactionFault Unit := do
  require (tx.inputs ≠ []) .noInputs
  require (tx.outputs ≠ []) .noOutputs
  require (tx.size ≤ params.maxTxSize) (.tooBig tx.size params.maxTxSize)
  checkOutputs 0 tx.outputs
  tx.checkDistinctInputs

/-- The rules for a transaction by itself. -/
def check (params : Params) (tx : Transaction) : Except Violation Unit := do
  (tx.checkParts params).mapError .transaction
  tx.checkKind
  require (tx.sigOps ≤ params.maxTxSigOps)
    (.transaction (.tooManySigOps tx.sigOps params.maxTxSigOps))

end Transaction

namespace Header

/-- The target is permitted, and the digest meets it unless that is waived. -/
def checkWork (h : Header) (params : Params) (flags : AddFlags) : Except BlockFault Unit :=
  if flags.skipWork then
    require ((Work.permitted? h.bits params.pow.limit).isSome = true) (.targetOutOfRange h.bits)
  else (Work.check h.hash h.bits params.pow.limit).mapError .work

/-- The rules for a header by itself. They are meant for clocks that are further from the last instant
than `maxTimeOffset`. For a later clock there is no instant at that distance, and the last one is the
limit on the time. -/
def check (h : Header) (params : Params) (now : Instant) (verify : Verifier) (flags : AddFlags) :
    Except BlockFault Unit := do
  require (params.minBlockVersion ≤ h.version) (.versionTooOld h.version params.minBlockVersion)
  h.checkWork params flags
  require (h.time.nanos = 0) (.subSecondTime h.time)
  let limit := now.addSeconds params.maxTimeOffset
  require (h.time ≤ limit) (.timeTooNew h.time limit)
  require (verify h.validator h.hash.toList h.signature = true) (.badSignature h.hash h.validator)

end Header

namespace Block

/-- The number of transactions and the sizes are within limits, and the declared size is the
actual one. -/
def checkSizes (b : Block) (params : Params) : Except BlockFault Unit := do
  require (b.transactions ≠ []) .noTransactions
  require (b.transactions.length ≤ params.maxBlockTransactions)
    (.tooManyTransactions b.transactions.length params.maxBlockTransactions)
  require (b.size ≤ params.maxBlockSize) (.tooBig b.size params.maxBlockSize)
  require (b.header.size.toNat = b.transactionsSize)
    (.sizeMismatch b.header.size.toNat b.transactionsSize)

/-- The first transaction is a coinbase and no other is. -/
def checkCoinbases (b : Block) : Except BlockFault Unit := do
  require ((b.transactions.head?.map (·.isCoinbase)).getD false = true) .firstNotCoinbase
  match b.transactions.tail.findIdx? (·.isCoinbase) with
  | some index => .error (.secondCoinbase (index + 1))
  | none => .ok ()

/-- The Merkle root is that of the transactions, which are different. -/
def checkContents (b : Block) : Except BlockFault Unit := do
  let root := b.merkleRoot
  require (root = b.header.merkleRoot) (.merkleMismatch b.header.merkleRoot root)
  match firstRepeat? [] (b.transactions.map (·.hash)) with
  | some hash => .error (.repeatedTransaction hash)
  | none => .ok ()

/-- Signature checks are within the limit. -/
def checkSigOps (b : Block) (params : Params) : Except BlockFault Unit :=
  require ((b.transactions.map (·.sigOps)).sum ≤ params.maxBlockSigOps)
    (.tooManySigOps params.maxBlockSigOps)

/-- No lock time that is a second is ahead of the time of the block. -/
def checkTimeLocks (b : Block) : Except BlockFault Unit :=
  requireAll (fun tx =>
    require (lockTimeThreshold ≤ tx.lockTime → tx.isFinal 0 b.header.time = true)
      (.notFinal tx.hash b.header.time)) b.transactions

/-- The rules for a block by itself. -/
def check (b : Block) (params : Params) (now : Instant) (verify : Verifier) (flags : AddFlags) :
    Except Violation Unit := do
  (b.header.check params now verify flags).mapError .block
  (b.checkSizes params).mapError .block
  b.checkCoinbases.mapError .block
  requireAll (Transaction.check params) b.transactions
  b.checkContents.mapError .block
  (b.checkSigOps params).mapError .block
  b.checkTimeLocks.mapError .block

end Block

end PermissionedLedger
