import PermissionedLedger.Block.Basic
import PermissionedLedger.Rules.Rule
import PermissionedLedger.Work.Schedule

/-!
# Violations

What is wrong with a block or a transaction, as a cause and the values that show
it. Causes are grouped by the check that finds them; every cause names the rule it
breaks (`rule`) and has a fixed wording (`message`).
-/

namespace PermissionedLedger

open Time (Instant)

/-! ## Transactions by themselves -/

/-- The fewest bytes of coinbase data. -/
def minCoinbaseData : Nat := 2

/-- The most bytes of coinbase data. -/
def maxCoinbaseData : Nat := 100

/-- What can be wrong with a transaction by itself. -/
inductive TransactionFault where
  | noInputs
  | noOutputs
  | tooBig (size limit : Nat)
  | negativeOutput (value : Amount)
  | outputTooLarge (value : Amount)
  | outputTotalTooLarge
  | multisigThreshold (required keys : Nat)
  | multisigRepeatsKey
  | repeatedInput (previous : OutPoint)
  | signedCoinbase
  | coinbaseDataLength (length : Nat)
  | coinbaseGovernance
  | nullInput
  | coinbaseDataOnInput (previous : OutPoint)
  | tooManySigOps (count limit : Nat)
  deriving DecidableEq

namespace TransactionFault

/-- The rule broken. -/
def rule : TransactionFault → Rule
  | noInputs => .noTxInputs
  | noOutputs => .noTxOutputs
  | tooBig _ _ => .txTooBig
  | negativeOutput _ | outputTooLarge _ | outputTotalTooLarge => .badTxOutValue
  | multisigThreshold _ _ | multisigRepeatsKey | coinbaseDataOnInput _ => .scriptMalformed
  | repeatedInput _ => .duplicateTxInputs
  | signedCoinbase | coinbaseGovernance => .invalidCoinbase
  | coinbaseDataLength _ => .badCoinbaseScriptLen
  | nullInput => .badTxInput
  | tooManySigOps _ _ => .tooManySigOps

/-- The wording. -/
def message : TransactionFault → String
  | noInputs => "transaction has no inputs"
  | noOutputs => "transaction has no outputs"
  | tooBig size limit => s!"transaction size {size} exceeds {limit}"
  | negativeOutput value => s!"transaction output has negative value {value.toInt}"
  | outputTooLarge value =>
    s!"transaction output value {value.toInt} exceeds {maxAmount.toInt}"
  | outputTotalTooLarge => s!"total output value of transaction exceeds {maxAmount.toInt}"
  | multisigThreshold required keys => s!"multisig lock requires {required} of {keys} keys"
  | multisigRepeatsKey => "multisig lock repeats a key"
  | repeatedInput previous => s!"transaction spends {previous.text} more than once"
  | signedCoinbase => "coinbase input carries signatures"
  | coinbaseDataLength length =>
    s!"coinbase data length {length} is outside {minCoinbaseData}..={maxCoinbaseData}"
  | coinbaseGovernance => "coinbase creates admin outputs"
  | nullInput => "transaction input refers to the null outpoint"
  | coinbaseDataOnInput previous => s!"input spending {previous.text} carries coinbase data"
  | tooManySigOps count limit => s!"transaction has {count} signature operations, limit {limit}"

end TransactionFault

/-! ## Governance -/

/-- What can be wrong with the shape of a governance transaction. -/
inductive GovernanceFault where
  | threadNotFirst
  | keyOpOutsideThread
  | severalThreads
  | threadCarriesValue (thread : Thread) (value : Amount)
  | threadUnsigned
  | inputCount (thread : Thread) (count : Nat)
  | noKeyOps (thread : Thread)
  | keyOpCarriesValue
  | otherOutput (thread : Thread)
  | mintsNothing
  | issueGovernance
  deriving DecidableEq

/-- The wording. -/
def GovernanceFault.message : GovernanceFault → String
  | threadNotFirst => "thread output must be the first output"
  | keyOpOutsideThread => "key operation outside the root or provision thread"
  | severalThreads => "more than one thread output"
  | threadCarriesValue thread value => s!"{thread.name} thread output carries value {value.toInt}"
  | threadUnsigned => "thread input is not signed"
  | inputCount thread count => s!"{thread.name} thread transaction has {count} inputs"
  | noKeyOps thread => s!"{thread.name} thread transaction has no operations"
  | keyOpCarriesValue => "key operation carries value"
  | otherOutput thread => s!"{thread.name} thread transaction has a non-operation output"
  | mintsNothing => "issue thread transaction mints nothing"
  | issueGovernance => "issue thread transaction has admin outputs"

/-- Why a governance transaction cannot take effect. -/
inductive KeyOpFault where
  | tooFewSignatures (valid : Nat) (role : Role) (required : Nat)
  | notManaged (thread : Thread) (role : Role)
  | alreadyPresent (key : PublicKey) (role : Role)
  | notPresent (key : PublicKey) (role : Role)
  | lastKey (key : PublicKey) (role : Role)
  deriving DecidableEq

/-- The wording. -/
def KeyOpFault.message : KeyOpFault → String
  | tooFewSignatures valid role required =>
    s!"{valid} valid {role.name} signatures, {required} required"
  | notManaged thread role => s!"{thread.name} thread cannot change {role.name} keys"
  | alreadyPresent key role => s!"{key.text} is already a {role.name} key"
  | notPresent key role => s!"{key.text} is not a {role.name} key"
  | lastKey key role => s!"revoking {key.text} would leave no {role.name} keys"

/-! ## Blocks by themselves -/

/-- What can be wrong with a block by itself. -/
inductive BlockFault where
  | versionTooOld (version minimum : UInt32)
  | targetOutOfRange (bits : UInt32)
  | work (fault : Work.Fault)
  | subSecondTime (time : Instant)
  | timeTooNew (time limit : Instant)
  | badSignature (hash : Digest) (validator : PublicKey)
  | noTransactions
  | tooManyTransactions (count limit : Nat)
  | tooBig (size limit : Nat)
  | sizeMismatch (declared actual : Nat)
  | firstNotCoinbase
  | secondCoinbase (index : Nat)
  | merkleMismatch (declared computed : Digest)
  | repeatedTransaction (hash : Digest)
  | tooManySigOps (limit : Nat)
  | notFinal (hash : Digest) (time : Instant)
  deriving DecidableEq

namespace BlockFault

/-- The rule broken. -/
def rule : BlockFault → Rule
  | versionTooOld _ _ => .blockVersionTooOld
  | targetOutOfRange _ | work (.targetOutOfRange _) => .unexpectedDifficulty
  | work (.highHash _) => .highHash
  | subSecondTime _ => .invalidTime
  | timeTooNew _ _ => .timeTooNew
  | badSignature _ _ => .badBlockSignature
  | noTransactions => .noTransactions
  | tooManyTransactions _ _ => .tooManyTransactions
  | tooBig _ _ => .blockTooBig
  | sizeMismatch _ _ => .inconsistentBlkSize
  | firstNotCoinbase => .firstTxNotCoinbase
  | secondCoinbase _ => .multipleCoinbases
  | merkleMismatch _ _ => .badMerkleRoot
  | repeatedTransaction _ => .duplicateTx
  | tooManySigOps _ => .tooManySigOps
  | notFinal _ _ => .unfinalizedTx

/-- The wording. -/
def message : BlockFault → String
  | versionTooOld version minimum =>
    s!"block version {version.toNat} is below the minimum {minimum.toNat}"
  | targetOutOfRange bits => s!"block target of bits {Hex.ofWord bits} is out of range"
  | work fault => fault.message
  | subSecondTime time => s!"block timestamp {time.text} has sub-second precision"
  | timeTooNew time limit =>
    s!"block timestamp {time.text} is too far in the future, limit {limit.text}"
  | badSignature hash validator =>
    s!"block {hash.brief} signature does not verify against {validator.text}"
  | noTransactions => "block does not contain any transactions"
  | tooManyTransactions count limit => s!"block contains {count} transactions, limit {limit}"
  | tooBig size limit => s!"block size {size} exceeds {limit}"
  | sizeMismatch declared actual =>
    s!"header declares {declared} bytes of transactions, block has {actual}"
  | firstNotCoinbase => "first transaction in block is not a coinbase"
  | secondCoinbase index => s!"block contains a second coinbase at index {index}"
  | merkleMismatch declared computed =>
    s!"block merkle root is invalid, header {declared.brief}, computed {computed.brief}"
  | repeatedTransaction hash => s!"block contains duplicate transaction {hash.brief}"
  | tooManySigOps limit => s!"block has more than {limit} signature operations"
  | notFinal hash time => s!"transaction {hash.brief} is not final at block time {time.text}"

end BlockFault

/-! ## Blocks in the tree -/

/-- What can be wrong with the place that a block takes in the tree. -/
inductive PlacementFault where
  | beforeCheckpointTime (time checkpoint : Instant)
  | easierThanReachable (bits reachable : UInt32)
  | heightMismatch (encoded height : Nat)
  | heightMissing (height : Nat)
  | bitsMismatch (bits required : UInt32)
  | notAfterMedian (time median : Instant)
  | notCheckpoint (height : Nat) (hash required : Digest)
  | forksBelowCheckpoint (height checkpoint : Nat)
  | notFinal (hash : Digest) (height : Nat)
  | unauthorized (validator : PublicKey)
  | tooManyInRow (validator : PublicKey) (count limit : Nat)
  | tooLargeShare (validator : PublicKey) (signed window percent : Nat)
  | alreadyKnown (hash : Digest)
  | extendsInvalid (hash parent : Digest)
  | knownInvalid (hash : Digest)
  | switchesBelowCheckpoint (hash : Digest) (fork checkpoint : Nat)
  deriving DecidableEq

namespace PlacementFault

/-- The rule broken. -/
def rule : PlacementFault → Rule
  | beforeCheckpointTime _ _ => .checkpointTimeTooOld
  | easierThanReachable _ _ => .difficultyTooLow
  | heightMismatch _ _ | heightMissing _ => .badHeight
  | bitsMismatch _ _ => .unexpectedDifficulty
  | notAfterMedian _ _ => .timeTooOld
  | notCheckpoint _ _ _ => .badCheckpoint
  | forksBelowCheckpoint _ _ | switchesBelowCheckpoint _ _ _ => .forkTooOld
  | notFinal _ _ => .unfinalizedTx
  | unauthorized _ => .invalidValidateKey
  | tooManyInRow _ _ _ => .excessiveTrailing
  | tooLargeShare _ _ _ _ => .excessiveChainShare
  | alreadyKnown _ => .duplicateBlock
  | extendsInvalid _ _ | knownInvalid _ => .invalidAncestorBlock

/-- The wording. -/
def message : PlacementFault → String
  | beforeCheckpointTime time checkpoint =>
    s!"block timestamp {time.text} is before the latest checkpoint at {checkpoint.text}"
  | easierThanReachable bits reachable =>
    s!"block bits {Hex.ofWord bits} are easier than {Hex.ofWord reachable}, the easiest " ++
      "reachable since the latest checkpoint"
  | heightMismatch encoded height =>
    s!"coinbase encodes height {encoded}, block height is {height}"
  | heightMissing height => s!"coinbase of block at height {height} does not encode its height"
  | bitsMismatch bits required =>
    s!"block bits {Hex.ofWord bits} differ from the required {Hex.ofWord required}"
  | notAfterMedian time median =>
    s!"block timestamp {time.text} is not after the median time {median.text}"
  | notCheckpoint height hash required =>
    s!"block at height {height} is {hash.brief}, checkpoint requires {required.brief}"
  | forksBelowCheckpoint height checkpoint =>
    s!"block at height {height} forks the chain before the checkpoint at height {checkpoint}"
  | notFinal hash height => s!"transaction {hash.brief} is not final at height {height}"
  | unauthorized validator => s!"{validator.text} is not an authorized validating key"
  | tooManyInRow validator count limit =>
    s!"{validator.text} signed the last {count} blocks, limit {limit}"
  | tooLargeShare validator signed window percent =>
    s!"{validator.text} signed {signed} of the last {window} blocks, limit {percent}%"
  | alreadyKnown hash => s!"already have block {hash.brief}"
  | extendsInvalid hash parent => s!"block {hash.brief} extends invalid block {parent.brief}"
  | knownInvalid hash => s!"block {hash.brief} is known to be invalid"
  | switchesBelowCheckpoint hash fork checkpoint =>
    s!"reorganization to {hash.brief} forks at height {fork}, before the checkpoint at height " ++
      s!"{checkpoint}"

end PlacementFault

/-! ## Spending -/

/-- Why unlock data does not satisfy a lock. -/
inductive UnlockFault where
  | coinbaseData
  | signatureCount (count : Nat)
  | invalid (key : PublicKey)
  | tooManySignatures (count keys : Nat)
  | tooFewSignatures (valid required : Nat)
  | notUnlockable
  deriving DecidableEq

namespace UnlockFault

/-- The rule broken. -/
def rule : UnlockFault → Rule
  | coinbaseData | signatureCount _ | tooManySignatures _ _ => .scriptMalformed
  | invalid _ | tooFewSignatures _ _ | notUnlockable => .scriptValidation

/-- The wording. -/
def message : UnlockFault → String
  | coinbaseData => "coinbase data cannot unlock an output"
  | signatureCount count => s!"pay-to-key unlock has {count} signatures"
  | invalid key => s!"signature does not unlock output of {key.text}"
  | tooManySignatures count keys => s!"multisig unlock has {count} signatures for {keys} keys"
  | tooFewSignatures valid required =>
    s!"multisig unlock has {valid} valid signatures, {required} required"
  | notUnlockable => "output cannot be unlocked by signatures alone"

end UnlockFault

/-- What can be wrong with what a transaction spends. -/
inductive SpendingFault where
  | alreadySpent (tx : Digest) (previous : OutPoint)
  | missing (tx : Digest) (previous : OutPoint)
  | immature (tx : Digest) (previous : OutPoint) (created height maturity : Nat)
  | threadNotContinued (tx : Digest) (index : Nat) (thread : Thread)
  | threadNotSpent (tx : Digest) (thread : Thread)
  | unlock (fault : UnlockFault)
  | inputTotalTooLarge (tx : Digest)
  | spendTooHigh (tx : Digest) (spent provided : Amount)
  | feeTooHigh (tx : Digest) (fee limit : Amount)
  | overwrites (tx : Digest) (output : OutPoint)
  | feesOverflow
  | blockFeeTooHigh (fees limit : Amount)
  | coinbaseTooHigh (paid limit : Amount)
  deriving DecidableEq

namespace SpendingFault

/-- The rule broken. -/
def rule : SpendingFault → Rule
  | alreadySpent _ _ => .doubleSpend
  | missing _ _ => .missingTx
  | immature _ _ _ _ _ => .immatureSpend
  | threadNotContinued _ _ _ | threadNotSpent _ _ => .invalidAdminTx
  | unlock fault => fault.rule
  | inputTotalTooLarge _ => .badTxOutValue
  | spendTooHigh _ _ _ => .spendTooHigh
  | feeTooHigh _ _ _ | blockFeeTooHigh _ _ => .feeTooHigh
  | overwrites _ _ => .overwriteTx
  | feesOverflow => .badFees
  | coinbaseTooHigh _ _ => .badCoinbaseValue

/-- The wording. -/
def message : SpendingFault → String
  | alreadySpent tx previous =>
    s!"transaction {tx.brief} spends {previous.text}, already spent in this chain"
  | missing tx previous =>
    s!"output {previous.text} referenced from transaction {tx.brief} does not exist or has " ++
      "already been spent"
  | immature tx previous created height maturity =>
    s!"transaction {tx.brief} spends coinbase output {previous.text} from height {created} at " ++
      s!"height {height}, maturity is {maturity}"
  | threadNotContinued tx index thread =>
    s!"input {index} of transaction {tx.brief} spends the {thread.name} thread output without " ++
      "continuing it"
  | threadNotSpent tx thread =>
    s!"transaction {tx.brief} does not spend the {thread.name} thread output"
  | unlock fault => fault.message
  | inputTotalTooLarge tx =>
    s!"total input value of transaction {tx.brief} exceeds {maxAmount.toInt}"
  | spendTooHigh tx spent provided =>
    s!"transaction {tx.brief} spends {spent.toInt}, inputs provide {provided.toInt}"
  | feeTooHigh tx fee limit =>
    s!"transaction {tx.brief} pays fee {fee.toInt}, limit {limit.toInt}"
  | overwrites tx output =>
    s!"transaction {tx.brief} would overwrite unspent output {output.text}"
  | feesOverflow => "total fees of block overflow"
  | blockFeeTooHigh fees limit =>
    s!"block pays total fees {fees.toInt}, limit {limit.toInt}"
  | coinbaseTooHigh paid limit =>
    s!"coinbase pays {paid.toInt}, subsidy plus fees is {limit.toInt}"

end SpendingFault

/-! ## All together -/

/-- A broken rule of consensus. -/
inductive Violation where
  /-- found in a transaction by itself -/
  | transaction (fault : TransactionFault)
  /-- found in the shape of the governance transaction with the digest -/
  | governance (tx : Digest) (fault : GovernanceFault)
  /-- found when the governance transaction with the digest was to take effect -/
  | keyOp (tx : Digest) (fault : KeyOpFault)
  /-- found in a block by itself -/
  | block (fault : BlockFault)
  /-- found in the place of a block in the tree -/
  | placement (fault : PlacementFault)
  /-- found against the unspent outputs -/
  | spending (fault : SpendingFault)
  deriving DecidableEq

namespace Violation

/-- The rule broken. -/
def rule : Violation → Rule
  | transaction fault => fault.rule
  | governance _ _ => .invalidAdminTx
  | keyOp _ _ => .invalidAdminOp
  | block fault => fault.rule
  | placement fault => fault.rule
  | spending fault => fault.rule

/-- The wording. -/
def message : Violation → String
  | transaction fault => fault.message
  | governance tx fault => s!"admin transaction {tx.brief}: {fault.message}"
  | keyOp tx fault => s!"admin transaction {tx.brief}: {fault.message}"
  | block fault => fault.message
  | placement fault => fault.message
  | spending fault => fault.message

end Violation

end PermissionedLedger
