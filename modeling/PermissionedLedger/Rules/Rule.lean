/-!
# Rules

The rules of consensus, one name for each. A violation names the rule it breaks;
callers that react to violations tell them apart by it.
-/

namespace PermissionedLedger

/-- A rule of consensus. -/
inductive Rule where
  /-- the block is already known -/
  | duplicateBlock
  /-- the block is too large -/
  | blockTooBig
  /-- the version of the block is too old -/
  | blockVersionTooOld
  /-- the time of the block is not a whole second -/
  | invalidTime
  /-- the block is not after the median time of its ancestors -/
  | timeTooOld
  /-- the block is too far ahead of the clock -/
  | timeTooNew
  /-- the block is easier than can be since the latest checkpoint -/
  | difficultyTooLow
  /-- the target is not the required one, or not a permitted one -/
  | unexpectedDifficulty
  /-- the coinbase does not repeat the height of the block -/
  | badHeight
  /-- the signature of the block does not verify -/
  | badBlockSignature
  /-- the digest of the block is above its target -/
  | highHash
  /-- the Merkle root is not that of the transactions -/
  | badMerkleRoot
  /-- the block is not the one pinned at its height -/
  | badCheckpoint
  /-- the block forks the chain below the latest checkpoint -/
  | forkTooOld
  /-- the block is older than the latest checkpoint -/
  | checkpointTimeTooOld
  /-- the block has no transactions -/
  | noTransactions
  /-- the block has too many transactions -/
  | tooManyTransactions
  /-- a transaction has no inputs -/
  | noTxInputs
  /-- a transaction has no outputs -/
  | noTxOutputs
  /-- a transaction is too large -/
  | txTooBig
  /-- a value, or a sum of values, is out of range -/
  | badTxOutValue
  /-- a transaction spends an output twice -/
  | duplicateTxInputs
  /-- an input of an ordinary transaction refers to nothing -/
  | badTxInput
  /-- a spent output does not exist -/
  | missingTx
  /-- a transaction is not final yet -/
  | unfinalizedTx
  /-- a block holds a transaction twice -/
  | duplicateTx
  /-- a transaction would replace an unspent output -/
  | overwriteTx
  /-- a coinbase output is spent too early -/
  | immatureSpend
  /-- an output is spent twice -/
  | doubleSpend
  /-- a transaction spends more than it takes in -/
  | spendTooHigh
  /-- the fees of a block overflow -/
  | badFees
  /-- too many signature checks -/
  | tooManySigOps
  /-- the first transaction is not a coinbase -/
  | firstTxNotCoinbase
  /-- a later transaction is a coinbase -/
  | multipleCoinbases
  /-- the coinbase data is too short or too long -/
  | badCoinbaseScriptLen
  /-- the coinbase pays more than subsidy and fees -/
  | badCoinbaseValue
  /-- a lock or an unlock is malformed -/
  | scriptMalformed
  /-- an unlock does not satisfy its lock -/
  | scriptValidation
  /-- one signer made too large a share of the latest blocks -/
  | excessiveChainShare
  /-- one signer made too many blocks in a row -/
  | excessiveTrailing
  /-- the declared size is not that of the transactions -/
  | inconsistentBlkSize
  /-- the coinbase has a forbidden shape -/
  | invalidCoinbase
  /-- a transaction has a forbidden shape -/
  | invalidTx
  /-- the signer is not an authorized validator -/
  | invalidValidateKey
  /-- a governance transaction is malformed -/
  | invalidAdminTx
  /-- a key change is unauthorized or impossible -/
  | invalidAdminOp
  /-- a fee is above the permitted one -/
  | feeTooHigh
  /-- the block descends from an invalid one -/
  | invalidAncestorBlock
  deriving DecidableEq

/-- The name under which a rule is reported. -/
def Rule.name : Rule → String
  | .duplicateBlock => "DuplicateBlock"
  | .blockTooBig => "BlockTooBig"
  | .blockVersionTooOld => "BlockVersionTooOld"
  | .invalidTime => "InvalidTime"
  | .timeTooOld => "TimeTooOld"
  | .timeTooNew => "TimeTooNew"
  | .difficultyTooLow => "DifficultyTooLow"
  | .unexpectedDifficulty => "UnexpectedDifficulty"
  | .badHeight => "BadHeight"
  | .badBlockSignature => "BadBlockSignature"
  | .highHash => "HighHash"
  | .badMerkleRoot => "BadMerkleRoot"
  | .badCheckpoint => "BadCheckpoint"
  | .forkTooOld => "ForkTooOld"
  | .checkpointTimeTooOld => "CheckpointTimeTooOld"
  | .noTransactions => "NoTransactions"
  | .tooManyTransactions => "TooManyTransactions"
  | .noTxInputs => "NoTxInputs"
  | .noTxOutputs => "NoTxOutputs"
  | .txTooBig => "TxTooBig"
  | .badTxOutValue => "BadTxOutValue"
  | .duplicateTxInputs => "DuplicateTxInputs"
  | .badTxInput => "BadTxInput"
  | .missingTx => "MissingTx"
  | .unfinalizedTx => "UnfinalizedTx"
  | .duplicateTx => "DuplicateTx"
  | .overwriteTx => "OverwriteTx"
  | .immatureSpend => "ImmatureSpend"
  | .doubleSpend => "DoubleSpend"
  | .spendTooHigh => "SpendTooHigh"
  | .badFees => "BadFees"
  | .tooManySigOps => "TooManySigOps"
  | .firstTxNotCoinbase => "FirstTxNotCoinbase"
  | .multipleCoinbases => "MultipleCoinbases"
  | .badCoinbaseScriptLen => "BadCoinbaseScriptLen"
  | .badCoinbaseValue => "BadCoinbaseValue"
  | .scriptMalformed => "ScriptMalformed"
  | .scriptValidation => "ScriptValidation"
  | .excessiveChainShare => "ExcessiveChainShare"
  | .excessiveTrailing => "ExcessiveTrailing"
  | .inconsistentBlkSize => "InconsistentBlkSize"
  | .invalidCoinbase => "InvalidCoinbase"
  | .invalidTx => "InvalidTx"
  | .invalidValidateKey => "InvalidValidateKey"
  | .invalidAdminTx => "InvalidAdminTx"
  | .invalidAdminOp => "InvalidAdminOp"
  | .feeTooHigh => "FeeTooHigh"
  | .invalidAncestorBlock => "InvalidAncestorBlock"

end PermissionedLedger
