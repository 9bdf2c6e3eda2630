import PermissionedLedger.Coins.View
import PermissionedLedger.Governance.Authority
import PermissionedLedger.Rules.Standalone

/-!
# What a block spends

The checks that need the unspent outputs: every input refers to an output that can
be spent, is old enough if a coinbase created it, and satisfies its lock; no more
is paid out than comes in; fees and the value of the coinbase are within limits.

The output of a thread has no lock that signatures alone could satisfy. It is
spent by the first input of a transaction that continues the same thread, and by
nothing else; such a transaction pays no fee, and may create coins.

* `Transaction.fee` checks one transaction against a view and is its fee.
* `Block.connect` checks a block and applies it; the result is the view after the
  block and the journal of what it spent.
-/

namespace PermissionedLedger

namespace Amount

/-- The exact sum of two amounts, if it is an amount. -/
def sum? (a b : Amount) : Option Amount :=
  let exact := a.toInt + b.toInt
  if Int64.minValue.toInt ≤ exact ∧ exact ≤ Int64.maxValue.toInt then some (Int64.ofInt exact)
  else none

/-- The sum of two amounts, or the amount that is closest to it. -/
def clampedSum (a b : Amount) : Amount :=
  Int64.ofInt (max Int64.minValue.toInt (min (a.toInt + b.toInt) Int64.maxValue.toInt))

end Amount

/-- Unlock data satisfies a lock, for a transaction whose inputs sign `message`. -/
def Lock.checkUnlock (lock : Lock) (unlock : Unlock) (message : Digest) (verify : Verifier) :
    Except UnlockFault Unit :=
  match unlock with
  | .coinbase _ => .error .coinbaseData
  | .signatures signatures =>
    match lock with
    | .payToKey key =>
      match signatures with
      | [s] => require (s.key = key ∧ verify key message.toList s.signature = true) (.invalid key)
      | _ => .error (.signatureCount signatures.length)
    | .multiSig required keys => do
      require (signatures.length ≤ keys.length) (.tooManySignatures signatures.length keys.length)
      let valid := (validSigners (fun key => keys.contains key) message verify signatures).size
      require (required.toNat ≤ valid) (.tooFewSignatures valid required.toNat)
    | .thread _ | .keyOp _ | .data _ => .error .notUnlockable

/-- The coin of an output that can be spent, or why it cannot; `tx` is the spender. -/
def CoinView.spendable (view : CoinView) (tx : Digest) (previous : OutPoint) :
    Except SpendingFault Coin :=
  match view.fetch previous with
  | .unspent coin => .ok coin
  | .spent => .error (.alreadySpent tx previous)
  | .missing => .error (.missing tx previous)

namespace Transaction

/-! ## One transaction -/

/-- A coin that a coinbase created is old enough. The thread outputs of genesis always are. -/
def checkMaturity (tx : Transaction) (params : Params) (height : Nat) (previous : OutPoint)
    (coin : Coin) : Except SpendingFault Unit :=
  require (coin.isCoinbase = true → coin.output.lock.isGovernance = false →
      params.coinbaseMaturity ≤ height - coin.height)
    (.immature tx.hash previous coin.height height params.coinbaseMaturity)

/-- The input at a position may spend a coin: the first input of a thread's transaction spends
the output of that thread, and all other inputs satisfy locks. -/
def checkRight (tx : Transaction) (message : Digest) (verify : Verifier) (index : Nat)
    (unlock : Unlock) (coin : Coin) : Except SpendingFault Unit :=
  match coin.output.lock.thread?, tx.thread? with
  | some spent, continued =>
    require (index = 0 ∧ continued = some spent) (.threadNotContinued tx.hash index spent)
  | none, continued => do
    match continued with
    | some thread => require (index ≠ 0) (.threadNotSpent tx.hash thread)
    | none => pure ()
    (coin.output.lock.checkUnlock unlock message verify).mapError .unlock

/-- A total of input values, which stays an amount and in range. -/
def addInput (tx : Transaction) (total value : Amount) : Except SpendingFault Amount :=
  match (Amount.sum? total value).filter (·.toInt ≤ maxAmount.toInt) with
  | some next => .ok next
  | none => .error (.inputTotalTooLarge tx.hash)

/-- Checks inputs from a position on, and adds their values to the total of those before. -/
def provided (tx : Transaction) (height : Nat) (params : Params) (view : CoinView)
    (verify : Verifier) (message : Digest) :
    (index : Nat) → (before : Amount) → List TxInput → Except SpendingFault Amount
  | _, before, [] => .ok before
  | index, before, input :: inputs => do
    let coin ← view.spendable tx.hash input.previous
    tx.checkMaturity params height input.previous coin
    tx.checkRight message verify index input.unlock coin
    let total ← tx.addInput before coin.output.value
    provided tx height params view verify message (index + 1) total inputs

/-- What the inputs provide beyond the outputs. A transaction of a thread pays no fee. -/
def surplus (tx : Transaction) (params : Params) (provided : Amount) :
    Except SpendingFault Amount :=
  if tx.thread?.isSome then .ok 0
  else do
    let spent := tx.outputTotal
    require (spent.toInt ≤ provided.toInt) (.spendTooHigh tx.hash spent provided)
    let fee := provided - spent
    require (fee.toInt ≤ params.maxTxFee.toInt) (.feeTooHigh tx.hash fee params.maxTxFee)
    return fee

/-- The fee of a transaction that is not a coinbase, if it may be in a block at the height. -/
def fee (tx : Transaction) (height : Nat) (params : Params) (view : CoinView)
    (verify : Verifier) : Except SpendingFault Amount := do
  let provided ← tx.provided height params view verify tx.signingHash 0 0 tx.inputs
  tx.surplus params provided

/-- Applies a transaction to a view. -/
def connect (tx : Transaction) (height : Nat) (view : CoinView) :
    Except Failure (CoinView × Journal) :=
  match view.connectTransaction tx height with
  | (.ok (), view, journal) => .ok (view, journal)
  | (.error cause, _, _) => .error (.inconsistent cause)

end Transaction

namespace Block

/-! ## A block -/

/-- A fault of spending as the failure of a block. -/
def spendingFailure (fault : SpendingFault) : Failure := .rule (.spending fault)

/-- Applies transactions that are known to be good. Only the existence of what they spend is
checked. -/
def connectTrusted (height : Nat) :
    CoinView → List Transaction → Except Failure (CoinView × Journal)
  | view, [] => .ok (view, [])
  | view, tx :: txs => do
    (requireAll (fun o => (view.spendable tx.hash o).map fun _ => ()) tx.spends).mapError
      spendingFailure
    let (view, journal) ← tx.connect height view
    let (view, more) ← connectTrusted height view txs
    return (view, journal ++ more)

/-- Checks and applies transactions in order, adding their fees to the total of those before. -/
def connectChecked (height : Nat) (params : Params) (verify : Verifier) :
    (fees : Amount) → CoinView → List Transaction → Except Failure (Amount × CoinView × Journal)
  | fees, view, [] => .ok (fees, view, [])
  | fees, view, tx :: txs => do
    let fee ← if tx.isCoinbase then pure 0
      else (tx.fee height params view verify).mapError spendingFailure
    match Amount.sum? fees fee with
    | none => .error (spendingFailure .feesOverflow)
    | some fees =>
      let (view, journal) ← tx.connect height view
      let (fees, view, more) ← connectChecked height params verify fees view txs
      return (fees, view, journal ++ more)

/-- No output of the block exists already. -/
def checkFresh (b : Block) (view : CoinView) : Except SpendingFault Unit :=
  requireAll (fun tx =>
    let hash := tx.hash
    requireAll (fun (o, _) => require (view.lookup? o = none) (.overwrites hash o))
      (Transaction.outPointsOf hash tx.outputs)) b.transactions

/-- The total of the fees is within the limit, and the coinbase pays no more than the subsidy and
the fees. -/
def checkReward (b : Block) (height : Nat) (params : Params) (fees : Amount) :
    Except SpendingFault Unit := do
  require (fees.toInt ≤ params.maxBlockFee.toInt) (.blockFeeTooHigh fees params.maxBlockFee)
  let paid := (b.coinbase?.map Transaction.outputTotal).getD 0
  let limit := Amount.clampedSum (params.subsidy height) fees
  require (paid.toInt ≤ limit.toInt) (.coinbaseTooHigh paid limit)

/-- Checks a block at a height against a view and applies it. -/
def connect (b : Block) (height : Nat) (params : Params) (view : CoinView) (verify : Verifier)
    (flags : AddFlags) : Except Failure (CoinView × Journal) :=
  if flags.fastAdd then connectTrusted height view b.transactions
  else do
    (b.checkFresh view).mapError spendingFailure
    let (fees, view, journal) ← connectChecked height params verify 0 view b.transactions
    (b.checkReward height params fees).mapError spendingFailure
    return (view, journal)

end Block

end PermissionedLedger
