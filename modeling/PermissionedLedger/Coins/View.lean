import PermissionedLedger.Chain.Failure

/-!
# Views of the unspent outputs

A view lies over the unspent outputs of a store and holds what differs from them,
so that any number of blocks can be disconnected and connected before anything is
written. Only `CoinView.writes` turns the differences into writes.

* `fetch` tells a spent output from one that never was; `lookup?` does not.
* `connect` spends the inputs of transactions and adds their outputs, and reports
  the journal of what was spent; `disconnect` undoes a block with its journal.

Connecting and disconnecting check nothing but that they can be done. Where they
cannot, the view keeps what was done before.
-/

namespace PermissionedLedger

-- sums start from the zero of the core library, whatever else is imported
attribute [local instance (high)] Zero.ofOfNat0

/-- What a view knows of an output. -/
inductive CoinState where
  /-- it can be spent -/
  | unspent (coin : Coin)
  /-- it was spent in this view -/
  | spent
  /-- there is no such output -/
  | missing
  deriving DecidableEq

/-- Unspent outputs as seen from a tip that need not be that of the store. -/
structure CoinView where
  /-- the unspent outputs of the store -/
  base : CoinMap
  /-- what differs -/
  changes : Std.ExtTreeMap OutPoint CoinState := ∅

namespace Transaction

/-- The reference to the output at a position. -/
def outPoint (tx : Transaction) (index : Nat) : OutPoint := ⟨tx.hash, UInt32.ofNat index⟩

/-- References to all outputs of a transaction with the given digest. -/
def outPointsOf (hash : Digest) (outputs : List TxOutput) : List (OutPoint × TxOutput) :=
  outputs.zipIdx.map fun (out, index) => (⟨hash, UInt32.ofNat index⟩, out)

/-- All outputs with their references. -/
def created (tx : Transaction) : List (OutPoint × TxOutput) := outPointsOf tx.hash tx.outputs

/-- The outputs that can be spent, with their references. -/
def spendables (tx : Transaction) : List (OutPoint × TxOutput) :=
  tx.created.filter (·.2.lock.isSpendable)

end Transaction

namespace CoinView

/-- The state of an output. -/
def fetch (v : CoinView) (o : OutPoint) : CoinState :=
  match v.changes[o]? with
  | some state => state
  | none =>
    match v.base[o]? with
    | some coin => .unspent coin
    | none => .missing

/-- The coin of an output that can be spent. -/
def lookup? (v : CoinView) (o : OutPoint) : Option Coin :=
  match v.fetch o with
  | .unspent coin => some coin
  | _ => none

/-- Records the state of an output. -/
def set (v : CoinView) (o : OutPoint) (state : CoinState) : CoinView :=
  { v with changes := v.changes.insert o state }

/-- Recording a state changes that output and no other. -/
@[simp] theorem fetch_set (v : CoinView) (o p : OutPoint) (state : CoinState) :
    (v.set o state).fetch p = if p = o then state else v.fetch p := by
  by_cases h : p = o
  · subst h
    simp [fetch, set]
  · have hne : compare o p ≠ .eq := fun e => h (Std.LawfulEqOrd.eq_of_compare e).symm
    simp [fetch, set, Std.ExtTreeMap.getElem?_insert, hne, h]

/-- Adds the outputs of a transaction that can be spent. -/
def addOutputs (v : CoinView) (tx : Transaction) (height : Nat) : CoinView :=
  let isCoinbase := tx.isCoinbase
  tx.spendables.foldl (fun v (o, output) => v.set o (.unspent ⟨output, height, isCoinbase⟩)) v

/-- Removes the outputs of a transaction that can be spent. -/
def removeOutputs (v : CoinView) (tx : Transaction) : CoinView :=
  tx.spendables.foldl (fun v (o, _) => v.set o .missing) v

/-- Spends outputs in order, up to the first that is not there. The journal holds those spent. -/
def spendAll (tx : Digest) :
    CoinView → List OutPoint → Except Inconsistency Unit × CoinView × Journal
  | v, [] => (.ok (), v, [])
  | v, o :: os =>
    match v.fetch o with
    | .unspent coin =>
      let (result, v, journal) := spendAll tx (v.set o .spent) os
      (result, v, ⟨o, coin⟩ :: journal)
    | .spent => (.error (.unavailable tx o true), v, [])
    | .missing => (.error (.unavailable tx o false), v, [])

/-- Spends the inputs of a transaction and adds its outputs. -/
def connectTransaction (v : CoinView) (tx : Transaction) (height : Nat) :
    Except Inconsistency Unit × CoinView × Journal :=
  match spendAll tx.hash v tx.spends with
  | (.ok (), v, journal) => (.ok (), v.addOutputs tx height, journal)
  | failed => failed

/-- Connects transactions in order, up to the first that cannot be. -/
def connectAll (height : Nat) :
    CoinView → List Transaction → Except Inconsistency Unit × CoinView × Journal
  | v, [] => (.ok (), v, [])
  | v, tx :: txs =>
    match v.connectTransaction tx height with
    | (.ok (), v, journal) =>
      let (result, v, more) := connectAll height v txs
      (result, v, journal ++ more)
    | failed => failed

/-- Connects a block without checking it. -/
def connect (v : CoinView) (block : Block) (height : Nat) :
    Except Inconsistency Unit × CoinView × Journal :=
  connectAll height v block.transactions

/-- Restores spent outputs, latest first, from a journal that is read backwards. The result is the
part of the journal that was not needed. -/
def restoreAll : CoinView → List OutPoint → Journal → Except Inconsistency Journal × CoinView
  | v, [], journal => (.ok journal, v)
  | v, _ :: _, [] => (.error .journalExhausted, v)
  | v, o :: os, entry :: journal =>
    if entry.outPoint = o then restoreAll (v.set o (.unspent entry.coin)) os journal
    else (.error (.journalMismatch entry.outPoint o), v)

/-- Disconnects transactions, latest first, with a journal that is read backwards. -/
def disconnectAll : CoinView → List Transaction → Journal → Except Inconsistency Unit × CoinView
  | v, [], _ => (.ok (), v)
  | v, tx :: txs, journal =>
    match restoreAll (v.removeOutputs tx) tx.spends.reverse journal with
    | (.ok rest, v) => disconnectAll v txs rest
    | (.error e, v) => (.error e, v)

/-- Undoes a block: removes the outputs it created and restores what it spent. -/
def disconnect (v : CoinView) (block : Block) (journal : Journal) :
    Except Inconsistency Unit × CoinView :=
  let spends := (block.transactions.map (·.spends.length)).sum
  if spends ≠ journal.length then
    (.error (.journalLength block.hash journal.length spends), v)
  else disconnectAll v block.transactions.reverse journal.reverse

/-- The write that gives an output its state in the view. -/
def toWrite (o : OutPoint) : CoinState → Write
  | .unspent coin => .putCoin o coin
  | .spent | .missing => .deleteCoin o

/-- The differences as writes, in ascending order of outputs. -/
def writes (v : CoinView) : Batch := v.changes.toList.map fun (o, state) => toWrite o state

end CoinView

/-! ## Without a view -/

namespace CoinMap

/-- Spends the inputs of a transaction and adds its outputs, in place and without checks. -/
def applyTransaction (coins : CoinMap) (tx : Transaction) (height : Nat) : CoinMap :=
  tx.spendables.foldl (fun m (o, output) => m.insert o ⟨output, height, tx.isCoinbase⟩)
    (tx.spends.foldl (fun m o => m.erase o) coins)

/-- Applies the transactions of a block. -/
def applyBlock (coins : CoinMap) (block : Block) (height : Nat) : CoinMap :=
  block.transactions.foldl (fun m tx => applyTransaction m tx height) coins

end CoinMap

end PermissionedLedger
