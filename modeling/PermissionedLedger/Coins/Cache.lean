import PermissionedLedger.Coins.View

/-!
# Views that remember what they read

A view answers from the coins of a store, which it need not ask twice. `CoinCache` is a
view that keeps every answer: an entry is either a copy of what the store has, or was
*modified*, and only modified entries are written.

What is done with a view needs no more than to fetch and to set states of outputs
(`CoinKeeper`), where fetching may change what is kept. Each call on a view
(`CoinCall`) can therefore be made on views of all kinds (`CoinKeeper.perform`), and on
the one that runs (`CoinView.perform`).
-/

namespace PermissionedLedger

-- sums start from the zero of the core library, whatever else is imported
attribute [local instance (high)] Zero.ofOfNat0

/-- A kind of view: states of outputs can be fetched and set. -/
class CoinKeeper (V : Type) where
  /-- the state of an output, and the view after it was asked for -/
  fetch : V → OutPoint → CoinState × V
  /-- records the state of an output -/
  set : V → OutPoint → CoinState → V

/-- The coins show no more than whether an output can be spent. -/
def CoinState.ofCoin? : Option Coin → CoinState
  | some coin => .unspent coin
  | none => .missing

/-- The coin of an output that can be spent. -/
def CoinState.coin? : CoinState → Option Coin
  | .unspent coin => some coin
  | .spent | .missing => none

/-! ## The cache -/

/-- What a view remembers of an output. -/
structure CachedCoin where
  /-- its state in the view -/
  state : CoinState
  /-- it was set, not only read -/
  modified : Bool

/-- Unspent outputs with all that was read of the store or set since. -/
structure CoinCache where
  /-- the unspent outputs of the store -/
  base : CoinMap
  /-- what is known without asking the store -/
  entries : Std.ExtTreeMap OutPoint CachedCoin := ∅

namespace CoinCache

/-- The state of an output, from the store when it is asked for the first time. -/
def fetch (c : CoinCache) (o : OutPoint) : CoinState × CoinCache :=
  match c.entries[o]? with
  | some cached => (cached.state, c)
  | none =>
    let state := CoinState.ofCoin? c.base[o]?
    (state, { c with entries := c.entries.insert o ⟨state, false⟩ })

/-- Records the state of an output. -/
def set (c : CoinCache) (o : OutPoint) (state : CoinState) : CoinCache :=
  { c with entries := c.entries.insert o ⟨state, true⟩ }

/-- What was set. -/
def changes (c : CoinCache) : Std.ExtTreeMap OutPoint CoinState :=
  c.entries.filterMap fun _ cached => if cached.modified then some cached.state else none

/-- What was set as writes, in ascending order of outputs. -/
def writes (c : CoinCache) : Batch :=
  c.changes.toList.map fun (o, state) => CoinView.toWrite o state

end CoinCache

instance : CoinKeeper CoinCache := ⟨CoinCache.fetch, CoinCache.set⟩

instance : CoinKeeper CoinView := ⟨fun v o => (v.fetch o, v), CoinView.set⟩

/-! ## Operations -/

namespace CoinKeeper

variable {V : Type} [CoinKeeper V]

/-- Sets the states of several outputs in order. -/
def setAll (state : TxOutput → CoinState) (v : V) (outputs : List (OutPoint × TxOutput)) : V :=
  outputs.foldl (fun v s => set v s.1 (state s.2)) v

/-- Adds the outputs of a transaction that can be spent. -/
def addOutputs (v : V) (tx : Transaction) (height : Nat) : V :=
  setAll (fun output => .unspent ⟨output, height, tx.isCoinbase⟩) v tx.spendables

/-- Removes the outputs of a transaction that can be spent. -/
def removeOutputs (v : V) (tx : Transaction) : V := setAll (fun _ => .missing) v tx.spendables

/-- Spends outputs in order, up to the first that is not there. The journal holds those spent. -/
def spendAll (tx : Digest) : V → List OutPoint → Except Inconsistency Unit × V × Journal
  | v, [] => (.ok (), v, [])
  | v, o :: os =>
    match fetch v o with
    | (.unspent coin, v) =>
      let (result, v, journal) := spendAll tx (set v o .spent) os
      (result, v, ⟨o, coin⟩ :: journal)
    | (.spent, v) => (.error (.unavailable tx o true), v, [])
    | (.missing, v) => (.error (.unavailable tx o false), v, [])

/-- Spends the inputs of a transaction and adds its outputs. -/
def connectTransaction (v : V) (tx : Transaction) (height : Nat) :
    Except Inconsistency Unit × V × Journal :=
  match spendAll tx.hash v tx.spends with
  | (.ok (), v, journal) => (.ok (), addOutputs v tx height, journal)
  | failed => failed

/-- Connects transactions in order, up to the first that cannot be. -/
def connectAll (height : Nat) : V → List Transaction → Except Inconsistency Unit × V × Journal
  | v, [] => (.ok (), v, [])
  | v, tx :: txs =>
    match connectTransaction v tx height with
    | (.ok (), v, journal) =>
      let (result, v, more) := connectAll height v txs
      (result, v, journal ++ more)
    | failed => failed

/-- Restores spent outputs, latest first, from a journal that is read backwards. The result is the
part of the journal that was not needed. -/
def restoreAll : V → List OutPoint → Journal → Except Inconsistency Journal × V
  | v, [], journal => (.ok journal, v)
  | v, _ :: _, [] => (.error .journalExhausted, v)
  | v, o :: os, entry :: journal =>
    if entry.outPoint = o then restoreAll (set v o (.unspent entry.coin)) os journal
    else (.error (.journalMismatch entry.outPoint o), v)

/-- Disconnects transactions, latest first, with a journal that is read backwards. -/
def disconnectAll : V → List Transaction → Journal → Except Inconsistency Unit × V
  | v, [], _ => (.ok (), v)
  | v, tx :: txs, journal =>
    match restoreAll (removeOutputs v tx) tx.spends.reverse journal with
    | (.ok rest, v) => disconnectAll v txs rest
    | (.error e, v) => (.error e, v)

/-- Undoes a block: removes the outputs it created and restores what it spent. -/
def disconnect (v : V) (block : Block) (journal : Journal) : Except Inconsistency Unit × V :=
  let spends := (block.transactions.map (·.spends.length)).sum
  if spends ≠ journal.length then
    (.error (.journalLength block.hash journal.length spends), v)
  else disconnectAll v block.transactions.reverse journal.reverse

end CoinKeeper

/-! ## Calls -/

/-- What is asked of a view. -/
inductive CoinCall where
  /-- the state of an output -/
  | fetch (o : OutPoint)
  /-- the coin of an output that can be spent -/
  | lookup (o : OutPoint)
  /-- add the outputs of a transaction -/
  | addOutputs (tx : Transaction) (height : Nat)
  /-- spend the inputs of a transaction and add its outputs -/
  | connectTransaction (tx : Transaction) (height : Nat)
  /-- the same for all transactions of a block -/
  | connect (block : Block) (height : Nat)
  /-- undo a block -/
  | disconnect (block : Block) (journal : Journal)

/-- What is returned. -/
inductive CoinAnswer where
  /-- the state of an output -/
  | state (state : CoinState)
  /-- a coin, if there is one -/
  | coin (coin : Option Coin)
  /-- outputs were added -/
  | added
  /-- whether transactions were connected, and what was spent -/
  | connected (result : Except Inconsistency Unit) (journal : Journal)
  /-- whether a block was disconnected -/
  | disconnected (result : Except Inconsistency Unit)

/-- Makes a call on a view of some kind. -/
def CoinKeeper.perform {V : Type} [CoinKeeper V] (v : V) : CoinCall → CoinAnswer × V
  | .fetch o =>
    let (state, v) := fetch v o
    (.state state, v)
  | .lookup o =>
    let (state, v) := fetch v o
    (.coin state.coin?, v)
  | .addOutputs tx height => (.added, addOutputs v tx height)
  | .connectTransaction tx height =>
    let (result, v, journal) := connectTransaction v tx height
    (.connected result journal, v)
  | .connect block height =>
    let (result, v, journal) := connectAll height v block.transactions
    (.connected result journal, v)
  | .disconnect block journal =>
    let (result, v) := disconnect v block journal
    (.disconnected result, v)

/-- Makes a call on a view. -/
def CoinView.perform (v : CoinView) : CoinCall → CoinAnswer × CoinView
  | .fetch o => (.state (v.fetch o), v)
  | .lookup o => (.coin (v.lookup? o), v)
  | .addOutputs tx height => (.added, v.addOutputs tx height)
  | .connectTransaction tx height =>
    let (result, v, journal) := v.connectTransaction tx height
    (.connected result journal, v)
  | .connect block height =>
    let (result, v, journal) := v.connect block height
    (.connected result journal, v)
  | .disconnect block journal =>
    let (result, v) := v.disconnect block journal
    (.disconnected result, v)

/-- Makes calls in order. The answers are in the same order. -/
def performAll {V : Type} (perform : V → CoinCall → CoinAnswer × V) (v : V) :
    List CoinCall → List CoinAnswer × V
  | [] => ([], v)
  | call :: calls =>
    let (answer, v) := perform v call
    let (answers, v) := performAll perform v calls
    (answer :: answers, v)

end PermissionedLedger
