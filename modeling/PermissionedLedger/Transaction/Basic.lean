import PermissionedLedger.Governance.KeySets
import PermissionedLedger.Hash.Digest

/-!
# Transactions

A transaction spends outputs of earlier transactions and creates new ones. An
output carries a value and a *lock*, the condition for spending it; an input
names the output it spends and carries the *unlock* data that is to satisfy that
condition. Values here are already decoded and nothing is checked: what a valid
transaction looks like is said by the rules.

Amounts are 64-bit words. Negative ones exist in malformed transactions only.
-/

namespace PermissionedLedger

-- sums start from the zero of the core library, whatever else is imported
attribute [local instance (high)] Zero.ofOfNat0

/-- A value in atomic units. -/
abbrev Amount := Int64

/-- Atomic units per coin. -/
def atomsPerCoin : Amount := 100000000

/-- The most atomic units that can ever exist. -/
def maxAmount : Amount := 21000000 * atomsPerCoin

/-- The number of keys a multisig lock may name. -/
def maxMultisigKeys : Nat := 20

/-- Lock times below this are heights; from here on they are seconds of Unix time. -/
def lockTimeThreshold : UInt32 := 500000000

/-- The input sequence number that waives the lock time. -/
def finalSequence : UInt32 := 0xffffffff

/-- A reference to an output of a transaction. -/
structure OutPoint where
  /-- digest of the transaction -/
  txHash : Digest
  /-- position of the output in it -/
  index : UInt32
  deriving DecidableEq, Inhabited

namespace OutPoint

/-- What the input of a coinbase refers to. -/
def null : OutPoint := ⟨.zero, 0xffffffff⟩

/-- Whether this is the reference of a coinbase input. -/
def isNull (o : OutPoint) : Bool := o = null

/-- The key of the output in a table: digest, then index with its most significant byte
first, so that byte order is the order of `OutPoint`. -/
def keyBytes (o : OutPoint) : Bytes := o.txHash.toList ++ Bytes.ofNatBE 4 o.index.toNat

/-- The reference with all digits of the digest. -/
def text (o : OutPoint) : String := s!"{o.txHash.text}:{o.index.toNat}"

/-- The reference as messages show it in passing. -/
def brief (o : OutPoint) : String := s!"{o.txHash.brief}:{o.index.toNat}"

/-- References are ordered by transaction, then by position. -/
instance : Ord OutPoint :=
  ⟨compareLex (compareOn OutPoint.txHash) (compareOn OutPoint.index)⟩

instance : Std.TransOrd OutPoint :=
  inferInstanceAs (Std.TransCmp (compareLex (compareOn OutPoint.txHash) (compareOn OutPoint.index)))

instance : Std.LawfulEqOrd OutPoint where
  eq_of_compare {a b} h := by
    cases a; cases b
    have h' := compareLex_eq_eq.mp h
    simp only [OutPoint.mk.injEq]
    exact ⟨Std.LawfulEqOrd.eq_of_compare h'.1, Std.LawfulEqOrd.eq_of_compare h'.2⟩

end OutPoint

/-- The condition for spending an output. -/
inductive Lock where
  /-- one signature by the key -/
  | payToKey (key : PublicKey)
  /-- signatures by `required` different keys of the list -/
  | multiSig (required : UInt8) (keys : List PublicKey)
  /-- the current output of a thread, spent only by the thread's next transaction -/
  | thread (thread : Thread)
  /-- the record of a key change, never spent -/
  | keyOp (op : KeyOp)
  /-- bytes without meaning, never spent -/
  | data (bytes : Bytes)
  deriving DecidableEq

namespace Lock

/-- Whether outputs with this lock can be spent at all. -/
def isSpendable : Lock → Bool
  | .keyOp _ | .data _ => false
  | _ => true

/-- The thread whose current output this is. -/
def thread? : Lock → Option Thread
  | .thread t => some t
  | _ => none

/-- Whether the output belongs to governance. -/
def isGovernance : Lock → Bool
  | .thread _ | .keyOp _ => true
  | _ => false

/-- Whether the output records a key change. -/
def isKeyOp : Lock → Bool
  | .keyOp _ => true
  | _ => false

/-- Signature checks charged for creating the output. -/
def sigOps : Lock → Nat
  | .payToKey _ | .thread _ => 1
  | .multiSig _ keys => keys.length
  | .keyOp _ | .data _ => 0

end Lock

/-- A signature together with the key it claims to be by. -/
structure KeySignature where
  /-- claimed signer -/
  key : PublicKey
  /-- signature bytes, of any length -/
  signature : Bytes
  deriving DecidableEq

/-- What an input presents to satisfy a lock. -/
inductive Unlock where
  /-- free bytes of a coinbase; they begin with the block height -/
  | coinbase (data : Bytes)
  /-- signatures over the transaction -/
  | signatures (signatures : List KeySignature)
  deriving DecidableEq

namespace Unlock

/-- The signatures carried. -/
def toSignatures : Unlock → List KeySignature
  | .coinbase _ => []
  | .signatures ss => ss

/-- Signature checks charged for the input. -/
def sigOps (u : Unlock) : Nat := u.toSignatures.length

/-- Whether these are coinbase bytes. -/
def isCoinbase : Unlock → Bool
  | .coinbase _ => true
  | .signatures _ => false

end Unlock

/-- An input: what it spends, and by what right. -/
structure TxInput where
  /-- the output spent -/
  previous : OutPoint
  /-- data for its lock -/
  unlock : Unlock
  /-- sequence number; only `finalSequence` has a meaning -/
  sequence : UInt32
  deriving DecidableEq

/-- An output: a value under a lock. -/
structure TxOutput where
  /-- value in atomic units -/
  value : Amount
  /-- condition for spending it -/
  lock : Lock
  deriving DecidableEq

/-- A transaction. -/
structure Transaction where
  /-- format version -/
  version : UInt32
  /-- inputs, in order -/
  inputs : List TxInput
  /-- outputs, in order -/
  outputs : List TxOutput
  /-- earliest height or time at which the transaction is final -/
  lockTime : UInt32
  deriving DecidableEq

namespace Transaction

/-- A coinbase has exactly one input, and that refers to nothing. -/
def isCoinbase (tx : Transaction) : Bool :=
  match tx.inputs with
  | [input] => input.previous.isNull
  | _ => false

/-- The thread that the transaction continues, read off its first output. -/
def thread? (tx : Transaction) : Option Thread := tx.outputs.head?.bind (·.lock.thread?)

/-- Whether any output belongs to governance. -/
def hasGovernanceOutputs (tx : Transaction) : Bool := tx.outputs.any (·.lock.isGovernance)

/-- Signature checks charged for the transaction. -/
def sigOps (tx : Transaction) : Nat :=
  (tx.inputs.map (·.unlock.sigOps)).sum + (tx.outputs.map (·.lock.sigOps)).sum

/-- The outputs spent, in input order; a coinbase spends none. -/
def spends (tx : Transaction) : List OutPoint :=
  if tx.isCoinbase then [] else tx.inputs.map (·.previous)

/-- The sum of the output values as 64-bit words, wrapping around. -/
def outputTotal (tx : Transaction) : Amount := (tx.outputs.map (·.value)).foldl (· + ·) 0

end Transaction

end PermissionedLedger
