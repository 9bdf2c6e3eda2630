import PermissionedLedger.Transaction.Basic

/-!
# What a transaction hashes and signs

Two byte strings are made of a transaction:

* `hashed` — everything, unlock data included. Its digest names the transaction.
* `signed` — a fixed mark and everything but the unlock data, so that signatures
  do not sign themselves. Signatures of inputs are over its digest.

Lists are preceded by their length in four bytes, numbers are written least
significant byte first, and each form of lock and unlock starts with its own tag.
-/

namespace PermissionedLedger

/-- A length as it is hashed: its four low-order bytes. -/
def hashedLength (n : Nat) : Bytes := Bytes.ofNatLE 4 n

/-- A 32-bit word as it is hashed. -/
def hashedWord (w : UInt32) : Bytes := Bytes.ofNatLE 4 w.toNat

/-- An amount as it is hashed, in two's complement. -/
def hashedAmount (a : Amount) : Bytes := Bytes.ofNatLE 8 a.toBitVec.toNat

/-- The byte that tells the two kinds of key change apart. -/
def KeyOp.tag : KeyOp → UInt8
  | .add _ _ => 0
  | .revoke _ _ => 1

/-- A lock as it is hashed. -/
def Lock.hashed : Lock → Bytes
  | .payToKey key => 0 :: key.toList
  | .multiSig required keys =>
    1 :: required :: (hashedLength keys.length ++ keys.flatMap (·.toList))
  | .thread t => [2, t.tag]
  | .keyOp op => 3 :: op.tag :: op.role.tag :: op.key.toList
  | .data bytes => 4 :: (hashedLength bytes.length ++ bytes)

/-- A signature as it is hashed. -/
def KeySignature.hashed (s : KeySignature) : Bytes :=
  s.key.toList ++ hashedLength s.signature.length ++ s.signature

/-- Unlock data as it is hashed. -/
def Unlock.hashed : Unlock → Bytes
  | .coinbase data => 0 :: (hashedLength data.length ++ data)
  | .signatures ss => 1 :: (hashedLength ss.length ++ ss.flatMap (·.hashed))

/-- An input as it is hashed, without its unlock data. -/
def TxInput.hashed (i : TxInput) : Bytes :=
  i.previous.txHash.toList ++ hashedWord i.previous.index ++ hashedWord i.sequence

/-- An output as it is hashed. -/
def TxOutput.hashed (o : TxOutput) : Bytes := hashedAmount o.value ++ o.lock.hashed

namespace Transaction

/-- The part that both byte strings share: everything but the unlock data. -/
def body (tx : Transaction) : Bytes :=
  hashedWord tx.version ++
    hashedLength tx.inputs.length ++ tx.inputs.flatMap (·.hashed) ++
    hashedLength tx.outputs.length ++ tx.outputs.flatMap (·.hashed) ++
    hashedWord tx.lockTime

/-- The mark that begins every signed byte string: thirteen ASCII characters. -/
def signingMark : Bytes :=
  [0x74, 0x65, 0x73, 0x73, 0x65, 0x72, 0x61, 0x2d, 0x74, 0x78, 0x2d, 0x76, 0x31]

/-- The bytes whose digest names the transaction. -/
def hashed (tx : Transaction) : Bytes := tx.body ++ tx.inputs.flatMap (·.unlock.hashed)

/-- The bytes whose digest the inputs sign. -/
def signed (tx : Transaction) : Bytes := signingMark ++ tx.body

/-- The digest that names the transaction. -/
def hash (tx : Transaction) : Digest := .ofMessage tx.hashed

/-- The digest that the inputs sign. -/
def signingHash (tx : Transaction) : Digest := .ofMessage tx.signed

end Transaction

end PermissionedLedger
