import PermissionedLedger.Block.Basic
import PermissionedLedger.Time.Rfc3339
import PermissionedLedger.Wire.Codec

/-!
# The encoding of ledger data

One codec for each kind of value in a block file: fields in order, alternatives
numbered in the order they are declared, digests and keys bare. The timestamp of a
header is a text in RFC 3339 form.

Sizes of transactions and blocks, which the rules limit, are sizes in this format.
-/

namespace PermissionedLedger.Wire

open Codec
open Time (Instant)

/-- A digest: its bytes. -/
def digest : Codec Digest := (vector 32).map Digest.mk Digest.bytes

/-- A key: its bytes. -/
def publicKey : Codec PublicKey := (vector 32).map PublicKey.mk PublicKey.bytes

/-- A role: its number. -/
def role : Codec Role :=
  union (fun r => r.tag.toNat) fun n => Role.all[n]?.map const

/-- A thread: its number. -/
def thread : Codec Thread :=
  union (fun t => t.tag.toNat) fun n => Thread.all[n]?.map const

/-- A key change. -/
def keyOp : Codec KeyOp :=
  let fields (make : Role → PublicKey → KeyOp) : Codec KeyOp :=
    (pair role publicKey).map (fun v => make v.1 v.2) fun op => (op.role, op.key)
  union (fun op => op.tag.toNat) fun
    | 0 => some (fields .add)
    | 1 => some (fields .revoke)
    | _ => none

/-- The number of a lock's form. -/
def lockTag : Lock → Nat
  | .payToKey _ => 0
  | .multiSig _ _ => 1
  | .thread _ => 2
  | .keyOp _ => 3
  | .data _ => 4

/-- A lock. -/
def lock : Codec Lock :=
  union lockTag fun
    | 0 => some <| publicKey.map .payToKey fun
      | .payToKey k => k
      | _ => default
    | 1 => some <| (pair uint8 (list publicKey)).map (fun v => .multiSig v.1 v.2) fun
      | .multiSig n ks => (n, ks)
      | _ => default
    | 2 => some <| thread.map .thread fun
      | .thread t => t
      | _ => default
    | 3 => some <| keyOp.map .keyOp fun
      | .keyOp op => op
      | _ => .add default default
    | 4 => some <| bytes.map .data fun
      | .data d => d
      | _ => default
    | _ => none

/-- A signature with its signer. -/
def keySignature : Codec KeySignature :=
  (pair publicKey bytes).map (fun v => ⟨v.1, v.2⟩) fun s => (s.key, s.signature)

/-- Unlock data. -/
def unlock : Codec Unlock :=
  union (fun | .coinbase _ => 0 | .signatures _ => 1) fun
    | 0 => some <| bytes.map .coinbase fun
      | .coinbase d => d
      | _ => default
    | 1 => some <| (list keySignature).map .signatures fun
      | .signatures ss => ss
      | _ => default
    | _ => none

/-- A reference to an output. -/
def outPoint : Codec OutPoint :=
  (pair digest uint32).map (fun v => ⟨v.1, v.2⟩) fun o => (o.txHash, o.index)

/-- An input. -/
def txInput : Codec TxInput :=
  (pair outPoint (pair unlock uint32)).map (fun v => ⟨v.1, v.2.1, v.2.2⟩)
    fun i => (i.previous, i.unlock, i.sequence)

/-- An output. -/
def txOutput : Codec TxOutput :=
  (pair int64 lock).map (fun v => ⟨v.1, v.2⟩) fun o => (o.value, o.lock)

/-- A transaction. -/
def transaction : Codec Transaction :=
  (pair uint32 (pair (list txInput) (pair (list txOutput) uint32))).map
    (fun v => ⟨v.1, v.2.1, v.2.2.1, v.2.2.2⟩)
    fun tx => (tx.version, tx.inputs, tx.outputs, tx.lockTime)

/-- An instant: its RFC 3339 text. -/
def instant : Codec Instant := text.convert Time.Rfc3339.read? Time.Rfc3339.write

/-- A header. -/
def header : Codec Header :=
  (pair uint32 (pair digest (pair digest (pair instant (pair uint32 (pair uint64 (pair uint32
    (pair publicKey bytes)))))))).map
    (fun (version, previous, merkleRoot, time, bits, nonce, size, validator, signature) =>
      ⟨version, previous, merkleRoot, time, bits, nonce, size, validator, signature⟩)
    fun h => (h.version, h.previous, h.merkleRoot, h.time, h.bits, h.nonce, h.size, h.validator,
      h.signature)

/-- A block. -/
def block : Codec Block :=
  (pair header (list transaction)).map (fun v => ⟨v.1, v.2⟩) fun b => (b.header, b.transactions)

/-- The blocks of a block file, if it holds a list of blocks. Bytes after the list are ignored. -/
def readBlocks? (file : Bytes) : Option (List Block) := ((list block).decode file).map (·.1)

/-- A block file. -/
def writeBlocks (blocks : List Block) : Bytes := (list block).encode blocks

end PermissionedLedger.Wire

namespace PermissionedLedger

-- sums start from the zero of the core library, whatever else is imported
attribute [local instance (high)] Zero.ofOfNat0

/-- The number of bytes of an encoded transaction. -/
def Transaction.size (tx : Transaction) : Nat := Wire.transaction.size tx

/-- The number of bytes of all encoded transactions. -/
def Block.transactionsSize (b : Block) : Nat := (b.transactions.map (·.size)).sum

/-- The number of bytes of an encoded block. -/
def Block.size (b : Block) : Nat := Wire.block.size b

end PermissionedLedger
