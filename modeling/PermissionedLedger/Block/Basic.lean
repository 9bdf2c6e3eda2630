import PermissionedLedger.Block.Merkle
import PermissionedLedger.Time.Instant

/-!
# Blocks

A block is a header and an ordered list of transactions, the first of which is
the coinbase. The digest of the header names the block; it covers every field
but the signature, which is made over it.

The height of a block is not in its header. It follows from the parent, and the
first eight bytes of the coinbase data repeat it (`coinbaseHeight?`).
-/

namespace PermissionedLedger

open Time (Instant)

/-- The header of a block. -/
structure Header where
  /-- format version -/
  version : UInt32
  /-- digest of the parent's header -/
  previous : Digest
  /-- Merkle root of the transactions -/
  merkleRoot : Digest
  /-- when the block was made -/
  time : Instant
  /-- proof-of-work target in compact form -/
  bits : UInt32
  /-- free field for proof of work -/
  nonce : UInt64
  /-- declared total size of the encoded transactions -/
  size : UInt32
  /-- signer of the block -/
  validator : PublicKey
  /-- signature over the digest -/
  signature : Bytes
  deriving DecidableEq

namespace Header

/-- The bytes whose digest names the block. -/
def hashed (h : Header) : Bytes :=
  hashedWord h.version ++ h.previous.toList ++ h.merkleRoot.toList ++
    Bytes.ofNatLE 8 (Int64.ofInt h.time.seconds).toBitVec.toNat ++
    Bytes.ofNatLE 4 h.time.nanos ++ hashedWord h.bits ++ Bytes.ofNatLE 8 h.nonce.toNat ++
    hashedWord h.size ++ h.validator.toList

/-- The digest that names the block. -/
def hash (h : Header) : Digest := .ofMessage h.hashed

end Header

/-- A block: its header and its transactions, coinbase first. -/
structure Block where
  /-- header -/
  header : Header
  /-- transactions -/
  transactions : List Transaction
  deriving DecidableEq

namespace Block

/-- The digest that names the block. -/
def hash (b : Block) : Digest := b.header.hash

/-- The Merkle root that the header should carry. -/
def merkleRoot (b : Block) : Digest := Merkle.root (b.transactions.map (·.hash))

/-- The coinbase, if the block has any transactions. -/
def coinbase? (b : Block) : Option Transaction := b.transactions.head?

/-- The height that the coinbase data begins with. -/
def coinbaseHeight? (b : Block) : Option Nat := do
  let coinbase ← b.coinbase?
  let input ← coinbase.inputs.head?
  match input.unlock with
  | .coinbase data => if 8 ≤ data.length then some (Bytes.toNatLE (data.take 8)) else none
  | .signatures _ => none

end Block

end PermissionedLedger
