import PermissionedLedger.Network.Profiles
import PermissionedLedger.Wire.Ledger

/-!
# Genesis

The first block of a network follows from its parameters. Its coinbase creates the
outputs of the three threads. It is trusted and never validated, so it carries
neither work nor a signature.
-/

namespace PermissionedLedger.Params

/-- The data of the genesis coinbase: height zero, then fifteen ASCII characters. -/
def genesisData : Bytes :=
  Bytes.ofNatLE 8 0 ++
    [0x54, 0x65, 0x73, 0x73, 0x65, 0x72, 0x61, 0x20, 0x67, 0x65, 0x6e, 0x65, 0x73, 0x69, 0x73]

/-- The genesis coinbase. -/
def genesisCoinbase : Transaction where
  version := 1
  inputs := [⟨.null, .coinbase genesisData, finalSequence⟩]
  outputs := Thread.all.map fun t => ⟨0, .thread t⟩
  lockTime := 0

/-- The genesis block. -/
def genesis (p : Params) : Block where
  header :=
    { version := 1
      previous := .zero
      merkleRoot := Merkle.root [genesisCoinbase.hash]
      time := p.genesisTime
      bits := p.pow.limitBits
      nonce := 0
      size := UInt32.ofNat genesisCoinbase.size
      validator := p.genesisKeys.validating.toList.head?.getD .zero
      signature := [] }
  transactions := [genesisCoinbase]

/-- The digest that names the genesis block. -/
def genesisHash (p : Params) : Digest := p.genesis.hash

end PermissionedLedger.Params
