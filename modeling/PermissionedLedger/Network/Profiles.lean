import PermissionedLedger.Network.Params

/-!
# The networks

The parameters of each network, and the secrets of the local one, which are
public so that anybody can test with them.
-/

namespace PermissionedLedger

-- powers are those of the core library, whatever else is imported
attribute [local instance (high)] instPowNat

namespace Network

/-- The easiest target of the production network. -/
def mainnetLimit : Nat := 0xffff * 256 ^ (26 : Nat)

/-- The easiest target of the public test network. -/
def testnetLimit : Nat := 0xffff * 256 ^ (28 : Nat)

/-- The easiest target of local networks. -/
def regtestLimit : Nat := 0x7fffff * 256 ^ (29 : Nat)

/-- Parameters of the production network. -/
def mainnetParams : Params where
  network := .mainnet
  genesisTimestamp := 1719792000
  pow :=
    { limit := mainnetLimit
      timespan := 14 * 24 * 60 * 60
      spacing := 10 * 60
      isFixed := false
      limit_lt := by decide }
  coinbaseMaturity := 100
  baseSubsidy := 50 * atomsPerCoin
  halvingInterval := 210000
  maxBlockSize := 1000000
  maxBlockTransactions := 1000000 / 60
  maxTxSize := 100000
  maxBlockSigOps := 20000
  maxTxSigOps := 4000
  maxTxFee := atomsPerCoin
  maxBlockFee := 100 * atomsPerCoin
  minBlockVersion := 1
  signatureThreshold := 1
  signerPolicy := some ⟨100, 50, 6⟩
  genesisKeys := .ofLists
    [.ofNat 0xbfd8a06f618e9c8078c549317ab9fc900d25d3835111ddb0656dcaff63024f4c]
    [.ofNat 0x781a7cee59d3173c61ef74680975c8a0abfd179b8a2a133ded1b28a397808aed]
    [.ofNat 0xb5c8a55f099c9a1e10ef55af615fe26aeb4565d839902d688820a3aaefd485c2]
    [.ofNat 0x5d58989613c8e54e965bea02dc19d5bca6775f6d448809a12428030931484d12]
  checkpoints := []
  ascending := .nil
  maxTimeOffset := 2 * 60 * 60
  medianTimeBlocks := 11

/-- Parameters of the public test network. -/
def testnetParams : Params :=
  { mainnetParams with
    network := .testnet
    genesisTimestamp := 1717200000
    pow :=
      { limit := testnetLimit
        timespan := 24 * 60 * 60
        spacing := 2 * 60
        isFixed := false
        limit_lt := by decide }
    maxTxFee := 10 * atomsPerCoin
    signerPolicy := some ⟨20, 75, 10⟩
    genesisKeys := .ofLists
      [.ofNat 0xabb368044be817108af102bf2a930d5f01a3171faf708e7b0d9d9cb91ca745ec]
      [.ofNat 0x245259ef114923c624c95c9b5c9cab3a5be667b6a9b80966fd61cc30078d59a5]
      [.ofNat 0x5afe847793241efb653c132dc2183fcbd430c46e84e6117d528d938a636acecf]
      [.ofNat 0x1ace2b7d85b996f0f051445260d8950e153def1b3d519e2264d0f1ef8ca60998] }

/-- Parameters of local networks. The keys are those of `regtestSigner`. -/
def regtestParams : Params :=
  { mainnetParams with
    network := .regtest
    genesisTimestamp := 1704067200
    pow :=
      { limit := regtestLimit
        timespan := 14 * 24 * 60 * 60
        spacing := 10 * 60
        isFixed := true
        limit_lt := by decide }
    coinbaseMaturity := 10
    halvingInterval := 150
    maxBlockFee := 10 * atomsPerCoin
    signerPolicy := none
    genesisKeys := .ofLists
      [.ofNat 0x8a88e3dd7409f195fd52db2d3cba5d72ca6709bf1d94121bf3748801b40f6f5c]
      [.ofNat 0x8139770ea87d175f56a35466c34c7ecccb8d8a91b4ee37a25df60f5b8fc9b394]
      [.ofNat 0xed4928c628d1c2c6eae90338905995612959273a5c63f93636c14614ac8737d1]
      [.ofNat 0xca93ac1705187071d67b83c7ff0efe8108e8ec4530575d7726879333dbdabe7c] }

/-- The parameters of a network. -/
def params : Network → Params
  | .mainnet => mainnetParams
  | .testnet => testnetParams
  | .regtest => regtestParams

/-- The well-known signing key of a role on local networks. -/
def regtestSigner (role : Role) : KeyPair := ⟨.replicate 32 (role.tag + 1)⟩

end Network

end PermissionedLedger
