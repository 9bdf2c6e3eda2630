import PermissionedLedger.Hash.Sha512
import PermissionedLedger.Signature.Edwards

/-!
# Ed25519 signatures

Signing is deterministic: the nonce is a hash of the secret and the message.

Verification is strict. It refuses a scalar that is not reduced, a key or a
commitment of small order, and a commitment whose written form is not the
canonical one, because the recomputed commitment is compared byte by byte.
-/

namespace PermissionedLedger.Ed25519

open Edwards

-- powers are those of the core library, whatever else is imported
attribute [local instance (high)] instPowNat

/-- The scalar a hash stands for: its bytes as a number, modulo the group order. -/
def hashScalar (message : Bytes) : Nat := Bytes.toNatLE (Sha512.hash message) % groupOrder

/-- The secret scalar and the nonce secret that a seed expands to. -/
def expand (seed : Bytes) : Nat × Bytes :=
  let digest := Sha512.hash seed
  let low := Bytes.toNatLE (digest.take 32)
  (low % 2 ^ (254 : Nat) / 8 * 8 + 2 ^ (254 : Nat), digest.drop 32)

/-- The public key of a seed. -/
def publicKey (seed : Bytes) : Bytes := (Point.base.smul (expand seed).1).toBytes

/-- The signature of a message: the commitment, then the scalar. -/
def sign (seed message : Bytes) : Bytes :=
  let (secret, noncePart) := expand seed
  let nonce := hashScalar (noncePart ++ message)
  let commitment := (Point.base.smul nonce).toBytes
  let challenge := hashScalar (commitment ++ publicKey seed ++ message)
  commitment ++ Bytes.ofNatLE 32 ((nonce + challenge * secret) % groupOrder)

/-- Whether the signature is one of the message by the key. -/
def verify (key message signature : Bytes) : Bool :=
  let commitment := signature.take 32
  let scalar := Bytes.toNatLE (signature.drop 32)
  if key.length = 32 ∧ signature.length = 64 ∧ scalar < groupOrder then
    match Point.ofBytes? key, Point.ofBytes? commitment with
    | some keyPoint, some commitmentPoint =>
      let challenge := hashScalar (commitment ++ key ++ message)
      !commitmentPoint.isSmallOrder && !keyPoint.isSmallOrder &&
        (Point.linear challenge keyPoint.neg scalar Point.base).toBytes == commitment
    | _, _ => false
  else false

@[simp] theorem length_publicKey (seed : Bytes) : (publicKey seed).length = 32 := by
  simp [publicKey, Point.toBytes]

end PermissionedLedger.Ed25519
