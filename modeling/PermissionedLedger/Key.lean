import PermissionedLedger.Bytes.Hex
import PermissionedLedger.Signature.Ed25519
import Std.Data.ExtTreeMap
import Std.Data.ExtTreeSet

/-!
# Keys

A public key is thirty-two bytes that name a signer. Whether they encode a point
of the curve matters only when a signature is checked: a key that does not simply
never verifies anything. What counts as a valid signature is a parameter of the
rules (`Verifier`), with `strictVerifier` the one that networks use.
-/

namespace PermissionedLedger

/-- The number of bytes of a public key. -/
def keyLength : Nat := 32

/-- A public key: thirty-two bytes naming a signer. -/
structure PublicKey where
  /-- its bytes, in the order they are shown -/
  bytes : Vector UInt8 32
  deriving DecidableEq

/-- Why key material cannot be read. -/
inductive KeyError where
  /-- the number of bytes is not that of a key -/
  | lengthMismatch (expected actual : Nat)
  /-- the text is not a string of hexadecimal digit pairs -/
  | invalidHex
  deriving DecidableEq

/-- The wording of a key error. -/
def KeyError.message : KeyError → String
  | .lengthMismatch expected actual =>
    s!"Expected {expected} bytes of key material, got {actual}"
  | .invalidHex => "Key material is not valid hex"

namespace PublicKey

/-- The key of zero bytes. -/
def zero : PublicKey := ⟨.replicate 32 0⟩

instance : Inhabited PublicKey := ⟨zero⟩

/-- The bytes as a list. -/
def toList (k : PublicKey) : Bytes := k.bytes.toList

/-- The key spelled by a number, most significant byte first. -/
def ofNat (n : Nat) : PublicKey := ⟨Bytes.vectorOfNatBE 32 n⟩

/-- The key with these bytes. -/
def ofBytes (bs : Bytes) : Except KeyError PublicKey :=
  match Bytes.toVector? 32 bs with
  | some v => .ok ⟨v⟩
  | none => .error (.lengthMismatch keyLength bs.length)

/-- The key that a text spells. -/
def ofText (s : String) : Except KeyError PublicKey :=
  match Hex.toBytes? s with
  | some bs => ofBytes bs
  | none => .error .invalidHex

/-- All sixty-four digits. -/
def text (k : PublicKey) : String := Hex.ofBytes k.toList

/-- The digits of the first eight bytes, as messages show a key in passing. -/
def brief (k : PublicKey) : String := s!"PublicKey({Hex.ofBytes (k.toList.take 8)})"

@[simp] theorem length_toList (k : PublicKey) : k.toList.length = 32 := by simp [toList]

theorem toList_inj {a b : PublicKey} (h : a.toList = b.toList) : a = b := by
  cases a; cases b
  simp_all [toList, Vector.toList_inj]

/-- Keys are ordered byte by byte. -/
instance : Ord PublicKey := ⟨fun a b => compare a.bytes b.bytes⟩

instance : Std.TransOrd PublicKey :=
  inferInstanceAs (Std.TransCmp (compareOn (α := PublicKey) PublicKey.bytes))

instance : Std.LawfulEqOrd PublicKey where
  eq_of_compare {a b} h := by
    cases a; cases b
    exact congrArg PublicKey.mk (Std.LawfulEqOrd.eq_of_compare h)

end PublicKey

/-- What decides whether a byte string is a signature of a message by a key. -/
abbrev Verifier := (key : PublicKey) → (message signature : Bytes) → Bool

/-- Strict Ed25519 verification. -/
def strictVerifier : Verifier := fun key message signature =>
  Ed25519.verify key.toList message signature

/-- A signing key, given by its secret seed. -/
structure KeyPair where
  /-- the secret -/
  seed : Vector UInt8 32

namespace KeyPair

/-- The public half. -/
def publicKey (pair : KeyPair) : PublicKey :=
  ⟨(Ed25519.publicKey pair.seed.toList).toArray, by simp⟩

/-- The signature of a message. -/
def sign (pair : KeyPair) (message : Bytes) : Bytes := Ed25519.sign pair.seed.toList message

/-- A description that keeps the secret to itself. -/
def brief (pair : KeyPair) : String :=
  "SigningKeyPair \x7b public_key: " ++ pair.publicKey.brief ++ ", .. \x7d"

end KeyPair

end PermissionedLedger
