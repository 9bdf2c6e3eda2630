import Std.Data.ExtTreeMap
import PermissionedLedger.Bytes.Hex
import PermissionedLedger.Hash.Sha256

/-!
# Digests

A digest is a string of exactly thirty-two bytes. It names a block or a
transaction, and is compared in two different ways:

* as a key, byte by byte from the first (`Ord Digest`, the order of every table);
* as a number, with the *last* byte the most significant (`Digest.value`, the
  order that proof of work and the choice between equal branches use).
-/

namespace PermissionedLedger

/-- A thirty-two-byte digest. -/
structure Digest where
  /-- its bytes, in the order they are shown -/
  bytes : Vector UInt8 32
  deriving DecidableEq

namespace Digest

/-- The digest of zero bytes: the parent of genesis, and of null outpoints. -/
def zero : Digest := ⟨.replicate 32 0⟩

instance : Inhabited Digest := ⟨zero⟩

/-- The bytes as a list. -/
def toList (d : Digest) : Bytes := d.bytes.toList

/-- The digest with these bytes, if there are thirty-two. -/
def ofBytes? (bs : Bytes) : Option Digest := (Bytes.toVector? 32 bs).map Digest.mk

/-- The SHA-256 digest of a byte string. -/
def ofMessage (message : Bytes) : Digest :=
  ⟨(Sha256.hash message).toArray, by simp⟩

/-- The digest spelled by a number, most significant byte first. -/
def ofNat (n : Nat) : Digest := ⟨Bytes.vectorOfNatBE 32 n⟩

/-- The digest as a number, least significant byte first. -/
def value (d : Digest) : Nat := Bytes.toNatLE d.toList

/-- All sixty-four digits. -/
def text (d : Digest) : String := Hex.ofBytes d.toList

/-- The digits of the first eight bytes, as messages show a digest in passing. -/
def brief (d : Digest) : String := Hex.ofBytes (d.toList.take 8)

@[simp] theorem length_toList (d : Digest) : d.toList.length = 32 := by simp [toList]

theorem toList_inj {a b : Digest} (h : a.toList = b.toList) : a = b := by
  cases a; cases b
  simp_all [toList, Vector.toList_inj]

@[simp] theorem ofBytes?_toList (d : Digest) : ofBytes? d.toList = some d := by
  simp [ofBytes?, toList]

/-- Digests are ordered byte by byte. -/
instance : Ord Digest := ⟨fun a b => compare a.bytes b.bytes⟩

instance : Std.TransOrd Digest :=
  inferInstanceAs (Std.TransCmp (compareOn (α := Digest) Digest.bytes))

instance : Std.LawfulEqOrd Digest where
  eq_of_compare {a b} h := by
    cases a; cases b
    exact congrArg Digest.mk (Std.LawfulEqOrd.eq_of_compare h)

end Digest

end PermissionedLedger
